import Ipfs.Store.JsmnTokens

/-!
# The lexemes of a text

jsmn seen without the text: each lexeme changes the outline of the tokens, which says of a token only what it is, how
many belong to it, and whether it is open.
-/

namespace Ipfs

inductive JsonLexeme
  | opens (type : JsonToken.Kind)
  | closes (type : JsonToken.Kind)
  | string (text : Bytes)
  | primitive (text : Bytes)
  | colon
  | comma

namespace JsonLexeme

/-- How many tokens it makes. -/
def makes : JsonLexeme → Nat
  | .opens _ | .string _ | .primitive _ => 1
  | .closes _ | .colon | .comma => 0

inductive Written : JsonLexeme → Bytes → Prop
  | opens {type : JsonToken.Kind} (container : IsContainer type) : Written (.opens type) [openSign type]
  | closes {type : JsonToken.Kind} (container : IsContainer type) : Written (.closes type) [closeSign type]
  | string {text : Bytes} (chars : JsonChars text) : Written (.string text) (0x22 :: (text ++ [0x22]))
  | primitive {c : UInt8} {text : Bytes} (first : jsonSign c = .other) (chars : ∀ d ∈ c :: text, PrimitiveChar d) :
      Written (.primitive (c :: text)) (c :: text)
  | colon : Written .colon [0x3a]
  | comma : Written .comma [0x2c]

/-- Only a primitive depends on what stands behind it. -/
def EndsBefore (text : Bytes) : JsonLexeme → Prop
  | .primitive _ => EndsPrimitive text
  | _ => True

end JsonLexeme

/-- The text has these lexemes, with white space between them. -/
inductive JsonLexes : List JsonLexeme → Bytes → Prop
  | nil : JsonLexes [] []
  | white {c : UInt8} {lexemes : List JsonLexeme} {text : Bytes} (white : jsonSign c = .white)
      (rest : JsonLexes lexemes text) : JsonLexes lexemes (c :: text)
  | cons {lexeme : JsonLexeme} {lexemes : List JsonLexeme} {front text : Bytes} (written : lexeme.Written front)
      (ends : lexeme.EndsBefore text) (rest : JsonLexes lexemes text) : JsonLexes (lexeme :: lexemes) (front ++ text)

/-! ## Outlines -/

structure JsonOutline where
  tokens : List (JsonToken × Bool) := []
  super : Option Nat := none

namespace JsonOutline

def grown : JsonToken × Bool → JsonToken × Bool
  | (token, isOpen) => ({ token with size := token.size + 1 }, isOpen)

def growAt : Option Nat → List (JsonToken × Bool) → List (JsonToken × Bool)
  | none, tokens => tokens
  | some i, tokens => tokens.modify i grown

def add (token : JsonToken × Bool) (outline : JsonOutline) : JsonOutline :=
  { outline with tokens := growAt outline.super (outline.tokens ++ [token]) }

def last (outline : JsonOutline) : Option Nat :=
  if outline.tokens.length = 0 then none else some (outline.tokens.length - 1)

def close (i : Nat) (outline : JsonOutline) : JsonOutline :=
  let tokens := outline.tokens.modify i fun token => (token.1, false)
  { tokens, super := searchBack Prod.snd tokens (i + 1) }

def isOpenContainer : JsonToken × Bool → Bool
  | (token, isOpen) => (token.kind = .array || token.kind = .object) && isOpen

def step (outline : JsonOutline) : JsonLexeme → Option JsonOutline
  | .opens type => some { outline.add (⟨type, [], 0⟩, true) with super := some outline.tokens.length }
  | .closes type =>
      (searchBack Prod.snd outline.tokens outline.tokens.length).bind fun i =>
        if outline.tokens[i]?.any (·.1.kind = type) then some (outline.close i) else none
  | .string text => some (outline.add (⟨.string, text, 0⟩, false))
  | .primitive text => some (outline.add (⟨.primitive, text, 0⟩, false))
  | .colon => some { outline with super := outline.last }
  | .comma =>
      some { outline with super := outline.super.map fun i =>
        if outline.tokens[i]?.any fun token => token.1.kind ≠ .array ∧ token.1.kind ≠ .object then
          (searchBack isOpenContainer outline.tokens outline.tokens.length).getD i
        else i }

def run : JsonOutline → List JsonLexeme → Option JsonOutline
  | outline, [] => some outline
  | outline, lexeme :: lexemes => (outline.step lexeme).bind fun outline => run outline lexemes

/-- What parsing comes to when all lexemes are read. -/
def result : Option JsonOutline → Except JsmnError Nat
  | none => .error .inval
  | some outline => if outline.tokens.any Prod.snd then .error .part else .ok outline.tokens.length

end JsonOutline

/-! ## The outline of the parser -/

section
variable (js : Bytes)

/-- The token as those see it who use it. -/
def JsmnToken.read (token : JsmnToken) : JsonToken where
  kind := token.type
  text := match token.type, token.stop with
    | .string, some stop | .primitive, some stop => (js.take stop).drop token.start
    | _, _ => []
  size := token.size

def JsmnToken.view (token : JsmnToken) : JsonToken × Bool := (token.read js, token.isOpen)

def JsmnParser.outline (parser : JsmnParser) : JsonOutline where
  tokens := parser.tokens.map (JsmnToken.view js)
  super := parser.toksuper

variable {js} {parser : JsmnParser} {numTokens : Nat}

theorem searchBack_map {α β : Type} (f : α → β) (test : β → Bool) (tokens : List α) (n : Nat) :
    searchBack test (tokens.map f) n = searchBack (fun token => test (f token)) tokens n := by
  induction n with
  | zero => rfl
  | succ n ih =>
      have same : ((tokens.map f)[n]?.any test) = tokens[n]?.any fun token => test (f token) := by
        rw [List.getElem?_map, Option.any_map]
      simp only [searchBack, ih, same]

theorem modify_append {α : Type} (f : α → α) (before : List α) (item : α) (behind : List α) :
    (before ++ item :: behind).modify before.length f = before ++ f item :: behind := by
  induction before with
  | nil => rfl
  | cons first before ih => rw [List.cons_append, List.length_cons, List.modify_succ_cons, ih, List.cons_append]

theorem map_set_eq_modify {α β : Type} (f : α → β) (g : β → β) {tokens : List α} {i : Nat} (inside : i < tokens.length)
    {token : α} (same : f token = g (f tokens[i])) : (tokens.set i token).map f = (tokens.map f).modify i g := by
  apply List.ext_getElem?
  intro j
  rw [List.getElem?_map, List.getElem?_set, List.getElem?_modify, List.getElem?_map]
  by_cases here : i = j
  · subst j
    simp [inside, same]
  · simp [here]

variable (js) in
theorem JsmnParser.growSuper_outline (numTokens : Nat) (parser : JsmnParser) (super : ∀ i ∈ parser.toksuper, i < parser.tokens.length) :
    ∃ tokens, parser.growSuper (some numTokens) = .returned { parser with tokens } ∧
      tokens.map (JsmnToken.view js) = JsonOutline.growAt parser.toksuper (parser.tokens.map (JsmnToken.view js)) := by
  obtain ⟨pos, tokens, toksuper⟩ := parser
  cases toksuper with
  | none => exact ⟨tokens, rfl, rfl⟩
  | some i =>
      have inside := super i rfl
      refine ⟨tokens.set i { tokens[i] with size := tokens[i].size + 1 }, ?_, map_set_eq_modify _ _ inside rfl⟩
      simp [growSuper, List.getElem?_eq_getElem inside]

theorem JsmnParser.outline_tokens_length : (parser.outline js).tokens.length = parser.tokens.length := List.length_map _

variable (js) in
theorem JsmnParser.parseLeaf_outline (super : ∀ i ∈ parser.toksuper, i < parser.tokens.length)
    (enough : parser.tokens.length < numTokens) (token : JsmnToken) (last : Nat) :
    ∃ parser', parser.parseLeaf (some numTokens) token last = .returned (.ok parser') ∧ parser'.pos = last ∧
      parser'.outline js = (parser.outline js).add (token.view js) := by
  obtain ⟨tokens, grown, same⟩ := growSuper_outline js numTokens
    { parser with pos := last, tokens := parser.tokens ++ [token] } fun i mem => by simpa using Nat.lt_succ_of_lt (super i mem)
  refine ⟨{ parser with pos := last, tokens }, ?_, rfl, ?_⟩
  · simp [parseLeaf, allocToken, Nat.not_le.mpr enough, grown]
  · simp only [outline, JsonOutline.add, same, List.map_append, List.map_singleton]

variable (js) in
theorem JsmnParser.openBracket_outline (super : ∀ i ∈ parser.toksuper, i < parser.tokens.length)
    (enough : parser.tokens.length < numTokens) (type : JsonToken.Kind) :
    ∃ parser', parser.openBracket (some numTokens) type = .returned (.ok parser') ∧ parser'.pos = parser.pos ∧
      (parser.outline js).step (.opens type) = some (parser'.outline js) := by
  let token : JsmnToken := { type, start := parser.pos, stop := none }
  obtain ⟨tokens, grown, same⟩ := growSuper_outline js numTokens
    { parser with tokens := parser.tokens ++ [token] } fun i mem => by simpa using Nat.lt_succ_of_lt (super i mem)
  have length : tokens.length = parser.tokens.length + 1 := by
    have := congrArg List.length same
    unfold JsonOutline.growAt at this
    split at this <;> simpa using this
  refine ⟨{ parser with tokens, toksuper := some parser.tokens.length }, ?_, rfl, ?_⟩
  · have nonempty : tokens ≠ [] := List.ne_nil_of_length_eq_add_one length
    simp [openBracket, allocToken, Nat.not_le.mpr enough, token, grown, toknextBefore, length, nonempty]
  · have blank : token.view js = (⟨type, [], 0⟩, true) := by
      cases type <;> rfl
    simp only [outline, JsonOutline.step, JsonOutline.add, same, List.map_append, List.map_singleton, blank,
      List.length_map]

theorem JsmnToken.Stands.container {token : JsmnToken} (stands : token.Stands js) (isOpen : token.isOpen) :
    IsContainer token.type := by
  rw [JsmnToken.isOpen, Option.isNone_iff_eq_none] at isOpen
  rw [JsmnToken.Stands, isOpen] at stands
  exact stands.1

theorem JsmnToken.view_close {token : JsmnToken} (container : IsContainer token.type) (stop : Nat) :
    ({ token with stop := some stop } : JsmnToken).view js = ((token.view js).1, false) := by
  obtain ⟨type, start, stop', size⟩ := token
  rcases container with rfl | rfl <;> rfl

theorem JsmnParser.closeBracket_outline (sound : parser.Sound js) (numTokens : Nat) (type : JsonToken.Kind) :
    match (parser.outline js).step (.closes type) with
    | none => parser.closeBracket (some numTokens) type = .returned (.error .inval)
    | some outline => ∃ parser' : JsmnParser, parser.closeBracket (some numTokens) type = .returned (.ok parser') ∧
        parser'.pos = parser.pos ∧ parser'.outline js = outline := by
  have search : searchBack Prod.snd (parser.outline js).tokens (parser.outline js).tokens.length = lastOpen parser.tokens := by
    rw [outline_tokens_length]
    exact searchBack_map _ _ _ _
  simp only [JsonOutline.step, search]
  cases last : lastOpen parser.tokens with
  | none => simp [closeBracket, last]
  | some i =>
      have inside := searchBack_lt last
      obtain ⟨-, isOpen, -⟩ := searchBack_eq_some.mp last
      simp only [List.getElem?_eq_getElem inside, Option.any_some] at isOpen
      have container := (sound.stands _ (List.getElem_mem inside)).container isOpen
      have kind : ((parser.outline js).tokens[i]?.any (·.1.kind = type)) = decide (parser.tokens[i].type = type) := by
        simp only [outline, List.getElem?_map, List.getElem?_eq_getElem inside, Option.map_some, Option.any_some]
        rfl
      simp only [Option.bind_some, kind, decide_eq_true_eq]
      by_cases same : parser.tokens[i].type = type
      · rw [if_pos same]
        let tokens := parser.tokens.set i { parser.tokens[i] with stop := some (parser.pos + 1) }
        have closed : tokens.map (JsmnToken.view js) = (parser.tokens.map (JsmnToken.view js)).modify i fun token => (token.1, false) :=
          map_set_eq_modify _ _ inside (JsmnToken.view_close container (parser.pos + 1))
        have super : searchBack Prod.snd (tokens.map (JsmnToken.view js)) (i + 1) =
            searchBack JsmnToken.isOpen tokens (i + 1) := searchBack_map _ _ _ _
        refine ⟨{ parser with tokens, toksuper := searchBack JsmnToken.isOpen tokens (i + 1) }, ?_, rfl, ?_⟩
        · simp [closeBracket, last, List.getElem?_eq_getElem inside, same, tokens]
        · simp only [outline, JsonOutline.close, ← closed, super]
      · simp [closeBracket, last, List.getElem?_eq_getElem inside, same]

theorem JsmnParser.comma_outline (sound : parser.Sound js) (numTokens : Nat) :
    ∃ parser', parser.comma (some numTokens) = .returned parser' ∧ parser'.pos = parser.pos ∧
      (parser.outline js).step .comma = some (parser'.outline js) := by
  obtain ⟨pos, tokens, toksuper⟩ := parser
  cases toksuper with
  | none => exact ⟨⟨pos, tokens, none⟩, rfl, rfl, rfl⟩
  | some i =>
      have inside := sound.super i rfl
      have search : searchBack JsonOutline.isOpenContainer (tokens.map (JsmnToken.view js)) tokens.length =
          searchBack (fun token => (token.type = .array || token.type = .object) && token.isOpen) tokens tokens.length :=
        searchBack_map _ _ _ _
      have leaf : ((tokens.map (JsmnToken.view js))[i]?.any fun token => token.1.kind ≠ .array ∧ token.1.kind ≠ .object) =
          decide (tokens[i].type ≠ .array ∧ tokens[i].type ≠ .object) := by
        simp only [List.getElem?_map, List.getElem?_eq_getElem inside, Option.map_some, Option.any_some]
        rfl
      simp only [comma, outline, JsonOutline.step, Option.map_some, List.length_map, search, leaf, decide_eq_true_eq,
        List.getElem?_eq_getElem inside, Outcome.access_some, Outcome.returned_bind]
      split
      · split <;> exact ⟨_, rfl, rfl, by simp [*]⟩
      · exact ⟨_, rfl, rfl, rfl⟩

/-! ## Reading the lexemes -/

theorem jsmnCharacter_goes {c : UInt8} (sound : parser.Sound js) (fits : parser.tokens.length ≤ numTokens)
    (here : js[parser.pos]? = some c) (nonzero : c ≠ 0) {parser' : JsmnParser} {n : Nat}
    (done : jsmnCharacter js (some numTokens) c parser = .returned (.ok (parser', n))) :
    ∃ extent, jsmnExtent js c parser.pos = .ok extent ∧ parser.Goes js numTokens extent parser' ∧ n = extent.2 := by
  have spec := jsmnCharacter_spec numTokens sound fits here nonzero
  cases extent : jsmnExtent js c parser.pos with
  | error error =>
      simp only [extent, done] at spec
      cases spec
  | ok extent =>
      simp only [extent, done] at spec
      cases spec with
      | goes goes => exact ⟨_, rfl, goes, rfl⟩

theorem slice_eq {start : Nat} {inner rest : Bytes} (behind : js.drop start = inner ++ rest) :
    (js.take (start + inner.length)).drop start = inner := by
  rw [List.drop_take, behind, Nat.add_sub_cancel_left, List.take_left]

/-- A round of the loop does to the outline what the lexeme does. -/
theorem jsmnCharacter_lexeme (sound : parser.Sound js) {lexeme : JsonLexeme} {front text : Bytes}
    (written : lexeme.Written front) (ends : lexeme.EndsBefore text) (behind : js.drop parser.pos = front ++ text)
    (enough : parser.tokens.length + lexeme.makes ≤ numTokens) :
    ∃ c, js[parser.pos]? = some c ∧ c ≠ 0 ∧
      match (parser.outline js).step lexeme with
      | none => jsmnCharacter js (some numTokens) c parser = .returned (.error .inval)
      | some outline => ∃ parser' : JsmnParser, jsmnCharacter js (some numTokens) c parser =
          .returned (.ok (parser', lexeme.makes)) ∧ parser'.pos + 1 = parser.pos + front.length ∧
            parser'.outline js = outline := by
  have first {c : UInt8} {rest : Bytes} (same : js.drop parser.pos = c :: rest) : js[parser.pos]? = some c := by
    rw [← List.head?_drop, same]
    rfl
  have later {c : UInt8} {rest : Bytes} (same : js.drop parser.pos = c :: rest) : js.drop (parser.pos + 1) = rest := by
    rw [← List.tail_drop, same]
    rfl
  cases written with
  | @opens type container =>
      obtain ⟨parser', opened, stays, step⟩ := JsmnParser.openBracket_outline js sound.super enough type
      have sign : jsonSign (openSign type) = .opens type := by rcases container with rfl | rfl <;> rfl
      refine ⟨openSign type, first behind, by rcases container with rfl | rfl <;> decide, ?_⟩
      simp only [step, jsmnCharacter, sign, opened]
      exact ⟨parser', rfl, by rw [stays]; rfl, rfl⟩
  | @closes type container =>
      have spec := JsmnParser.closeBracket_outline sound numTokens type
      have sign : jsonSign (closeSign type) = .closes type := by rcases container with rfl | rfl <;> rfl
      refine ⟨closeSign type, first behind, by rcases container with rfl | rfl <;> decide, ?_⟩
      cases step : (parser.outline js).step (.closes type) with
      | none =>
          simp only [step] at spec
          simp only [jsmnCharacter, sign, spec]
          rfl
      | some outline =>
          simp only [step] at spec
          obtain ⟨parser', closed, stays, same⟩ := spec
          simp only [jsmnCharacter, sign, closed]
          exact ⟨parser', rfl, by rw [stays]; rfl, same⟩
  | @string inner chars =>
      have rest : js.drop (parser.pos + 1) = inner ++ (0x22 :: text) := by
        simpa using later behind
      have length := jsmnStringLength_of_chars chars text
      obtain ⟨parser', parsed, last, same⟩ := JsmnParser.parseLeaf_outline js sound.super enough
        { type := .string, start := parser.pos + 1, stop := some (parser.pos + 1 + inner.length) }
        (parser.pos + 1 + inner.length)
      refine ⟨0x22, first behind, by decide, ?_⟩
      have sign : jsonSign 0x22 = .quote := rfl
      simp only [jsmnCharacter, sign, rest, length, parsed]
      refine ⟨parser', rfl, by simp [last]; omega, ?_⟩
      rw [same, JsmnToken.view, JsmnToken.read]
      simp only [slice_eq rest]
      rfl
  | @primitive c inner sign chars =>
      have length : jsmnPrimitiveLength (js.drop parser.pos) = .ok (c :: inner).length :=
        jsmnPrimitiveLength_iff.mpr ⟨c :: inner, text, behind, rfl, chars, ends⟩
      obtain ⟨parser', parsed, last, same⟩ := JsmnParser.parseLeaf_outline js sound.super enough
        { type := .primitive, start := parser.pos, stop := some (parser.pos + (c :: inner).length) }
        (parser.pos + (c :: inner).length - 1)
      refine ⟨c, first behind, (chars c List.mem_cons_self).1, ?_⟩
      simp only [jsmnCharacter, sign, length, parsed]
      refine ⟨parser', rfl, by rw [last, List.length_cons]; omega, ?_⟩
      rw [same, JsmnToken.view, JsmnToken.read]
      simp only [slice_eq behind]
      rfl
  | colon =>
      refine ⟨0x3a, first behind, by decide, _, rfl, rfl, ?_⟩
      simp [JsmnParser.outline, JsonOutline.last, JsmnParser.toknextBefore]
  | comma =>
      obtain ⟨parser', moved, stays, step⟩ := JsmnParser.comma_outline sound numTokens
      have sign : jsonSign 0x2c = .comma := rfl
      refine ⟨0x2c, first behind, by decide, ?_⟩
      simp only [step, jsmnCharacter, sign, moved]
      exact ⟨parser', rfl, by rw [stays]; rfl, rfl⟩

theorem jsonSign_white_ne_zero {c : UInt8} (white : jsonSign c = .white) : c ≠ 0 := by
  rintro rfl
  revert white
  decide

/-- The end of the text, or a null character. -/
def Stops (rest : Bytes) : Prop := ∀ c ∈ rest.head?, c = 0

theorem JsonLexeme.EndsBefore.append {lexeme : JsonLexeme} {text rest : Bytes} (ends : lexeme.EndsBefore text)
    (stops : Stops rest) : lexeme.EndsBefore (text ++ rest) := by
  cases lexeme with
  | primitive inner =>
      intro c first
      cases text with
      | nil => exact .inl (stops c first)
      | cons d text => exact ends c first
  | _ => trivial

/-- From where the lexemes begin, parsing comes to what they come to. -/
theorem JsonLexes.ends {lexemes : List JsonLexeme} {text rest : Bytes} (lexes : JsonLexes lexemes text)
    (behind : js.drop parser.pos = text ++ rest) (stops : Stops rest) (sound : parser.Sound js)
    (enough : parser.tokens.length + (lexemes.map JsonLexeme.makes).sum ≤ numTokens) :
    ∃ parser', (jsmnLoop js (some numTokens)).Ends (parser, parser.tokens.length)
        (.returned (JsonOutline.result ((parser.outline js).run lexemes)), parser') ∧
      ∀ outline, (parser.outline js).run lexemes = some outline → parser'.outline js = outline := by
  induction lexes generalizing parser with
  | nil =>
      refine ⟨parser, .result ?_, fun outline same => Option.some.inj same⟩
      have none : js[parser.pos]?.filter (· ≠ 0) = none := by
        rw [← List.head?_drop, behind, List.nil_append, Option.filter_eq_none_iff]
        intro c first
        simpa using stops c first
      have same : ((parser.outline js).tokens.any Prod.snd) = parser.tokens.any JsmnToken.isOpen := by
        rw [JsmnParser.outline, List.any_map]
        rfl
      rw [jsmnLoop_end (some numTokens) _ none, JsonOutline.run, JsonOutline.result, same,
        JsmnParser.outline_tokens_length]
      simp
  | @white c lexemes text white _ ih =>
      rw [List.cons_append] at behind
      have here : js[parser.pos]?.filter (· ≠ 0) = some c := by
        rw [← List.head?_drop, behind, List.head?_cons, Option.filter_eq_some_iff]
        exact ⟨rfl, decide_eq_true (jsonSign_white_ne_zero white)⟩
      have step : (jsmnLoop js (some numTokens)).step (parser, parser.tokens.length) =
          .inr ({ parser with pos := parser.pos + 1 }, parser.tokens.length) := by
        rw [jsmnLoop_next (some numTokens) _ here]
        simp only [jsmnCharacter, white]
        rfl
      obtain ⟨parser', ends, same⟩ := @ih { parser with pos := parser.pos + 1 }
        (by rw [← List.tail_drop, behind, List.tail_cons]) (sound.congr (Nat.le_succ _) sound.super rfl) enough
      exact ⟨parser', .next step ends, same⟩
  | @cons lexeme lexemes front text written ends _ ih =>
      rw [List.map_cons, List.sum_cons] at enough
      rw [List.append_assoc] at behind
      have now : parser.tokens.length + lexeme.makes ≤ numTokens := by omega
      obtain ⟨c, here, nonzero, spec⟩ := jsmnCharacter_lexeme sound written (ends.append stops) behind now
      have next := jsmnLoop_next (some numTokens) parser.tokens.length
        (Option.filter_eq_some_iff.mpr ⟨here, decide_eq_true nonzero⟩)
      rw [JsonOutline.run]
      cases step : (parser.outline js).step lexeme with
      | none =>
          simp only [step] at spec
          refine ⟨parser, .result ?_, fun outline same => by cases same⟩
          rw [next, spec]
          rfl
      | some outline =>
          simp only [step] at spec
          obtain ⟨parser', done, moved, same⟩ := spec
          obtain ⟨extent, -, goes, counted⟩ := jsmnCharacter_goes sound (by omega) here nonzero done
          have length := goes.counted
          rw [← counted] at length
          obtain ⟨last, ends', same'⟩ := @ih { parser' with pos := parser'.pos + 1 }
            (by rw [moved, ← List.drop_drop, behind, List.drop_left]) goes.sound (by simp only [length]; omega)
          have round : (jsmnLoop js (some numTokens)).step (parser, parser.tokens.length) =
              .inr ({ parser' with pos := parser'.pos + 1 }, parser'.tokens.length) := by
            rw [next, done, jsmnAdvance, length]
          refine ⟨last, .next round ?_, ?_⟩
          · rw [Option.bind_some, ← same]
            exact ends'
          · rw [Option.bind_some, ← same]
            exact same'

theorem jsmnParse_lexemes {lexemes : List JsonLexeme} {text rest : Bytes} (lexes : JsonLexes lexemes text)
    (stops : Stops rest) (enough : (lexemes.map JsonLexeme.makes).sum ≤ numTokens) :
    ∃ parser, jsmnParse (text ++ rest) (some numTokens) {} =
        some (.returned (JsonOutline.result (JsonOutline.run {} lexemes)), parser) ∧
      ∀ outline, JsonOutline.run {} lexemes = some outline → parser.outline (text ++ rest) = outline := by
  have sound := JsmnParser.sound_new (text ++ rest)
  have start : (text ++ rest).drop ({} : JsmnParser).pos = text ++ rest := rfl
  obtain ⟨parser, ends, same⟩ := lexes.ends start stops sound (by simpa using enough)
  obtain ⟨last, parsed, -⟩ := jsmnParse_finished sound (Nat.zero_le numTokens)
  obtain rfl := (Loop.ends_of_run parsed).mp ends
  exact ⟨parser, parsed, same⟩

end
end Ipfs
