import Ipfs.Store.JsmnLanguage

/-!
# Documents

However a JSON document is laid out, its tokens are what jsmn reads.
-/

/-! ## The lexemes of a document -/

namespace Json
open Ipfs

mutual
def lexemes : Json → List JsonLexeme
  | .primitive text => [.primitive text]
  | .string written => [.string written.text]
  | .array elements => .opens .array :: ((elementLexemes elements).tail ++ [.closes .array])
  | .object members => .opens .object :: ((memberLexemes members).tail ++ [.closes .object])

/-- With a comma before each. -/
def elementLexemes : List Json → List JsonLexeme
  | [] => []
  | element :: elements => .comma :: (lexemes element ++ elementLexemes elements)

def memberLexemes : List (JsonString × Json) → List JsonLexeme
  | [] => []
  | (name, value) :: members => .comma :: .string name.text :: .colon :: (lexemes value ++ memberLexemes members)
end

end Json

namespace Ipfs
namespace JsonOutline

theorem run_append (outline : JsonOutline) (lexemes lexemes' : List JsonLexeme) :
    outline.run (lexemes ++ lexemes') = (outline.run lexemes).bind fun outline => outline.run lexemes' := by
  induction lexemes generalizing outline with
  | nil => rfl
  | cons lexeme lexemes ih => simp only [List.cons_append, run, ih, Option.bind_assoc]

def closed (tokens : List JsonToken) : List (JsonToken × Bool) := tokens.map (·, false)

/-- Inside a container, with the tokens that are closed behind it. -/
def inside (before : List (JsonToken × Bool)) (kind : JsonToken.Kind) (size : Nat) (tokens : List JsonToken) :
    List (JsonToken × Bool) := before ++ (⟨kind, [], size⟩, true) :: closed tokens

section
variable (before : List (JsonToken × Bool)) {kind : JsonToken.Kind} (size : Nat) (tokens : List JsonToken)

theorem searchBack_append {α : Type} {test : α → Bool} {before : List α} {item : α} (found : test item) {behind : List α}
    (none : ∀ item ∈ behind, test item = false) :
    searchBack test (before ++ item :: behind) (before ++ item :: behind).length = some before.length := by
  rw [searchBack_eq_some]
  refine ⟨by simp, by simpa using found, fun j above below => ?_⟩
  obtain ⟨i, rfl⟩ : ∃ i, j = before.length + 1 + i := ⟨j - (before.length + 1), by omega⟩
  rw [List.getElem?_append_right (by omega), show before.length + 1 + i - before.length = i + 1 by omega,
    List.getElem?_cons_succ]
  cases here : behind[i]? with
  | none => rfl
  | some item' => exact none item' (List.mem_of_getElem? here)

theorem searchBack_inside : searchBack Prod.snd (inside before kind size tokens) (inside before kind size tokens).length =
    some before.length :=
  searchBack_append rfl (by simp [closed])

theorem growAt_inside : growAt (some before.length) (inside before kind size tokens) = inside before kind (size + 1) tokens :=
  modify_append _ _ _ _

theorem comma_inside (container : IsContainer kind) :
    step ⟨inside before kind size tokens, some before.length⟩ .comma =
      some ⟨inside before kind size tokens, some before.length⟩ := by
  have kind : ((inside before kind size tokens)[before.length]?.any fun token =>
      token.1.kind ≠ .array ∧ token.1.kind ≠ .object) = false := by
    rcases container with rfl | rfl <;> simp [inside]
  simp only [step, Option.map_some, kind, Bool.false_eq_true, if_false]

/-- Behind a value that belongs to a name. -/
theorem comma_named (container : IsContainer kind) {i : Nat}
    (name : ((inside before kind size tokens)[i]?.any fun token => token.1.kind = .string)) :
    step ⟨inside before kind size tokens, some i⟩ .comma =
      some ⟨inside before kind size tokens, some before.length⟩ := by
  have leaf : ((inside before kind size tokens)[i]?.any fun token =>
      token.1.kind ≠ .array ∧ token.1.kind ≠ .object) = true := by
    rw [Option.any_eq_true] at name ⊢
    obtain ⟨token, here, string⟩ := name
    exact ⟨token, here, by simp [of_decide_eq_true string]⟩
  have isOpen : isOpenContainer (⟨kind, [], size⟩, true) := by rcases container with rfl | rfl <;> rfl
  have search : searchBack isOpenContainer (inside before kind size tokens) (inside before kind size tokens).length =
      some before.length := searchBack_append isOpen (by simp [closed, isOpenContainer])
  simp only [step, Option.map_some, leaf, if_true, search, Option.getD_some]

theorem inside_append (tokens' : List JsonToken) :
    inside before kind size tokens ++ closed tokens' = inside before kind size (tokens ++ tokens') := by
  simp only [inside, closed, List.map_append, List.append_assoc, List.cons_append]

theorem length_inside : (inside before kind size tokens).length = before.length + 1 + tokens.length := by
  simp only [inside, closed, List.length_append, List.length_cons, List.length_map]
  omega

theorem run_tail {outline : JsonOutline} (comma : outline.step .comma = some outline) {lexemes : List JsonLexeme}
    (first : ∀ lexeme ∈ lexemes.head?, lexeme = .comma) : outline.run lexemes.tail = outline.run lexemes := by
  cases lexemes with
  | nil => rfl
  | cons lexeme lexemes =>
      obtain rfl := first lexeme rfl
      rw [run, comma, Option.bind_some, List.tail_cons]

theorem searchBack_left {α : Type} {test : α → Bool} (before behind : List α) {n : Nat} (bound : n ≤ before.length) :
    searchBack test (before ++ behind) n = searchBack test before n := by
  induction n with
  | zero => rfl
  | succ n ih => rw [searchBack, searchBack, ih (by omega), List.getElem?_append_left (by omega)]

/-- The container is closed, and what it belongs to is the innermost that is still open. -/
theorem step_closes (super : Option Nat) :
    step ⟨inside before kind size tokens, super⟩ (.closes kind) =
      some ⟨before ++ closed (⟨kind, [], size⟩ :: tokens), searchBack Prod.snd before before.length⟩ := by
  have here : (inside before kind size tokens)[before.length]?.any (·.1.kind = kind) := by simp [inside]
  have shut : (inside before kind size tokens).modify before.length (fun token => (token.1, false)) =
      before ++ closed (⟨kind, [], size⟩ :: tokens) := modify_append _ _ _ _
  have outer : searchBack Prod.snd (before ++ closed (⟨kind, [], size⟩ :: tokens)) (before.length + 1) =
      searchBack Prod.snd before before.length := by
    rw [searchBack, List.getElem?_append_right le_rfl, Nat.sub_self, closed, List.map_cons, List.getElem?_cons_zero,
      Option.any_some, if_neg Bool.false_ne_true, searchBack_left _ _ le_rfl]
  simp only [step, searchBack_inside, Option.bind_some, if_pos here, close, shut, outer]

theorem searchBack_growAt (super : Option Nat) (tokens : List (JsonToken × Bool)) (n : Nat) :
    searchBack Prod.snd (growAt super tokens) n = searchBack Prod.snd tokens n := by
  cases super with
  | none => rfl
  | some i =>
      have flags (tokens : List (JsonToken × Bool)) : searchBack Prod.snd tokens n = searchBack id (tokens.map Prod.snd) n :=
        (searchBack_map Prod.snd id _ _).symm
      rw [flags, flags, growAt, map_modify_same Prod.snd (g := grown) fun _ => rfl]

theorem length_growAt (super : Option Nat) (tokens : List (JsonToken × Bool)) :
    (growAt super tokens).length = tokens.length := by
  cases super with
  | none => rfl
  | some i => exact List.length_modify _ _ _

theorem growAt_append {super : Option Nat} {tokens : List (JsonToken × Bool)} (bound : ∀ i ∈ super, i < tokens.length)
    (behind : List (JsonToken × Bool)) : growAt super (tokens ++ behind) = growAt super tokens ++ behind := by
  cases super with
  | none => rfl
  | some i =>
      obtain ⟨before, item, after, rfl, rfl⟩ : ∃ before item after, tokens = before ++ item :: after ∧ before.length = i :=
        ⟨_, _, _, split_of_getElem? (List.getElem?_eq_getElem (bound i rfl)), by simp [(bound i rfl).le]⟩
      rw [growAt, growAt, List.append_assoc, List.cons_append, modify_append, modify_append, List.append_assoc, List.cons_append]

end

/-! ## Reading a document -/

/-- Behind a value the next token belongs to what it belonged to before, or to what is open. -/
def Behind (tokens : List (JsonToken × Bool)) (super super' : Option Nat) : Prop :=
  super' = super ∨ super' = searchBack Prod.snd tokens tokens.length

/-- Wherever the lexemes stand, they are a value with these tokens. -/
def ReadsAs (lexemes : List JsonLexeme) (read : List JsonToken) : Prop :=
  ∀ tokens super, (∀ i ∈ super, i < tokens.length) →
    ∃ super', run ⟨tokens, super⟩ lexemes = some ⟨growAt super tokens ++ closed read, super'⟩ ∧ Behind tokens super super'

/-- Inside an object, and a comma leads back to it. -/
def AtMember (before : List (JsonToken × Bool)) (size : Nat) (tokens : List JsonToken) (super : Option Nat) : Prop :=
  step ⟨inside before .object size tokens, super⟩ .comma =
    some ⟨inside before .object size tokens, some before.length⟩

theorem step_opens (type : JsonToken.Kind) {tokens : List (JsonToken × Bool)} {super : Option Nat}
    (bound : ∀ i ∈ super, i < tokens.length) :
    step ⟨tokens, super⟩ (.opens type) =
      some ⟨inside (growAt super tokens) type 0 [], some (growAt super tokens).length⟩ := by
  rw [length_growAt, step, add, growAt_append bound]
  rfl

section
variable (before : List (JsonToken × Bool)) (size : Nat) (tokens : List JsonToken)

/-- A name, and its value. -/
theorem run_named (name : Bytes) {lexemes : List JsonLexeme} {read : List JsonToken} (reads : ReadsAs lexemes read) :
    ∃ super, run ⟨inside before .object size tokens, some before.length⟩ (.string name :: .colon :: lexemes) =
        some ⟨inside before .object (size + 1) (tokens ++ ⟨.string, name, 1⟩ :: read), super⟩ ∧
      AtMember before (size + 1) (tokens ++ ⟨.string, name, 1⟩ :: read) super := by
  -- the name belongs to the object, and the value to the name
  let before' := inside before .object (size + 1) tokens
  have named : step ⟨inside before .object size tokens, some before.length⟩ (.string name) =
      some ⟨before' ++ closed [⟨.string, name, 0⟩], some before.length⟩ := by
    rw [step, add, growAt_append (by simp [inside]), growAt_inside]
    rfl
  have colon : step ⟨before' ++ closed [⟨.string, name, 0⟩], some before.length⟩ .colon =
      some ⟨before' ++ closed [⟨.string, name, 0⟩], some before'.length⟩ := by
    simp [step, last, closed]
  have grows : growAt (some before'.length) (before' ++ closed [⟨.string, name, 0⟩]) ++ closed read =
      inside before .object (size + 1) (tokens ++ ⟨.string, name, 1⟩ :: read) := by
    have grown : growAt (some before'.length) (before' ++ closed [⟨.string, name, 0⟩]) =
        before' ++ closed [⟨.string, name, 1⟩] := modify_append _ _ _ _
    rw [grown, List.append_assoc]
    exact inside_append before (size + 1) tokens (⟨.string, name, 1⟩ :: read)
  obtain ⟨super, ran, behind⟩ := reads (before' ++ closed [⟨.string, name, 0⟩]) (some before'.length) (by simp [closed])
  refine ⟨super, by simp only [run, named, colon, ran, grows, Option.bind_some], ?_⟩
  rcases behind with rfl | rfl
  · apply comma_named _ _ _ (.inl rfl)
    rw [← inside_append, List.getElem?_append_right le_rfl, Nat.sub_self]
    simp [closed]
  · rw [inside_append, searchBack_inside]
    exact comma_inside _ _ _ (.inl rfl)

theorem run_member (name : Bytes) {lexemes : List JsonLexeme} {read : List JsonToken} (reads : ReadsAs lexemes read)
    {super : Option Nat} (comma : AtMember before size tokens super) :
    ∃ super', run ⟨inside before .object size tokens, super⟩ (.comma :: .string name :: .colon :: lexemes) =
        some ⟨inside before .object (size + 1) (tokens ++ ⟨.string, name, 1⟩ :: read), super'⟩ ∧
      AtMember before (size + 1) (tokens ++ ⟨.string, name, 1⟩ :: read) super' := by
  obtain ⟨super', ran, next⟩ := run_named before size tokens name reads
  refine ⟨super', ?_, next⟩
  rw [run, comma, Option.bind_some, ran]

end

mutual
theorem run_value (json : Json) : ReadsAs json.lexemes json.tokens := by
  intro tokens super bound
  cases json with
  | primitive text =>
      refine ⟨super, ?_, .inl rfl⟩
      simp only [Json.lexemes, run, step, add, growAt_append bound, Option.bind_some, Json.tokens]
      rfl
  | string written =>
      refine ⟨super, ?_, .inl rfl⟩
      simp only [Json.lexemes, run, step, add, growAt_append bound, Option.bind_some, Json.tokens]
      rfl
  | array elements =>
      have first : ∀ lexeme ∈ (Json.elementLexemes elements).head?, lexeme = .comma := by
        cases elements <;> simp [Json.elementLexemes]
      have inner := run_tail (comma_inside (growAt super tokens) 0 [] (.inr rfl)) first
      refine ⟨_, ?_, .inr rfl⟩
      rw [Json.lexemes, run, step_opens _ bound, Option.bind_some, run_append, inner, run_elements, Option.bind_some, run,
        step_closes, length_growAt, searchBack_growAt]
      simp only [Option.bind_some, run, Json.tokens, Nat.zero_add, List.nil_append]
  | object members =>
      have first : ∀ lexeme ∈ (Json.memberLexemes members).head?, lexeme = .comma := by
        rcases members with _ | ⟨⟨name, value⟩, members⟩ <;> simp [Json.memberLexemes]
      have comma := comma_inside (growAt super tokens) 0 [] (.inl rfl)
      obtain ⟨super', ran, -⟩ := run_members members _ _ _ _ comma
      refine ⟨_, ?_, .inr rfl⟩
      rw [Json.lexemes, run, step_opens _ bound, Option.bind_some, run_append, run_tail comma first, ran, Option.bind_some,
        run, step_closes, length_growAt, searchBack_growAt]
      simp only [Option.bind_some, run, Json.tokens, Nat.zero_add, List.nil_append]

theorem run_elements (elements : List Json) (before : List (JsonToken × Bool)) (size : Nat) (tokens : List JsonToken) :
    run ⟨inside before .array size tokens, some before.length⟩ (Json.elementLexemes elements) =
      some ⟨inside before .array (size + elements.length) (tokens ++ Json.elementTokens elements), some before.length⟩ := by
  cases elements with
  | nil => simp [Json.elementLexemes, Json.elementTokens, run]
  | cons element elements =>
      obtain ⟨super, value, behind⟩ := run_value element (inside before .array size tokens) (some before.length)
        (by simp [inside])
      have stays : super = some before.length := by
        rcases behind with same | same
        · exact same
        · rw [same, searchBack_inside]
      rw [Json.elementLexemes, run, comma_inside _ _ _ (.inr rfl), Option.bind_some, run_append, value, Option.bind_some,
        growAt_inside, inside_append, stays, run_elements, Json.elementTokens, List.append_assoc, List.length_cons,
        Nat.add_assoc, Nat.add_comm 1]

theorem run_members (members : List (JsonString × Json)) (before : List (JsonToken × Bool)) (size : Nat)
    (tokens : List JsonToken) (super : Option Nat) (comma : AtMember before size tokens super) :
    ∃ super', run ⟨inside before .object size tokens, super⟩ (Json.memberLexemes members) =
        some ⟨inside before .object (size + members.length) (tokens ++ Json.memberTokens members), super'⟩ ∧
      AtMember before (size + members.length) (tokens ++ Json.memberTokens members) super' := by
  rcases members with _ | ⟨⟨name, value⟩, members⟩
  · rw [Json.memberTokens, List.append_nil]
    exact ⟨super, rfl, comma⟩
  · obtain ⟨super', ran, next⟩ := run_member before size tokens name.text (run_value value) comma
    obtain ⟨super'', rest, last⟩ := run_members members before (size + 1) _ super' next
    rw [List.append_assoc, Nat.add_assoc, Nat.add_comm 1] at rest last
    refine ⟨super'', ?_, last⟩
    have parts : Json.memberLexemes ((name, value) :: members) =
        (.comma :: .string name.text :: .colon :: value.lexemes) ++ Json.memberLexemes members := by
      rw [Json.memberLexemes]
      rfl
    rw [parts, run_append, ran, Option.bind_some]
    exact rest
end

end JsonOutline

/-! ## Parsing a document -/

/-- A document and one way of writing it. -/
structure JsonDocument where
  json : Json
  text : Bytes
  lexes : JsonLexes json.lexemes text

section
variable {lexemes : List JsonLexeme} {text : Bytes}

/-- Lexemes that come to closed tokens. -/
theorem jsmnParse_enough (lexes : JsonLexes lexemes text) {tokens : List JsonToken} {super : Option Nat}
    (ran : JsonOutline.run {} lexemes = some ⟨JsonOutline.closed tokens, super⟩) {numTokens : Nat}
    (enough : tokens.length ≤ numTokens) :
    ∃ parser, jsmnParse text (some numTokens) {} = some (.returned (.ok tokens.length), parser) ∧
      parser.tokens.map (JsmnToken.read text) = tokens := by
  have nothing : Stops [] := fun c first => by cases first
  have result : JsonOutline.result (JsonOutline.run {} lexemes) = .ok tokens.length := by
    simp [ran, JsonOutline.result, JsonOutline.closed]
  have makes : (lexemes.map JsonLexeme.makes).sum = tokens.length := by
    rw [← JsonLexeme.length_token]
    exact ((JsonOutline.result_run _ _).mp result).2.symm
  obtain ⟨parser, parsed, outline⟩ := jsmnParse_lexemes lexes nothing (makes ▸ enough)
  rw [List.append_nil] at parsed outline
  refine ⟨parser, by rw [parsed, result], ?_⟩
  have read := congrArg (fun outline => outline.tokens.map Prod.fst) (outline _ ran)
  simpa [JsmnParser.outline, JsonOutline.closed, JsmnToken.view, Function.comp_def] using read

theorem jsmnParse_closed (lexes : JsonLexes lexemes text) {tokens : List JsonToken} {super : Option Nat}
    (ran : JsonOutline.run {} lexemes = some ⟨JsonOutline.closed tokens, super⟩) (numTokens : Nat) :
    ∃ parser, jsmnParse text (some numTokens) {} =
        some (.returned (if tokens.length ≤ numTokens then .ok tokens.length else .error .nomem), parser) ∧
      (tokens.length ≤ numTokens → parser.tokens.map (JsmnToken.read text) = tokens) := by
  by_cases enough : tokens.length ≤ numTokens
  · obtain ⟨parser, parsed, same⟩ := jsmnParse_enough lexes ran enough
    exact ⟨parser, by rw [if_pos enough, parsed], fun _ => same⟩
  · obtain ⟨result, parser, parsed, -, fits, large⟩ := jsmnParse_resumes (Nat.le_add_right numTokens tokens.length)
      (JsmnParser.sound_new text) (Nat.zero_le numTokens)
    refine ⟨parser, ?_, fun fits => absurd fits enough⟩
    rw [if_neg enough, parsed]
    by_contra other
    have full : result ≠ .error .nomem := fun same => other (by rw [same])
    obtain ⟨parser', parsed', same⟩ := jsmnParse_enough lexes ran (Nat.le_add_left _ numTokens)
    rw [if_neg full, parsed', Option.some.injEq, Prod.mk.injEq] at large
    obtain ⟨-, rfl⟩ := large
    have length := congrArg List.length same
    rw [List.length_map] at length
    omega

/-- Lexemes whose brackets do not match. -/
theorem jsmnParse_unmatched (lexes : JsonLexes lexemes text) (unmatched : ¬ JsonLexeme.Matched lexemes) (numTokens : Nat) :
    ∃ error parser, jsmnParse text (some numTokens) {} = some (.returned (.error error), parser) := by
  obtain ⟨result, parser, parsed, -, -, large⟩ := jsmnParse_resumes
    (Nat.le_add_right numTokens (lexemes.map JsonLexeme.makes).sum) (JsmnParser.sound_new text) (Nat.zero_le numTokens)
  cases result with
  | error error => exact ⟨error, parser, parsed⟩
  | ok n =>
      have nothing : Stops [] := fun c first => by cases first
      obtain ⟨parser', parsed', -⟩ := jsmnParse_lexemes lexes nothing (Nat.le_add_left _ numTokens)
      rw [List.append_nil] at parsed'
      rw [if_neg (by simp), parsed', Option.some.injEq, Prod.mk.injEq, Outcome.returned.injEq] at large
      exact absurd ((JsonOutline.result_run _ _).mp large.1).1 unmatched

end

end Ipfs
