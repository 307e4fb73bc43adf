import Ipfs.Store.Jsmn

/-!
# The tokens of jsmn

Whatever the text is, no token is read or written that is not there, and the tokens lie in the text as the values do.
-/

namespace Ipfs

/-! ## Going back over the tokens -/

section
variable {α : Type} {tokens : List α} {test : α → Bool}

theorem searchBack_eq_some {n i : Nat} :
    searchBack test tokens n = some i ↔
      i < n ∧ tokens[i]?.any test ∧ ∀ j, i < j → j < n → tokens[j]?.any test = false := by
  induction n with
  | zero => simp [searchBack]
  | succ n ih =>
      rw [searchBack]
      by_cases found : tokens[n]?.any test
      · rw [if_pos found, Option.some.injEq]
        constructor
        · rintro rfl
          exact ⟨Nat.lt_succ_self _, found, fun j above below => absurd below (by omega)⟩
        · rintro ⟨below, -, none⟩
          by_contra other
          simp [none n (by omega) (Nat.lt_succ_self n)] at found
      · rw [if_neg found, ih]
        constructor
        · rintro ⟨below, here, none⟩
          refine ⟨by omega, here, fun j above below' => ?_⟩
          rcases Nat.lt_succ_iff_lt_or_eq.mp below' with less | rfl
          · exact none j above less
          · exact Bool.not_eq_true _ ▸ found
        · rintro ⟨below, here, none⟩
          have other : i ≠ n := fun same => found (same ▸ here)
          exact ⟨by omega, here, fun j above below' => none j above (by omega)⟩

theorem searchBack_lt {n i : Nat} (found : searchBack test tokens n = some i) : i < tokens.length := by
  obtain ⟨-, here, -⟩ := searchBack_eq_some.mp found
  by_contra past
  rw [List.getElem?_eq_none (by omega)] at here
  cases here

end

/-! ## Characters -/

def openSign : JsonToken.Kind → UInt8
  | .object => 0x7b
  | _ => 0x5b

def closeSign : JsonToken.Kind → UInt8
  | .object => 0x7d
  | _ => 0x5d

def IsContainer (type : JsonToken.Kind) : Prop := type = .object ∨ type = .array

def JsonSign.Reads (c : UInt8) : JsonSign → Prop
  | .opens type => IsContainer type ∧ c = openSign type
  | .closes type => IsContainer type ∧ c = closeSign type
  | .quote => c = 0x22
  | .colon => c = 0x3a
  | .comma => c = 0x2c
  | .white | .other => True

theorem jsonSign_reads {c : UInt8} {sign : JsonSign} (is : jsonSign c = sign) : sign.Reads c := by
  subst sign
  unfold jsonSign
  repeat' split
  all_goals simp_all [JsonSign.Reads, IsContainer, openSign, closeSign]

/-! ## Well-formed tokens -/

theorem split_of_getElem? {α : Type} {items : List α} {i : Nat} {item : α} (here : items[i]? = some item) :
    items = items.take i ++ item :: items.drop (i + 1) := by
  obtain ⟨inside, rfl⟩ := List.getElem?_eq_some_iff.mp here
  rw [List.getElem_cons_drop, List.take_append_drop]

/-- The text that the token is for. -/
def JsmnToken.Stands (js : Bytes) (token : JsmnToken) : Prop :=
  match token.stop, token.type with
  | none, type => IsContainer type ∧ ∃ before behind, js = before ++ openSign type :: behind ∧ token.start = before.length
  | some stop, .string => ∃ before inner behind, js = before ++ 0x22 :: (inner ++ 0x22 :: behind) ∧
      token.start = before.length + 1 ∧ stop = token.start + inner.length ∧ JsonChars inner
  | some stop, .primitive => ∃ before inner behind, js = before ++ (inner ++ behind) ∧ token.start = before.length ∧
      stop = token.start + inner.length ∧ inner ≠ [] ∧ (∀ c ∈ inner, PrimitiveChar c) ∧ EndsPrimitive behind
  | some stop, type => ∃ before inner behind, js = before ++ openSign type :: (inner ++ closeSign type :: behind) ∧
      token.start = before.length ∧ stop = token.start + inner.length + 2

/-- Of two tokens the second stands behind the first, or inside it. -/
def JsmnToken.Nested (token later : JsmnToken) : Prop :=
  token.start < later.start ∧ ∀ stop ∈ token.stop,
    stop ≤ later.start ∨ (IsContainer token.type ∧ ∃ stop' ∈ later.stop, stop' < stop)

/-- The token without its size. -/
def JsmnToken.place (token : JsmnToken) : JsmnToken := { token with size := 0 }

structure JsmnParser.Sound (js : Bytes) (parser : JsmnParser) : Prop where
  super : ∀ i ∈ parser.toksuper, i < parser.tokens.length
  within : ∀ token ∈ parser.tokens, token.start < parser.pos ∧ ∀ stop ∈ token.stop, stop ≤ parser.pos
  stands : ∀ token ∈ parser.tokens, token.Stands js
  nested : parser.tokens.Pairwise JsmnToken.Nested

namespace JsmnParser.Sound
variable {js : Bytes} {parser : JsmnParser}

theorem congr (sound : parser.Sound js) {parser' : JsmnParser} (pos : parser.pos ≤ parser'.pos)
    (super : ∀ i ∈ parser'.toksuper, i < parser'.tokens.length)
    (same : parser'.tokens.map JsmnToken.place = parser.tokens.map JsmnToken.place) : parser'.Sound js where
  super := super
  within := by
    have within : ∀ token ∈ parser.tokens.map JsmnToken.place,
        token.start < parser'.pos ∧ ∀ stop ∈ token.stop, stop ≤ parser'.pos := by
      rw [List.forall_mem_map]
      intro token mem
      obtain ⟨start, stops⟩ := sound.within token mem
      exact ⟨start.trans_le pos, fun stop here => (stops stop here).trans pos⟩
    rw [← same, List.forall_mem_map] at within
    exact within
  stands := by
    have stands : ∀ token ∈ parser.tokens.map JsmnToken.place, token.Stands js := List.forall_mem_map.mpr sound.stands
    rw [← same, List.forall_mem_map] at stands
    exact stands
  nested := by
    have nested : (parser.tokens.map JsmnToken.place).Pairwise JsmnToken.Nested := List.pairwise_map.mpr sound.nested
    rw [← same, List.pairwise_map] at nested
    exact nested

theorem push (sound : parser.Sound js) {token : JsmnToken} (start : parser.pos ≤ token.start) {pos : Nat}
    (before : parser.pos ≤ pos) (within : token.start < pos ∧ ∀ stop ∈ token.stop, stop ≤ pos)
    (stands : token.Stands js) : Sound js { parser with pos, tokens := parser.tokens ++ [token] } where
  super i mem := by
    have := sound.super i mem
    simp only [List.length_append]
    omega
  within := by
    simp only [List.mem_append, List.mem_singleton]
    rintro token' (old | rfl)
    · obtain ⟨start, stops⟩ := sound.within token' old
      exact ⟨start.trans_le before, fun stop here => (stops stop here).trans before⟩
    · exact within
  stands := by
    simp only [List.mem_append, List.mem_singleton]
    rintro token' (old | rfl)
    · exact sound.stands token' old
    · exact stands
  nested := by
    rw [List.pairwise_append]
    refine ⟨sound.nested, List.pairwise_singleton _ _, ?_⟩
    rintro token' mem _ last
    obtain rfl := List.mem_singleton.mp last
    obtain ⟨earlier, stops⟩ := sound.within token' mem
    exact ⟨earlier.trans_le start, fun stop here => .inl ((stops stop here).trans start)⟩

end JsmnParser.Sound

theorem JsmnParser.growSuper_returns (room : Option Nat) (parser : JsmnParser)
    (super : ∀ i ∈ parser.toksuper, i < parser.tokens.length) :
    ∃ tokens, parser.growSuper room = .returned { parser with tokens } ∧
      tokens.map JsmnToken.place = parser.tokens.map JsmnToken.place := by
  obtain ⟨pos, tokens, toksuper⟩ := parser
  cases room with
  | none => exact ⟨tokens, rfl, rfl⟩
  | some numTokens =>
      cases toksuper with
      | none => exact ⟨tokens, rfl, rfl⟩
      | some i =>
          have inside := super i rfl
          refine ⟨tokens.set i { tokens[i] with size := tokens[i].size + 1 }, ?_, ?_⟩
          · simp [growSuper, List.getElem?_eq_getElem inside]
          · rw [List.map_set]
            have bound : i < (tokens.map JsmnToken.place).length := by simpa using inside
            have same : JsmnToken.place { tokens[i] with size := tokens[i].size + 1 } =
                (tokens.map JsmnToken.place)[i] := by
              rw [List.getElem_map]
              rfl
            rw [same, List.set_getElem_self]

/-- Where a character, or the value that it begins, comes to its end, and how many tokens that makes. -/
def jsmnExtent (js : Bytes) (c : UInt8) (pos : Nat) : Except JsmnError (Nat × Nat) :=
  match jsonSign c with
  | .opens _ => .ok (pos, 1)
  | .closes _ | .white | .colon | .comma => .ok (pos, 0)
  | .quote => (jsmnStringLength .symbol (js.drop (pos + 1))).map fun length => (pos + 1 + length, 1)
  | .other => (jsmnPrimitiveLength (js.drop pos)).map fun length => (pos + length - 1, 1)

/-- A round that goes well: how far, and with how many tokens more. -/
structure JsmnParser.Goes (js : Bytes) (numTokens : Nat) (parser : JsmnParser) (extent : Nat × Nat)
    (parser' : JsmnParser) : Prop where
  last : parser'.pos = extent.1
  forward : parser.pos ≤ extent.1
  sound : Sound js { parser' with pos := parser'.pos + 1 }
  counted : parser'.tokens.length = parser.tokens.length + extent.2
  fits : parser'.tokens.length ≤ numTokens

section
variable {js : Bytes} {parser : JsmnParser} (numTokens : Nat)

theorem length_eq_of_place {tokens tokens' : List JsmnToken} (same : tokens'.map JsmnToken.place = tokens.map JsmnToken.place) :
    tokens'.length = tokens.length := by
  simpa using congrArg List.length same

theorem JsmnParser.Sound.parseLeaf (sound : parser.Sound js) (token : JsmnToken) (last : Nat)
    (start : parser.pos ≤ token.start) (forward : parser.pos ≤ last)
    (within : token.start < last + 1 ∧ ∀ stop ∈ token.stop, stop ≤ last + 1) (stands : token.Stands js) :
    (numTokens ≤ parser.tokens.length ∧ parser.parseLeaf (some numTokens) token last = .returned (.error .nomem)) ∨
      ∃ parser', parser.parseLeaf (some numTokens) token last = .returned (.ok parser') ∧
        parser.Goes js numTokens (last, 1) parser' := by
  unfold JsmnParser.parseLeaf JsmnParser.allocToken
  by_cases full : numTokens ≤ parser.tokens.length
  · simp [full]
  · have pushed := sound.push start (show parser.pos ≤ last + 1 by omega) within stands
    obtain ⟨tokens, grown, same⟩ := JsmnParser.growSuper_returns (some numTokens)
      { parser with pos := last, tokens := parser.tokens ++ [token] } pushed.super
    have length := length_eq_of_place same
    simp only [List.length_append, List.length_singleton] at length
    refine .inr ⟨{ parser with pos := last, tokens }, by simp [full, grown], rfl, forward,
      pushed.congr le_rfl ?_ same, length, ?_⟩
    · intro i mem
      have := pushed.super i mem
      simp only [List.length_append, List.length_singleton] at this ⊢
      omega
    · simp only
      omega

theorem JsmnParser.toknextBefore_lt {i : Nat} (last : parser.toknextBefore = some i) : i < parser.tokens.length := by
  unfold toknextBefore at last
  split at last
  · cases last
  · obtain rfl := Option.some.inj last
    omega

theorem JsmnParser.Sound.openBracket (sound : parser.Sound js) {type : JsonToken.Kind} (container : IsContainer type)
    (here : js[parser.pos]? = some (openSign type)) :
    (numTokens ≤ parser.tokens.length ∧ parser.openBracket (some numTokens) type = .returned (.error .nomem)) ∨
      ∃ parser', parser.openBracket (some numTokens) type = .returned (.ok parser') ∧
        parser.Goes js numTokens (parser.pos, 1) parser' := by
  unfold JsmnParser.openBracket JsmnParser.allocToken
  by_cases full : numTokens ≤ parser.tokens.length
  · simp [full]
  · let token : JsmnToken := { type, start := parser.pos, stop := none }
    have stands : token.Stands js := by
      have inside := (List.getElem?_eq_some_iff.mp here).1
      exact ⟨container, _, _, split_of_getElem? here, by simp [token, inside.le]⟩
    have within : token.start < parser.pos + 1 ∧ ∀ stop ∈ token.stop, stop ≤ parser.pos + 1 :=
      ⟨Nat.lt_succ_self _, by simp [token]⟩
    have pushed := sound.push le_rfl (Nat.le_succ _) within stands
    obtain ⟨tokens, grown, same⟩ := JsmnParser.growSuper_returns (some numTokens)
      { parser with tokens := parser.tokens ++ [token] } pushed.super
    have length := length_eq_of_place same
    simp only [List.length_append, List.length_singleton] at length
    refine .inr ⟨{ parser with tokens, toksuper := toknextBefore { parser with tokens } }, by simp [full, token, grown],
      rfl, le_rfl, pushed.congr le_rfl (fun i mem => toknextBefore_lt mem) same, length, ?_⟩
    simp only
    omega

theorem JsmnToken.Stands.close {token : JsmnToken} (stands : token.Stands js) (isOpen : token.isOpen)
    (before : token.start < parser.pos) (here : js[parser.pos]? = some (closeSign token.type)) :
    ({ token with stop := some (parser.pos + 1) } : JsmnToken).Stands js := by
  obtain ⟨type, start, stop, size⟩ := token
  cases stop with
  | some stop => cases isOpen
  | none =>
      obtain ⟨container, front, behind, rfl, start⟩ := stands
      obtain ⟨inside, same⟩ := List.getElem?_eq_some_iff.mp here
      simp only at start before same inside
      subst start
      have position : parser.pos - front.length = parser.pos - front.length - 1 + 1 := by omega
      have sign : behind[parser.pos - front.length - 1]? = some (closeSign type) := by
        rw [← List.getElem?_cons_succ (a := openSign type), ← position, ← List.getElem?_append_right before.le]
        exact here
      have length : (behind.take (parser.pos - front.length - 1)).length = parser.pos - front.length - 1 := by
        simp only [List.length_append, List.length_cons] at inside
        rw [List.length_take]
        omega
      have parts : ∃ before inner behind', front ++ openSign type :: behind =
          before ++ openSign type :: (inner ++ closeSign type :: behind') ∧ front.length = before.length ∧
            parser.pos + 1 = front.length + inner.length + 2 :=
        ⟨front, _, _, congrArg (front ++ openSign type :: ·) (split_of_getElem? sign), rfl, by omega⟩
      rcases container with rfl | rfl
      · exact parts
      · exact parts

theorem JsmnParser.Sound.close_nested (sound : parser.Sound js) {i : Nat} (inside : i < parser.tokens.length)
    (isOpen : parser.tokens[i].isOpen)
    (closed : ∀ j, i < j → j < parser.tokens.length → parser.tokens[j]?.any JsmnToken.isOpen = false) :
    (parser.tokens.set i { parser.tokens[i] with stop := some (parser.pos + 1) }).Pairwise JsmnToken.Nested := by
  have nested := List.pairwise_iff_getElem.mp sound.nested
  have notStopped : parser.tokens[i].stop = none := by simpa [JsmnToken.isOpen] using isOpen
  have container : IsContainer parser.tokens[i].type := by
    have stands := sound.stands _ (List.getElem_mem inside)
    rw [JsmnToken.Stands, notStopped] at stands
    exact stands.1
  rw [List.pairwise_iff_getElem]
  intro j k first second earlier
  have first' : j < parser.tokens.length := by simpa using first
  have second' : k < parser.tokens.length := by simpa using second
  have before := nested j k first' second' earlier
  rw [List.getElem_set, List.getElem_set]
  split
  · subst i
    rw [if_neg (by omega)]
    refine ⟨before.1, fun stop here => .inr ⟨container, ?_⟩⟩
    obtain rfl := Option.some.inj here
    have stopped := closed k earlier second'
    rw [List.getElem?_eq_getElem second', Option.any_some, JsmnToken.isOpen, Option.isNone_eq_false_iff] at stopped
    obtain ⟨stop', isStop⟩ := Option.isSome_iff_exists.mp stopped
    have bound := (sound.within _ (List.getElem_mem second')).2 stop' isStop
    exact ⟨stop', isStop, by omega⟩
  · split
    · subst i
      refine ⟨before.1, fun stop here => ?_⟩
      rcases before.2 stop here with behind | ⟨-, stop', isStop, -⟩
      · exact .inl behind
      · rw [notStopped] at isStop
        cases isStop
    · exact before

theorem JsmnParser.Sound.closeBracket (sound : parser.Sound js) (fits : parser.tokens.length ≤ numTokens)
    {type : JsonToken.Kind} (here : js[parser.pos]? = some (closeSign type)) :
    parser.closeBracket (some numTokens) type = .returned (.error .inval) ∨
      ∃ parser', parser.closeBracket (some numTokens) type = .returned (.ok parser') ∧
        parser.Goes js numTokens (parser.pos, 0) parser' := by
  unfold JsmnParser.closeBracket
  cases last : lastOpen parser.tokens with
  | none => simp
  | some i =>
      have inside := searchBack_lt last
      obtain ⟨-, isOpen, closed⟩ := searchBack_eq_some.mp last
      simp only [List.getElem?_eq_getElem inside, Option.any_some] at isOpen
      simp only [Option.isNone_some, Bool.false_eq_true, if_false, List.getElem?_eq_getElem inside, Outcome.access_some,
        Outcome.returned_bind]
      by_cases other : parser.tokens[i].type = type
      · rw [if_neg (not_not_intro other)]
        have mem : parser.tokens[i] ∈ parser.tokens := List.getElem_mem inside
        refine .inr ⟨_, rfl, rfl, le_rfl, ⟨?_, ?_, ?_, sound.close_nested inside isOpen closed⟩, by simp, by simpa using fits⟩
        · exact fun j found => searchBack_lt found
        · intro token mem'
          rcases List.mem_or_eq_of_mem_set mem' with old | rfl
          · obtain ⟨start, stops⟩ := sound.within token old
            exact ⟨start.trans (Nat.lt_succ_self _), fun stop here => (stops stop here).trans (Nat.le_succ _)⟩
          · exact ⟨(sound.within _ mem).1.trans (Nat.lt_succ_self _), by simp⟩
        · intro token mem'
          rcases List.mem_or_eq_of_mem_set mem' with old | rfl
          · exact sound.stands token old
          · exact (sound.stands _ mem).close isOpen (sound.within _ mem).1 (other ▸ here)
      · simp [other]

theorem JsmnParser.Sound.comma (sound : parser.Sound js) (room : Option Nat) :
    ∃ toksuper, parser.comma room = .returned { parser with toksuper } ∧ ∀ i ∈ toksuper, i < parser.tokens.length := by
  obtain ⟨pos, tokens, toksuper⟩ := parser
  have super := sound.super
  cases room with
  | none => exact ⟨toksuper, rfl, super⟩
  | some numTokens =>
      cases toksuper with
      | none => exact ⟨none, rfl, super⟩
      | some i =>
          simp only [JsmnParser.comma, List.getElem?_eq_getElem (super i rfl), Outcome.access_some, Outcome.returned_bind]
          split
          · split
            · exact ⟨some i, rfl, super⟩
            · rename_i j found
              exact ⟨some j, rfl, fun k same => Option.some.inj same ▸ searchBack_lt found⟩
          · exact ⟨some i, rfl, super⟩

theorem jsmnPrimitiveLength_pos {c : UInt8} (here : js[parser.pos]? = some c) (nonzero : c ≠ 0)
    (sign : jsonSign c = .other) {inner rest : Bytes} (behind : js.drop parser.pos = inner ++ rest)
    (ends : EndsPrimitive rest) : inner ≠ [] := by
  rintro rfl
  obtain ⟨inside, rfl⟩ := List.getElem?_eq_some_iff.mp here
  rw [List.nil_append, ← List.getElem_cons_drop inside] at behind
  rcases ends _ (by rw [← behind]; rfl) with zero | sign'
  · exact nonzero zero
  · rw [sign] at sign'
    cases sign'

/-- How a round can end that is as long as it should be. -/
inductive JsmnParser.RoundEnds (js : Bytes) (parser : JsmnParser) (extent : Nat × Nat) :
    Outcome (Except JsmnError (JsmnParser × Nat)) → Prop
  | goes {parser' : JsmnParser} (goes : parser.Goes js numTokens extent parser') :
      RoundEnds js parser extent (.returned (.ok (parser', extent.2)))
  | full (counted : extent.2 = 1) (full : numTokens ≤ parser.tokens.length) :
      RoundEnds js parser extent (.returned (.error .nomem))
  | unmatched : RoundEnds js parser extent (.returned (.error .inval))

theorem jsmnCharacter_spec (sound : parser.Sound js) (fits : parser.tokens.length ≤ numTokens) {c : UInt8}
    (here : js[parser.pos]? = some c) (nonzero : c ≠ 0) :
    match jsmnExtent js c parser.pos with
    | .error error => jsmnCharacter js (some numTokens) c parser = .returned (.error error)
    | .ok extent => JsmnParser.RoundEnds numTokens js parser extent (jsmnCharacter js (some numTokens) c parser) := by
  have stays {toksuper : Option Nat} (super : ∀ i ∈ toksuper, i < parser.tokens.length) :
      parser.Goes js numTokens (parser.pos, 0) { parser with toksuper } :=
    ⟨rfl, le_rfl, sound.congr (Nat.le_succ _) super rfl, rfl, fits⟩
  have split := split_of_getElem? here
  have length : (js.take parser.pos).length = parser.pos := by
    have inside := (List.getElem?_eq_some_iff.mp here).1
    simp [inside.le]
  unfold jsmnCharacter jsmnExtent
  cases sign : jsonSign c with
  | opens type =>
      obtain ⟨container, rfl⟩ := jsonSign_reads sign
      rcases sound.openBracket numTokens container here with ⟨full, refused⟩ | ⟨parser', opened, goes⟩
      · simp only [refused]
        exact .full rfl full
      · simp only [opened]
        exact .goes goes
  | closes type =>
      obtain ⟨-, rfl⟩ := jsonSign_reads sign
      rcases sound.closeBracket numTokens fits here with wrong | ⟨parser', closed, goes⟩
      · simp only [wrong]
        exact .unmatched
      · simp only [closed]
        exact .goes goes
  | quote =>
      obtain rfl := jsonSign_reads sign
      simp only
      cases string : jsmnStringLength .symbol (js.drop (parser.pos + 1)) with
      | error error => rfl
      | ok n =>
          obtain ⟨inner, rest, behind, rfl, chars⟩ := jsmnStringLength_iff.mp string
          rcases sound.parseLeaf numTokens
            { type := .string, start := parser.pos + 1, stop := some (parser.pos + 1 + inner.length) }
            (parser.pos + 1 + inner.length) (Nat.le_succ _) (by omega) ⟨by simp only; omega, by simp⟩
            ⟨_, inner, rest, behind ▸ split, by simp [length], rfl, chars⟩ with ⟨full, refused⟩ | ⟨parser', parsed, goes⟩
          · simp only [refused]
            exact .full rfl full
          · simp only [parsed]
            exact .goes goes
  | white => exact .goes (stays sound.super)
  | colon => exact .goes (stays fun i => JsmnParser.toknextBefore_lt)
  | comma =>
      obtain ⟨toksuper, moved, super⟩ := sound.comma (some numTokens)
      simp only [moved]
      exact .goes (stays super)
  | other =>
      simp only
      cases primitive : jsmnPrimitiveLength (js.drop parser.pos) with
      | error error => rfl
      | ok n =>
          obtain ⟨inner, rest, behind, rfl, chars, ends⟩ := jsmnPrimitiveLength_iff.mp primitive
          have nonempty := jsmnPrimitiveLength_pos here nonzero sign behind ends
          have positive := List.length_pos_iff.mpr nonempty
          rcases sound.parseLeaf numTokens
            { type := .primitive, start := parser.pos, stop := some (parser.pos + inner.length) }
            (parser.pos + inner.length - 1) le_rfl (by omega) ⟨by simp only; omega, by simp; omega⟩
            ⟨js.take parser.pos, inner, rest, by rw [← behind, List.take_append_drop], length.symm, rfl, nonempty, chars, ends⟩
            with ⟨full, refused⟩ | ⟨parser', parsed, goes⟩
          · simp only [refused]
            exact .full rfl full
          · simp only [parsed]
            exact .goes goes

end

/-! ## Runs -/

section
variable {js : Bytes} {numTokens : Nat}

/-- What the loop keeps when there is an array of tokens. -/
structure JsmnTokenizing (js : Bytes) (numTokens : Nat) (state : JsmnParser × Nat) : Prop where
  sound : state.1.Sound js
  fits : state.1.tokens.length ≤ numTokens
  counted : state.2 = state.1.tokens.length

theorem jsmnLoop_end {parser : JsmnParser} (room : Option Nat) (count : Nat)
    (behind : js[parser.pos]?.filter (· ≠ 0) = none) :
    (jsmnLoop js room).step (parser, count) =
      .inl (.returned (if room.isSome ∧ parser.tokens.any JsmnToken.isOpen then .error .part else .ok count), parser) := by
  simp only [jsmnLoop, behind]
  split <;> rfl

theorem jsmnLoop_next {parser : JsmnParser} (room : Option Nat) (count : Nat) {c : UInt8}
    (here : js[parser.pos]?.filter (· ≠ 0) = some c) :
    (jsmnLoop js room).step (parser, count) = jsmnAdvance parser count (jsmnCharacter js room c parser) := by
  simp only [jsmnLoop, here]

theorem jsmnLoop_inr {state state' : JsmnParser × Nat} {room : Option Nat}
    (step : (jsmnLoop js room).step state = .inr state') :
    ∃ c parser' n, js[state.1.pos]? = some c ∧ c ≠ 0 ∧
      jsmnCharacter js room c state.1 = .returned (.ok (parser', n)) ∧
      state' = ({ parser' with pos := parser'.pos + 1 }, state.2 + n) := by
  obtain ⟨parser, count⟩ := state
  cases here : js[parser.pos]?.filter (· ≠ 0) with
  | none => cases (jsmnLoop_end room count here).symm.trans step
  | some c =>
      rw [jsmnLoop_next room count here] at step
      obtain ⟨here, nonzero⟩ := Option.filter_eq_some_iff.mp here
      unfold jsmnAdvance at step
      split at step
      · exact ⟨c, _, _, here, by simpa using nonzero, ‹_›, (Sum.inr.inj step).symm⟩
      all_goals cases step

/-- A round of the loop: the end of the text, an error, or another character. -/
theorem JsmnTokenizing.step {state : JsmnParser × Nat} (holds : JsmnTokenizing js numTokens state) :
    (∃ result, (jsmnLoop js (some numTokens)).step state = .inl (.returned result, state.1) ∧
        ∀ count, result = .ok count → count = state.2 ∧ ∀ token ∈ state.1.tokens, token.isOpen = false) ∨
      ∃ state', (jsmnLoop js (some numTokens)).step state = .inr state' ∧ JsmnTokenizing js numTokens state' ∧
        state.1.pos < state'.1.pos ∧ state.1.pos < js.length := by
  obtain ⟨parser, count⟩ := state
  cases here : js[parser.pos]?.filter (· ≠ 0) with
  | none =>
      refine .inl ⟨_, jsmnLoop_end (some numTokens) count here, fun count' same => ?_⟩
      split at same
      · cases same
      · rename_i closed
        obtain rfl := Except.ok.inj same
        simpa using closed
  | some c =>
      rw [jsmnLoop_next (some numTokens) count here]
      obtain ⟨here, nonzero⟩ := Option.filter_eq_some_iff.mp here
      have spec := jsmnCharacter_spec numTokens holds.sound holds.fits here (by simpa using nonzero)
      have refused (error : JsmnError) : ∃ result, jsmnAdvance parser count (.returned (.error error)) =
            .inl (.returned result, parser) ∧
          ∀ count', result = .ok count' → count' = count ∧ ∀ token ∈ parser.tokens, token.isOpen = false :=
        ⟨.error error, rfl, fun count same => by cases same⟩
      cases extent : jsmnExtent js c parser.pos with
      | error error =>
          simp only [extent] at spec
          rw [spec]
          exact .inl (refused error)
      | ok extent =>
          simp only [extent] at spec
          generalize jsmnCharacter js (some numTokens) c parser = round at spec ⊢
          cases spec with
          | full | unmatched => exact .inl (refused _)
          | goes goes =>
              have forward : parser.pos ≤ _ := goes.last ▸ goes.forward
              refine .inr ⟨_, rfl, ⟨goes.sound, goes.fits, ?_⟩, Nat.lt_succ_of_le forward,
                (List.getElem?_eq_some_iff.mp here).1⟩
              have counted : count = parser.tokens.length := holds.counted
              simp only [goes.counted, counted]

/-- What parsing comes to: no fault, and tokens that stand in the text; they are closed when it succeeds. -/
structure JsmnFinished (js : Bytes) (numTokens : Nat) (last : JsmnResult) : Prop where
  sound : last.2.Sound js
  fits : last.2.tokens.length ≤ numTokens
  returned : ∃ result, last.1 = .returned result ∧ ∀ count, result = .ok count →
    count = last.2.tokens.length ∧ ∀ token ∈ last.2.tokens, token.isOpen = false

theorem jsmnParse_finished {parser : JsmnParser} (sound : parser.Sound js) (fits : parser.tokens.length ≤ numTokens) :
    ∃ last, jsmnParse js (some numTokens) parser = some last ∧ JsmnFinished js numTokens last := by
  have start : JsmnTokenizing js numTokens (parser, parser.tokens.length) := ⟨sound, fits, rfl⟩
  have next (state state' : JsmnParser × Nat) (holds : JsmnTokenizing js numTokens state)
      (step : (jsmnLoop js (some numTokens)).step state = .inr state') :
      JsmnTokenizing js numTokens state' ∧ js.length - state'.1.pos < js.length - state.1.pos := by
    rcases holds.step with ⟨result, other, -⟩ | ⟨next, other, holds', forward, inside⟩
    · cases step.symm.trans other
    · obtain rfl := Sum.inr.inj (step.symm.trans other)
      exact ⟨holds', by omega⟩
  have result (state : JsmnParser × Nat) (last : JsmnResult) (holds : JsmnTokenizing js numTokens state)
      (step : (jsmnLoop js (some numTokens)).step state = .inl last) : JsmnFinished js numTokens last := by
    rcases holds.step with ⟨result, other, finished⟩ | ⟨state', other, -⟩
    · obtain rfl := Sum.inl.inj (other.symm.trans step)
      refine ⟨holds.sound, holds.fits, result, rfl, fun count same => ?_⟩
      obtain ⟨rfl, closed⟩ := finished count same
      exact ⟨holds.counted, closed⟩
    · cases other.symm.trans step
  obtain ⟨last, ran⟩ := Loop.run_of_measure next start (Nat.lt_succ_self _)
  exact ⟨last, ran, (Loop.ends_run ran).invariant (fun state state' holds step => (next state state' holds step).1)
    result start⟩

theorem JsmnParser.sound_new (js : Bytes) : ({} : JsmnParser).Sound js where
  super := by simp
  within := by simp
  stands := by simp
  nested := .nil

end
end Ipfs
