import Ipfs.Store.JsmnTokens

/-!
# Counting tokens, and parsing again

Without an array jsmn only counts the tokens. With one that is too small it stops, and can be started again.
-/

namespace Ipfs

section
variable {js : Bytes} {parser : JsmnParser} {c : UInt8}

theorem jsmnExtent_forward (here : js[parser.pos]? = some c) (nonzero : c ≠ 0) {extent : Nat × Nat}
    (extends' : jsmnExtent js c parser.pos = .ok extent) : parser.pos ≤ extent.1 := by
  unfold jsmnExtent at extends'
  cases sign : jsonSign c with
  | opens | closes | white | colon | comma =>
      simp only [sign] at extends'
      rw [← Except.ok.inj extends']
  | quote =>
      simp only [sign] at extends'
      cases string : jsmnStringLength .symbol (js.drop (parser.pos + 1)) with
      | error error => rw [string] at extends'; cases extends'
      | ok n =>
          rw [string] at extends'
          rw [← Except.ok.inj extends']
          simp only
          omega
  | other =>
      simp only [sign] at extends'
      cases primitive : jsmnPrimitiveLength (js.drop parser.pos) with
      | error error => rw [primitive] at extends'; cases extends'
      | ok n =>
          obtain ⟨inner, rest, behind, rfl, -, ends⟩ := jsmnPrimitiveLength_iff.mp primitive
          have positive := List.length_pos_iff.mpr (jsmnPrimitiveLength_pos here nonzero sign behind ends)
          rw [primitive] at extends'
          rw [← Except.ok.inj extends']
          simp only
          omega

/-! ## Counting -/

theorem jsmnCharacter_counting :
    match jsmnExtent js c parser.pos with
    | .error error => jsmnCharacter js none c parser = .returned (.error error)
    | .ok extent => ∃ parser', jsmnCharacter js none c parser = .returned (.ok (parser', extent.2)) ∧
        parser'.pos = extent.1 := by
  unfold jsmnExtent jsmnCharacter
  cases sign : jsonSign c with
  | opens | closes | white | colon | comma => exact ⟨_, rfl, rfl⟩
  | quote =>
      simp only
      cases jsmnStringLength .symbol (js.drop (parser.pos + 1)) with
      | error error => rfl
      | ok n => exact ⟨_, rfl, rfl⟩
  | other =>
      simp only
      cases jsmnPrimitiveLength (js.drop parser.pos) with
      | error error => rfl
      | ok n => exact ⟨_, rfl, rfl⟩

/-- A round of the counting loop: the end of the text, an error of the text, or another character. -/
theorem jsmnLoop_counting (count : Nat) :
    (js[parser.pos]?.filter (· ≠ 0) = none ∧
        (jsmnLoop js none).step (parser, count) = .inl (.returned (.ok count), parser)) ∨
      ∃ c, js[parser.pos]? = some c ∧ c ≠ 0 ∧
        match jsmnExtent js c parser.pos with
        | .error error => (jsmnLoop js none).step (parser, count) = .inl (.returned (.error error), parser)
        | .ok extent => ∃ parser' : JsmnParser, (jsmnLoop js none).step (parser, count) =
            .inr ({ parser' with pos := extent.1 + 1 }, count + extent.2) := by
  cases here : js[parser.pos]?.filter (· ≠ 0) with
  | none => exact .inl ⟨rfl, jsmnLoop_end none count here⟩
  | some c =>
      rw [jsmnLoop_next none count here]
      obtain ⟨here, nonzero⟩ := Option.filter_eq_some_iff.mp here
      refine .inr ⟨c, here, by simpa using nonzero, ?_⟩
      have spec := @jsmnCharacter_counting js parser c
      cases extent : jsmnExtent js c parser.pos with
      | error error =>
          simp only [extent] at spec
          rw [spec]
          rfl
      | ok extent =>
          simp only [extent] at spec
          obtain ⟨parser', done, last⟩ := spec
          exact ⟨parser', by rw [done, jsmnAdvance, last]⟩

theorem jsmnLoop_counting_next {state state' : JsmnParser × Nat} (step : (jsmnLoop js none).step state = .inr state') :
    state.1.pos < state'.1.pos ∧ state.1.pos < js.length ∧ state.2 ≤ state'.2 := by
  obtain ⟨parser, count⟩ := state
  rcases @jsmnLoop_counting js parser count with ⟨-, ends⟩ | ⟨c, here, nonzero, goes⟩
  · cases ends.symm.trans step
  · cases extent : jsmnExtent js c parser.pos with
    | error error =>
        simp only [extent] at goes
        cases goes.symm.trans step
    | ok extent =>
        have forward := jsmnExtent_forward here nonzero extent
        simp only [extent] at goes
        obtain ⟨parser', goes⟩ := goes
        obtain rfl := Sum.inr.inj (goes.symm.trans step)
        exact ⟨Nat.lt_succ_of_le forward, (List.getElem?_eq_some_iff.mp here).1, Nat.le_add_right _ _⟩

theorem jsmnLoop_counting_result {state : JsmnParser × Nat} {last : JsmnResult}
    (step : (jsmnLoop js none).step state = .inl last) :
    ∃ result, last.1 = .returned result ∧ ∀ n, result = .ok n → n = state.2 := by
  obtain ⟨parser, count⟩ := state
  rcases @jsmnLoop_counting js parser count with ⟨-, ends⟩ | ⟨c, -, -, goes⟩
  · obtain rfl := Sum.inl.inj (ends.symm.trans step)
    exact ⟨_, rfl, fun n same => (Except.ok.inj same).symm⟩
  · cases extent : jsmnExtent js c parser.pos with
    | error error =>
        simp only [extent] at goes
        obtain rfl := Sum.inl.inj (goes.symm.trans step)
        exact ⟨_, rfl, fun n same => by cases same⟩
    | ok extent =>
        simp only [extent] at goes
        obtain ⟨parser', goes⟩ := goes
        cases goes.symm.trans step

/-- From a state on no fewer tokens are counted than there were. -/
theorem jsmnLoop_counting_ends {state : JsmnParser × Nat} {last : JsmnResult}
    (ends : (jsmnLoop js none).Ends state last) :
    ∃ result, last.1 = .returned result ∧ ∀ n, result = .ok n → state.2 ≤ n := by
  induction ends with
  | result step =>
      obtain ⟨result, returned, counted⟩ := jsmnLoop_counting_result step
      exact ⟨result, returned, fun n same => (counted n same).ge⟩
  | next step _ ih =>
      obtain ⟨result, returned, counted⟩ := ih
      exact ⟨result, returned, fun n same => (jsmnLoop_counting_next step).2.2.trans (counted n same)⟩

/-! ## Counting and tokenizing -/

/-- The two go through the text together. -/
structure JsmnTogether (js : Bytes) (numTokens : Nat) (state state' : JsmnParser × Nat) : Prop where
  tokenizing : JsmnTokenizing js numTokens state
  pos : state'.1.pos = state.1.pos
  count : state'.2 = state.2

def JsmnAgree (numTokens : Nat) (tokenized counted : JsmnResult) : Prop :=
  (∀ n, tokenized.1 = .returned (.ok n) → counted.1 = .returned (.ok n)) ∧
    (tokenized.1 = .returned (.error .nomem) → ∀ n, counted.1 = .returned (.ok n) → numTokens < n)

theorem JsmnAgree.of_error {numTokens : Nat} {tokenized counted : JsmnResult} {error : JsmnError}
    (same : counted.1 = .returned (.error error)) (refused : tokenized.1 = .returned (.error error)) :
    JsmnAgree numTokens tokenized counted := by
  refine ⟨fun n done => ?_, fun _ n done => ?_⟩
  · rw [refused] at done
    cases done
  · rw [same] at done
    cases done

theorem JsmnTogether.each {numTokens : Nat} {state state' : JsmnParser × Nat}
    (together : JsmnTogether js numTokens state state') :
    (∀ last, (jsmnLoop js (some numTokens)).step state = .inl last →
        ∀ last', (jsmnLoop js none).Ends state' last' → JsmnAgree numTokens last last') ∧
      ∀ next, (jsmnLoop js (some numTokens)).step state = .inr next →
        (∃ next', (jsmnLoop js none).step state' = .inr next' ∧ JsmnTogether js numTokens next next') ∨
          ∀ last, (jsmnLoop js (some numTokens)).Ends next last →
            ∀ last', (jsmnLoop js none).Ends state' last' → JsmnAgree numTokens last last' := by
  obtain ⟨parser, count⟩ := state
  obtain ⟨parser', count'⟩ := state'
  obtain ⟨holds, pos, count⟩ := together
  obtain rfl : count' = _ := count
  have pos : parser'.pos = parser.pos := pos
  have counting := @jsmnLoop_counting js parser' count'
  rw [pos] at counting
  rcases counting with ⟨behind, ends⟩ | ⟨c, here, nonzero, goes⟩
  · rw [jsmnLoop_end (some numTokens) count' behind]
    refine ⟨fun last same last' ends' => ?_, fun next same => by cases same⟩
    obtain rfl := Sum.inl.inj same
    obtain rfl := (Loop.ends_of_result ends).mp ends'
    constructor
    · intro n done
      simp only [Outcome.returned.injEq] at done
      split at done
      · cases done
      · rw [done]
    · intro full
      simp only [Outcome.returned.injEq] at full
      split at full
      · cases full
      · cases full
  · rw [jsmnLoop_next (some numTokens) count' (Option.filter_eq_some_iff.mpr ⟨here, by simpa using nonzero⟩)]
    have spec := jsmnCharacter_spec numTokens holds.sound holds.fits here nonzero
    cases extent : jsmnExtent js c parser.pos with
    | error error =>
        simp only [extent] at spec goes
        rw [spec]
        refine ⟨fun last same last' ends' => ?_, fun next same => by cases same⟩
        obtain rfl := Sum.inl.inj same
        obtain rfl := (Loop.ends_of_result goes).mp ends'
        exact .of_error rfl rfl
    | ok extent =>
        simp only [extent] at spec goes
        obtain ⟨counted, goes⟩ := goes
        generalize jsmnCharacter js (some numTokens) c parser = round at spec ⊢
        cases spec with
        | goes done =>
            refine ⟨fun last same => (by cases same), fun next same => .inl ⟨_, goes, ?_⟩⟩
            obtain rfl := Sum.inr.inj same
            refine ⟨⟨done.sound, done.fits, ?_⟩, by simp only [done.last], rfl⟩
            have counted : count' = parser.tokens.length := holds.counted
            simp only [done.counted, counted]
        | full one full =>
            refine ⟨fun last same last' ends' => ?_, fun next same => by cases same⟩
            obtain rfl := Sum.inl.inj same
            obtain ⟨result, returned, more⟩ := jsmnLoop_counting_ends ((Loop.ends_of_next goes).mp ends')
            refine ⟨fun n done => (by cases done), fun _ n done => ?_⟩
            have most := more n (Outcome.returned.inj (returned.symm.trans done))
            have counted : count' = parser.tokens.length := holds.counted
            simp only [one] at most
            omega
        | unmatched =>
            refine ⟨fun last same last' ends' => ?_, fun next same => by cases same⟩
            obtain rfl := Sum.inl.inj same
            exact ⟨fun n done => (by cases done), fun full => by cases full⟩

theorem jsmnParse_counting (js : Bytes) (parser : JsmnParser) : ∃ last, jsmnParse js none parser = some last := by
  have next (state state' : JsmnParser × Nat) (_ : True) (step : (jsmnLoop js none).step state = .inr state') :
      True ∧ js.length - state'.1.pos < js.length - state.1.pos := by
    obtain ⟨forward, inside, -⟩ := jsmnLoop_counting_next step
    exact ⟨trivial, by omega⟩
  exact Loop.run_of_measure next trivial (Nat.lt_succ_self _)

section
variable {n m : Nat}

theorem JsmnParser.allocToken_room (more : n ≤ m) (token : JsmnToken) :
    parser.allocToken (some n) token = .error .nomem ∨
      parser.allocToken (some n) token = parser.allocToken (some m) token := by
  by_cases full : n ≤ parser.tokens.length
  · exact .inl (if_pos full)
  · refine .inr ?_
    rw [allocToken, allocToken, if_neg full, if_neg (by omega)]

theorem JsmnParser.growSuper_room (n m : Nat) (parser : JsmnParser) :
    parser.growSuper (some n) = parser.growSuper (some m) := by
  unfold growSuper
  cases parser.toksuper <;> rfl

theorem JsmnParser.comma_room (n m : Nat) (parser : JsmnParser) : parser.comma (some n) = parser.comma (some m) := by
  unfold comma
  cases parser.toksuper <;> rfl

theorem JsmnParser.openBracket_room (more : n ≤ m) (type : JsonToken.Kind) :
    parser.openBracket (some n) type = .returned (.error .nomem) ∨
      parser.openBracket (some n) type = parser.openBracket (some m) type := by
  unfold openBracket
  rcases parser.allocToken_room more { type, start := parser.pos, stop := none } with full | same
  · exact .inl (by rw [full])
  · exact .inr (by simp only [same, growSuper_room n m, Option.isNone_some])

theorem JsmnParser.parseLeaf_room (more : n ≤ m) (token : JsmnToken) (last : Nat) :
    parser.parseLeaf (some n) token last = .returned (.error .nomem) ∨
      parser.parseLeaf (some n) token last = parser.parseLeaf (some m) token last := by
  unfold parseLeaf
  rcases parser.allocToken_room more token with full | same
  · exact .inl (by rw [full])
  · exact .inr (by simp only [same, growSuper_room n m])

/-- A larger array makes a difference only where the smaller one is full. -/
theorem jsmnCharacter_room (more : n ≤ m) :
    jsmnCharacter js (some n) c parser = .returned (.error .nomem) ∨
      jsmnCharacter js (some n) c parser = jsmnCharacter js (some m) c parser := by
  unfold jsmnCharacter
  cases jsonSign c with
  | closes | white | colon => exact .inr rfl
  | comma => exact .inr (by simp only [parser.comma_room n m])
  | opens type =>
      rcases parser.openBracket_room more type with full | same
      · exact .inl (by simp only [full]; rfl)
      · exact .inr (by simp only [same])
  | quote =>
      simp only
      cases jsmnStringLength .symbol (js.drop (parser.pos + 1)) with
      | error error => exact .inr rfl
      | ok length =>
          rcases parser.parseLeaf_room more
            { type := .string, start := parser.pos + 1, stop := some (parser.pos + 1 + length) }
            (parser.pos + 1 + length) with full | same
          · exact .inl (by simp only [full]; rfl)
          · exact .inr (by simp only [same])
  | other =>
      simp only
      cases jsmnPrimitiveLength (js.drop parser.pos) with
      | error error => exact .inr rfl
      | ok length =>
          rcases parser.parseLeaf_room more
            { type := .primitive, start := parser.pos, stop := some (parser.pos + length) }
            (parser.pos + length - 1) with full | same
          · exact .inl (by simp only [full]; rfl)
          · exact .inr (by simp only [same])

/-- With more room the result is the same, or it is what parsing on from there comes to. -/
def JsmnResumes (js : Bytes) (m : Nat) (last last' : JsmnResult) : Prop :=
  if last.1 = .returned (.error .nomem) then (jsmnLoop js (some m)).Ends (last.2, last.2.tokens.length) last'
  else last' = last

theorem jsmnLoop_result {room : Option Nat} {state : JsmnParser × Nat} {last : JsmnResult}
    (step : (jsmnLoop js room).step state = .inl last) : last.2 = state.1 := by
  obtain ⟨parser, count⟩ := state
  cases here : js[parser.pos]?.filter (· ≠ 0) with
  | none =>
      obtain rfl := Sum.inl.inj ((jsmnLoop_end room count here).symm.trans step)
      rfl
  | some c =>
      rw [jsmnLoop_next room count here] at step
      unfold jsmnAdvance at step
      split at step
      · cases step
      all_goals
        obtain rfl := Sum.inl.inj step
        rfl

theorem jsmnLoop_room (more : n ≤ m) (state : JsmnParser × Nat) :
    (jsmnLoop js (some n)).step state = .inl (.returned (.error .nomem), state.1) ∨
      (jsmnLoop js (some n)).step state = (jsmnLoop js (some m)).step state := by
  obtain ⟨parser, count⟩ := state
  cases here : js[parser.pos]?.filter (· ≠ 0) with
  | none =>
      rw [jsmnLoop_end (some n) count here, jsmnLoop_end (some m) count here]
      exact .inr rfl
  | some c =>
      rw [jsmnLoop_next (some n) count here, jsmnLoop_next (some m) count here]
      rcases jsmnCharacter_room more with full | same
      · exact .inl (by rw [full]; rfl)
      · exact .inr (by rw [same])

theorem jsmnLoop_resumes (more : n ≤ m) (state state' : JsmnParser × Nat)
    (along : JsmnTokenizing js n state ∧ state' = state) :
    (∀ last, (jsmnLoop js (some n)).step state = .inl last →
        ∀ last', (jsmnLoop js (some m)).Ends state' last' → JsmnResumes js m last last') ∧
      ∀ next, (jsmnLoop js (some n)).step state = .inr next →
        (∃ next', (jsmnLoop js (some m)).step state' = .inr next' ∧ JsmnTokenizing js n next ∧ next' = next) ∨
          ∀ last, (jsmnLoop js (some n)).Ends next last →
            ∀ last', (jsmnLoop js (some m)).Ends state' last' → JsmnResumes js m last last' := by
  obtain ⟨holds, rfl⟩ := along
  constructor
  · intro last step last' ends
    by_cases full : last.1 = .returned (.error .nomem)
    · rw [JsmnResumes, if_pos full]
      have stays : last.2 = state'.1 := jsmnLoop_result step
      have start : state' = (last.2, last.2.tokens.length) := by
        rw [stays]
        exact Prod.ext rfl holds.counted
      exact start ▸ ends
    · rw [JsmnResumes, if_neg full]
      rcases jsmnLoop_room more state' with other | same
      · obtain rfl := Sum.inl.inj (other.symm.trans step)
        exact absurd rfl full
      · exact (Loop.ends_of_result (same ▸ step)).mp ends
  · intro next step
    rcases jsmnLoop_room more state' with other | same
    · cases other.symm.trans step
    · refine .inl ⟨next, same ▸ step, ?_, rfl⟩
      rcases holds.step with ⟨result, other, -⟩ | ⟨next', other, holds', -⟩
      · cases other.symm.trans step
      · exact Sum.inr.inj (other.symm.trans step) ▸ holds'

theorem jsmnParse_resumes (more : n ≤ m) (sound : parser.Sound js) (fits : parser.tokens.length ≤ n) :
    ∃ result parser', jsmnParse js (some n) parser = some (.returned result, parser') ∧
      parser'.Sound js ∧ parser'.tokens.length ≤ n ∧ jsmnParse js (some m) parser =
        if result = .error .nomem then jsmnParse js (some m) parser' else some (.returned result, parser') := by
  obtain ⟨⟨outcome, parser'⟩, parsing, finished⟩ := jsmnParse_finished sound fits
  obtain ⟨last, again, -⟩ := jsmnParse_finished sound (fits.trans more)
  obtain ⟨result, rfl, -⟩ := finished.returned
  refine ⟨result, parser', parsing, finished.sound, finished.fits, ?_⟩
  have resumes := (Loop.ends_run parsing).along (jsmnLoop_resumes more) ⟨⟨sound, fits, rfl⟩, rfl⟩ (Loop.ends_run again)
  rw [again]
  simp only [JsmnResumes, Outcome.returned.injEq] at resumes
  split at resumes
  · obtain ⟨last', parsed, -⟩ := jsmnParse_finished finished.sound (finished.fits.trans more)
    rw [if_pos ‹_›, parsed, (Loop.ends_of_run parsed).mp resumes]
  · rw [if_neg ‹_›, resumes]

end

end
end Ipfs
