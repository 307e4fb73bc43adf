import Ipfs.Store.JsmnLexemes
import Ipfs.Store.JsmnModes

/-!
# What jsmn accepts

The brackets of the lexemes have to match, and nothing else: colons and commas may stand anywhere, or be missing.
-/

namespace Ipfs

/-! ## Brackets -/

namespace JsonLexeme

/-- The brackets that are open behind the lexeme, the innermost first. -/
def brackets (opened : List JsonToken.Kind) : JsonLexeme → Option (List JsonToken.Kind)
  | .opens type => some (type :: opened)
  | .closes type => if opened.head? = some type then some opened.tail else none
  | _ => some opened

/-- What the token is and its text. -/
def token : JsonLexeme → Option (JsonToken.Kind × Bytes)
  | .opens type => some (type, [])
  | .string text => some (.string, text)
  | .primitive text => some (.primitive, text)
  | .closes _ | .colon | .comma => none

def Matched (lexemes : List JsonLexeme) : Prop := lexemes.foldlM brackets [] = some []

theorem length_token (lexemes : List JsonLexeme) : (lexemes.filterMap token).length = (lexemes.map makes).sum := by
  induction lexemes with
  | nil => rfl
  | cons lexeme lexemes ih => cases lexeme <;> simp [List.filterMap_cons, token, makes, ih, Nat.add_comm]

end JsonLexeme

namespace JsonOutline

def openType : JsonToken × Bool → Option JsonToken.Kind
  | (token, isOpen) => if isOpen then some token.kind else none

/-- What is open, the innermost first. -/
def opened (tokens : List (JsonToken × Bool)) : List JsonToken.Kind := (tokens.filterMap openType).reverse

def faces (tokens : List (JsonToken × Bool)) : List (JsonToken.Kind × Bytes) :=
  tokens.map fun token => (token.1.kind, token.1.text)

theorem map_modify_same {α β : Type} (f : α → β) {g : α → α} (same : ∀ a, f (g a) = f a) (tokens : List α) (i : Nat) :
    (tokens.modify i g).map f = tokens.map f := by
  apply List.ext_getElem?
  intro j
  rw [List.getElem?_map, List.getElem?_modify, List.getElem?_map]
  cases tokens[j]? with
  | none => rfl
  | some a =>
      by_cases here : i = j
      · simp [here, same]
      · simp [here]

section
variable (tokens : List (JsonToken × Bool))

theorem opened_eq : opened tokens = ((tokens.map openType).filterMap id).reverse := by
  rw [opened, List.filterMap_map]
  rfl

theorem opened_growAt (super : Option Nat) : opened (growAt super tokens) = opened tokens := by
  cases super with
  | none => rfl
  | some i => rw [opened_eq, opened_eq, growAt, map_modify_same openType (g := grown) fun _ => rfl]

theorem faces_growAt (super : Option Nat) : faces (growAt super tokens) = faces tokens := by
  cases super with
  | none => rfl
  | some i => exact map_modify_same _ (g := grown) (fun _ => rfl) tokens i

theorem opened_append (tokens' : List (JsonToken × Bool)) : opened (tokens ++ tokens') = opened tokens' ++ opened tokens := by
  simp only [opened, List.filterMap_append, List.reverse_append]

theorem opened_eq_nil {tokens : List (JsonToken × Bool)} : opened tokens = [] ↔ ∀ token ∈ tokens, token.2 = false := by
  rw [opened, List.reverse_eq_nil_iff, List.filterMap_eq_nil_iff]
  simp [openType]

end

/-- The innermost open token is the last, with closed ones behind it. -/
theorem searchBack_open {tokens : List (JsonToken × Bool)} {i : Nat}
    (found : searchBack Prod.snd tokens tokens.length = some i) :
    ∃ before token behind, tokens = before ++ (token, true) :: behind ∧ before.length = i ∧
      ∀ token ∈ behind, token.2 = false := by
  obtain ⟨inside, isOpen, closed⟩ := searchBack_eq_some.mp found
  rw [List.getElem?_eq_getElem inside, Option.any_some] at isOpen
  refine ⟨tokens.take i, tokens[i].1, tokens.drop (i + 1), ?_, by simp [inside.le], ?_⟩
  · have pair : (tokens[i].1, true) = tokens[i] := Prod.ext rfl isOpen.symm
    rw [pair, List.getElem_cons_drop, List.take_append_drop]
  · intro token mem
    obtain ⟨j, inside', rfl⟩ := List.mem_iff_getElem.mp mem
    rw [List.length_drop] at inside'
    have := closed (i + 1 + j) (by omega) (by omega)
    rwa [List.getElem?_eq_getElem (by omega), Option.any_some, ← List.getElem_drop] at this

theorem searchBack_eq_none {α : Type} {test : α → Bool} {tokens : List α} {n : Nat} :
    searchBack test tokens n = none ↔ ∀ token ∈ tokens.take n, test token = false := by
  induction n with
  | zero => simp [searchBack]
  | succ n ih =>
      rw [searchBack, List.take_add_one]
      cases tokens[n]? with
      | none => simp [ih]
      | some token => cases found : test token <;> simp [found, ih, or_imp, forall_and]

theorem step_opened (outline : JsonOutline) (lexeme : JsonLexeme) :
    (outline.step lexeme).map (fun outline => opened outline.tokens) = lexeme.brackets (opened outline.tokens) := by
  obtain ⟨tokens, super⟩ := outline
  cases lexeme with
  | colon | comma => rfl
  | opens type => simp only [step, add, Option.map_some, opened_growAt, opened_append]; rfl
  | string text | primitive text => simp only [step, add, Option.map_some, opened_growAt, opened_append]; rfl
  | closes type =>
      simp only [step, JsonLexeme.brackets]
      cases found : searchBack Prod.snd tokens tokens.length with
      | none =>
          rw [searchBack_eq_none, List.take_length] at found
          simp [opened_eq_nil.mpr found]
      | some i =>
          obtain ⟨before, token, behind, rfl, rfl, closed⟩ := searchBack_open found
          have here : opened (before ++ (token, true) :: behind) = token.kind :: opened before := by
            rw [opened_append, ← List.singleton_append, opened_append, opened_eq_nil.mpr closed]
            rfl
          have next : opened (close before.length ⟨before ++ (token, true) :: behind, super⟩).tokens = opened before := by
            rw [close, modify_append, opened_append, ← List.singleton_append, opened_append, opened_eq_nil.mpr closed]
            rfl
          have kind : ((before ++ (token, true) :: behind)[before.length]?.any fun token => token.1.kind = type) =
              decide (token.kind = type) := by simp
          simp only [Option.bind_some, kind, decide_eq_true_eq, here, List.head?_cons, Option.some.injEq, List.tail_cons]
          split
          · rw [Option.map_some, next]
          · rfl

theorem step_faces (outline : JsonOutline) (lexeme : JsonLexeme) {outline' : JsonOutline}
    (step : outline.step lexeme = some outline') :
    faces outline'.tokens = faces outline.tokens ++ lexeme.token.toList := by
  cases lexeme with
  | colon | comma =>
      obtain rfl := Option.some.inj step
      exact (List.append_nil _).symm
  | opens type | string text | primitive text =>
      obtain rfl := Option.some.inj step
      rw [add, faces_growAt, faces, List.map_append]
      rfl
  | closes type =>
      obtain ⟨i, -, closed⟩ := Option.bind_eq_some_iff.mp step
      split at closed
      · obtain rfl := Option.some.inj closed
        exact (map_modify_same _ (g := fun token => (token.1, false)) (fun _ => rfl) outline.tokens i).trans (List.append_nil _).symm
      · cases closed

theorem run_opened (outline : JsonOutline) (lexemes : List JsonLexeme) :
    (outline.run lexemes).map (fun outline => opened outline.tokens) =
      lexemes.foldlM JsonLexeme.brackets (opened outline.tokens) := by
  induction lexemes generalizing outline with
  | nil => rfl
  | cons lexeme lexemes ih =>
      rw [List.foldlM_cons, ← step_opened, run]
      cases outline.step lexeme with
      | none => rfl
      | some outline => exact ih outline

theorem run_faces {outline outline' : JsonOutline} {lexemes : List JsonLexeme} (ran : outline.run lexemes = some outline') :
    faces outline'.tokens = faces outline.tokens ++ lexemes.filterMap JsonLexeme.token := by
  induction lexemes generalizing outline with
  | nil =>
      obtain rfl := Option.some.inj ran
      exact (List.append_nil _).symm
  | cons lexeme lexemes ih =>
      obtain ⟨next, step, ran⟩ := Option.bind_eq_some_iff.mp ran
      rw [ih ran, step_faces outline lexeme step, List.append_assoc, List.filterMap_cons]
      cases lexeme.token <;> rfl

/-- Parsing succeeds if the brackets match. -/
theorem result_run (lexemes : List JsonLexeme) (n : Nat) :
    result (run {} lexemes) = .ok n ↔ JsonLexeme.Matched lexemes ∧ n = (lexemes.filterMap JsonLexeme.token).length := by
  have brackets := run_opened {} lexemes
  have nothing : opened ({} : JsonOutline).tokens = [] := rfl
  rw [nothing] at brackets
  rw [JsonLexeme.Matched, ← brackets]
  cases ran : run {} lexemes with
  | none => simp [result]
  | some outline =>
      have length : outline.tokens.length = (lexemes.filterMap JsonLexeme.token).length := by
        simpa [faces] using congrArg List.length (run_faces ran)
      have closed : outline.tokens.any Prod.snd = true ↔ opened outline.tokens ≠ [] := by
        rw [Ne, opened_eq_nil]
        simp
      rw [result, Option.map_some, Option.some.injEq, ← length]
      split
      · simp [closed.mp ‹_›]
      · simp [not_not.mp (closed.not.mp ‹_›), eq_comm]

end JsonOutline

/-! ## Texts -/

section
variable {js : Bytes} {numTokens : Nat}

/-- What a round reads that goes well: white space, or a lexeme. -/
theorem jsmnExtent_lexeme {c : UInt8} {pos : Nat} (here : js[pos]? = some c) (nonzero : c ≠ 0) {extent : Nat × Nat}
    (extends' : jsmnExtent js c pos = .ok extent) :
    (jsonSign c = .white ∧ extent = (pos, 0)) ∨ ∃ lexeme front, JsonLexeme.Written lexeme front ∧
      js.drop pos = front ++ js.drop (extent.1 + 1) ∧ lexeme.EndsBefore (js.drop (extent.1 + 1)) ∧
        extent.2 = lexeme.makes := by
  have split : js.drop pos = c :: js.drop (pos + 1) := by
    obtain ⟨inside, rfl⟩ := List.getElem?_eq_some_iff.mp here
    exact List.drop_eq_getElem_cons inside
  unfold jsmnExtent at extends'
  cases sign : jsonSign c with
  | white =>
      simp only [sign] at extends'
      exact .inl ⟨rfl, (Except.ok.inj extends').symm⟩
  | opens type =>
      obtain ⟨container, rfl⟩ := jsonSign_reads sign
      simp only [sign] at extends'
      obtain rfl := Except.ok.inj extends'
      exact .inr ⟨.opens type, _, .opens container, split, trivial, rfl⟩
  | closes type =>
      obtain ⟨container, rfl⟩ := jsonSign_reads sign
      simp only [sign] at extends'
      obtain rfl := Except.ok.inj extends'
      exact .inr ⟨.closes type, _, .closes container, split, trivial, rfl⟩
  | colon =>
      obtain rfl := jsonSign_reads sign
      simp only [sign] at extends'
      obtain rfl := Except.ok.inj extends'
      exact .inr ⟨.colon, _, .colon, split, trivial, rfl⟩
  | comma =>
      obtain rfl := jsonSign_reads sign
      simp only [sign] at extends'
      obtain rfl := Except.ok.inj extends'
      exact .inr ⟨.comma, _, .comma, split, trivial, rfl⟩
  | quote =>
      obtain rfl := jsonSign_reads sign
      simp only [sign] at extends'
      cases string : jsmnStringLength .symbol (js.drop (pos + 1)) with
      | error error => rw [string] at extends'; cases extends'
      | ok n =>
          obtain ⟨inner, rest, behind, rfl, chars⟩ := jsmnStringLength_iff.mp string
          rw [string] at extends'
          obtain rfl := Except.ok.inj extends'
          refine .inr ⟨.string inner, _, .string chars, ?_, trivial, rfl⟩
          have after : js.drop (pos + 1 + inner.length + 1) = rest := by
            rw [Nat.add_assoc, ← List.drop_drop, behind, List.drop_length_add_append]
            rfl
          simp only [split, behind, after, List.cons_append, List.append_assoc, List.nil_append]
  | other =>
      simp only [sign] at extends'
      cases primitive : jsmnPrimitiveLength (js.drop pos) with
      | error error => rw [primitive] at extends'; cases extends'
      | ok n =>
          obtain ⟨inner, rest, behind, rfl, chars, ends⟩ := jsmnPrimitiveLength_iff.mp primitive
          have nonempty : inner ≠ [] := @jsmnPrimitiveLength_pos js { pos } c here nonzero sign inner rest behind ends
          rw [primitive] at extends'
          obtain rfl := Except.ok.inj extends'
          have positive := List.length_pos_iff.mpr nonempty
          have after : js.drop (pos + inner.length - 1 + 1) = rest := by
            rw [Nat.sub_add_cancel (by omega), ← List.drop_drop, behind, List.drop_left]
          obtain ⟨first, inner, rfl⟩ := List.exists_cons_of_ne_nil nonempty
          obtain rfl : first = c := by
            rw [split] at behind
            exact (List.cons.inj behind).1.symm
          refine .inr ⟨.primitive (first :: inner), _, .primitive sign chars, ?_, ?_, rfl⟩
          · simpa only [after] using behind
          · rw [after]
            exact ends

theorem JsonLexeme.EndsBefore.front {lexeme : JsonLexeme} {text rest : Bytes} (ends : lexeme.EndsBefore (text ++ rest)) :
    lexeme.EndsBefore text := by
  cases lexeme with
  | primitive inner =>
      intro c first
      cases text with
      | nil => cases first
      | cons d text => exact ends c first
  | _ => trivial

/-- From where parsing goes through to the end the text has lexemes. -/
theorem JsmnTokenizing.lexes {state : JsmnParser × Nat} {last : JsmnResult}
    (ends : (jsmnLoop js (some numTokens)).Ends state last) (holds : JsmnTokenizing js numTokens state) {n : Nat}
    (done : last.1 = .returned (.ok n)) :
    ∃ lexemes text rest, js.drop state.1.pos = text ++ rest ∧ Stops rest ∧ JsonLexes lexemes text := by
  induction ends with
  | @result state last step =>
      obtain ⟨parser, count⟩ := state
      cases here : js[parser.pos]?.filter (· ≠ 0) with
      | none =>
          refine ⟨[], [], _, rfl, fun c first => ?_, .nil⟩
          rw [List.head?_drop] at first
          simpa using Option.filter_eq_none_iff.mp here c first
      | some c =>
          rw [jsmnLoop_next _ count here] at step
          unfold jsmnAdvance at step
          split at step
          · cases step
          all_goals
            obtain rfl := Sum.inl.inj step
            cases done
  | @next state state' last step _ ih =>
      obtain ⟨c, parser', count, here, nonzero, character, rfl⟩ := jsmnLoop_inr step
      obtain ⟨extent, reads, goes, rfl⟩ := jsmnCharacter_goes holds.sound holds.fits here nonzero character
      have holds' : JsmnTokenizing js numTokens ({ parser' with pos := parser'.pos + 1 }, state.2 + extent.2) :=
        ⟨goes.sound, goes.fits, by rw [holds.counted, goes.counted]⟩
      obtain ⟨lexemes, text, rest, behind, stops, lexes⟩ := ih holds' done
      simp only [goes.last] at behind
      rcases jsmnExtent_lexeme here nonzero reads with ⟨white, rfl⟩ | ⟨lexeme, front, written, split, ends, -⟩
      · refine ⟨lexemes, c :: text, rest, ?_, stops, .white white lexes⟩
        obtain ⟨inside, rfl⟩ := List.getElem?_eq_some_iff.mp here
        rw [List.drop_eq_getElem_cons inside, behind, List.cons_append]
      · refine ⟨lexeme :: lexemes, front ++ text, rest, by rw [split, behind, List.append_assoc], stops, .cons written ?_ lexes⟩
        exact (behind ▸ ends).front

end
end Ipfs
