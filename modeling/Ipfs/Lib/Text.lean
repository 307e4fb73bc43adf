import Mathlib.Tactic

/-!
# Splitting text

At the first occurrence of a byte, or of a token: what comes before it and what comes behind it.
-/

namespace Text
variable {α : Type} [DecidableEq α]

/-- `strchr`. -/
def cut (c : α) : List α → Option (List α × List α)
  | [] => none
  | b :: text => if b = c then some ([], text) else (cut c text).map fun parts => (b :: parts.1, parts.2)

/-- `strstr`. -/
def search (token : List α) : List α → Option (List α × List α)
  | [] => if token = [] then some ([], []) else none
  | b :: text =>
      if token <+: b :: text then some ([], (b :: text).drop token.length)
      else (search token text).map fun parts => (b :: parts.1, parts.2)

theorem cut_append {c : α} {before : List α} (absent : c ∉ before) (behind : List α) :
    cut c (before ++ c :: behind) = some (before, behind) := by
  induction before with
  | nil => simp [cut]
  | cons b before ih =>
      simp only [List.mem_cons, not_or] at absent
      simp [cut, Ne.symm absent.1, ih absent.2]

theorem cut_eq_none {c : α} {text : List α} : cut c text = none ↔ c ∉ text := by
  induction text with
  | nil => simp [cut]
  | cons b text ih =>
      by_cases same : b = c
      · simp [cut, same]
      · simp [cut, same, ih, Ne.symm same]

/-- The first occurrence behind a part that has none. -/
theorem cut_append_left {c : α} {text : List α} (absent : c ∉ text) (rest : List α) :
    cut c (text ++ rest) = (cut c rest).map fun parts => (text ++ parts.1, parts.2) := by
  induction text with
  | nil => simp
  | cons b text ih =>
      simp only [List.mem_cons, not_or] at absent
      simp [cut, Ne.symm absent.1, ih absent.2, Function.comp_def]

theorem cut_eq_some {c : α} {text before behind : List α} (parts : cut c text = some (before, behind)) :
    text = before ++ c :: behind ∧ c ∉ before := by
  induction text generalizing before with
  | nil => simp [cut] at parts
  | cons b text ih =>
      rw [cut] at parts
      split at parts
      · simp only [Option.some.injEq, Prod.mk.injEq] at parts
        obtain ⟨rfl, rfl⟩ := parts
        simp [‹b = c›]
      · obtain ⟨⟨first, second⟩, found, eq⟩ := Option.map_eq_some_iff.mp parts
        simp only [Prod.mk.injEq] at eq
        obtain ⟨rfl, rfl⟩ := eq
        obtain ⟨rfl, absent⟩ := ih found
        exact ⟨rfl, by simp [absent, Ne.symm ‹¬ b = c›]⟩

theorem search_prefix {token : List α} (nonempty : token ≠ []) (behind : List α) :
    search token (token ++ behind) = some ([], behind) := by
  cases token with
  | nil => exact absurd rfl nonempty
  | cons b token => simp [search]

theorem search_cons_of_ne {b c : α} {token text : List α} (ne : b ≠ c) :
    search (c :: token) (b :: text) = (search (c :: token) text).map fun parts => (b :: parts.1, parts.2) := by
  simp [search, List.cons_prefix_cons, Ne.symm ne]

theorem search_append_left {c : α} {token text : List α} (absent : c ∉ text) (rest : List α) :
    search (c :: token) (text ++ rest) = (search (c :: token) rest).map fun parts => (text ++ parts.1, parts.2) := by
  induction text with
  | nil => simp
  | cons b text ih =>
      simp only [List.mem_cons, not_or] at absent
      rw [List.cons_append, search_cons_of_ne (Ne.symm absent.1), ih absent.2]
      simp [Function.comp_def]

theorem mem_splitOn {c : α} {text segment : List α} (mem : segment ∈ text.splitOn c) :
    c ∉ segment ∧ ∀ b ∈ segment, b ∈ text := by
  induction text generalizing segment with
  | nil =>
      rw [List.splitOn_nil, List.mem_singleton] at mem
      simp [mem]
  | cons b text ih =>
      rw [List.splitOn_cons_eq_if_modifyHead] at mem
      cases rest : text.splitOn c with
      | nil => exact absurd rest (List.splitOn_ne_nil c text)
      | cons first others =>
          have later : ∀ segment ∈ first :: others, c ∉ segment ∧ ∀ b ∈ segment, b ∈ text :=
            fun segment mem => ih (rest ▸ mem)
          by_cases same : b = c
          · simp only [same, beq_self_eq_true, if_true, rest, List.mem_cons] at mem
            rcases mem with rfl | mem
            · simp
            · obtain ⟨absent, inside⟩ := later segment (List.mem_cons.mpr mem)
              exact ⟨absent, fun b' mem' => List.mem_cons_of_mem _ (inside b' mem')⟩
          · simp only [beq_iff_eq, same, if_false, rest, List.modifyHead_cons, List.mem_cons] at mem
            rcases mem with rfl | mem
            · obtain ⟨absent, inside⟩ := later first (by simp)
              exact ⟨by simp [absent, Ne.symm same], by
                intro b' mem'
                rcases List.mem_cons.mp mem' with rfl | mem'
                · simp
                · exact List.mem_cons_of_mem _ (inside b' mem')⟩
            · obtain ⟨absent, inside⟩ := later segment (by simp [mem])
              exact ⟨absent, fun b' mem' => List.mem_cons_of_mem _ (inside b' mem')⟩

/-! ## Tokens -/

theorem search_eq_none {token text : List α} : search token text = none ↔ ¬ token <:+: text := by
  induction text with
  | nil => simp [search]
  | cons b text ih =>
      rw [search, List.infix_cons_iff]
      by_cases start : token <+: b :: text
      · simp [start]
      · simp [start, ih]

theorem search_eq_some {token text before behind : List α} (found : search token text = some (before, behind)) :
    text = before ++ (token ++ behind) := by
  induction text generalizing before with
  | nil =>
      rw [search] at found
      split at found
      · obtain ⟨rfl, rfl⟩ := Prod.mk.injEq .. ▸ Option.some.inj found
        simpa using ‹token = []›.symm
      · cases found
  | cons b text ih =>
      rw [search] at found
      split at found
      · obtain ⟨rfl, rfl⟩ := Prod.mk.injEq .. ▸ Option.some.inj found
        obtain ⟨rest, eq⟩ := ‹token <+: b :: text›
        rw [← eq, List.drop_left]
        rfl
      · obtain ⟨⟨first, second⟩, inner, eq⟩ := Option.map_eq_some_iff.mp found
        obtain ⟨rfl, rfl⟩ := Prod.mk.injEq .. ▸ eq
        rw [ih inner, List.cons_append]

theorem search_first {token text before behind : List α} (found : search token text = some (before, behind))
    {left right : List α} (other : text = left ++ (token ++ right)) : before.length ≤ left.length := by
  induction text generalizing before left with
  | nil =>
      have empty := search_eq_some found
      simp only [List.nil_eq, List.append_eq_nil_iff] at empty
      simp [empty.1]
  | cons b text ih =>
      rw [search] at found
      split at found
      · obtain ⟨rfl, rfl⟩ := Prod.mk.injEq .. ▸ Option.some.inj found
        exact Nat.zero_le _
      · obtain ⟨⟨first, second⟩, inner, eq⟩ := Option.map_eq_some_iff.mp found
        obtain ⟨rfl, rfl⟩ := Prod.mk.injEq .. ▸ eq
        cases left with
        | nil => exact absurd ⟨right, other.symm⟩ ‹¬ token <+: b :: text›
        | cons c left =>
            rw [List.cons_append, List.cons.injEq] at other
            exact Nat.succ_le_succ (ih inner other.2)

theorem search_before {token text before behind : List α} (nonempty : token ≠ [])
    (found : search token text = some (before, behind)) : ¬ token <:+: before := by
  rintro ⟨left, right, rfl⟩
  have whole := search_eq_some found
  rw [List.append_assoc, List.append_assoc] at whole
  have first := search_first found whole
  have positive := List.length_pos_of_ne_nil nonempty
  simp only [List.length_append] at first
  omega

theorem search_behind_length {token text : List α} (nonempty : token ≠ []) {parts : List α × List α}
    (found : search token text = some parts) : parts.2.length < text.length := by
  have positive := List.length_pos_of_ne_nil nonempty
  rw [search_eq_some found]
  simp only [List.length_append]
  omega

/-- What is behind the text does not change where a token is first. -/
theorem search_append {token text before behind : List α} (found : search token text = some (before, behind))
    (more : List α) : search token (text ++ more) = some (before, behind ++ more) := by
  induction text generalizing before with
  | nil =>
      have empty := search_eq_some found
      simp only [List.nil_eq, List.append_eq_nil_iff] at empty
      obtain ⟨rfl, rfl, rfl⟩ := empty
      cases more <;> simp [search]
  | cons b text ih =>
      by_cases start : token <+: b :: text
      · have start' : token <+: b :: (text ++ more) := start.trans (List.prefix_append (b :: text) more)
        rw [search, if_pos start, Option.some.injEq, Prod.mk.injEq] at found
        obtain ⟨rfl, rfl⟩ := found
        rw [List.cons_append, search, if_pos start', ← List.cons_append, List.drop_append_of_le_length start.length_le]
      · rw [search, if_neg start] at found
        obtain ⟨⟨first, second⟩, inner, eq⟩ := Option.map_eq_some_iff.mp found
        obtain ⟨rfl, rfl⟩ := Prod.mk.injEq .. ▸ eq
        have fits : token.length ≤ (b :: text).length := by
          rw [search_eq_some inner]
          simp only [List.length_cons, List.length_append]
          omega
        have start' : ¬ token <+: b :: (text ++ more) := fun start' =>
          start (List.prefix_of_prefix_length_le start' (List.prefix_append (b :: text) more) fits)
        rw [List.cons_append, search, if_neg start', ih inner]
        rfl

/-- A token at the very end is not in what is cut off before it. -/
theorem search_take_eq_none {token text before : List α}
    (found : search token text = some (before, [])) {k : Nat} (short : k < text.length) :
    search token (text.take k) = none := by
  rw [search_eq_none]
  rintro ⟨left, right, eq⟩
  have whole : text = left ++ (token ++ (right ++ text.drop k)) := by
    rw [← List.append_assoc, ← List.append_assoc, eq, List.take_append_drop]
  have first := search_first found whole
  have lengths := congrArg List.length eq
  rw [search_eq_some found] at short
  simp only [List.length_append, List.length_take, List.length_nil] at lengths short
  omega

/-- The first element of the token is nowhere else in it, and so no occurrence overlaps another. -/
theorem search_append_token {c : α} {tail content : List α} (once : c ∉ tail) (absent : ¬ c :: tail <:+: content)
    (more : List α) : search (c :: tail) (content ++ (c :: tail ++ more)) = some (content, more) := by
  induction content with
  | nil => exact search_prefix (List.cons_ne_nil c tail) more
  | cons a content ih =>
      have elsewhere : ¬ c :: tail <+: a :: (content ++ (c :: tail ++ more)) := by
        intro start
        obtain ⟨same, inside⟩ := List.cons_prefix_cons.mp start
        rcases List.prefix_or_prefix_of_prefix inside (List.prefix_append content _) with short | ⟨rest, long⟩
        · exact absent (List.cons_prefix_cons.mpr ⟨same, short⟩).isInfix
        · cases rest with
          | nil =>
              rw [List.append_nil] at long
              exact absent (List.cons_prefix_cons.mpr ⟨same, long ▸ List.prefix_rfl⟩).isInfix
          | cons d rest =>
              rw [← long, List.prefix_append_right_inj, List.cons_append, List.cons_prefix_cons] at inside
              exact once (long ▸ inside.1 ▸ by simp)
      rw [List.cons_append, search, if_neg elsewhere, ih fun inside => absent (inside.trans (List.suffix_cons a content).isInfix)]
      rfl

/-- The first occurrence is the first in every end of the text that it is in. -/
theorem search_suffix {token text rest before behind : List α} (found : search token text = some (before, behind))
    (suffix : rest <:+ text) (inside : (token ++ behind).length ≤ rest.length) :
    ∃ before', search token rest = some (before', behind) := by
  obtain ⟨front, rfl⟩ := suffix
  have whole := search_eq_some found
  have ending : token ++ behind <:+ front ++ rest := ⟨before, whole.symm⟩
  obtain ⟨left, eq⟩ := List.suffix_of_suffix_length_le ending (List.suffix_append front rest) inside
  cases search' : search token rest with
  | none => exact absurd ⟨left, behind, by rw [← eq, List.append_assoc]⟩ (search_eq_none.mp search')
  | some parts =>
      obtain ⟨before', behind'⟩ := parts
      have whole' := search_eq_some search'
      have earliest := search_first search' eq.symm
      have other : front ++ rest = (front ++ before') ++ (token ++ behind') := by
        rw [whole', List.append_assoc]
      have earliest' := search_first found other
      have lengths := congrArg List.length whole
      rw [whole'] at lengths eq
      have same : left.length = before'.length := by
        simp only [List.length_append] at lengths earliest'
        have lengths' := congrArg List.length eq
        simp only [List.length_append] at lengths'
        omega
      obtain ⟨-, both⟩ := List.append_inj eq same
      exact ⟨before', by rw [List.append_cancel_left both]⟩

/-- The text between the occurrences of a token, from left to right. -/
def pieces (token text : List α) : List (List α) :=
  if _ : token ≠ [] then
    match _ : search token text with
    | none => [text]
    | some parts => parts.1 :: pieces token parts.2
  else [text]
termination_by text.length
decreasing_by exact search_behind_length ‹token ≠ []› ‹search token text = some parts›

theorem pieces_of_none {token text : List α} (absent : search token text = none) : pieces token text = [text] := by
  rw [pieces]
  split
  · split
    · rfl
    · rename_i parts found
      rw [absent] at found
      cases found
  · rfl

theorem pieces_of_some {token text before behind : List α} (nonempty : token ≠ [])
    (found : search token text = some (before, behind)) : pieces token text = before :: pieces token behind := by
  rw [pieces, dif_pos nonempty]
  split
  · rename_i absent
    rw [found] at absent
    cases absent
  · rename_i parts found'
    obtain rfl := Option.some.inj (found.symm.trans found')
    rfl

theorem pieces_ne_nil (token text : List α) : pieces token text ≠ [] := by
  rw [pieces]
  split
  · split <;> simp
  · simp

/-- A proof about the pieces of a text, from the last one on. -/
theorem pieces_induction {token : List α} (nonempty : token ≠ []) {motive : List α → List (List α) → Prop}
    (last : ∀ text, search token text = none → motive text [text])
    (more : ∀ text before behind, search token text = some (before, behind) → motive behind (pieces token behind) →
      motive text (before :: pieces token behind)) (text : List α) : motive text (pieces token text) := by
  induction length : text.length using Nat.strongRecOn generalizing text with
  | ind n ih =>
      cases found : search token text with
      | none =>
          rw [pieces_of_none found]
          exact last text found
      | some parts =>
          rw [pieces_of_some nonempty found]
          exact more text parts.1 parts.2 found (ih _ (length ▸ search_behind_length nonempty found) _ rfl)

theorem intercalate_pieces {token : List α} (nonempty : token ≠ []) (text : List α) :
    token.intercalate (pieces token text) = text := by
  refine pieces_induction nonempty (motive := fun text parts => token.intercalate parts = text) ?_ ?_ text
  · intro text _
    exact List.intercalate_singleton
  · intro text before behind found ih
    rw [List.intercalate_cons_of_ne_nil (pieces_ne_nil token behind), ih, search_eq_some found, List.append_assoc]

theorem not_infix_of_mem_pieces {token text piece : List α} (nonempty : token ≠ []) (mem : piece ∈ pieces token text) :
    ¬ token <:+: piece := by
  revert mem
  refine pieces_induction nonempty (motive := fun _ parts => piece ∈ parts → ¬ token <:+: piece) ?_ ?_ text
  · intro text absent mem
    rw [List.mem_singleton.mp mem]
    exact search_eq_none.mp absent
  · intro text before behind found ih mem
    rcases List.mem_cons.mp mem with rfl | mem
    · exact search_before nonempty found
    · exact ih mem

theorem pieces_singleton (c : α) (text : List α) : pieces [c] text = text.splitOn c := by
  have clean : ∀ piece ∈ pieces [c] text, c ∉ piece := fun piece mem inside =>
    not_infix_of_mem_pieces (by simp) mem (List.singleton_infix_iff c piece |>.mpr inside)
  rw [← List.splitOn_intercalate c clean (pieces_ne_nil _ _), intercalate_pieces (by simp)]

omit [DecidableEq α] in
theorem suffix_dropWhile {p : α → Bool} {text rest : List α} (suffix : rest <:+ text) (stop : ∀ a ∈ rest.head?, p a = false) :
    rest <:+ text.dropWhile p := by
  induction text with
  | nil => simpa using suffix
  | cons a text ih =>
      rcases List.suffix_cons_iff.mp suffix with rfl | shorter
      · rw [List.dropWhile_cons_of_neg (by rw [stop a (by simp)]; exact Bool.false_ne_true)]
      · by_cases skipped : p a
        · rw [List.dropWhile_cons_of_pos skipped]
          exact ih shorter
        · rw [List.dropWhile_cons_of_neg skipped]
          exact suffix

end Text
