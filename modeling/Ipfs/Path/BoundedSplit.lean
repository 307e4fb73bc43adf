import Ipfs.Path.Clean

/-!
# Splitting into so many parts

With a limit, `ipfs_path_split_n` cuts once more than it says, and the last part ends at the next delimiter.
-/

namespace Ipfs.Path
open Conversion

/-- At most `n` parts are returned, and joined they are the string. -/
def SplitsBounded (p delim : CString) (n : Int) : Prop :=
  ∃ parts, splitN p delim n = .returned parts ∧ (parts.length : Int) ≤ n ∧ delim.bytes.intercalate parts = p.bytes

/-- A delimiter of 2^31 bytes or more whose length is zero or negative as an `int`: the second part is the end of the
first, which happens to stand behind the delimiter. -/
def EndsRepeated (p delim : CString) : Prop :=
  sizeToInt delim.strlen ≤ 0 ∧ ∃ before behind, Text.search delim.bytes p.bytes = some (before, behind) ∧
    behind <:+ before ∧ (behind.length : Int) = -sizeToInt delim.strlen

/-- The string has no more than `n` parts, so that nothing behind them is lost, and the numbers are `int`s. -/
def FitsBounded (p delim : CString) (n : Int) : Prop :=
  n ≤ 2 ^ 31 - 3 ∧
    ((delim.bytes <:+: p.bytes → delim.strlen < 2 ^ 31) ∧ ((Text.pieces delim.bytes p.bytes).length : Int) ≤ n ∨
      2 ≤ n ∧ EndsRepeated p delim)

section
variable {p delim : CString} {n : Int}

theorem exists_cut {delim : Bytes} {k : Nat} (positive : 0 < k) (short : k ≤ delim.length) (text : Bytes) :
    ∃ parts, Cut delim k text parts := by
  induction length : text.length using Nat.strong_induction_on generalizing text with
  | h size ih =>
      cases found : Text.search delim text with
      | none => exact ⟨_, .last found⟩
      | some halves =>
          obtain ⟨before, behind⟩ := halves
          have whole := congrArg List.length (Text.search_eq_some found)
          rw [List.length_append, List.length_append] at whole
          obtain ⟨parts, rest⟩ := ih _ (by rw [List.length_drop]; omega) (text.drop (before.length + k)) rfl
          exact ⟨_, .more found (by omega) rest⟩

theorem splitN_eq_returned (positive : 1 ≤ n) {parts : List Bytes} :
    splitN p delim n = .returned parts ↔
      n ≤ 2 ^ 31 - 3 ∧ ∃ r rbuf,
        cutParts delim.bytes (sizeToInt delim.strlen) (n.toNat + 1) p.bytes 0 = .returned (r, rbuf) ∧
          r.map (fun c => cString (rbuf.drop c)) = parts := by
  have added {m : Int} (lower : 0 ≤ m) {sum : Int} : intAdd m 1 = .returned sum ↔ m ≤ 2 ^ 31 - 2 ∧ sum = m + 1 := by
    obtain ⟨k, rfl⟩ := Int.eq_ofNat_of_zero_le lower
    rw [intAdd_one_eq_returned]
    omega
  rw [splitN, if_neg (by omega)]
  simp only [partLimit, if_neg (show ¬ n < 0 by omega), Outcome.bind_eq_returned, Outcome.pure_def, Outcome.returned.injEq,
    added (show 0 ≤ n by omega)]
  constructor
  · rintro ⟨_, ⟨-, rfl⟩, _, next, ⟨r, rbuf⟩, cut, rfl⟩
    have bound := ((added (by omega)).mp next).1
    refine ⟨by omega, r, rbuf, ?_, rfl⟩
    rwa [show (n + 1).toNat = n.toNat + 1 by omega] at cut
  · rintro ⟨bound, r, rbuf, cut, rfl⟩
    refine ⟨n + 1, ⟨by omega, rfl⟩, _, (added (by omega)).mpr ⟨by omega, rfl⟩, (r, rbuf), ?_, rfl⟩
    rwa [show (n + 1).toNat = n.toNat + 1 by omega]

theorem splitN_eq_take (positive : 1 ≤ n) {k : Nat} (step : sizeToInt delim.strlen = k) (forward : 0 < k) {whole : List Bytes}
    (cut : Cut delim.bytes k p.bytes whole) {parts : List Bytes} :
    splitN p delim n = .returned parts ↔ n ≤ 2 ^ 31 - 3 ∧ parts = whole.take (n.toNat + 1) := by
  obtain ⟨r, changed, ran, starts⟩ := cutParts_of_cut forward cut p.nulFree [] (n.toNat + 1)
  rw [List.nil_append, List.nil_append, List.length_nil] at ran
  rw [List.nil_append] at starts
  rw [splitN_eq_returned positive, step, ran, ← starts]
  refine and_congr_right fun _ => ⟨?_, ?_⟩
  · rintro ⟨r', rbuf, same, rfl⟩
    obtain ⟨rfl, rfl⟩ := Prod.mk.injEq .. ▸ Outcome.returned.inj same
    rfl
  · rintro rfl
    exact ⟨r, changed, rfl, rfl⟩

theorem splitsBounded_of_cut (positive : 1 ≤ n) {k : Nat} (step : sizeToInt delim.strlen = k) (forward : 0 < k)
    {whole : List Bytes} (cut : Cut delim.bytes k p.bytes whole) :
    SplitsBounded p delim n ↔
      n ≤ 2 ^ 31 - 3 ∧ (whole.length : Int) ≤ n ∧ delim.bytes.intercalate whole = p.bytes := by
  have complete (few : (whole.length : Int) ≤ n) : whole.take (n.toNat + 1) = whole :=
    List.take_of_length_le (by omega)
  constructor
  · rintro ⟨parts, split, few, joined⟩
    obtain ⟨bound, rfl⟩ := (splitN_eq_take positive step forward cut).mp split
    rw [List.length_take] at few
    have few' : (whole.length : Int) ≤ n := by omega
    rw [complete few'] at joined
    exact ⟨bound, few', joined⟩
  · rintro ⟨bound, few, joined⟩
    exact ⟨whole, (splitN_eq_take positive step forward cut).mpr ⟨bound, (complete few).symm⟩, few, joined⟩

theorem splitsBounded_absent (positive : 1 ≤ n) (absent : ¬ delim.bytes <:+: p.bytes) :
    SplitsBounded p delim n ↔ n ≤ 2 ^ 31 - 3 := by
  have single : cutParts delim.bytes (sizeToInt delim.strlen) (n.toNat + 1) p.bytes 0 = .returned ([0], p.bytes) := by
    rw [cutParts, List.drop_zero, cString_of_clean p.nulFree, Text.search_eq_none.mpr absent]
  constructor
  · rintro ⟨parts, split, -⟩
    exact ((splitN_eq_returned positive).mp split).1
  · intro bound
    refine ⟨[p.bytes], (splitN_eq_returned positive).mpr ⟨bound, _, _, single, ?_⟩, positive, List.intercalate_singleton⟩
    rw [List.map_singleton, List.drop_zero, cString_of_clean p.nulFree]

/-- Going on at or in front of the occurrence, the rest of the first part is found again. -/
theorem cutParts_back {dlen : Int} (back : dlen ≤ 0) (nonempty : delim.bytes ≠ []) {before behind : Bytes}
    (found : Text.search delim.bytes p.bytes = some (before, behind)) {m : Nat} {r : List Nat} {rbuf : Bytes} :
    cutParts delim.bytes dlen (m + 2) p.bytes 0 = .returned (r, rbuf) ↔
      0 ≤ before.length + dlen ∧ r = [0, (before.length + dlen).toNat] ∧ rbuf = p.bytes.set before.length 0 := by
  have whole := Text.search_eq_some found
  obtain ⟨x, xs, token⟩ := List.exists_cons_of_ne_nil nonempty
  have inside : before.length < p.bytes.length := by
    rw [whole, token]
    simp
  have buffer : p.bytes.set before.length 0 = before ++ 0 :: (xs ++ behind) := by
    rw [whole, token, List.cons_append]
    simp
  have cleanBefore : 0 ∉ before := fun mem => p.nulFree (whole ▸ List.mem_append_left _ mem)
  have again (lower : 0 ≤ before.length + dlen) :
      Text.search delim.bytes (cString ((p.bytes.set before.length 0).drop (before.length + dlen).toNat)) = none := by
    rw [buffer, List.drop_append_of_le_length (by omega),
      cString_append_nul fun mem => cleanBefore (List.mem_of_mem_drop mem), Text.search_eq_none]
    exact fun occurs => Text.search_before nonempty found (occurs.trans (List.drop_suffix _ _).isInfix)
  rw [cutParts, List.drop_zero, cString_of_clean p.nulFree, found]
  simp only [Nat.zero_add, Outcome.bind_eq_returned, Outcome.pure_def, Outcome.returned.injEq, Prod.mk.injEq]
  constructor
  · rintro ⟨next, moved, ⟨r', rbuf'⟩, rest, rfl, rfl⟩
    rw [advance] at moved
    split at moved
    · rename_i range
      obtain rfl := Outcome.returned.inj moved
      rw [cutParts, again range.1] at rest
      obtain ⟨rfl, rfl⟩ := Prod.mk.injEq .. ▸ Outcome.returned.inj rest
      exact ⟨range.1, rfl, rfl⟩
    · cases moved
  · rintro ⟨lower, rfl, rfl⟩
    refine ⟨_, by rw [advance, if_pos ⟨lower, by omega⟩], ([(before.length + dlen).toNat], p.bytes.set before.length 0), ?_,
      rfl, rfl⟩
    rw [cutParts, again lower]

theorem splitsBounded_back (positive : 1 ≤ n) (nonempty : delim.bytes ≠ []) (back : sizeToInt delim.strlen ≤ 0)
    (occurs : delim.bytes <:+: p.bytes) :
    SplitsBounded p delim n ↔ n ≤ 2 ^ 31 - 3 ∧ 2 ≤ n ∧ EndsRepeated p delim := by
  obtain ⟨⟨before, behind⟩, found⟩ : ∃ halves, Text.search delim.bytes p.bytes = some halves :=
    Option.ne_none_iff_exists'.mp fun absent => Text.search_eq_none.mp absent occurs
  have whole := Text.search_eq_some found
  have room : n.toNat + 1 = n.toNat - 1 + 2 := by omega
  have starts (lower : 0 ≤ before.length + sizeToInt delim.strlen) :
      [0, (before.length + sizeToInt delim.strlen).toNat].map
          (fun c => cString ((p.bytes.set before.length 0).drop c)) =
        [before, before.drop (before.length + sizeToInt delim.strlen).toNat] := by
    obtain ⟨x, xs, token⟩ := List.exists_cons_of_ne_nil nonempty
    have buffer : p.bytes.set before.length 0 = before ++ 0 :: (xs ++ behind) := by
      rw [whole, token, List.cons_append]
      simp
    have clean : 0 ∉ before := fun mem => p.nulFree (whole ▸ List.mem_append_left _ mem)
    rw [buffer, List.map_cons, List.map_singleton, List.drop_zero, cString_append_nul clean,
      List.drop_append_of_le_length (by omega), cString_append_nul fun mem => clean (List.mem_of_mem_drop mem)]
  have joined (part : Bytes) : delim.bytes.intercalate [before, part] = p.bytes ↔ part = behind := by
    rw [List.intercalate_cons_cons, List.intercalate_singleton, whole, ← List.append_assoc,
      List.append_cancel_left_eq]
  have isRepeated : EndsRepeated p delim ↔ 0 ≤ before.length + sizeToInt delim.strlen ∧
      before.drop (before.length + sizeToInt delim.strlen).toNat = behind := by
    constructor
    · rintro ⟨-, first, last, found', suffix, length⟩
      obtain ⟨rfl, rfl⟩ := Prod.mk.injEq .. ▸ Option.some.inj (found.symm.trans found')
      have shorter := suffix.length_le
      refine ⟨by omega, ?_⟩
      rw [show (before.length + sizeToInt delim.strlen).toNat = before.length - behind.length by omega]
      exact (List.suffix_iff_eq_drop.mp suffix).symm
    · rintro ⟨lower, same⟩
      have length := congrArg List.length same
      rw [List.length_drop] at length
      exact ⟨back, before, behind, found, same ▸ List.drop_suffix _ _, by omega⟩
  rw [isRepeated]
  constructor
  · rintro ⟨parts, split, few, whole'⟩
    obtain ⟨bound, r, rbuf, cut, rfl⟩ := (splitN_eq_returned positive).mp split
    rw [room] at cut
    obtain ⟨lower, rfl, rfl⟩ := (cutParts_back back nonempty found).mp cut
    rw [starts lower] at few whole'
    exact ⟨bound, by simpa using few, lower, (joined _).mp whole'⟩
  · rintro ⟨bound, two, lower, same⟩
    have cut := (cutParts_back (m := n.toNat - 1) back nonempty found).mpr ⟨lower, rfl, rfl⟩
    rw [← room] at cut
    have parts := (splitN_eq_returned positive).mpr ⟨bound, _, _, cut, starts lower⟩
    exact ⟨_, parts, by simpa using two, (joined _).mpr same⟩

theorem not_endsRepeated_short (nonempty : delim.bytes ≠ []) (short : delim.strlen < 2 ^ 31) : ¬ EndsRepeated p delim := by
  rintro ⟨back, -⟩
  have some : 0 < delim.strlen := List.length_pos_of_ne_nil nonempty
  rw [sizeToInt_of_lt short] at back
  omega

/-- Exactly the strings with at most `n` parts are split into at most `n` parts without a loss. -/
theorem splitsBounded_iff (positive : 1 ≤ n) (nonempty : delim.bytes ≠ []) :
    SplitsBounded p delim n ↔ FitsBounded p delim n := by
  have some : 0 < delim.strlen := List.length_pos_of_ne_nil nonempty
  rw [FitsBounded]
  by_cases occurs : delim.bytes <:+: p.bytes
  · by_cases short : delim.strlen < 2 ^ 31
    · rw [splitsBounded_of_cut positive (sizeToInt_of_lt short) some (cut_pieces nonempty p.bytes)]
      simp only [Text.intercalate_pieces nonempty, and_true, occurs, short, true_and,
        not_endsRepeated_short nonempty short, and_false, or_false, forall_const]
    · simp only [occurs, short, forall_const, false_and, false_or]
      rcases le_or_gt (sizeToInt delim.strlen) 0 with back | forward
      · exact splitsBounded_back positive nonempty back occurs
      · obtain ⟨k, step⟩ := Int.eq_ofNat_of_zero_le forward.le
        have upper := sizeToInt_lt delim.strlen
        obtain ⟨whole, cut⟩ : ∃ whole, Cut delim.bytes k p.bytes whole :=
          exists_cut (by omega) (by rw [← CString.strlen]; omega) p.bytes
        have longer := cut.length_lt (by rw [← CString.strlen]; omega) occurs
        rw [splitsBounded_of_cut positive step (by omega) cut]
        constructor
        · rintro ⟨-, -, joined⟩
          rw [joined] at longer
          exact absurd longer (lt_irrefl _)
        · rintro ⟨-, -, back, -⟩
          exact absurd back (not_le.mpr forward)
  · have single := Text.pieces_of_none (Text.search_eq_none.mpr occurs)
    have one : ((Text.pieces delim.bytes p.bytes).length : Int) ≤ n := by rwa [single]
    rw [splitsBounded_absent positive occurs]
    simp only [occurs, false_implies, one, true_or, and_true]

end

end Ipfs.Path
