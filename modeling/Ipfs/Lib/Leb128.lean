import Mathlib.Tactic

/-!
# LEB128

Numbers in groups of seven bits, lowest group first, the high bit set on every group but the last.
-/

namespace Leb128

def groups : Nat → Nat → List UInt8
  | 0, n => [n.toUInt8]
  | fuel + 1, n =>
      if n < 128 then [n.toUInt8] else (n % 128 + 128).toUInt8 :: groups fuel (n / 128)

def encode (n : Nat) : List UInt8 := groups n n

def decode : List UInt8 → Option (Nat × Nat)
  | [] => none
  | b :: rest =>
      if b.toNat < 128 then some (b.toNat, 1)
      else (decode rest).map fun p => (b.toNat - 128 + 128 * p.1, p.2 + 1)

theorem groups_stable (fuel fuel' n : Nat) (le : n ≤ fuel) (le' : n ≤ fuel') :
    groups fuel n = groups fuel' n := by
  induction fuel generalizing fuel' n with
  | zero =>
      obtain rfl : n = 0 := by omega
      cases fuel' <;> simp [groups]
  | succ fuel ih =>
      cases fuel' with
      | zero =>
          obtain rfl : n = 0 := by omega
          simp [groups]
      | succ fuel' =>
          by_cases small : n < 128
          · simp [groups, small]
          · simp only [groups, small, if_false]
            rw [ih fuel' (n / 128) (by omega) (by omega)]

theorem encode_lt {n : Nat} (h : n < 128) : encode n = [n.toUInt8] := by
  cases n <;> simp [encode, groups, h]

theorem encode_ge {n : Nat} (h : 128 ≤ n) :
    encode n = (n % 128 + 128).toUInt8 :: encode (n / 128) := by
  obtain ⟨m, rfl⟩ : ∃ m, n = m + 1 := ⟨n - 1, by omega⟩
  rw [encode, groups, if_neg (by omega), encode]
  rw [groups_stable m ((m + 1) / 128) _ (by omega) le_rfl]

theorem toNat_toUInt8 {n : Nat} (h : n < 256) : n.toUInt8.toNat = n := by
  simp [Nat.mod_eq_of_lt h]

@[simp] theorem decode_encode (n : Nat) (rest : List UInt8) :
    decode (encode n ++ rest) = some (n, (encode n).length) := by
  induction n using Nat.strongRecOn with
  | ind n ih =>
      by_cases small : n < 128
      · simp [encode_lt small, decode, toNat_toUInt8 (show n < 256 by omega), small]
      · have byte := toNat_toUInt8 (show n % 128 + 128 < 256 by omega)
        rw [encode_ge (by omega), List.cons_append, decode, byte, if_neg (by omega),
          ih (n / 128) (by omega)]
        simp only [Option.map_some, Option.some.injEq, Prod.mk.injEq, List.length_cons, and_true]
        omega

theorem encode_length_pos (n : Nat) : 0 < (encode n).length := by
  by_cases small : n < 128
  · simp [encode_lt small]
  · simp [encode_ge (show 128 ≤ n by omega)]

theorem encode_length_le (k n : Nat) (h : n < 128 ^ (k + 1)) : (encode n).length ≤ k + 1 := by
  induction k generalizing n with
  | zero => simp [encode_lt (show n < 128 by omega)]
  | succ k ih =>
      by_cases small : n < 128
      · simp [encode_lt small]
      · rw [encode_ge (by omega), List.length_cons]
        have := ih (n / 128) (by rw [Nat.div_lt_iff_lt_mul (by omega)]; rwa [pow_succ] at h)
        omega

theorem le_encode_length (k n : Nat) (h : 128 ^ k ≤ n) : k + 1 ≤ (encode n).length := by
  induction k generalizing n with
  | zero => exact encode_length_pos n
  | succ k ih =>
      have large : 128 ≤ n := le_trans (by simpa using Nat.pow_le_pow_right (show 0 < 128 by decide) (Nat.le_add_left 1 k)) h
      have := ih (n / 128) (by rw [Nat.le_div_iff_mul_le (by decide)]; rwa [pow_succ] at h)
      rw [encode_ge large, List.length_cons]
      omega

theorem encode_length_le_ten {n : Nat} (h : n < 2 ^ 64) : (encode n).length ≤ 10 :=
  encode_length_le 9 n (lt_trans h (by norm_num))

/-! ## Order -/

theorem encode_append_lt_iff {m n : Nat} (ne : m ≠ n) (rest rest' : List UInt8) :
    encode m ++ rest < encode n ++ rest' ↔ encode m < encode n := by
  induction m using Nat.strongRecOn generalizing n with
  | ind m ih =>
      have byte {k : Nat} (large : 128 ≤ k) := toNat_toUInt8 (show k % 128 + 128 < 256 by omega)
      rcases lt_or_ge m 128 with small | large
      · have first := toNat_toUInt8 (show m < 256 by omega)
        rcases lt_or_ge n 128 with small' | large'
        · have first' := toNat_toUInt8 (show n < 256 by omega)
          have heads : m.toUInt8 ≠ n.toUInt8 := fun same => ne (by rw [← first, same, first'])
          simp [encode_lt small, encode_lt small', List.cons_lt_cons_iff, heads]
        · have heads : m.toUInt8 ≠ (n % 128 + 128).toUInt8 := fun same => by
            have := byte large'
            rw [← same, first] at this
            omega
          simp only [encode_lt small, encode_ge large', List.cons_append, List.cons_lt_cons_iff, heads, false_and]
      · rcases lt_or_ge n 128 with small' | large'
        · have first' := toNat_toUInt8 (show n < 256 by omega)
          have heads : (m % 128 + 128).toUInt8 ≠ n.toUInt8 := fun same => by
            have := byte large
            rw [same, first'] at this
            omega
          simp only [encode_ge large, encode_lt small', List.cons_append, List.cons_lt_cons_iff, heads, false_and]
        · rw [encode_ge large, encode_ge large', List.cons_append, List.cons_append, List.cons_lt_cons_iff,
            List.cons_lt_cons_iff]
          refine or_congr_right (and_congr_right fun heads => ih (m / 128) (by omega) ?_)
          have low : m % 128 + 128 = n % 128 + 128 := by rw [← byte large, heads, byte large']
          omega

theorem not_encode_lt_zero (n : Nat) : ¬ encode n < encode 0 := by
  cases code : encode n with
  | nil => exact absurd (encode_length_pos n) (by simp [code])
  | cons byte rest => simp [encode_lt (show 0 < 128 by decide), List.cons_lt_cons_iff, UInt8.lt_iff_toNat_lt]

theorem decode_bound {bytes : List UInt8} {n k : Nat} (h : decode bytes = some (n, k)) :
    0 < k ∧ k ≤ bytes.length := by
  induction bytes generalizing n k with
  | nil => simp [decode] at h
  | cons b rest ih =>
      rw [decode] at h
      split at h
      · simp only [Option.some.injEq, Prod.mk.injEq] at h
        simp [← h.2]
      · obtain ⟨⟨m, j⟩, hd, eq⟩ := Option.map_eq_some_iff.mp h
        have := ih hd
        simp only [Prod.mk.injEq] at eq
        simp only [List.length_cons, ← eq.2]
        omega

theorem decode_append {bytes : List UInt8} {p : Nat × Nat} (h : decode bytes = some p) (rest : List UInt8) :
    decode (bytes ++ rest) = some p := by
  induction bytes generalizing p with
  | nil => simp [decode] at h
  | cons b bytes ih =>
      rw [List.cons_append, decode]
      rw [decode] at h
      split at h
      · rwa [if_pos ‹_›]
      · obtain ⟨q, behind, rfl⟩ := Option.map_eq_some_iff.mp h
        rw [if_neg ‹_›, ih behind, Option.map_some]

end Leb128
