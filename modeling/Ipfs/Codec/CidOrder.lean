import Ipfs.Codec.Cid
import Ipfs.Lib.SerialOrder

/-!
# The order of Cids

`ipfs_cid_compare` subtracts the first fields that differ.
-/

namespace Ipfs

/-- The fields in the order in which they are compared. -/
def Cid.key (cid : Cid) : List Int :=
  cid.version.toInt :: cid.codec.toInt :: cid.hash.length :: cid.hash.map fun byte => (byte.toNat : Int)

def cidCompareInt (a b : Cid) : Int := (cidCompare (some a) (some b)).toInt

theorem ofNat_sub_ofNat_toInt (m n : Nat) : (Int32.ofNat m - Int32.ofNat n).toInt = ((m : Int) - n).bmod (2 ^ 32) := by
  rw [Int32.toInt_sub, Int32.toInt_ofNat', Int32.toInt_ofNat']
  exact (Int.sub_bmod ..).symm

theorem compare_bytes {xs ys : Bytes} (length : xs.length = ys.length) :
    SerialOrder.compare (xs.map fun byte => (byte.toNat : Int)) (ys.map fun byte => (byte.toNat : Int)) =
      Int32.toInt (match (xs.zip ys).find? fun (x, y) => x ≠ y with
        | some (x, y) => .ofNat y.toNat - .ofNat x.toNat
        | none => 0) := by
  induction xs generalizing ys with
  | nil => rfl
  | cons x xs ih =>
      cases ys with
      | nil => cases length
      | cons y ys =>
          rw [SerialOrder.compare, List.map_cons, List.map_cons, SerialOrder.firstDifference, List.zip_cons_cons]
          by_cases same : x = y
          · subst same
            rw [if_pos rfl, List.find?_cons_of_neg (by simp)]
            exact ih (by simpa using length)
          · have ne : (x.toNat : Int) ≠ y.toNat := fun eq => same (UInt8.toNat_inj.mp (by exact_mod_cast eq))
            rw [if_neg ne, List.find?_cons_of_pos (by simpa using same)]
            exact (ofNat_sub_ofNat_toInt y.toNat x.toNat).symm

theorem cidCompareInt_eq (a b : Cid) : cidCompareInt a b = SerialOrder.compare a.key b.key := by
  rw [cidCompareInt, cidCompare, SerialOrder.compare, Cid.key, Cid.key, SerialOrder.firstDifference]
  by_cases version : a.version = b.version
  · rw [if_neg (not_not.mpr version), if_pos (congrArg _ version), SerialOrder.firstDifference]
    by_cases codec : a.codec = b.codec
    · rw [if_neg (not_not.mpr codec), if_pos (congrArg _ codec), SerialOrder.firstDifference]
      by_cases length : a.hash.length = b.hash.length
      · rw [if_neg (not_not.mpr length), if_pos (congrArg _ length)]
        exact (compare_bytes length).symm
      · rw [if_pos length, if_neg (by exact_mod_cast length), ofNat_sub_ofNat_toInt]
    · rw [if_pos codec, if_neg (mt Int32.toInt_inj.mp codec), Int32.toInt_sub]
  · rw [if_pos version, if_neg (mt Int32.toInt_inj.mp version), Int32.toInt_sub]

theorem firstDifference_key_eq_zero_iff (a b : Cid) : SerialOrder.firstDifference a.key b.key = 0 ↔ a = b := by
  obtain ⟨version, codec, hash⟩ := a
  obtain ⟨version', codec', hash'⟩ := b
  have injective : Function.Injective fun byte : UInt8 => (byte.toNat : Int) :=
    fun x y eq => UInt8.toNat_inj.mp (Nat.cast_inj.mp eq)
  rw [Cid.key, Cid.key, Cid.mk.injEq, SerialOrder.firstDifference_cons_eq_zero_iff,
    SerialOrder.firstDifference_cons_eq_zero_iff, SerialOrder.firstDifference_cons_eq_zero_iff, Int32.toInt_inj,
    Int32.toInt_inj, Nat.cast_inj]
  refine and_congr_right fun _ => and_congr_right fun _ => ⟨?_, ?_⟩
  · rintro ⟨length, bytes⟩
    exact injective.list_map ((SerialOrder.firstDifference_eq_zero_iff (by simpa using length)).mp bytes)
  · rintro rfl
    exact ⟨rfl, SerialOrder.firstDifference_self _⟩

/-- Only Cids with a hash of 4 GiB compare equal without being equal. -/
theorem eq_of_cidCompare_eq_zero {a b : Cid} (shortA : a.hash.length < 2 ^ 32) (shortB : b.hash.length < 2 ^ 32)
    (same : cidCompare (some a) (some b) = 0) : a = b := by
  obtain ⟨version, codec, hash⟩ := a
  obtain ⟨version', codec', hash'⟩ := b
  simp only [cidCompare] at same shortA shortB
  have equal {x y : Int32} (difference : y - x = 0) : x = y := by
    rw [← Int32.sub_add_cancel y x, difference, Int32.zero_add]
  have noDifference {m n : Nat} (mBound : m < 2 ^ 32) (nBound : n < 2 ^ 32)
      (difference : Int32.ofNat m - Int32.ofNat n = 0) : m = n := by
    have value := congrArg Int32.toInt difference
    rw [ofNat_sub_ofNat_toInt, Int32.toInt_zero, Int.bmod_def] at value
    split at value <;> omega
  split at same
  · rename_i other
    exact absurd (equal same) other
  split at same
  · rename_i other
    exact absurd (equal same) other
  split at same
  · rename_i other
    exact absurd (noDifference shortB shortA same).symm other
  rename_i version codec length
  obtain rfl := not_not.mp version
  obtain rfl := not_not.mp codec
  split at same
  · rename_i x y found
    have bytes := noDifference (by have := y.toNat_lt; omega) (by have := x.toNat_lt; omega) same
    have differ := List.find?_some found
    exact absurd (UInt8.toNat_inj.mp bytes).symm (by simpa using differ)
  · rename_i none
    have pairs : ∀ pair ∈ hash.zip hash', pair.1 = pair.2 := by simpa using none
    congr 1
    refine List.ext_getElem (not_not.mp length) fun i left right => ?_
    have bound : i < (hash.zip hash').length := by simp [left, right]
    simpa using pairs _ (List.getElem_mem bound)

/-- Comparison is a total order of a set of Cids as long as no two differ first by half the circle or a whole one,
and no three go round it. -/
theorem cidCompare_total_iff (S : Set Cid) :
    SerialOrder.Total cidCompareInt S ↔ (∀ a ∈ S, ∀ b ∈ S, SerialOrder.Apart a.key b.key) ∧
      ∀ a ∈ S, ∀ b ∈ S, ∀ c ∈ S, ¬ SerialOrder.Round a.key b.key c.key :=
  SerialOrder.total_iff cidCompareInt_eq firstDifference_key_eq_zero_iff

def versioned (version : Int32) : Cid := ⟨version, 0x70, [0x12]⟩

/-- Versions half the circle apart come behind each other, and three versions go round. -/
theorem not_cidCompare_total :
    ¬ SerialOrder.Total cidCompareInt {versioned (-1), versioned 2147483647} ∧
      ¬ SerialOrder.Total cidCompareInt {versioned (-1500000000), versioned 0, versioned 1500000000} := by
  constructor
  · intro total
    have signs := total.opposite (versioned (-1)) (by simp) (versioned 2147483647) (by simp)
    revert signs
    decide
  · intro total
    have turn := total.trans (versioned 1500000000) (by simp) (versioned 0) (by simp) (versioned (-1500000000)) (by simp)
      (by decide) (by decide)
    revert turn
    decide

end Ipfs
