import Ipfs.Lib.Conversion
import Ipfs.Lib.SerialOrder
import Ipfs.Store.Lmdb

/-!
# The order of journal records

`lmdb_journalstore_composite_key_compare` puts the later timestamp first, then the longer hash, then the larger
byte; the position in the hash is an `int`.
-/

namespace Ipfs
open Conversion SerialOrder

/-- The loop over the bytes of two hashes, at the position `i`. -/
def hashBytesCompare (i : Int) : Bytes → Bytes → Outcome Int
  | x :: xs, y :: ys =>
      if x ≠ y then .returned ((y.toNat : Int) - x.toNat)
      else do
        let i ← intAdd i 1
        hashBytesCompare i xs ys
  | _, _ => .returned 0

def lmdbJournalstoreCompositeKeyCompare : Option JournalRecord → Option JournalRecord → Outcome Int
  | none, none => .returned 0
  | none, some _ => .returned 1
  | some _, none => .returned (-1)
  | some a, some b =>
      if a.timestamp ≠ b.timestamp then
        if a.timestamp > b.timestamp then .returned (-1) else .returned 1
      else if a.hash.length ≠ b.hash.length then
        if a.hash.length > b.hash.length then .returned (-1) else .returned 1
      else hashBytesCompare 0 a.hash b.hash

/-- What is compared of a record: neither `pin` nor `pending`. -/
def JournalRecord.compared (record : JournalRecord) : UInt64 × Bytes := (record.timestamp, record.hash)

/-- The comparison of the records of a set, NULL among them or not, is total, with what is later before. -/
structure JournalOrder (order : Option (UInt64 × Bytes) → Option (UInt64 × Bytes) → Int)
    (S : Set (Option JournalRecord)) : Prop where
  compares : ∀ a ∈ S, ∀ b ∈ S, lmdbJournalstoreCompositeKeyCompare a b =
    .returned (order (a.map JournalRecord.compared) (b.map JournalRecord.compared))
  total : Total order (Option.map JournalRecord.compared '' S)
  later : ∀ a b, some a ∈ S → some b ∈ S → b.timestamp < a.timestamp → order (some a.compared) (some b.compared) < 0
  null : none ∈ S → ∀ a, some a ∈ S → 0 < order none (some a.compared)

/-! ## The order that is computed -/

def byteKey (hash : Bytes) : List Int := hash.map fun byte => (byte.toNat : Int)

/-- The numbers by which records are compared, one after the other; NULL has an earlier time than any. -/
def compositeKey : Option (UInt64 × Bytes) → List Int
  | none => [-1]
  | some (timestamp, hash) => timestamp.toNat :: hash.length :: byteKey hash

def compositeOrder : Option (UInt64 × Bytes) → Option (UInt64 × Bytes) → Int
  | none, none => 0
  | none, some _ => 1
  | some _, none => -1
  | some (timestamp, hash), some (timestamp', hash') =>
      if timestamp ≠ timestamp' then if timestamp > timestamp' then -1 else 1
      else if hash.length ≠ hash'.length then if hash.length > hash'.length then -1 else 1
      else firstDifference (byteKey hash) (byteKey hash')

theorem byteKey_injective : Function.Injective byteKey :=
  List.map_injective_iff.mpr fun _ _ same => UInt8.toNat_inj.mp (Nat.cast_inj.mp same)

theorem length_byteKey (hash : Bytes) : (byteKey hash).length = hash.length := List.length_map _

theorem firstDifference_compositeKey_eq_zero_iff (a b : Option (UInt64 × Bytes)) :
    firstDifference (compositeKey a) (compositeKey b) = 0 ↔ a = b := by
  cases a with
  | none =>
      cases b with
      | none => simp
      | some b =>
          simp only [compositeKey, firstDifference]
          split <;> simp <;> omega
  | some a =>
      obtain ⟨timestamp, hash⟩ := a
      cases b with
      | none =>
          simp only [compositeKey, firstDifference]
          split <;> simp <;> omega
      | some b =>
          obtain ⟨timestamp', hash'⟩ := b
          unfold compositeKey
          rw [firstDifference_cons_eq_zero_iff, firstDifference_cons_eq_zero_iff, Option.some.injEq, Prod.mk.injEq,
            Nat.cast_inj, UInt64.toNat_inj, Nat.cast_inj]
          apply and_congr_right
          intro _
          constructor
          · rintro ⟨length, bytes⟩
            exact byteKey_injective ((firstDifference_eq_zero_iff (by rw [length_byteKey, length_byteKey, length])).mp bytes)
          · rintro rfl
            exact ⟨rfl, firstDifference_self _⟩

/-- Which of two numbers is greater has the sign of their difference. -/
theorem sign_descending {x y : Int} (other : x ≠ y) : (if x > y then (-1 : Int) else 1).sign = (y - x).sign := by
  by_cases greater : x > y
  · rw [if_pos greater, Int.sign_eq_neg_one_of_neg (by omega : y - x < 0)]
    rfl
  · rw [if_neg greater, Int.sign_eq_one_of_pos (by omega : 0 < y - x)]
    rfl

theorem sign_compositeOrder (a b : Option (UInt64 × Bytes)) :
    (compositeOrder a b).sign = (firstDifference (compositeKey a) (compositeKey b)).sign := by
  cases a with
  | none =>
      cases b with
      | none => rfl
      | some b =>
          unfold compositeOrder compositeKey firstDifference
          rw [if_neg (by omega), ← sign_descending (by omega), if_neg (by omega)]
  | some a =>
      obtain ⟨timestamp, hash⟩ := a
      cases b with
      | none =>
          unfold compositeOrder compositeKey firstDifference
          rw [if_neg (by omega), ← sign_descending (by omega), if_pos (by omega)]
      | some b =>
          obtain ⟨timestamp', hash'⟩ := b
          simp only [compositeOrder, compositeKey]
          rw [firstDifference, firstDifference]
          by_cases time : timestamp = timestamp'
          · have sameTime : (timestamp.toNat : Int) = timestamp'.toNat := by rw [time]
            rw [if_neg (not_not.mpr time), if_pos sameTime]
            by_cases length : hash.length = hash'.length
            · have sameLength : (hash.length : Int) = hash'.length := by rw [length]
              rw [if_neg (not_not.mpr length), if_pos sameLength]
            · have otherLength : (hash.length : Int) ≠ hash'.length := by exact_mod_cast length
              rw [if_pos length, if_neg otherLength, ← sign_descending otherLength]
              simp only [gt_iff_lt, Nat.cast_lt]
          · have otherTime : (timestamp.toNat : Int) ≠ timestamp'.toNat :=
              mt (fun same => UInt64.toNat_inj.mp (Nat.cast_inj.mp same)) time
            rw [if_pos time, if_neg otherTime, ← sign_descending otherTime]
            simp only [gt_iff_lt, Nat.cast_lt, UInt64.lt_iff_toNat_lt]

theorem compositeOrder_total (S : Set (Option (UInt64 × Bytes))) : Total compositeOrder S :=
  (total_firstDifference firstDifference_compositeKey_eq_zero_iff).of_sign sign_compositeOrder

/-! ## Where the position overflows -/

theorem hashBytesCompare_of_small {i : Nat} {xs ys : Bytes} (length : xs.length = ys.length)
    (small : i + xs.length < 2 ^ 31) :
    hashBytesCompare i xs ys = .returned (firstDifference (byteKey xs) (byteKey ys)) := by
  induction xs generalizing i ys with
  | nil => rfl
  | cons x xs ih =>
      cases ys with
      | nil => cases length
      | cons y ys =>
          rw [List.length_cons] at small
          unfold byteKey
          rw [hashBytesCompare, List.map_cons, List.map_cons, firstDifference]
          by_cases same : x = y
          · have sameByte : (x.toNat : Int) = y.toNat := by rw [same]
            rw [if_neg (not_not.mpr same), if_pos sameByte, intAdd_one, if_pos (by omega)]
            exact ih (by simpa using length) (by omega)
          · have otherByte : (x.toNat : Int) ≠ y.toNat :=
              mt (fun eq => UInt8.toNat_inj.mp (Nat.cast_inj.mp eq)) same
            rw [if_pos same, if_neg otherByte]

theorem hashBytesCompare_self {i : Nat} (below : i < 2 ^ 31) {hash : Bytes} (long : 2 ^ 31 ≤ i + hash.length) :
    hashBytesCompare i hash hash = .fault .overflow := by
  induction hash generalizing i with
  | nil =>
      rw [List.length_nil] at long
      omega
  | cons x hash ih =>
      rw [List.length_cons] at long
      rw [hashBytesCompare, if_neg (not_not.mpr rfl), intAdd_one]
      by_cases last : i + 1 < 2 ^ 31
      · rw [if_pos last]
        exact ih last (by omega)
      · rw [if_neg last]
        rfl

theorem compositeKeyCompare_eq {a b : Option JournalRecord}
    (small : ∀ record, a = some record → record.hash.length < 2 ^ 31) :
    lmdbJournalstoreCompositeKeyCompare a b =
      .returned (compositeOrder (a.map JournalRecord.compared) (b.map JournalRecord.compared)) := by
  cases a with
  | none => cases b <;> rfl
  | some a =>
      cases b with
      | none => rfl
      | some b =>
          rw [lmdbJournalstoreCompositeKeyCompare]
          simp only [Option.map_some, JournalRecord.compared, compositeOrder]
          by_cases time : a.timestamp = b.timestamp
          · rw [if_neg (not_not.mpr time), if_neg (not_not.mpr time)]
            by_cases length : a.hash.length = b.hash.length
            · rw [if_neg (not_not.mpr length), if_neg (not_not.mpr length)]
              apply hashBytesCompare_of_small (i := 0) length
              simpa using small a rfl
            · rw [if_pos length, if_pos length]
              split <;> rfl
          · rw [if_pos time, if_pos time]
            split <;> rfl

theorem compositeKeyCompare_self {record : JournalRecord} (long : 2 ^ 31 ≤ record.hash.length) :
    lmdbJournalstoreCompositeKeyCompare (some record) (some record) = .fault .overflow := by
  rw [lmdbJournalstoreCompositeKeyCompare, if_neg (not_not.mpr rfl), if_neg (not_not.mpr rfl)]
  apply hashBytesCompare_self (i := 0) (by omega)
  simpa using long

/-- Journal records are ordered as long as an `int` can step through the hash of each. -/
theorem compositeKeyCompare_orders_iff (S : Set (Option JournalRecord)) :
    (∃ order, JournalOrder order S) ↔ ∀ record, some record ∈ S → record.hash.length < 2 ^ 31 := by
  constructor
  · rintro ⟨order, orders⟩ record mem
    by_contra long
    have compared := orders.compares _ mem _ mem
    rw [compositeKeyCompare_self (by omega)] at compared
    cases compared
  · intro small
    refine ⟨compositeOrder, ?_, compositeOrder_total _, ?_, ?_⟩
    · intro a memA b _
      apply compositeKeyCompare_eq
      rintro record rfl
      exact small record memA
    · intro a b _ _ earlier
      have other : a.timestamp ≠ b.timestamp := by
        rintro same
        exact UInt64.lt_irrefl _ (same ▸ earlier)
      change compositeOrder (some (a.timestamp, a.hash)) (some (b.timestamp, b.hash)) < 0
      rw [compositeOrder, if_pos other, if_pos earlier]
      exact neg_one_lt_zero
    · intro _ a _
      exact one_pos

/-- Two hashes of 2^31 equal bytes are stepped through beyond the largest `int`. -/
theorem not_compositeKeyCompare_orders :
    ¬ ∃ order, JournalOrder order {some { hash := List.replicate (2 ^ 31) 0 }} := by
  rintro ⟨order, orders⟩
  have compared := orders.compares _ rfl _ rfl
  rw [compositeKeyCompare_self (by rw [List.length_replicate])] at compared
  cases compared

end Ipfs
