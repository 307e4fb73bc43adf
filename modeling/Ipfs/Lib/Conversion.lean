import Ipfs.Lib.Outcome
import Mathlib.Tactic

/-!
# Integer conversions of C

`int` is 32 bits and plain `char` is signed, as on x86; `unsigned long long` and `size_t` are 64 bits.
-/

namespace Conversion

/-- `int` to `unsigned long long`: the sign bit is extended. -/
def intToUnsigned (value : Int32) : UInt64 := value.toInt64.toUInt64

def unsignedToInt (value : UInt64) : Int32 := value.toUInt32.toInt32

def unsignedToChar (value : UInt64) : Int8 := value.toUInt8.toInt8

/-- A `size_t` that is kept in an `int`. -/
def sizeToInt (size : Nat) : Int := (size : Int).bmod (2 ^ 32)

/-- An `int` that is kept in a `size_t`. -/
def intToSize (value : Int) : Nat := (value % 2 ^ 64).toNat

/-- The sum of two `int`s. -/
def intAdd (a b : Int) : Outcome Int :=
  if -2 ^ 31 ≤ a + b ∧ a + b < 2 ^ 31 then .returned (a + b) else .fault .overflow

/-- The product of two `int`s. -/
def intMul (a b : Int) : Outcome Int :=
  if -2 ^ 31 ≤ a * b ∧ a * b < 2 ^ 31 then .returned (a * b) else .fault .overflow

theorem sizeToInt_of_lt {size : Nat} (small : size < 2 ^ 31) : sizeToInt size = size :=
  Int.bmod_eq_of_le (by omega) (by omega)

theorem sizeToInt_lt (size : Nat) : sizeToInt size < 2 ^ 31 :=
  Int.bmod_lt (by decide)

theorem sizeToInt_le (size : Nat) : sizeToInt size ≤ size := by
  unfold sizeToInt
  rw [Int.bmod_def]
  split <;> omega

theorem bmod_sizeToInt_add (a b : Nat) : (sizeToInt a + b).bmod (2 ^ 32) = sizeToInt (a + b) := by
  unfold sizeToInt
  rw [Int.bmod_add_bmod, Nat.cast_add]

theorem intToSize_natCast {size : Nat} (small : size < 2 ^ 64) : intToSize size = size := by
  rw [intToSize]
  omega

theorem intAdd_eq_returned {a b c : Int} :
    intAdd a b = .returned c ↔ (-2 ^ 31 ≤ a + b ∧ a + b < 2 ^ 31) ∧ a + b = c := by
  rw [intAdd]
  by_cases fits : -2 ^ 31 ≤ a + b ∧ a + b < 2 ^ 31
  · rw [if_pos fits, Outcome.returned.injEq, and_iff_right fits]
  · rw [if_neg fits]
    exact iff_of_false (by simp) fun both => fits both.1

theorem intAdd_natCast (a b : Nat) :
    intAdd a b = if a + b < 2 ^ 31 then .returned ((a + b : Nat) : Int) else .fault .overflow := by
  rw [intAdd]
  by_cases small : a + b < 2 ^ 31
  · rw [if_pos (by omega), if_pos small, Nat.cast_add]
  · rw [if_neg (by omega), if_neg small]

theorem intAdd_one (i : Nat) :
    intAdd i 1 = if i + 1 < 2 ^ 31 then .returned ((i + 1 : Nat) : Int) else .fault .overflow :=
  intAdd_natCast i 1

theorem setWidth_signExtend {w k : Nat} (le : w ≤ k) (x : BitVec w) :
    (x.signExtend k).setWidth w = x := by
  apply BitVec.eq_of_getElem_eq
  intro i bound
  simp only [BitVec.getElem_setWidth, BitVec.getLsbD_signExtend]
  simp [bound, show i < k by omega]

@[simp] theorem unsignedToInt_intToUnsigned (value : Int32) :
    unsignedToInt (intToUnsigned value) = value := by
  apply Int32.toBitVec_inj.mp
  simpa [unsignedToInt, intToUnsigned] using setWidth_signExtend (by decide : 32 ≤ 64) value.toBitVec

@[simp] theorem unsignedToChar_intToUnsigned (value : Int8) :
    unsignedToChar (intToUnsigned value.toInt32) = value := by
  apply Int8.toBitVec_inj.mp
  simpa [unsignedToChar, intToUnsigned] using setWidth_signExtend (by decide : 8 ≤ 64) value.toBitVec

theorem exists_char {value : Int32} (lower : -128 ≤ value.toInt) (upper : value.toInt < 128) :
    ∃ c : Int8, c.toInt32 = value := by
  refine ⟨Int8.ofInt value.toInt, Int32.toInt_inj.mp ?_⟩
  rw [Int8.toInt_toInt32, Int8.toInt_ofInt_of_le (by omega) (by omega)]

end Conversion
