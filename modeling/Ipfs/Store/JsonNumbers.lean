import Ipfs.Core.FindChunk
import Ipfs.Store.JsonFormats

/-!
# Numbers in the configuration file

A number is printed with `%d` and read with `atoi`.
-/

namespace Ipfs
open Http

/-- The digits of a number. -/
def digitBytes (n : Nat) : Bytes := (Nat.toDigits 10 n).map fun c => c.toNat.toUInt8

/-- `%d`. -/
def printInt : Int → Bytes
  | .ofNat n => digitBytes n
  | .negSucc n => 0x2d :: digitBytes (n + 1)

def printBool (value : Bool) : Bytes := ascii (if value then "true" else "false")

def digitsNumber (digits : Bytes) : Nat := digits.foldl (fun number b => 10 * number + (b.toNat - 48)) 0

def isDigitByte (b : UInt8) : Bool := 0x30 ≤ b && b ≤ 0x39

/-- `atoi`. -/
def atoi (text : Bytes) : Int :=
  let (sign, digits) := strtolSign (text.dropWhile isSpace)
  sign * digitsNumber (digits.takeWhile isDigitByte)

/-- What `_get_json_int_value` makes of the text. -/
def jsonInt (text : Bytes) : Int :=
  if text = ascii "true" then 1
  else if text = ascii "false" then 0
  else if text = ascii "null" then 0
  else atoi text

theorem digit_range {c : Char} (digit : c.isDigit) : 48 ≤ c.toNat ∧ c.toNat ≤ 57 := by
  simpa [Char.isDigit, UInt32.le_iff_toNat_le] using digit

theorem toNat_digit {c : Char} (digit : c.isDigit) : c.toNat.toUInt8.toNat = c.toNat := by
  have range := digit_range digit
  simp only [Nat.toUInt8, UInt8.toNat_ofNat']
  omega

theorem isDigit_toDigits {n : Nat} {c : Char} (mem : c ∈ Nat.toDigits 10 n) : c.isDigit :=
  Nat.isDigit_of_mem_toDigits (by decide) (by decide) mem

theorem isDigitByte_digitBytes {n : Nat} {b : UInt8} (mem : b ∈ digitBytes n) : isDigitByte b := by
  obtain ⟨c, digits, rfl⟩ := List.mem_map.mp mem
  have digit := isDigit_toDigits digits
  have range := digit_range digit
  simp only [isDigitByte, Bool.and_eq_true, decide_eq_true_eq, UInt8.le_iff_toNat_le, toNat_digit digit]
  exact range

theorem isPrimitiveChar_digit {b : UInt8} (digit : isDigitByte b) : isPrimitiveChar b := by
  have range : 48 ≤ b.toNat ∧ b.toNat ≤ 57 := by
    simpa [isDigitByte, UInt8.le_iff_toNat_le] using digit
  rw [show b = UInt8.ofNat b.toNat by simp]
  generalize b.toNat = n at range
  obtain ⟨low, high⟩ := range
  interval_cases n <;> decide

theorem printInt_primitive (value : Int) : JsonPrimitive (printInt value) := by
  have digits (n : Nat) : ∀ b ∈ digitBytes n, isPrimitiveChar b := fun _ mem =>
    isPrimitiveChar_digit (isDigitByte_digitBytes mem)
  cases value with
  | ofNat n => exact .of_chars (by simp [printInt, digitBytes]) (digits n)
  | negSucc n => exact .of_chars (List.cons_ne_nil _ _) (List.forall_mem_cons.mpr ⟨by decide, digits (n + 1)⟩)

theorem printBool_primitive (value : Bool) : JsonPrimitive (printBool value) := by
  cases value <;> exact .of_chars (by decide +kernel) (by decide +kernel)

theorem digitsNumber_digitBytes (n : Nat) : digitsNumber (digitBytes n) = n := by
  rw [digitsNumber, digitBytes, List.foldl_map]
  calc
    _ = (Nat.toDigits 10 n).foldl (fun number c => 10 * number + (c.toNat - '0'.toNat)) 0 := by
      apply List.foldl_ext
      intro number c mem
      rw [toNat_digit (isDigit_toDigits mem)]
      rfl
    _ = Nat.ofDigitChars 10 (Nat.toDigits 10 n) 0 := Nat.ofDigitChars_eq_foldl.symm
    _ = n := Nat.ofDigitChars_ten_toDigits

theorem isDigitByte_plain {b : UInt8} (digit : isDigitByte b) : isSpace b = false ∧ b ≠ 0x2d ∧ b ≠ plus := by
  simp only [isDigitByte, Bool.and_eq_true, decide_eq_true_eq, UInt8.le_iff_toNat_le] at digit
  simp only [isSpace, plus, ne_eq, ← UInt8.toNat_inj, Bool.or_eq_false_iff, Bool.and_eq_false_iff, decide_eq_false_iff_not,
    UInt8.le_iff_toNat_le]
  refine ⟨⟨?_, ?_⟩, ?_, ?_⟩ <;> (simp at digit ⊢; omega)

theorem digitBytes_eq_cons (n : Nat) : ∃ b rest, digitBytes n = b :: rest ∧ isDigitByte b := by
  obtain ⟨b, rest, same⟩ := List.exists_cons_of_ne_nil (show digitBytes n ≠ [] by simp [digitBytes])
  exact ⟨b, rest, same, isDigitByte_digitBytes (same ▸ List.mem_cons_self)⟩

theorem takeWhile_digitBytes (n : Nat) : (digitBytes n).takeWhile isDigitByte = digitBytes n :=
  List.takeWhile_eq_self_iff.mpr fun _ mem => isDigitByte_digitBytes mem

theorem atoi_digitBytes (n : Nat) : atoi (digitBytes n) = n := by
  obtain ⟨b, rest, same, digit⟩ := digitBytes_eq_cons n
  obtain ⟨space, minus, notPlus⟩ := isDigitByte_plain digit
  have sign : strtolSign ((digitBytes n).dropWhile isSpace) = (1, digitBytes n) := by
    rw [same, List.dropWhile_cons, space]
    simp [strtolSign, minus, notPlus]
  simp only [atoi, sign, takeWhile_digitBytes, digitsNumber_digitBytes, one_mul]

theorem atoi_minus (n : Nat) : atoi (0x2d :: digitBytes n) = -n := by
  have sign : strtolSign ((0x2d :: digitBytes n).dropWhile isSpace) = (-1, digitBytes n) := rfl
  simp only [atoi, sign, takeWhile_digitBytes, digitsNumber_digitBytes, neg_mul, one_mul]

/-- No word begins like a number. -/
theorem jsonInt_number {b : UInt8} {rest : Bytes} (number : isDigitByte b ∨ b = 0x2d) :
    jsonInt (b :: rest) = atoi (b :: rest) := by
  have other {word : Bytes} (letter : ∀ c ∈ word.head?, isDigitByte c = false ∧ c ≠ 0x2d) (some : word ≠ []) :
      b :: rest ≠ word := by
    rintro rfl
    obtain ⟨digit, minus⟩ := letter b rfl
    rcases number with number | number
    · rw [digit] at number
      cases number
    · exact minus number
  rw [jsonInt, if_neg (other (by decide +kernel) (by decide +kernel)),
    if_neg (other (by decide +kernel) (by decide +kernel)), if_neg (other (by decide +kernel) (by decide +kernel))]

theorem jsonInt_printInt (value : Int) : jsonInt (printInt value) = value := by
  cases value with
  | ofNat n =>
      obtain ⟨b, rest, same, digit⟩ := digitBytes_eq_cons n
      have printed : printInt (.ofNat n) = digitBytes n := rfl
      rw [printed, same, jsonInt_number (.inl digit), ← same, atoi_digitBytes]
      rfl
  | negSucc n =>
      have printed : printInt (.negSucc n) = 0x2d :: digitBytes (n + 1) := rfl
      rw [printed, jsonInt_number (.inr rfl), atoi_minus]
      rfl
theorem jsonInt_printBool (value : Bool) : jsonInt (printBool value) = value.toInt := by
  cases value <;> decide
end Ipfs
