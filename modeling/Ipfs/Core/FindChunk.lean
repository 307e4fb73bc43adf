import Ipfs.Core.Request

/-!
# Sizes of chunks

`find_chunk` reads the size with `strtol`, which does not know where the received bytes end.
-/

namespace Ipfs
open Http

/-! ## `strtol` -/

def isSpace (b : UInt8) : Bool := b = 0x20 || (0x09 ≤ b && b ≤ 0x0d)

def isHex (b : UInt8) : Bool := (hexValue b).isSome

def hexNumber (digits : Bytes) : Nat := digits.foldl (fun number b => 16 * number + (hexValue b).getD 0) 0

/-- A `0x` counts when a digit follows. -/
def hexPrefix : Bytes → Option Bool
  | zero :: x :: text =>
      if zero = 0x30 ∧ (x = 0x78 ∨ x = 0x58) then text.head?.map isHex else some false
  | _ => some false

def strtolSign : Bytes → Int × Bytes
  | b :: text => if b = 0x2d then (-1, text) else if b = plus then (1, text) else (1, b :: text)
  | [] => (1, [])

def clampLong (value : Int) : Int := max (-2 ^ 63) (min value (2 ^ 63 - 1))

/-- `strtol(text, &end, 16)`: the value and the offset of the end, `none` if it reads behind the text. -/
def strtol (text : Bytes) : Option (Int × Nat) := do
  let behindSpaces := text.dropWhile isSpace
  let (sign, unsigned) := strtolSign behindSpaces
  let prefixed ← hexPrefix unsigned
  let digits := if prefixed then unsigned.drop 2 else unsigned
  let number := digits.takeWhile isHex
  if digits.dropWhile isHex = [] then none
  else if number = [] then some (0, 0)
  else some (clampLong (sign * hexNumber number), text.length - (digits.dropWhile isHex).length)

/-! ## `find_chunk` -/

/-- `find_chunk`: the size and the place of the content. -/
def findChunk (buf : Bytes) : Outcome (Nat × Nat) := do
  let (size, p) ← Outcome.access .unassigned (strtol buf)
  if 10 < p then .failed
  else do
    let first ← Outcome.access .unassigned buf[p]?
    if first ≠ cr then .failed
    else do
      let second ← Outcome.access .unassigned buf[p + 1]?
      if second ≠ lf then .failed else pure ((size % 2 ^ 64).toNat, p + 2)

/-! ## Numbers -/

theorem isHex_other {b : UInt8} (hex : isHex b) :
    isSpace b = false ∧ b ≠ 0x2d ∧ b ≠ plus ∧ b ≠ 0x78 ∧ b ≠ 0x58 ∧ b ≠ cr := by
  obtain ⟨value, digit⟩ := Option.isSome_iff_exists.mp hex
  have range := hexValue_range digit
  simp only [isSpace, plus, cr, ne_eq, ← UInt8.toNat_inj, Bool.or_eq_false_iff, Bool.and_eq_false_iff, decide_eq_false_iff_not,
    UInt8.le_iff_toNat_le]
  refine ⟨⟨?_, ?_⟩, ?_, ?_, ?_, ?_, ?_⟩ <;> (simp; omega)

theorem hexNumber_lt (digits : Bytes) : hexNumber digits < 16 ^ digits.length := by
  induction digits using List.reverseRecOn with
  | nil => simp [hexNumber]
  | append_singleton digits b ih =>
      have digit : (hexValue b).getD 0 < 16 := by
        cases value : hexValue b with
        | none => simp
        | some value => simpa using hexValue_lt value
      rw [hexNumber, List.foldl_append, List.length_append, pow_add]
      change 16 * hexNumber digits + (hexValue b).getD 0 < _
      simp only [List.length_singleton, pow_one]
      omega

theorem dropWhile_front {p : UInt8 → Bool} {front : Bytes} (all : ∀ b ∈ front, p b) {b : UInt8} (stop : p b = false)
    (text : Bytes) : (front ++ b :: text).dropWhile p = b :: text ∧ (front ++ b :: text).takeWhile p = front := by
  rw [List.dropWhile_append_of_pos all, List.takeWhile_append_of_pos all]
  simp [stop]

theorem strtolSign_hex {b : UInt8} (hex : isHex b) (text : Bytes) : strtolSign (b :: text) = (1, b :: text) := by
  obtain ⟨-, minus, plus, -⟩ := isHex_other hex
  simp [strtolSign, minus, plus]

theorem strtol_digits {front digits : Bytes} (spaces : ∀ b ∈ front, isSpace b) (nonempty : digits ≠ [])
    (hex : ∀ b ∈ digits, isHex b) {stop : UInt8} (ends : isHex stop = false) (plain : stop ≠ 0x78 ∧ stop ≠ 0x58)
    (text : Bytes) : strtol (front ++ (digits ++ stop :: text)) =
      some (clampLong (hexNumber digits), front.length + digits.length) := by
  obtain ⟨first, others, rfl⟩ := List.exists_cons_of_ne_nil nonempty
  have isFirst : isHex first := hex first (by simp)
  have space := (isHex_other isFirst).1
  have unprefixed : hexPrefix (first :: (others ++ stop :: text)) = some false := by
    cases others with
    | nil => simp [hexPrefix, plain]
    | cons second others =>
        obtain ⟨-, -, -, lower, upper, -⟩ := isHex_other (hex second (by simp))
        simp [hexPrefix, lower, upper]
  have number := dropWhile_front hex ends text
  rw [List.cons_append] at number
  rw [strtol, List.cons_append, (dropWhile_front spaces space _).1, strtolSign_hex isFirst]
  simp only [unprefixed, Option.bind_eq_bind, Option.bind_some, Bool.false_eq_true, if_false, number, reduceCtorEq, one_mul]
  congr 2
  simp
  omega

theorem strtolSign_length (text : Bytes) : (strtolSign text).2.length ≤ text.length := by
  cases text with
  | nil => simp [strtolSign]
  | cons b text =>
      rw [strtolSign]
      split
      · simp
      · split <;> simp

theorem strtol_left {front digits left : Bytes} (spaces : ∀ b ∈ front, isSpace b) (hex : ∀ b ∈ digits, isHex b)
    {sign : Int} {unsigned : Bytes}
    (signed : strtolSign ((front ++ (digits ++ left)).dropWhile isSpace) = (sign, unsigned))
    {prefixed : Bool} (isPrefixed : hexPrefix unsigned = some prefixed) :
    ((if prefixed then unsigned.drop 2 else unsigned).dropWhile isHex).length ≤ left.length := by
  rw [List.dropWhile_append_of_pos spaces] at signed
  have shorter (text : Bytes) (p : UInt8 → Bool) : (text.dropWhile p).length ≤ text.length :=
    (List.dropWhile_sublist p).length_le
  cases digits with
  | nil =>
      have behind := shorter left isSpace
      have behindSign := strtolSign_length (left.dropWhile isSpace)
      rw [List.nil_append] at signed
      rw [signed] at behindSign
      dsimp only at behindSign
      refine (shorter _ _).trans ?_
      split
      · rw [List.length_drop]
        omega
      · omega
  | cons first others =>
      have isFirst : isHex first := hex first (by simp)
      have notSpace := (isHex_other isFirst).1
      rw [List.cons_append, List.dropWhile_cons_of_neg (by simp [notSpace]), strtolSign_hex isFirst] at signed
      obtain ⟨-, rfl⟩ := Prod.mk.injEq .. ▸ signed
      cases prefixed with
      | false =>
          rw [if_neg Bool.false_ne_true, ← List.cons_append, List.dropWhile_append_of_pos hex]
          exact shorter left isHex
      | true =>
          -- the `x` cannot be among the digits
          cases others with
          | nil =>
              refine (shorter _ _).trans ?_
              simp
          | cons second others =>
              obtain ⟨-, -, -, lower, upper, -⟩ := isHex_other (hex second (by simp))
              simp [hexPrefix, lower, upper] at isPrefixed

/-- A number goes at least to the end of the digits that were received. -/
theorem strtol_window {front digits left : Bytes} (spaces : ∀ b ∈ front, isSpace b) (hex : ∀ b ∈ digits, isHex b)
    {value : Int} {p : Nat} (number : strtol (front ++ (digits ++ left)) = some (value, p)) :
    value = 0 ∨ front.length + digits.length ≤ p := by
  rw [strtol] at number
  cases signed : strtolSign ((front ++ (digits ++ left)).dropWhile isSpace) with
  | mk sign unsigned =>
      simp only [signed, Option.bind_eq_bind] at number
      obtain ⟨prefixed, isPrefixed, number⟩ := Option.bind_eq_some_iff.mp number
      have room := strtol_left spaces hex signed isPrefixed
      generalize (if prefixed then unsigned.drop 2 else unsigned) = text at number room
      by_cases ends : text.dropWhile isHex = []
      · rw [if_pos ends] at number
        cases number
      · rw [if_neg ends] at number
        split at number
        · simp only [Option.some.injEq, Prod.mk.injEq] at number
          exact .inl number.1.symm
        · simp only [Option.some.injEq, Prod.mk.injEq, List.length_append] at number
          right
          omega

theorem clampLong_lt (value : Int) : clampLong value < 2 ^ 63 := by
  unfold clampLong
  omega

theorem strtol_lt {text : Bytes} {size : Int} {p : Nat} (number : strtol text = some (size, p)) : size < 2 ^ 63 := by
  unfold strtol at number
  dsimp only at number
  generalize strtolSign _ = signed at number
  obtain ⟨prefixed, -, number⟩ := Option.bind_eq_some_iff.mp number
  generalize (if prefixed = true then _ else _ : Bytes) = digits at number
  by_cases ended : digits.dropWhile isHex = []
  · rw [if_pos ended] at number
    cases number
  · rw [if_neg ended] at number
    by_cases none : digits.takeWhile isHex = []
    · rw [if_pos none] at number
      cases number
      norm_num
    · rw [if_neg none] at number
      cases number
      exact clampLong_lt _

/-! ## What is found -/

theorem findChunk_eq_returned {buf : Bytes} {nsize pos : Nat} : findChunk buf = .returned (nsize, pos) ↔
    ∃ size p, strtol buf = some (size, p) ∧ p ≤ 10 ∧ buf[p]? = some cr ∧ buf[p + 1]? = some lf ∧
      nsize = (size % 2 ^ 64).toNat ∧ pos = p + 2 := by
  constructor
  · intro found
    cases number : strtol buf with
    | none => simp [findChunk, number] at found
    | some number' =>
        obtain ⟨size, p⟩ := number'
        simp only [findChunk, number, Outcome.access_some, Outcome.returned_bind] at found
        split at found
        · cases found
        · rename_i short
          obtain ⟨first, isFirst, found⟩ := Outcome.bind_eq_returned.mp found
          split at found
          · cases found
          · rename_i isCr
            obtain ⟨second, isSecond, found⟩ := Outcome.bind_eq_returned.mp found
            split at found
            · cases found
            · rename_i isLf
              rw [Outcome.access_eq_returned, not_not.mp isCr] at isFirst
              rw [Outcome.access_eq_returned, not_not.mp isLf] at isSecond
              simp only [Outcome.pure_def, Outcome.returned.injEq, Prod.mk.injEq] at found
              exact ⟨size, p, rfl, Nat.not_lt.mp short, isFirst, isSecond, found.1.symm, found.2.symm⟩
  · rintro ⟨size, p, number, short, first, second, rfl, rfl⟩
    simp [findChunk, number, first, second, Nat.not_lt.mpr short]

theorem clampLong_hexNumber {digits : Bytes} (short : digits.length ≤ 10) :
    (clampLong (hexNumber digits) % 2 ^ 64).toNat = hexNumber digits := by
  have below : hexNumber digits < 16 ^ 10 := (hexNumber_lt digits).trans_le (Nat.pow_le_pow_right (by norm_num) short)
  have clamped : clampLong (hexNumber digits) = hexNumber digits := by
    rw [clampLong]
    omega
  omega

end Ipfs
