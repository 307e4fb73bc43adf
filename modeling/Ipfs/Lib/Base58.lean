import Mathlib.Tactic
import Mathlib.Data.Nat.Digits.Lemmas

/-!
# Base58

A string of bytes is read as one number and written in another base; leading zeros are kept one for one.
-/

namespace Positional

/-- The digits of the same number in another base, with as many zeros in front. -/
def convert (b c : Nat) (digits : List Nat) : List Nat :=
  List.replicate (digits.takeWhile (· = 0)).length 0 ++ (Nat.digits c (Nat.ofDigits b digits.reverse)).reverse

variable {b c : Nat}

theorem convert_zeros_append (k : Nat) {digits : List Nat} (start : digits.head? ≠ some 0) :
    convert b c (List.replicate k 0 ++ digits) =
      List.replicate k 0 ++ (Nat.digits c (Nat.ofDigits b digits.reverse)).reverse := by
  have none : digits.takeWhile (· = 0) = [] := by
    cases digits with
    | nil => rfl
    | cons digit digits => exact List.takeWhile_cons_of_neg (by simpa using start)
  rw [convert, List.reverse_append, List.reverse_replicate, Nat.ofDigits_append_replicate_zero,
    List.takeWhile_append_of_pos (by simp), none, List.append_nil, List.length_replicate]

theorem digits_reverse_start (n : Nat) : (Nat.digits c n).reverse.head? ≠ some 0 := by
  by_cases zero : n = 0
  · simp [zero]
  · rw [List.head?_reverse, List.getLast?_eq_getLast_of_ne_nil (Nat.digits_ne_nil_iff_ne_zero.mpr zero)]
    simpa using Nat.getLast_digit_ne_zero c zero

theorem exists_zeros_append (digits : List Nat) :
    ∃ k rest, digits = List.replicate k 0 ++ rest ∧ rest.head? ≠ some 0 := by
  induction digits with
  | nil => exact ⟨0, [], rfl, by simp⟩
  | cons digit digits ih =>
      cases digit with
      | zero =>
          obtain ⟨k, rest, rfl, start⟩ := ih
          exact ⟨k + 1, rest, rfl, start⟩
      | succ digit => exact ⟨0, _, rfl, by simp⟩

theorem convert_convert (hb : 1 < b) {digits : List Nat} (small : ∀ digit ∈ digits, digit < b) :
    convert c b (convert b c digits) = digits := by
  obtain ⟨k, rest, rfl, start⟩ := exists_zeros_append digits
  rw [convert_zeros_append k start, convert_zeros_append k (digits_reverse_start _), List.reverse_reverse,
    Nat.ofDigits_digits, Nat.digits_ofDigits b hb, List.reverse_reverse]
  · exact fun digit mem => small digit (List.mem_append_right _ (List.mem_reverse.mp mem))
  · intro nonempty zero
    apply start
    rw [← List.getLast?_reverse, List.getLast?_eq_getLast_of_ne_nil nonempty, zero]

theorem lt_of_mem_convert (hc : 1 < c) {digits : List Nat} {digit : Nat} (mem : digit ∈ convert b c digits) :
    digit < c := by
  rcases List.mem_append.mp mem with zero | digit
  · rw [List.eq_of_mem_replicate zero]
    omega
  · exact Nat.digits_lt_base hc (List.mem_reverse.mp digit)

theorem digits_reverse_eq_append (hc : 1 < c) {n k : Nat} (positive : 0 < n / c ^ k) :
    ∃ low, low.length = k ∧ (Nat.digits c n).reverse = (Nat.digits c (n / c ^ k)).reverse ++ low := by
  have high := Nat.self_div_pow_eq_ofDigits_drop k n hc
  have nonempty : (Nat.digits c n).drop k ≠ [] := by
    intro empty
    rw [empty, Nat.ofDigits_nil] at high
    omega
  have dropped : Nat.digits c (n / c ^ k) = (Nat.digits c n).drop k := by
    rw [high, Nat.digits_ofDigits c hc]
    · exact fun digit mem => Nat.digits_lt_base hc (List.mem_of_mem_drop mem)
    · intro nonempty'
      rw [List.getLast_drop]
      have positive' : n ≠ 0 := by
        rintro rfl
        simp at positive
      exact Nat.getLast_digit_ne_zero c positive'
  have long : k < (Nat.digits c n).length := List.drop_eq_nil_iff.not.mp nonempty |> not_le.mp
  refine ⟨((Nat.digits c n).take k).reverse, by simpa using long.le, ?_⟩
  rw [dropped, ← List.reverse_append, List.take_append_drop]

end Positional

namespace Base58

/-- The digits and letters without 0, O, I and l. -/
def alphabet : List UInt8 :=
  [0x31, 0x32, 0x33, 0x34, 0x35, 0x36, 0x37, 0x38, 0x39,
   0x41, 0x42, 0x43, 0x44, 0x45, 0x46, 0x47, 0x48, 0x4a, 0x4b, 0x4c, 0x4d, 0x4e, 0x50, 0x51, 0x52, 0x53, 0x54, 0x55,
   0x56, 0x57, 0x58, 0x59, 0x5a,
   0x61, 0x62, 0x63, 0x64, 0x65, 0x66, 0x67, 0x68, 0x69, 0x6a, 0x6b, 0x6d, 0x6e, 0x6f, 0x70, 0x71, 0x72, 0x73, 0x74,
   0x75, 0x76, 0x77, 0x78, 0x79, 0x7a]

def letter (digit : Nat) : UInt8 := alphabet.getD digit 0

def encode (bytes : List UInt8) : List UInt8 := (Positional.convert 256 58 (bytes.map UInt8.toNat)).map letter

def decode (text : List UInt8) : Option (List UInt8) := do
  let digits ← text.mapM fun byte => alphabet.idxOf? byte
  pure ((Positional.convert 58 256 digits).map UInt8.ofNat)

theorem idxOf?_letter {digit : Nat} (small : digit < 58) : alphabet.idxOf? (letter digit) = some digit := by
  revert digit
  decide

theorem letter_mem {digit : Nat} (small : digit < 58) : letter digit ∈ alphabet := by
  revert digit
  decide

theorem mapM_letter {digits : List Nat} (small : ∀ digit ∈ digits, digit < 58) :
    (digits.map letter).mapM (fun byte => alphabet.idxOf? byte) = some digits := by
  induction digits with
  | nil => rfl
  | cons digit digits ih =>
      rw [List.map_cons, List.mapM_cons, idxOf?_letter (small digit (by simp)),
        ih fun digit' mem => small digit' (by simp [mem])]
      rfl

theorem decode_encode (bytes : List UInt8) : decode (encode bytes) = some bytes := by
  have small : ∀ digit ∈ bytes.map UInt8.toNat, digit < 256 := by
    intro digit mem
    obtain ⟨byte, -, rfl⟩ := List.mem_map.mp mem
    exact byte.toNat_lt
  rw [decode, encode, mapM_letter fun digit mem => Positional.lt_of_mem_convert (by decide) mem]
  change some _ = _
  have inverse : UInt8.ofNat ∘ UInt8.toNat = id := funext fun byte => UInt8.ofNat_toNat
  rw [Positional.convert_convert (by decide) small, List.map_map, inverse, List.map_id]

theorem letter_idxOf? {byte : UInt8} {digit : Nat} (found : alphabet.idxOf? byte = some digit) :
    letter digit = byte ∧ digit < 58 := by
  obtain ⟨bound, here, -⟩ := List.idxOf?_eq_some_iff.mp found
  have letters : alphabet.length = 58 := rfl
  rw [letter, List.getD_eq_getElem?_getD, List.getElem?_eq_getElem bound, here]
  exact ⟨rfl, letters ▸ bound⟩

theorem map_letter_of_mapM {text : List UInt8} {digits : List Nat}
    (found : text.mapM (fun byte => alphabet.idxOf? byte) = some digits) :
    digits.map letter = text ∧ ∀ digit ∈ digits, digit < 58 := by
  induction text generalizing digits with
  | nil =>
      obtain rfl := Option.some.inj found
      exact ⟨rfl, by simp⟩
  | cons byte text ih =>
      rw [List.mapM_cons] at found
      obtain ⟨digit, first, rest⟩ := Option.bind_eq_some_iff.mp found
      obtain ⟨others, behind, eq⟩ := Option.bind_eq_some_iff.mp rest
      obtain rfl := Option.some.inj eq
      obtain ⟨letters, small⟩ := ih behind
      obtain ⟨letter, bound⟩ := letter_idxOf? first
      exact ⟨by rw [List.map_cons, letter, letters], List.forall_mem_cons.mpr ⟨bound, small⟩⟩

theorem encode_decode {text bytes : List UInt8} (decoded : decode text = some bytes) : encode bytes = text := by
  obtain ⟨digits, found, eq⟩ := Option.bind_eq_some_iff.mp decoded
  obtain rfl := Option.some.inj eq
  obtain ⟨letters, small⟩ := map_letter_of_mapM found
  have bytes : ((Positional.convert 58 256 digits).map UInt8.ofNat).map UInt8.toNat = Positional.convert 58 256 digits := by
    rw [List.map_map]
    refine (List.map_congr_left fun digit mem => ?_).trans (List.map_id _)
    exact UInt8.toNat_ofNat_of_lt' (Positional.lt_of_mem_convert (by decide) mem)
  rw [encode, bytes, Positional.convert_convert (by decide) small, letters]

theorem mem_alphabet_of_decode {text bytes : List UInt8} (decoded : decode text = some bytes) :
    ∀ byte ∈ text, byte ∈ alphabet := by
  intro byte mem
  obtain ⟨digits, found, -⟩ := Option.bind_eq_some_iff.mp decoded
  obtain ⟨letters, small⟩ := map_letter_of_mapM found
  rw [← letters] at mem
  obtain ⟨digit, inside, rfl⟩ := List.mem_map.mp mem
  exact letter_mem (small digit inside)

theorem encode_length_of_short {bytes : List UInt8} (short : bytes.length < 2) : (encode bytes).length ≤ 2 := by
  have single : ∀ n : Fin 256, (encode [UInt8.ofNat n.val]).length ≤ 2 := by decide +kernel
  match bytes with
  | [] => decide
  | [byte] => simpa using single ⟨byte.toNat, byte.toNat_lt⟩
  | _ :: _ :: _ => simp at short

/-- A number without leading zeros whose quotient by a power of 58 is known starts with the letters of it. -/
theorem encode_eq_append {bytes : List UInt8} (start : bytes.head? ≠ some 0) {k : Nat}
    (positive : 0 < Nat.ofDigits 256 (bytes.map UInt8.toNat).reverse / 58 ^ k) :
    ∃ low, low.length = k ∧ encode bytes =
      (Nat.digits 58 (Nat.ofDigits 256 (bytes.map UInt8.toNat).reverse / 58 ^ k)).reverse.map letter ++ low := by
  have start' : (bytes.map UInt8.toNat).head? ≠ some 0 := by
    rw [List.head?_map]
    intro zero
    obtain ⟨byte, first, eq⟩ := Option.map_eq_some_iff.mp zero
    exact start (first.trans (congrArg some (UInt8.toNat_inj.mp eq)))
  obtain ⟨low, length, digits⟩ := Positional.digits_reverse_eq_append (by decide) positive
  have converted := Positional.convert_zeros_append (b := 256) (c := 58) 0 start'
  rw [List.replicate_zero, List.nil_append, List.nil_append] at converted
  exact ⟨low.map letter, by rw [List.length_map, length], by rw [encode, converted, digits, List.map_append]⟩

end Base58
