import Ipfs.Lib.Conversion
import Ipfs.Lib.Json
import Ipfs.Path.Split
import Mathlib.Data.List.GetD

/-!
# Proquints

Two bytes are written as five letters, consonants and vowels in turn, and the words are separated by `-`. Lengths
are `int`s. Memory can be allocated for every size but a negative one, which is a `size_t` above all sizes.
-/

namespace Ipfs.Proquint
open Conversion Ipfs.Path

def conse : Bytes := ascii "bdfghjklmnprstvz"

def vowse : Bytes := ascii "aiou"

def dash : UInt8 := 0x2d

/-- The place of a letter, 0 when it is none of them. -/
def letterd (letters : Bytes) (c : UInt8) : Nat := (letters.idxOf? c).getD 0

def consd (c : UInt8) : Nat := letterd conse c

def vowsd (c : UInt8) : Nat := letterd vowse c

def isLetter (letters : Bytes) (c : UInt8) : Bool := letters.getD (letterd letters c) 0 = c

/-- `malloc` of a size that is computed as an `int`. -/
def malloc (size : Int) : Outcome Nat := if 0 ≤ size then .returned size.toNat else .failed

/-- `int l = strlen(str)`. -/
def intLength (str : CString) : Int := sizeToInt str.strlen

/-! ## The recogniser -/

def isProquintAt (i : Nat) (c : UInt8) : Bool :=
  if (i + 1) % 6 = 0 then c = dash
  else if (i + 1) % 2 = 0 then isLetter vowse c
  else isLetter conse c

/-- Every position from `i` on. -/
def isProquintFrom : Nat → Bytes → Bool
  | _, [] => true
  | i, c :: str => isProquintAt i c && isProquintFrom (i + 1) str

/-- `ipfs_proquint_is_proquint`; a NULL is dereferenced by `strlen` before it is tested. -/
def isProquint (str : CString) : Outcome Bool := do
  let next ← intAdd (intLength str) 1
  if next.tmod 6 ≠ 0 then return false
  else return isProquintFrom 0 (str.bytes.take (intLength str).toNat)

/-! ## Encoding -/

/-- The five letters of two bytes, by the bits of `n`. -/
def wordLetters (n : Nat) : Bytes :=
  [conse.getD (n >>> 12 &&& 0x0f) 0, vowse.getD (n >>> 10 &&& 0x03) 0, conse.getD (n >>> 6 &&& 0x0f) 0,
    vowse.getD (n >>> 4 &&& 0x03) 0, conse.getD (n &&& 0x0f) 0]

def encodeWords : Bytes → Bytes
  | high :: low :: buf => wordLetters (high.toNat <<< 8 ||| low.toNat) ++ dash :: encodeWords buf
  | _ => []

/-- `ipfs_proquint_encode`: the text before its terminator, which takes the place of the last `-`. -/
def encode (buf : Bytes) (size : Int) : Outcome Bytes :=
  if size.tmod 2 ≠ 0 then .failed
  else do
    let room ← malloc (← intMul size 3)
    let ret := encodeWords (buf.take size.toNat)
    if buf.length < size.toNat ∨ room < ret.length then .fault .outOfBounds
    -- `ret[--c]`, also when nothing was written
    else if ret = [] then .fault .outOfBounds
    else return ret.dropLast

/-! ## Decoding -/

/-- The `uint16_t` of five letters. -/
def wordNumber (a b c d e : UInt8) : Nat :=
  (consd a <<< 12 ||| vowsd b <<< 10 ||| consd c <<< 6 ||| vowsd d <<< 4 ||| consd e) % 2 ^ 16

/-- The words from where `memory` begins, into `room` bytes of which `ret` are written. -/
def decodeWords (room : Nat) : Nat → Bytes → Bytes → Outcome Bytes
  | 0, _, ret => .returned ret
  | words + 1, a :: b :: c :: d :: e :: memory, ret =>
      let x := wordNumber a b c d e
      if ret.length + 2 ≤ room then
        decodeWords room words (memory.drop 1) (ret ++ [(x >>> 8).toUInt8, (x &&& 0xff).toUInt8])
      else .fault .outOfBounds
  | _ + 1, _, _ => .fault .outOfBounds

/-- `ipfs_proquint_decode`; NULL is a failure. The loop takes a word at every sixth position below the length. -/
def decode (str : CString) : Outcome Bytes := do
  let valid ← isProquint str
  let next ← intAdd (intLength str) 1
  if !valid ∧ next.tmod 3 = 0 then .failed
  else do
    let room ← malloc (next.tdiv 3)
    decodeWords room (((intLength str).toNat + 5) / 6) (str.bytes ++ [0]) []

/-! ## Resolving -/

def errInvalidProquint : Int := 11

def errBadPath : Int := 14

def errNoComponents : Int := 15

def errCidDecode : Int := 16

/-- `ipfs_path_parse_from_cid`, in which the Cid is never decoded. -/
def pathParseFromCid : Bytes → Outcome Int
  | [] => .fault .outOfBounds
  | c :: _ => if c = 0 then .returned errNoComponents else .returned errCidDecode

/-- `ipfs_path_parse` of the memory at `txt`, in which there need not be a terminator. -/
def pathParse : Option Bytes → Outcome Int
  | none => .returned errNoComponents
  | some [] => .fault .outOfBounds
  | some (c :: memory) =>
      if c = 0 then .returned errNoComponents
      else if c ≠ slash then pathParseFromCid (c :: memory)
      else match memory.find? fun b => b = slash ∨ b = 0 with
        | none => .fault .outOfBounds
        | some b =>
            if b = 0 then pathParseFromCid memory
            else if 0 ∉ memory then .fault .outOfBounds
            else
              let txt := cString (c :: memory)
              if txt.count slash < 3 then .returned errBadPath
              else if txt = ascii "/ipfs/" then pathParseFromCid ((txt.drop 6).takeWhile (· ≠ slash) ++ [0])
              else if txt ≠ ascii "/ipns/" then .returned errBadPath
              else .returned 0

/-- The pointer that a call returns, NULL when it failed. -/
def nullable : Outcome Bytes → Outcome (Option Bytes)
  | .returned ret => .returned (some ret)
  | .failed => .returned none
  | .fault cause => .fault cause

/-- `ipfs_proquint_resolve_once`: what it returns, and `*p`. -/
def resolveOnce (p : Option Bytes) (name : CString) : Outcome (Int × Option Bytes) := do
  let err ← isProquint name
  if err then return (errInvalidProquint, none)
  else
    let err ← nullable (decode name) >>= pathParse
    -- the stack array that is copied is not written to by a call that returns 0
    if err = 0 then .fault .unassigned
    else return (err, p)

/-! ## What is promised -/

/-- The text of some bytes is a proquint, and decodes to them. -/
def BytesReturn (buf : Bytes) : Prop :=
  ∃ str : CString, encode buf (sizeToInt buf.length) = .returned str.bytes ∧ isProquint str = .returned true ∧
    decode str = .returned buf

/-- The bytes of a text are encoded as that text. -/
def TextReturns (str : CString) : Prop :=
  ∃ buf, decode str = .returned buf ∧ encode buf (sizeToInt buf.length) = .returned str.bytes

/-- NULL for what is not a proquint only, and nothing is accessed outside of the string and the buffer. -/
def RejectsOthers (str : CString) : Prop :=
  (decode str).Defined ∧ (decode str = .failed ↔ isProquint str ≠ .returned true)

def ReportsOthers (name : CString) : Prop :=
  (∃ p, resolveOnce none name = .returned (errInvalidProquint, p)) ↔ isProquint name ≠ .returned true

theorem malloc_natCast (size : Nat) : malloc size = .returned size := if_pos (Int.natCast_nonneg size)

/-! ## Letters -/

section
variable {letters : Bytes} {c : UInt8}

theorem letterd_lt (nonempty : letters ≠ []) : letterd letters c < letters.length := by
  unfold letterd
  cases place : letters.idxOf? c with
  | none => exact List.length_pos_of_ne_nil nonempty
  | some i => exact (List.idxOf?_eq_some_iff.mp place).1

theorem isLetter_iff (nonempty : letters ≠ []) : isLetter letters c = true ↔ c ∈ letters := by
  have bound := letterd_lt (c := c) nonempty
  rw [isLetter, decide_eq_true_iff, List.getD_eq_getElem _ _ bound]
  constructor
  · intro same
    exact same ▸ List.getElem_mem bound
  · intro mem
    obtain ⟨i, place⟩ := Option.isSome_iff_exists.mp (List.isSome_idxOf?.mpr mem)
    obtain ⟨_, same, _⟩ := List.idxOf?_eq_some_iff.mp place
    simpa [letterd, place] using same

theorem letterd_getD (distinct : letters.Nodup) {k : Nat} (bound : k < letters.length) :
    letterd letters (letters.getD k 0) = k := by
  have place : letters.idxOf? letters[k] = some k := by
    refine List.idxOf?_eq_some_iff.mpr ⟨bound, rfl, fun j less same => ?_⟩
    exact less.ne ((List.Nodup.getElem_inj_iff distinct).mp same)
  rw [List.getD_eq_getElem _ _ bound, letterd, place]
  rfl

end

theorem conse_nodup : conse.Nodup := by decide

theorem vowse_nodup : vowse.Nodup := by decide

theorem length_conse : conse.length = 16 := rfl

theorem length_vowse : vowse.length = 4 := rfl

/-! ## Words of 16 bits -/

theorem pack_eq {a b c d e : Nat} (smallB : b < 4) (smallC : c < 16) (smallD : d < 4) (smallE : e < 16) :
    a <<< 12 ||| b <<< 10 ||| c <<< 6 ||| d <<< 4 ||| e = 4096 * a + 1024 * b + 64 * c + 16 * d + e := by
  have first : d <<< 4 ||| e = 16 * d + e := by
    rw [← Nat.shiftLeft_add_eq_or_of_lt smallE, Nat.shiftLeft_eq]
    omega
  have second : c <<< 6 ||| (16 * d + e) = 64 * c + (16 * d + e) := by
    rw [← Nat.shiftLeft_add_eq_or_of_lt (by omega), Nat.shiftLeft_eq]
    omega
  have third : b <<< 10 ||| (64 * c + (16 * d + e)) = 1024 * b + (64 * c + (16 * d + e)) := by
    rw [← Nat.shiftLeft_add_eq_or_of_lt (by omega), Nat.shiftLeft_eq]
    omega
  have fourth : a <<< 12 ||| (1024 * b + (64 * c + (16 * d + e))) = 4096 * a + (1024 * b + (64 * c + (16 * d + e))) := by
    rw [← Nat.shiftLeft_add_eq_or_of_lt (by omega), Nat.shiftLeft_eq]
    omega
  rw [Nat.or_assoc, Nat.or_assoc, Nat.or_assoc, first, second, third, fourth]
  omega

theorem wordLetters_eq (n : Nat) : wordLetters n = [conse.getD (n / 4096 % 16) 0, vowse.getD (n / 1024 % 4) 0,
    conse.getD (n / 64 % 16) 0, vowse.getD (n / 16 % 4) 0, conse.getD (n % 16) 0] := by
  have fourBits (m : Nat) : m &&& 0x0f = m % 16 := Nat.and_two_pow_sub_one_eq_mod m 4
  have twoBits (m : Nat) : m &&& 0x03 = m % 4 := Nat.and_two_pow_sub_one_eq_mod m 2
  unfold wordLetters
  simp only [fourBits, twoBits, Nat.shiftRight_eq_div_pow]

theorem consd_lt (c : UInt8) : consd c < 16 := by
  have nonempty : conse ≠ [] := by decide
  exact letterd_lt nonempty

theorem vowsd_lt (c : UInt8) : vowsd c < 4 := by
  have nonempty : vowse ≠ [] := by decide
  exact letterd_lt nonempty

theorem wordNumber_eq (a b c d e : UInt8) :
    wordNumber a b c d e = 4096 * consd a + 1024 * vowsd b + 64 * consd c + 16 * vowsd d + consd e := by
  have := consd_lt a
  unfold wordNumber
  rw [pack_eq (vowsd_lt b) (consd_lt c) (vowsd_lt d) (consd_lt e), Nat.mod_eq_of_lt]
  have := vowsd_lt b
  have := consd_lt c
  have := vowsd_lt d
  have := consd_lt e
  omega

theorem consd_getD {k : Nat} (bound : k < 16) : consd (conse.getD k 0) = k := letterd_getD conse_nodup bound

theorem vowsd_getD {k : Nat} (bound : k < 4) : vowsd (vowse.getD k 0) = k := letterd_getD vowse_nodup bound

theorem getD_consd {c : UInt8} (mem : c ∈ conse) : conse.getD (consd c) 0 = c := by
  simpa [isLetter, consd] using (isLetter_iff (by decide)).mpr mem

theorem getD_vowsd {c : UInt8} (mem : c ∈ vowse) : vowse.getD (vowsd c) 0 = c := by
  simpa [isLetter, vowsd] using (isLetter_iff (by decide)).mpr mem

theorem wordNumber_lt (a b c d e : UInt8) : wordNumber a b c d e < 2 ^ 16 := Nat.mod_lt _ (by decide)

theorem wordNumber_wordLetters {n : Nat} (small : n < 2 ^ 16) :
    wordNumber (conse.getD (n / 4096 % 16) 0) (vowse.getD (n / 1024 % 4) 0) (conse.getD (n / 64 % 16) 0)
      (vowse.getD (n / 16 % 4) 0) (conse.getD (n % 16) 0) = n := by
  rw [wordNumber_eq, consd_getD (by omega), vowsd_getD (by omega), consd_getD (by omega), vowsd_getD (by omega),
    consd_getD (by omega)]
  omega

theorem wordLetters_wordNumber {a b c d e : UInt8} (memA : a ∈ conse) (memB : b ∈ vowse) (memC : c ∈ conse)
    (memD : d ∈ vowse) (memE : e ∈ conse) : wordLetters (wordNumber a b c d e) = [a, b, c, d, e] := by
  have boundA := consd_lt a
  have boundB := vowsd_lt b
  have boundC := consd_lt c
  have boundD := vowsd_lt d
  have boundE := consd_lt e
  rw [wordLetters_eq, wordNumber_eq]
  generalize sum : 4096 * consd a + 1024 * vowsd b + 64 * consd c + 16 * vowsd d + consd e = n
  rw [show n / 4096 % 16 = consd a by omega, show n / 1024 % 4 = vowsd b by omega, show n / 64 % 16 = consd c by omega,
    show n / 16 % 4 = vowsd d by omega, show n % 16 = consd e by omega, getD_consd memA, getD_vowsd memB,
    getD_consd memC, getD_vowsd memD, getD_consd memE]

/-! ## Texts as numbers -/

/-- The text of the words of some numbers. -/
def wordsText (numbers : List Nat) : Bytes := [dash].intercalate (numbers.map wordLetters)

def numberBytes (n : Nat) : Bytes := [(n >>> 8).toUInt8, (n &&& 0xff).toUInt8]

def bytesNumbers : Bytes → List Nat
  | high :: low :: buf => (high.toNat <<< 8 ||| low.toNat) :: bytesNumbers buf
  | _ => []

theorem bytesNumber_eq (high low : UInt8) : high.toNat <<< 8 ||| low.toNat = 256 * high.toNat + low.toNat := by
  rw [← Nat.shiftLeft_add_eq_or_of_lt low.toNat_lt, Nat.shiftLeft_eq]
  omega

theorem bytesNumbers_lt (buf : Bytes) : ∀ n ∈ bytesNumbers buf, n < 2 ^ 16 := by
  induction buf using bytesNumbers.induct with
  | case1 high low buf ih =>
      rw [bytesNumbers, List.forall_mem_cons, bytesNumber_eq]
      have := high.toNat_lt
      have := low.toNat_lt
      exact ⟨by omega, ih⟩
  | case2 buf short =>
      rw [bytesNumbers]
      · simp
      · exact short

theorem numberBytes_bytesNumber (high low : UInt8) : numberBytes (high.toNat <<< 8 ||| low.toNat) = [high, low] := by
  have eightBits (m : Nat) : m &&& 0xff = m % 256 := Nat.and_two_pow_sub_one_eq_mod m 8
  have := low.toNat_lt
  rw [bytesNumber_eq, numberBytes, eightBits, Nat.shiftRight_eq_div_pow,
    show (256 * high.toNat + low.toNat) / 2 ^ 8 = high.toNat by omega,
    show (256 * high.toNat + low.toNat) % 256 = low.toNat by omega]
  simp

theorem flatMap_bytesNumbers {buf : Bytes} (even : buf.length % 2 = 0) : (bytesNumbers buf).flatMap numberBytes = buf := by
  induction buf using bytesNumbers.induct with
  | case1 high low buf ih =>
      rw [List.length_cons, List.length_cons] at even
      rw [bytesNumbers, List.flatMap_cons, ih (by omega), numberBytes_bytesNumber]
      rfl
  | case2 buf short =>
      match buf with
      | [] => rfl
      | [_] => simp at even
      | high :: low :: buf => exact absurd rfl (short high low buf)

theorem bytesNumbers_flatMap {numbers : List Nat} (small : ∀ n ∈ numbers, n < 2 ^ 16) :
    bytesNumbers (numbers.flatMap numberBytes) = numbers := by
  induction numbers with
  | nil => rfl
  | cons n numbers ih =>
      rw [List.forall_mem_cons] at small
      have eightBits : n &&& 0xff = n % 256 := Nat.and_two_pow_sub_one_eq_mod n 8
      rw [List.flatMap_cons, numberBytes, List.cons_append, List.singleton_append, bytesNumbers, ih small.2, bytesNumber_eq,
        eightBits, Nat.shiftRight_eq_div_pow]
      congr 1
      simp only [Nat.toUInt8_eq, UInt8.toNat_ofNat']
      omega

theorem length_flatMap_numberBytes (numbers : List Nat) : (numbers.flatMap numberBytes).length = 2 * numbers.length := by
  induction numbers with
  | nil => rfl
  | cons n numbers ih =>
      rw [List.flatMap_cons, List.length_append, ih, List.length_cons, numberBytes, List.length_cons, List.length_singleton]
      omega

theorem encodeWords_eq (buf : Bytes) :
    encodeWords buf = (bytesNumbers buf).flatMap fun n => wordLetters n ++ [dash] := by
  induction buf using bytesNumbers.induct with
  | case1 high low buf ih =>
      rw [encodeWords, bytesNumbers, List.flatMap_cons, ih, List.append_assoc, List.singleton_append]
  | case2 buf short =>
      rw [bytesNumbers, encodeWords]
      · rfl
      · exact short
      · exact short

theorem wordsText_cons {n : Nat} {numbers : List Nat} (more : numbers ≠ []) :
    wordsText (n :: numbers) = wordLetters n ++ dash :: wordsText numbers := by
  unfold wordsText
  rw [List.map_cons, List.intercalate_cons_of_ne_nil (by simpa using more), List.append_assoc, List.singleton_append]

theorem flatMap_words {numbers : List Nat} (nonempty : numbers ≠ []) :
    (numbers.flatMap fun n => wordLetters n ++ [dash]) = wordsText numbers ++ [dash] := by
  induction numbers with
  | nil => exact absurd rfl nonempty
  | cons n numbers ih =>
      by_cases more : numbers = []
      · subst more
        simp [wordsText]
      · rw [List.flatMap_cons, ih more, wordsText_cons more]
        simp only [List.append_assoc, List.cons_append, List.nil_append]

theorem length_wordsText {numbers : List Nat} (nonempty : numbers ≠ []) :
    (wordsText numbers).length + 1 = 6 * numbers.length := by
  induction numbers with
  | nil => exact absurd rfl nonempty
  | cons n numbers ih =>
      by_cases more : numbers = []
      · subst more
        rfl
      · have length := ih more
        rw [wordsText_cons more, List.length_append, List.length_cons, List.length_cons]
        simp only [wordLetters, List.length_cons, List.length_nil]
        omega

/-! ## What is recognised -/

section
variable {a b c d e f : UInt8} {str : Bytes} {k : Nat}

/-- One word, which begins at a sixth position. -/
theorem isProquintFrom_word : isProquintFrom (6 * k) (a :: b :: c :: d :: e :: str) = true ↔
    (a ∈ conse ∧ b ∈ vowse ∧ c ∈ conse ∧ d ∈ vowse ∧ e ∈ conse) ∧ isProquintFrom (6 * k + 5) str = true := by
  have consonant {x : UInt8} {i : Nat} (inWord : (i + 1) % 6 ≠ 0) (odd : (i + 1) % 2 ≠ 0) :
      isProquintAt i x = true ↔ x ∈ conse := by
    rw [isProquintAt, if_neg inWord, if_neg odd, isLetter_iff (by decide)]
  have vowel {x : UInt8} {i : Nat} (inWord : (i + 1) % 6 ≠ 0) (even : (i + 1) % 2 = 0) :
      isProquintAt i x = true ↔ x ∈ vowse := by
    rw [isProquintAt, if_neg inWord, if_pos even, isLetter_iff (by decide)]
  simp only [isProquintFrom, Bool.and_eq_true]
  rw [consonant (by omega) (by omega), vowel (by omega) (by omega), consonant (by omega) (by omega),
    vowel (by omega) (by omega), consonant (by omega) (by omega)]
  simp only [and_assoc]

theorem isProquintFrom_dash : isProquintFrom (6 * k + 5) (f :: str) = true ↔
    f = dash ∧ isProquintFrom (6 * (k + 1)) str = true := by
  rw [isProquintFrom, Bool.and_eq_true, isProquintAt, if_pos (by omega), decide_eq_true_iff]
  rfl

end

theorem wordLetters_mem (n : Nat) : ∃ a b c d e, wordLetters n = [a, b, c, d, e] ∧
    a ∈ conse ∧ b ∈ vowse ∧ c ∈ conse ∧ d ∈ vowse ∧ e ∈ conse := by
  have consonant {k : Nat} (bound : k < 16) : conse.getD k 0 ∈ conse := by
    rw [List.getD_eq_getElem _ _ (by rwa [length_conse])]
    exact List.getElem_mem _
  have vowel {k : Nat} (bound : k < 4) : vowse.getD k 0 ∈ vowse := by
    rw [List.getD_eq_getElem _ _ (by rwa [length_vowse])]
    exact List.getElem_mem _
  exact ⟨_, _, _, _, _, wordLetters_eq n, consonant (by omega), vowel (by omega), consonant (by omega),
    vowel (by omega), consonant (by omega)⟩

theorem isProquintFrom_wordsText {numbers : List Nat} (nonempty : numbers ≠ []) (k : Nat) :
    isProquintFrom (6 * k) (wordsText numbers) = true := by
  induction numbers generalizing k with
  | nil => exact absurd rfl nonempty
  | cons n numbers ih =>
      obtain ⟨a, b, c, d, e, letters, mem⟩ := wordLetters_mem n
      by_cases more : numbers = []
      · subst more
        have text : wordsText [n] = [a, b, c, d, e] := letters ▸ List.intercalate_singleton
        rw [text, isProquintFrom_word]
        exact ⟨mem, rfl⟩
      · rw [wordsText_cons more, letters]
        exact isProquintFrom_word.mpr ⟨mem, isProquintFrom_dash.mpr ⟨rfl, ih more (k + 1)⟩⟩

/-- Whole words, with every position right, are the words of some numbers. -/
theorem exists_numbers {text : Bytes} {count k : Nat} (length : text.length + 1 = 6 * (count + 1))
    (proper : isProquintFrom (6 * k) text = true) :
    ∃ numbers, numbers.length = count + 1 ∧ (∀ n ∈ numbers, n < 2 ^ 16) ∧ text = wordsText numbers := by
  induction count generalizing text k with
  | zero =>
      match text, length with
      | [a, b, c, d, e], _ =>
          obtain ⟨⟨memA, memB, memC, memD, memE⟩, -⟩ := isProquintFrom_word.mp proper
          refine ⟨[wordNumber a b c d e], rfl, by simpa using wordNumber_lt a b c d e, ?_⟩
          rw [wordsText, List.map_singleton, List.intercalate_singleton, wordLetters_wordNumber memA memB memC memD memE]
  | succ count ih =>
      match text, length with
      | a :: b :: c :: d :: e :: f :: text, length =>
          obtain ⟨⟨memA, memB, memC, memD, memE⟩, rest⟩ := isProquintFrom_word.mp proper
          obtain ⟨rfl, further⟩ := isProquintFrom_dash.mp rest
          simp only [List.length_cons] at length
          have shorter : text.length + 1 = 6 * (count + 1) := by omega
          obtain ⟨numbers, counted, small, rfl⟩ := ih shorter further
          refine ⟨wordNumber a b c d e :: numbers, by rw [List.length_cons, counted], ?_, ?_⟩
          · exact List.forall_mem_cons.mpr ⟨wordNumber_lt a b c d e, small⟩
          · rw [wordsText_cons (List.ne_nil_of_length_eq_add_one counted), wordLetters_wordNumber memA memB memC memD memE]
            rfl

theorem isProquint_eq_true {str : CString} (counted : 0 ≤ intLength str) :
    isProquint str = .returned true ↔
      ∃ numbers ≠ [], (∀ n ∈ numbers, n < 2 ^ 16) ∧ str.bytes.take (intLength str).toNat = wordsText numbers := by
  have upper : intLength str < 2 ^ 31 := sizeToInt_lt str.strlen
  have within : intLength str ≤ str.bytes.length := sizeToInt_le str.strlen
  have length : (str.bytes.take (intLength str).toNat).length = (intLength str).toNat := by
    rw [List.length_take]
    omega
  unfold isProquint
  constructor
  · intro recognised
    obtain ⟨next, added, recognised⟩ := Outcome.bind_eq_returned.mp recognised
    obtain ⟨-, rfl⟩ := intAdd_eq_returned.mp added
    split at recognised
    · cases recognised
    · rename_i whole
      have proper := Outcome.returned.inj recognised
      have words : (intLength str + 1) % 6 = 0 := by
        rw [← Int.tmod_eq_emod_of_nonneg (by omega)]
        exact not_not.mp whole
      obtain ⟨numbers, counted, small, same⟩ :=
        exists_numbers (show _ + 1 = 6 * ((intLength str).toNat / 6 + 1) by rw [length]; omega) (k := 0) proper
      exact ⟨numbers, List.ne_nil_of_length_eq_add_one counted, small, same⟩
  · rintro ⟨numbers, nonempty, -, same⟩
    have words := length_wordsText nonempty
    rw [← same, length] at words
    have added := intAdd_eq_returned.mpr ⟨(by omega : -2 ^ 31 ≤ intLength str + 1 ∧ intLength str + 1 < 2 ^ 31), rfl⟩
    rw [added, Outcome.returned_bind, if_neg]
    · change Outcome.returned (isProquintFrom (6 * 0) (str.bytes.take (intLength str).toNat)) = _
      rw [same, isProquintFrom_wordsText nonempty]
    · rw [not_not, Int.tmod_eq_emod_of_nonneg (by omega)]
      omega

/-! ## Decoding and encoding of words -/

theorem decodeWords_wordsText {numbers : List Nat} (small : ∀ n ∈ numbers, n < 2 ^ 16) (nonempty : numbers ≠ [])
    (behind : UInt8) (memory : Bytes) {ret : Bytes} {room : Nat} (fits : ret.length + 2 * numbers.length ≤ room) :
    decodeWords room numbers.length (wordsText numbers ++ behind :: memory) ret =
      .returned (ret ++ numbers.flatMap numberBytes) := by
  induction numbers generalizing ret with
  | nil => exact absurd rfl nonempty
  | cons n numbers ih =>
      rw [List.forall_mem_cons] at small
      rw [List.length_cons] at fits
      have length : (ret ++ numberBytes n).length = ret.length + 2 := List.length_append
      by_cases more : numbers = []
      · subst more
        have text : wordsText [n] = wordLetters n := List.intercalate_singleton
        rw [text, wordLetters_eq]
        simp only [List.length_singleton, List.cons_append, List.nil_append, decodeWords]
        rw [if_pos (by omega), wordNumber_wordLetters small.1, List.flatMap_singleton]
        rfl
      · rw [wordsText_cons more, wordLetters_eq]
        simp only [List.length_cons, List.cons_append, List.nil_append, decodeWords, List.drop_one, List.tail_cons]
        rw [if_pos (by omega), wordNumber_wordLetters small.1, List.flatMap_cons, ← List.append_assoc]
        have room' : (ret ++ numberBytes n).length + 2 * numbers.length ≤ room := by
          rw [length]
          omega
        exact ih small.2 more room'

theorem decode_of_isProquint {str : CString} (counted : 0 ≤ intLength str) {numbers : List Nat} (nonempty : numbers ≠ [])
    (small : ∀ n ∈ numbers, n < 2 ^ 16) (same : str.bytes.take (intLength str).toNat = wordsText numbers) :
    decode str = .returned (numbers.flatMap numberBytes) := by
  have recognised := (isProquint_eq_true counted).mpr ⟨numbers, nonempty, small, same⟩
  have upper : intLength str < 2 ^ 31 := sizeToInt_lt str.strlen
  have within : intLength str ≤ str.bytes.length := sizeToInt_le str.strlen
  have words := length_wordsText nonempty
  rw [← same, List.length_take, min_eq_left (by omega)] at words
  have added := intAdd_eq_returned.mpr ⟨(by omega : -2 ^ 31 ≤ intLength str + 1 ∧ intLength str + 1 < 2 ^ 31), rfl⟩
  have size : (intLength str + 1).tdiv 3 = (2 * numbers.length : Nat) := by
    rw [Int.tdiv_eq_ediv_of_nonneg (by omega)]
    omega
  obtain ⟨behind, memory, split⟩ : ∃ behind memory, str.bytes ++ [0] = wordsText numbers ++ behind :: memory := by
    rw [← same]
    cases rest : str.bytes.drop (intLength str).toNat with
    | nil =>
        refine ⟨0, [], ?_⟩
        conv_lhs => rw [← List.take_append_drop (intLength str).toNat str.bytes, rest, List.append_nil]
    | cons behind memory =>
        refine ⟨behind, memory ++ [0], ?_⟩
        conv_lhs => rw [← List.take_append_drop (intLength str).toNat str.bytes, rest]
        rw [List.append_assoc, List.cons_append]
  have iterations : ((intLength str).toNat + 5) / 6 = numbers.length := by omega
  have fits : ([] : Bytes).length + 2 * numbers.length ≤ 2 * numbers.length := (Nat.zero_add _).le
  have decoded := decodeWords_wordsText small nonempty behind memory fits
  rw [decode, recognised, Outcome.returned_bind, added, Outcome.returned_bind, if_neg (by simp), size, malloc_natCast,
    Outcome.returned_bind, iterations, split, decoded, List.nil_append]

theorem encode_eq {buf : Bytes} {size : Nat} (even : size % 2 = 0) (nonempty : 0 < size) (within : size ≤ buf.length)
    (fits : 3 * size < 2 ^ 31) : encode buf size = .returned (wordsText (bytesNumbers (buf.take size))) := by
  have length : (buf.take size).length = size := by rw [List.length_take, min_eq_left within]
  have words : bytesNumbers (buf.take size) ≠ [] := by
    intro none
    have bytes := flatMap_bytesNumbers (show (buf.take size).length % 2 = 0 by rw [length, even])
    rw [none] at bytes
    rw [← bytes] at length
    exact nonempty.ne length
  have counted : 2 * (bytesNumbers (buf.take size)).length = size := by
    rw [← length_flatMap_numberBytes, flatMap_bytesNumbers (by rw [length, even]), length]
  have text := length_wordsText words
  rw [encode, if_neg (by rw [not_not, Int.tmod_eq_emod_of_nonneg (by omega)]; omega), intMul, if_pos (by omega),
    Outcome.returned_bind, show (size : Int) * 3 = (3 * size : Nat) by omega, malloc_natCast, Outcome.returned_bind,
    Int.toNat_natCast, encodeWords_eq,
    flatMap_words words, if_neg, if_neg (by simp), List.dropLast_concat]
  · rfl
  · rw [List.length_append, List.length_singleton, text]
    omega

theorem encode_returned {buf text : Bytes} {size : Int} (encoded : encode buf size = .returned text) :
    ∃ n : Nat, size = n ∧ n % 2 = 0 ∧ 0 < n ∧ n ≤ buf.length ∧ 3 * n < 2 ^ 31 := by
  unfold encode at encoded
  split at encoded
  · cases encoded
  · rename_i even
    obtain ⟨product, multiplied, encoded⟩ := Outcome.bind_eq_returned.mp encoded
    rw [intMul] at multiplied
    split at multiplied
    · rename_i fits
      obtain rfl := Outcome.returned.inj multiplied
      obtain ⟨room, given, encoded⟩ := Outcome.bind_eq_returned.mp encoded
      rw [malloc] at given
      split at given
      · rename_i positive
        obtain ⟨n, rfl⟩ := Int.eq_ofNat_of_zero_le (show 0 ≤ size by omega)
        rw [not_not, Int.tmod_eq_emod_of_nonneg (by omega)] at even
        dsimp only at encoded
        split at encoded
        · cases encoded
        · rename_i within
          rw [not_or] at within
          split at encoded
          · cases encoded
          · rename_i written
            refine ⟨n, rfl, by omega, Nat.pos_of_ne_zero ?_, by simpa using within.1, by omega⟩
            rintro rfl
            exact written rfl
      · cases given
    · cases multiplied

theorem length_bytesNumbers {buf : Bytes} (even : buf.length % 2 = 0) : 2 * (bytesNumbers buf).length = buf.length := by
  rw [← length_flatMap_numberBytes, flatMap_bytesNumbers even]

theorem nulFree_wordsText (numbers : List Nat) : 0 ∉ wordsText numbers := by
  have letters (n : Nat) : 0 ∉ wordLetters n := by
    obtain ⟨a, b, c, d, e, same, memA, memB, memC, memD, memE⟩ := wordLetters_mem n
    have consonant {x : UInt8} (mem : x ∈ conse) : 0 ≠ x := fun zero => absurd (zero ▸ mem) (by decide)
    have vowel {x : UInt8} (mem : x ∈ vowse) : 0 ≠ x := fun zero => absurd (zero ▸ mem) (by decide)
    simp [same, consonant memA, vowel memB, consonant memC, vowel memD, consonant memE]
  induction numbers with
  | nil => simp [wordsText]
  | cons n numbers ih =>
      by_cases more : numbers = []
      · subst more
        exact (show wordsText [n] = wordLetters n from List.intercalate_singleton) ▸ letters n
      · rw [wordsText_cons more, List.mem_append, List.mem_cons]
        rintro (mem | zero | mem)
        · exact letters n mem
        · cases zero
        · exact ih mem

theorem intLength_of_lt {str : CString} (short : str.strlen < 2 ^ 31) : intLength str = str.strlen :=
  sizeToInt_of_lt short

theorem take_intLength {str : CString} (short : str.strlen < 2 ^ 31) :
    str.bytes.take (intLength str).toNat = str.bytes := by
  rw [intLength_of_lt short, Int.toNat_natCast]
  exact List.take_length

/-- A shorter text is a proquint when it is words of the letters, separated by `-`. -/
theorem isProquint_iff_words {str : CString} (short : str.strlen < 2 ^ 31) : isProquint str = .returned true ↔
    ∃ numbers ≠ [], (∀ n ∈ numbers, n < 2 ^ 16) ∧ str.bytes = wordsText numbers := by
  have counted : 0 ≤ intLength str := by
    rw [intLength_of_lt short]
    exact Int.natCast_nonneg _
  rw [isProquint_eq_true counted, take_intLength short]

theorem decode_of_words {str : CString} (short : str.strlen < 2 ^ 31) {numbers : List Nat} (nonempty : numbers ≠ [])
    (small : ∀ n ∈ numbers, n < 2 ^ 16) (same : str.bytes = wordsText numbers) :
    decode str = .returned (numbers.flatMap numberBytes) := by
  have counted : 0 ≤ intLength str := by
    rw [intLength_of_lt short]
    exact Int.natCast_nonneg _
  exact decode_of_isProquint counted nonempty small (by rw [take_intLength short, same])

/-- What an encoder gives is a proquint, of the bytes that it has looked at. -/
theorem encode_proquint {buf : Bytes} {str : CString} {size : Int} (encoded : encode buf size = .returned str.bytes) :
    isProquint str = .returned true ∧ ∃ n : Nat, size = n ∧ n ≤ buf.length ∧ str.strlen + 1 = 3 * n ∧ 3 * n < 2 ^ 31 ∧
      decode str = .returned (buf.take n) := by
  obtain ⟨n, rfl, even, positive, within, fits⟩ := encode_returned encoded
  have length : (buf.take n).length = n := by rw [List.length_take, min_eq_left within]
  have counted := length_bytesNumbers (show (buf.take n).length % 2 = 0 by rw [length, even])
  have nonempty : bytesNumbers (buf.take n) ≠ [] := by
    intro none
    rw [none, List.length_nil] at counted
    omega
  have small := bytesNumbers_lt (buf.take n)
  have text := length_wordsText nonempty
  rw [encode_eq even positive within fits] at encoded
  have same := (Outcome.returned.inj encoded).symm
  rw [← same] at text
  have short : str.strlen < 2 ^ 31 := by
    unfold CString.strlen
    omega
  refine ⟨(isProquint_iff_words short).mpr ⟨_, nonempty, small, same⟩, n, rfl, within, ?_, fits, ?_⟩
  · unfold CString.strlen
    omega
  · rw [decode_of_words short nonempty small same, flatMap_bytesNumbers (by rw [length, even])]

theorem bytesReturn_iff {buf : Bytes} (nonempty : buf ≠ []) (even : buf.length % 2 = 0) :
    BytesReturn buf ↔ 3 * buf.length < 2 ^ 31 := by
  constructor
  · rintro ⟨str, encoded, -, decoded⟩
    obtain ⟨-, n, -, within, -, fits, decoded'⟩ := encode_proquint encoded
    have whole := congrArg List.length (Outcome.returned.inj (decoded.symm.trans decoded'))
    rw [List.length_take] at whole
    omega
  · intro fits
    have encoded := encode_eq even (List.length_pos_of_ne_nil nonempty) le_rfl fits
    let str : CString := ⟨_, nulFree_wordsText (bytesNumbers (buf.take buf.length))⟩
    have encoded' : encode buf (sizeToInt buf.length) = .returned str.bytes := by
      rw [sizeToInt_of_lt (by omega)]
      exact encoded
    obtain ⟨recognised, n, same, -, -, -, decoded⟩ := encode_proquint encoded'
    rw [sizeToInt_of_lt (by omega), Nat.cast_inj] at same
    rw [← same, List.take_length] at decoded
    exact ⟨str, encoded', recognised, decoded⟩

theorem textReturns_iff {str : CString} (recognised : isProquint str = .returned true) :
    TextReturns str ↔ str.strlen < 2 ^ 31 := by
  constructor
  · rintro ⟨buf, -, encoded⟩
    obtain ⟨-, n, -, -, length, fits, -⟩ := encode_proquint encoded
    omega
  · intro short
    obtain ⟨numbers, nonempty, small, same⟩ := (isProquint_iff_words short).mp recognised
    have text := length_wordsText nonempty
    have length := length_flatMap_numberBytes numbers
    have positive := List.length_pos_of_ne_nil nonempty
    rw [← same] at text
    unfold CString.strlen at short
    refine ⟨_, decode_of_words short nonempty small same, ?_⟩
    rw [sizeToInt_of_lt (by omega), encode_eq (by omega) (by omega) le_rfl (by omega), List.take_length,
      bytesNumbers_flatMap small, same]

/-- Encoding and decoding are inverse as long as an `int` has room for the length of the text. -/
theorem proquint_bijection_iff (buf : Bytes) (str : CString) :
    (buf ≠ [] → buf.length % 2 = 0 → (BytesReturn buf ↔ 3 * buf.length < 2 ^ 31)) ∧
      (isProquint str = .returned true → (TextReturns str ↔ str.strlen < 2 ^ 31)) :=
  ⟨bytesReturn_iff, textReturns_iff⟩

theorem lusab_nulFree : 0 ∉ ascii "lusab" := by decide

def lusab : CString := ⟨ascii "lusab", lusab_nulFree⟩

theorem proquint_bijection_lusab : BytesReturn [127, 0] ∧ TextReturns lusab := by
  obtain ⟨bytes, text⟩ := proquint_bijection_iff [127, 0] lusab
  exact ⟨(bytes (by simp) rfl).mpr (by simp), (text (by decide)).mpr (by decide)⟩

/-- The size of the text of 715827884 bytes does not fit an `int`. -/
theorem not_bytesReturn_long : ¬ BytesReturn (List.replicate 715827884 0) := by
  have nonempty : List.replicate 715827884 (0 : UInt8) ≠ [] := by
    rw [Ne, List.replicate_eq_nil_iff]
    omega
  rw [bytesReturn_iff nonempty (by rw [List.length_replicate]), List.length_replicate]
  omega

/-! ## What is not a proquint -/

theorem decodeWords_ne_failed {room words : Nat} {memory ret : Bytes} : decodeWords room words memory ret ≠ .failed := by
  fun_induction decodeWords room words memory ret with
  | case1 => exact nofun
  | case2 _ _ _ _ _ _ _ _ _ _ ih => exact ih
  | case3 => exact nofun
  | case4 => exact nofun

theorem isProquint_ne_failed (str : CString) : isProquint str ≠ .failed := by
  unfold isProquint intAdd
  split
  · rw [Outcome.returned_bind]
    split <;> exact nofun
  · exact nofun

theorem intAdd_of_isProquint {str : CString} {valid : Bool} (recognised : isProquint str = .returned valid) :
    intAdd (intLength str) 1 = .returned (intLength str + 1) := by
  obtain ⟨next, added, -⟩ := Outcome.bind_eq_returned.mp recognised
  obtain ⟨-, rfl⟩ := intAdd_eq_returned.mp added
  exact added

theorem three_dvd_iff {n : Int} : n.tmod 3 = 0 ↔ 3 ∣ n := (Int.dvd_iff_tmod_eq_zero).symm

theorem tdiv_three_nonneg_iff (n : Int) : 0 ≤ (n + 1).tdiv 3 ↔ -4 < n := by
  rw [Int.tdiv_eq_ediv, show (3 : Int).sign = 1 from rfl]
  split <;> omega

theorem rejectsOthers_of_proquint {str : CString} (recognised : isProquint str = .returned true) :
    RejectsOthers str ↔ -4 < intLength str := by
  unfold RejectsOthers
  rw [recognised, iff_false_right (not_not.mpr rfl)]
  by_cases counted : 0 ≤ intLength str
  · obtain ⟨numbers, nonempty, small, same⟩ := (isProquint_eq_true counted).mp recognised
    rw [decode_of_isProquint counted nonempty small same]
    exact iff_of_true ⟨Outcome.defined_returned _, nofun⟩ (by omega)
  · rw [decode, recognised, Outcome.returned_bind, intAdd_of_isProquint recognised, Outcome.returned_bind,
      if_neg (by simp), malloc]
    by_cases near : -4 < intLength str
    · have nothing : ((intLength str).toNat + 5) / 6 = 0 := by omega
      rw [if_pos ((tdiv_three_nonneg_iff _).mpr near), Outcome.returned_bind, nothing, decodeWords]
      exact iff_of_true ⟨Outcome.defined_returned _, nofun⟩ near
    · rw [if_neg (mt (tdiv_three_nonneg_iff _).mp near)]
      exact iff_of_false (fun both => both.2 rfl) near

theorem rejectsOthers_of_other {str : CString} (recognised : isProquint str = .returned false) :
    RejectsOthers str ↔ 3 ∣ intLength str + 1 ∨ intLength str ≤ -4 := by
  unfold RejectsOthers
  rw [recognised, iff_true_right (nofun : Outcome.returned false ≠ .returned true), decode, recognised, Outcome.returned_bind, intAdd_of_isProquint recognised,
    Outcome.returned_bind]
  by_cases third : 3 ∣ intLength str + 1
  · rw [if_pos (by simpa using three_dvd_iff.mpr third)]
    exact iff_of_true ⟨Outcome.defined_failed, rfl⟩ (Or.inl third)
  · rw [if_neg (by simpa using mt three_dvd_iff.mp third), malloc]
    by_cases far : intLength str ≤ -4
    · rw [if_neg (mt (tdiv_three_nonneg_iff _).mp (by omega))]
      exact iff_of_true ⟨Outcome.defined_failed, rfl⟩ (Or.inr far)
    · rw [if_pos ((tdiv_three_nonneg_iff _).mpr (by omega)), Outcome.returned_bind]
      exact iff_of_false (fun both => decodeWords_ne_failed both.2) (not_or.mpr ⟨third, far⟩)

theorem rejectsOthers_iff (str : CString) : RejectsOthers str ↔
    isProquint str = .returned true ∧ -4 < intLength str ∨
      isProquint str = .returned false ∧ (3 ∣ intLength str + 1 ∨ intLength str ≤ -4) := by
  cases recognised : isProquint str with
  | returned valid =>
      cases valid with
      | true => simp [rejectsOthers_of_proquint recognised]
      | false => simp [rejectsOthers_of_other recognised]
  | failed => exact absurd recognised (isProquint_ne_failed str)
  | fault cause =>
      refine iff_of_false ?_ (by simp)
      intro rejects
      have defined := rejects.1
      rw [decode, recognised] at defined
      exact defined cause rfl

theorem pathParseFromCid_ne (txt : Bytes) : pathParseFromCid txt ≠ .returned errInvalidProquint := by
  unfold pathParseFromCid
  split
  · exact nofun
  · split <;> decide

theorem pathParse_ne (txt : Option Bytes) : pathParse txt ≠ .returned errInvalidProquint := by
  unfold pathParse
  split
  · decide
  · exact nofun
  · split
    · decide
    · split
      · exact pathParseFromCid_ne _
      · split
        · exact nofun
        · split
          · exact pathParseFromCid_ne _
          · split
            · exact nofun
            · dsimp only
              split
              · decide
              · split
                · exact pathParseFromCid_ne _
                · split <;> decide

theorem resolveOnce_of_proquint {p : Option Bytes} {name : CString} (recognised : isProquint name = .returned true) :
    resolveOnce p name = .returned (errInvalidProquint, none) := by
  rw [resolveOnce, recognised, Outcome.returned_bind, if_pos rfl]
  rfl

theorem isProquint_of_reported {p p' : Option Bytes} {name : CString}
    (resolved : resolveOnce p name = .returned (errInvalidProquint, p')) : isProquint name = .returned true := by
  rw [resolveOnce] at resolved
  obtain ⟨valid, recognised, resolved⟩ := Outcome.bind_eq_returned.mp resolved
  cases valid with
  | true => exact recognised
  | false =>
      rw [if_neg Bool.false_ne_true] at resolved
      obtain ⟨err, parsed, resolved⟩ := Outcome.bind_eq_returned.mp resolved
      split at resolved
      · cases resolved
      · have same : err = errInvalidProquint := congrArg Prod.fst (Outcome.returned.inj resolved)
        obtain ⟨txt, -, parsed⟩ := Outcome.bind_eq_returned.mp parsed
        exact absurd (same ▸ parsed) (pathParse_ne txt)

theorem not_reportsOthers (name : CString) : ¬ ReportsOthers name := by
  unfold ReportsOthers
  intro reports
  by_cases recognised : isProquint name = .returned true
  · exact reports.mp ⟨none, resolveOnce_of_proquint recognised⟩ recognised
  · obtain ⟨p, resolved⟩ := reports.mpr recognised
    exact recognised (isProquint_of_reported resolved)

/-- The decoder accepts what fails one of its two tests only, and the resolver has its test the wrong way round. -/
theorem proquint_rejection_iff (str name : CString) :
    (RejectsOthers str ↔ isProquint str = .returned true ∧ -4 < intLength str ∨
      isProquint str = .returned false ∧ (3 ∣ intLength str + 1 ∨ intLength str ≤ -4)) ∧ ¬ ReportsOthers name :=
  ⟨rejectsOthers_iff str, not_reportsOthers name⟩

/-- The empty string is decoded, and a proquint is reported as none. -/
theorem not_proquint_rejection : ¬ RejectsOthers .empty ∧ ¬ ReportsOthers lusab := by
  have other : isProquint .empty = .returned false := by decide
  have length : intLength .empty = 0 := by decide
  constructor
  · rw [rejectsOthers_of_other other, length]
    omega
  · exact not_reportsOthers lusab

end Ipfs.Proquint
