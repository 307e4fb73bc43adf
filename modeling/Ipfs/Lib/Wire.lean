import Ipfs.Lib.Leb128
import Mathlib.Data.List.TakeWhile

/-!
# The protobuf wire format

Fields are a tag, the field number and wire type in one LEB128 number, followed by the value. A
writer appends fields to a buffer of fixed room and refuses a field that does not fit.
-/

abbrev Bytes := List UInt8

@[ext]
structure CString where
  bytes : Bytes
  nulFree : 0 ∉ bytes
  deriving DecidableEq

namespace CString

def empty : CString := ⟨[], by simp⟩

def strlen (s : CString) : Nat := s.bytes.length

def ofBytes (bytes : Bytes) : CString :=
  ⟨bytes.takeWhile (· ≠ 0), fun mem => by simpa using List.mem_takeWhile_imp mem⟩

@[simp] theorem ofBytes_bytes (s : CString) : ofBytes s.bytes = s := by
  ext1
  exact List.takeWhile_eq_self_iff.mpr fun b mem => by
    simpa using fun zero : b = 0 => s.nulFree (zero ▸ mem)

end CString

/-- The string that begins at an address. -/
def cString (memory : Bytes) : Bytes := memory.takeWhile (· ≠ 0)

theorem cString_of_clean {string : Bytes} (clean : 0 ∉ string) : cString string = string :=
  List.takeWhile_eq_self_iff.mpr fun byte mem => by simpa using fun zero : byte = 0 => clean (zero ▸ mem)

inductive WireType
  | varint
  | fixed64
  | lengthDelimited
  | startGroup
  | endGroup
  | fixed32
  deriving DecidableEq, Repr

namespace WireType

def code : WireType → Nat
  | .varint => 0
  | .fixed64 => 1
  | .lengthDelimited => 2
  | .startGroup => 3
  | .endGroup => 4
  | .fixed32 => 5

def ofCode : Nat → Option WireType
  | 0 => some .varint
  | 1 => some .fixed64
  | 2 => some .lengthDelimited
  | 3 => some .startGroup
  | 4 => some .endGroup
  | 5 => some .fixed32
  | _ => none

@[simp] theorem ofCode_code (type : WireType) : ofCode type.code = some type := by
  cases type <;> rfl

theorem code_lt (type : WireType) : type.code < 8 := by
  cases type <;> decide

end WireType

namespace Wire

def tag (field : Nat) (type : WireType) : Bytes := Leb128.encode (8 * field + type.code)

def varintField (field : Nat) (type : WireType) (value : Nat) : Bytes :=
  tag field type ++ Leb128.encode value

def bytesField (field : Nat) (type : WireType) (data : Bytes) : Bytes :=
  tag field type ++ (Leb128.encode data.length ++ data)

theorem tag_length_pos (field : Nat) (type : WireType) : 0 < (tag field type).length :=
  Leb128.encode_length_pos _

theorem tag_length {field : Nat} (type : WireType) (small : field < 15) : (tag field type).length = 1 := by
  have := type.code_lt
  simp [tag, Leb128.encode_lt (show 8 * field + type.code < 128 by omega)]

theorem varintField_length_ge (field : Nat) (type : WireType) (value : Nat) :
    2 ≤ (varintField field type value).length := by
  have := tag_length_pos field type
  have := Leb128.encode_length_pos value
  simp only [varintField, List.length_append]
  omega

theorem bytesField_length_ge (field : Nat) (type : WireType) (data : Bytes) :
    2 + data.length ≤ (bytesField field type data).length := by
  have := tag_length_pos field type
  have := Leb128.encode_length_pos data.length
  simp only [bytesField, List.length_append]
  omega

theorem varintField_length_pos (field : Nat) (type : WireType) (value : Nat) :
    0 < (varintField field type value).length :=
  Nat.lt_of_lt_of_le Nat.two_pos (varintField_length_ge field type value)

theorem bytesField_length_pos (field : Nat) (type : WireType) (data : Bytes) :
    0 < (bytesField field type data).length :=
  Nat.lt_of_lt_of_le (Nat.add_pos_left Nat.two_pos _) (bytesField_length_ge field type data)

theorem varintField_length_le_of_lt {field value : Nat} (type : WireType) (small : field < 15) (k : Nat)
    (bound : value < 128 ^ (k + 1)) : (varintField field type value).length ≤ k + 2 := by
  have := Leb128.encode_length_le k value bound
  simp only [varintField, List.length_append, tag_length type small]
  omega

theorem varintField_length_le {field value : Nat} (type : WireType) (small : field < 15)
    (bound : value < 2 ^ 64) : (varintField field type value).length ≤ 11 :=
  varintField_length_le_of_lt type small 9 (lt_trans bound (by norm_num))

theorem bytesField_length_le_of_lt {field : Nat} {data : Bytes} (type : WireType) (small : field < 15) (k : Nat)
    (bound : data.length < 128 ^ (k + 1)) : (bytesField field type data).length ≤ k + 2 + data.length := by
  have := Leb128.encode_length_le k data.length bound
  simp only [bytesField, List.length_append, tag_length type small]
  omega

theorem bytesField_length_le {field : Nat} {data : Bytes} (type : WireType) (small : field < 15)
    (bound : data.length < 2 ^ 64) : (bytesField field type data).length ≤ 11 + data.length :=
  bytesField_length_le_of_lt type small 9 (lt_trans bound (by norm_num))

theorem flatMap_length_le {α : Type} {write : α → Bytes} (bound : Nat) (items : List α)
    (each : ∀ item ∈ items, (write item).length ≤ bound) :
    (items.flatMap write).length ≤ bound * items.length := by
  have sum := List.sum_le_card_nsmul (items.map fun item => (write item).length) bound (by simpa using each)
  rwa [List.length_map, smul_eq_mul, mul_comm, ← List.length_flatMap] at sum

theorem le_flatMap_length {α : Type} {write : α → Bytes} (bound : Nat) (items : List α)
    (each : ∀ item ∈ items, bound ≤ (write item).length) :
    bound * items.length ≤ (items.flatMap write).length := by
  have sum := List.card_nsmul_le_sum (items.map fun item => (write item).length) bound (by simpa using each)
  rwa [List.length_map, smul_eq_mul, mul_comm, ← List.length_flatMap] at sum

/-! ## Writing into a buffer -/

def fit (room : Nat) (bytes : Bytes) : Option Bytes :=
  if bytes.length ≤ room then some bytes else none

def append (room : Nat) (written : Bytes) (write : Nat → Option Bytes) : Option Bytes :=
  (write (room - written.length)).map (written ++ ·)

def appendIf (present : Prop) [Decidable present] (room : Nat) (written : Bytes)
    (write : Nat → Option Bytes) : Option Bytes :=
  if present then append room written write else some written

theorem fit_of_le {room : Nat} {bytes : Bytes} (h : bytes.length ≤ room) : fit room bytes = some bytes :=
  if_pos h

theorem fit_of_lt {room : Nat} {bytes : Bytes} (h : room < bytes.length) : fit room bytes = none :=
  if_neg (by omega)

theorem append_fit {room : Nat} {written bytes : Bytes} (h : written.length ≤ room) :
    append room written (fun left => fit left bytes) = fit room (written ++ bytes) := by
  simp only [append, fit, List.length_append]
  by_cases le : bytes.length ≤ room - written.length
  · rw [if_pos le, if_pos (by omega), Option.map_some]
  · rw [if_neg le, if_neg (by omega), Option.map_none]

theorem append_length_le {room : Nat} {written bytes out : Bytes} (h : written.length ≤ room)
    (appended : append room written (fun left => fit left bytes) = some out) : out.length ≤ room := by
  rw [append_fit h, fit] at appended
  split at appended
  · exact Option.some.inj appended ▸ ‹_›
  · simp at appended

theorem fit_bind_append (room : Nat) (written bytes : Bytes) :
    ((fit room written).bind fun out => append room out fun left => fit left bytes) =
      fit room (written ++ bytes) := by
  by_cases le : written.length ≤ room
  · rw [fit_of_le le, Option.bind_some, append_fit le]
  · rw [fit_of_lt (by omega), Option.bind_none, fit_of_lt (by simp only [List.length_append]; omega)]

theorem fit_bind_append_bind {α : Type} (room : Nat) (written bytes : Bytes) (next : Bytes → Option α) :
    ((fit room written).bind fun out => (append room out fun left => fit left bytes).bind next) =
      (fit room (written ++ bytes)).bind next := by
  rw [← fit_bind_append, Option.bind_assoc]

theorem fit_bind_appendIf (present : Prop) [Decidable present] (room : Nat) (written bytes : Bytes) :
    ((fit room written).bind fun out => appendIf present room out fun left => fit left bytes) =
      fit room (written ++ if present then bytes else []) := by
  by_cases here : present
  · simp only [appendIf, here, if_true]
    exact fit_bind_append room written bytes
  · simp only [appendIf, here, if_false, Option.bind_fun_some, List.append_nil]

theorem appendIf_nil (present : Prop) [Decidable present] (room : Nat) (bytes : Bytes) :
    (appendIf present room [] fun left => fit left bytes) = fit room (if present then bytes else []) :=
  fit_bind_appendIf present room [] bytes

theorem fit_bind_appendIf_bind {α : Type} (present : Prop) [Decidable present] (room : Nat)
    (written bytes : Bytes) (next : Bytes → Option α) :
    ((fit room written).bind fun out =>
        (appendIf present room out fun left => fit left bytes).bind next) =
      (fit room (written ++ if present then bytes else [])).bind next := by
  rw [← fit_bind_appendIf, Option.bind_assoc]

end Wire
