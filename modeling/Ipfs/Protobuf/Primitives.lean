import Ipfs.Lib.Wire

/-!
# The protobuf primitives

`protobuf.h` and `varint.h` come with the c-libp2p submodule. The code relies on them for the
standard wire format: an encoder writes a field when the rest of the buffer holds it and returns 0
otherwise; a decoder reads from the front of its window, reports the bytes it consumed and never
consumes more than the window.
-/

namespace Ipfs

/-- The end of `protobuf_decode_field_and_type`. A tag that is cut off by the end of the window is
told apart from one that is wrong: the decoders hand out windows that are longer than their buffer. -/
inductive TagRead
  | done (field : Nat) (type : WireType) (bytesRead : Nat)
  | malformed
  | truncated
  deriving DecidableEq

structure Protobuf where
  encodeVarint : Nat → WireType → UInt64 → Nat → Option Bytes
  encodeLengthDelimited : Nat → WireType → Bytes → Nat → Option Bytes
  encodeString : Nat → WireType → CString → Nat → Option Bytes
  decodeFieldAndType : Bytes → TagRead
  decodeVarint : Bytes → Option (UInt64 × Nat)
  decodeLengthDelimited : Bytes → Option (Bytes × Nat)
  decodeString : Bytes → Option (CString × Nat)
  varintEncode : UInt64 → Nat → Option Bytes
  varintDecode : Bytes → UInt64 × Nat
  encodeVarint_eq : ∀ field type value room,
    encodeVarint field type value room = Wire.fit room (Wire.varintField field type value.toNat)
  encodeLengthDelimited_eq : ∀ field type data room,
    encodeLengthDelimited field type data room = Wire.fit room (Wire.bytesField field type data)
  encodeString_eq : ∀ field type text room,
    encodeString field type text room = Wire.fit room (Wire.bytesField field type text.bytes)
  varintEncode_eq : ∀ value room, varintEncode value room = Wire.fit room (Leb128.encode value.toNat)
  decodeFieldAndType_tag : ∀ field type rest, 0 < field → field < 2 ^ 28 →
    decodeFieldAndType (Wire.tag field type ++ rest) = .done field type (Wire.tag field type).length
  decodeFieldAndType_bound : ∀ window field type n,
    decodeFieldAndType window = .done field type n → 0 < n ∧ n ≤ window.length
  decodeVarint_encode : ∀ (value : UInt64) rest,
    decodeVarint (Leb128.encode value.toNat ++ rest) = some (value, (Leb128.encode value.toNat).length)
  decodeVarint_bound : ∀ window value n, decodeVarint window = some (value, n) → n ≤ window.length
  decodeLengthDelimited_encode : ∀ data rest,
    decodeLengthDelimited (Leb128.encode data.length ++ (data ++ rest)) =
      some (data, (Leb128.encode data.length).length + data.length)
  decodeLengthDelimited_bound : ∀ window data n,
    decodeLengthDelimited window = some (data, n) → data.length ≤ n ∧ n ≤ window.length
  decodeString_encode : ∀ (text : CString) rest,
    decodeString (Leb128.encode text.bytes.length ++ (text.bytes ++ rest)) =
      some (text, (Leb128.encode text.bytes.length).length + text.bytes.length)
  decodeString_bound : ∀ window text n, decodeString window = some (text, n) → n ≤ window.length
  varintDecode_encode : ∀ (value : UInt64) rest,
    varintDecode (Leb128.encode value.toNat ++ rest) = (value, (Leb128.encode value.toNat).length)
  varintDecode_bound : ∀ window, (varintDecode window).2 ≤ window.length

namespace Protobuf

def readVarint (window : Bytes) : Option (UInt64 × Nat) :=
  match Leb128.decode window with
  | some (value, n) => if value < 2 ^ 64 then some (UInt64.ofNat value, n) else none
  | none => none

def readBytes (window : Bytes) : Option (Bytes × Nat) :=
  match Leb128.decode window with
  | some (length, n) =>
      if n + length ≤ window.length then some ((window.drop n).take length, n + length) else none
  | none => none

def readTag (window : Bytes) : TagRead :=
  match Leb128.decode window with
  | some (key, n) =>
      match WireType.ofCode (key % 8) with
      | some type => if 0 < key / 8 ∧ key / 8 < 2 ^ 28 then .done (key / 8) type n else .malformed
      | none => .malformed
  | none => .truncated

theorem readVarint_encode (value : UInt64) (rest : Bytes) :
    readVarint (Leb128.encode value.toNat ++ rest) = some (value, (Leb128.encode value.toNat).length) := by
  simp [readVarint, value.toNat_lt]

theorem readVarint_bound (window : Bytes) (value : UInt64) (n : Nat)
    (h : readVarint window = some (value, n)) : n ≤ window.length := by
  unfold readVarint at h
  split at h
  · rename_i v k hd
    split at h
    · simp only [Option.some.injEq, Prod.mk.injEq] at h
      exact h.2 ▸ (Leb128.decode_bound hd).2
    · simp at h
  · simp at h

theorem readBytes_encode (data rest : Bytes) :
    readBytes (Leb128.encode data.length ++ (data ++ rest)) =
      some (data, (Leb128.encode data.length).length + data.length) := by
  simp [readBytes]

theorem readBytes_bound (window data : Bytes) (n : Nat) (h : readBytes window = some (data, n)) :
    data.length ≤ n ∧ n ≤ window.length := by
  unfold readBytes at h
  split at h
  · split at h
    · simp only [Option.some.injEq, Prod.mk.injEq] at h
      obtain ⟨rfl, rfl⟩ := h
      simp only [List.length_take, List.length_drop]
      omega
    · simp at h
  · simp at h

theorem readTag_tag (field : Nat) (type : WireType) (rest : Bytes) (pos : 0 < field)
    (bound : field < 2 ^ 28) :
    readTag (Wire.tag field type ++ rest) = .done field type (Wire.tag field type).length := by
  have lt := type.code_lt
  have quotient : (8 * field + type.code) / 8 = field := by omega
  have remainder : (8 * field + type.code) % 8 = type.code := by omega
  simp only [readTag, Wire.tag, Leb128.decode_encode, quotient, remainder, WireType.ofCode_code]
  rw [if_pos ⟨pos, bound⟩]

theorem readTag_bound (window : Bytes) (field : Nat) (type : WireType) (n : Nat)
    (h : readTag window = .done field type n) : 0 < n ∧ n ≤ window.length := by
  unfold readTag at h
  split at h
  · rename_i key k hd
    split at h
    · split at h
      · simp only [TagRead.done.injEq] at h
        exact h.2.2 ▸ Leb128.decode_bound hd
      · simp at h
    · simp at h
  · simp at h

def standard : Protobuf where
  encodeVarint field type value room := Wire.fit room (Wire.varintField field type value.toNat)
  encodeLengthDelimited field type data room := Wire.fit room (Wire.bytesField field type data)
  encodeString field type text room := Wire.fit room (Wire.bytesField field type text.bytes)
  decodeFieldAndType := readTag
  decodeVarint := readVarint
  decodeLengthDelimited := readBytes
  decodeString window := (readBytes window).map fun p => (CString.ofBytes p.1, p.2)
  varintEncode value room := Wire.fit room (Leb128.encode value.toNat)
  varintDecode window := (readVarint window).getD (0, 0)
  encodeVarint_eq _ _ _ _ := rfl
  encodeLengthDelimited_eq _ _ _ _ := rfl
  encodeString_eq _ _ _ _ := rfl
  varintEncode_eq _ _ := rfl
  decodeFieldAndType_tag := readTag_tag
  decodeFieldAndType_bound := readTag_bound
  decodeVarint_encode := readVarint_encode
  decodeVarint_bound := readVarint_bound
  decodeLengthDelimited_encode := readBytes_encode
  decodeLengthDelimited_bound := readBytes_bound
  decodeString_encode text rest := by simp [readBytes_encode]
  decodeString_bound window text n h := by
    obtain ⟨⟨data, k⟩, hd, eq⟩ := Option.map_eq_some_iff.mp h
    simp only [Prod.mk.injEq] at eq
    exact eq.2 ▸ (readBytes_bound window data k hd).2
  varintDecode_encode value rest := by simp [readVarint_encode]
  varintDecode_bound window := by
    cases h : readVarint window with
    | none => simp
    | some p => exact readVarint_bound window p.1 p.2 h

end Protobuf
end Ipfs
