import Ipfs.Lib.Conversion
import Ipfs.Protobuf.Scan

namespace Ipfs
open Conversion

/-- `struct Cid`. The hash pointer is NULL exactly when the hash is empty. -/
structure Cid where
  version : Int32
  codec : Int32
  hash : Bytes
  deriving DecidableEq

def cidDagProtobuf : Int8 := 0x70

def cidNew (version : Int32) (hash : Bytes) (codec : Int8) : Cid :=
  { version, codec := codec.toInt32, hash }

def cidCopy (original : Option Cid) : Outcome Cid := .access .nullPointer original

/-- `ipfs_cid_compare`; the difference of two lengths is cut to an `int`. -/
def cidCompare : Option Cid → Option Cid → Int32
  | none, none => 0
  | some _, none => -1
  | none, some _ => 1
  | some a, some b =>
      if a.version ≠ b.version then b.version - a.version
      else if a.codec ≠ b.codec then b.codec - a.codec
      else if a.hash.length ≠ b.hash.length then .ofNat b.hash.length - .ofNat a.hash.length
      else match (a.hash.zip b.hash).find? fun (x, y) => x ≠ y with
        | some (x, y) => .ofNat y.toNat - .ofNat x.toNat
        | none => 0

def cidProtobufEncodeSize : Option Cid → Nat
  | some cid => 11 + 12 + cid.hash.length + 11
  | none => 0

def cidProtobufEncode (pb : Protobuf) (cid : Option Cid) (bufferLength : Nat) : Option Bytes :=
  match cid with
  | none => some []
  | some cid => do
      let out ← pb.encodeVarint 1 .varint (intToUnsigned cid.version) bufferLength
      let out ← Wire.append bufferLength out fun left =>
        pb.encodeVarint 2 .varint (intToUnsigned cid.codec) left
      Wire.append bufferLength out fun left =>
        pb.encodeLengthDelimited 3 .lengthDelimited cid.hash left

/-- The local variables of `ipfs_cid_protobuf_decode`; `hash` has no initial value. -/
structure CidDecoding where
  version : Int32 := 0
  codec : Int8 := 0
  hash : Option Bytes := none

def cidFields : Nat → Option (Field CidDecoding)
  | 1 => some (.rawVarint fun s value => { s with version := unsignedToInt value })
  | 2 => some (.rawVarint fun s value => { s with codec := unsignedToChar value })
  | 3 => some (.lengthDelimited fun s hash => .returned { s with hash := some hash })
  | _ => none

def cidProtobufDecode (pb : Protobuf) (buffer : Bytes) : Outcome (Option Cid) :=
  if buffer = [] then .returned none
  else do
    let s ← (decodeFields pb cidFields buffer {}).result
    let hash ← .access .unassigned s.hash
    pure (some (cidNew s.version hash s.codec))

def cidBytes (cid : Cid) : Bytes :=
  Wire.varintField 1 .varint (intToUnsigned cid.version).toNat ++
    Wire.varintField 2 .varint (intToUnsigned cid.codec).toNat ++
    Wire.bytesField 3 .lengthDelimited cid.hash

theorem cidCompare_self (cid : Cid) : cidCompare (some cid) (some cid) = 0 := by
  have same (hash : Bytes) : ∀ pair ∈ hash.zip hash, pair.1 = pair.2 := by
    induction hash with
    | nil => exact fun pair mem => absurd mem List.not_mem_nil
    | cons byte hash ih =>
        intro pair mem
        rcases List.mem_cons.mp mem with rfl | mem
        · rfl
        · exact ih pair mem
  rw [cidCompare, if_neg (by simp), if_neg (by simp), if_neg (by simp), List.find?_eq_none.mpr]
  intro pair mem
  simp [same cid.hash pair mem]

variable (pb : Protobuf)

theorem cidProtobufEncode_some (cid : Cid) (room : Nat) :
    cidProtobufEncode pb (some cid) room = Wire.fit room (cidBytes cid) := by
  simp only [cidProtobufEncode, pb.encodeVarint_eq, pb.encodeLengthDelimited_eq, Option.bind_eq_bind,
    Wire.fit_bind_append_bind, Wire.fit_bind_append, cidBytes]

theorem cidBytes_ne_nil (cid : Cid) : cidBytes cid ≠ [] := by
  have := Wire.varintField_length_pos 1 .varint (intToUnsigned cid.version).toNat
  apply List.ne_nil_of_length_pos
  simp only [cidBytes, List.length_append]
  omega

theorem cidBytes_length_le (cid : Cid) (bound : cid.hash.length < 2 ^ 64) :
    (cidBytes cid).length ≤ cidProtobufEncodeSize (some cid) := by
  have version := Wire.varintField_length_le .varint (by decide : 1 < 15)
    (intToUnsigned cid.version).toNat_lt
  have codec := Wire.varintField_length_le .varint (by decide : 2 < 15)
    (intToUnsigned cid.codec).toNat_lt
  have hash := Wire.bytesField_length_le .lengthDelimited (by decide : 3 < 15) bound
  simp only [cidBytes, cidProtobufEncodeSize, List.length_append]
  omega

theorem cidProtobufDecode_cidBytes (cid : Cid) :
    cidProtobufDecode pb (cidBytes cid) =
      .returned (some { cid with codec := (unsignedToChar (intToUnsigned cid.codec)).toInt32 }) := by
  obtain ⟨version, codec, hash⟩ := cid
  let char := unsignedToChar (intToUnsigned codec)
  have feeds : Feeds pb cidFields {} (cidBytes ⟨version, codec, hash⟩)
      { version, codec := char, hash := some hash } := by
    have first : Feeds pb cidFields {}
        (Wire.varintField 1 .varint (intToUnsigned version).toNat) { version } :=
      .rawVarint (by decide) (by decide) rfl (by simp)
    have second : Feeds pb cidFields { version }
        (Wire.varintField 2 .varint (intToUnsigned codec).toNat) { version, codec := char } :=
      .rawVarint (by decide) (by decide) rfl rfl
    have third : Feeds pb cidFields { version, codec := char } (Wire.bytesField 3 .lengthDelimited hash)
        { version, codec := char, hash := some hash } :=
      .lengthDelimited (by decide) (by decide) rfl rfl
    exact (first.append second).append third
  simp [cidProtobufDecode, cidBytes_ne_nil, decodeFields_feeds feeds, cidNew, char]

theorem cidProtobufDecode_cidNew (version : Int32) (codec : Int8) (hash : Bytes) :
    cidProtobufDecode pb (cidBytes (cidNew version hash codec)) =
      .returned (some (cidNew version hash codec)) := by
  simp [cidProtobufDecode_cidBytes, cidNew]

/-! ## Round trip -/

/-- What is written is read back as an equal Cid. -/
def Cid.RoundTrips (cid : Cid) : Prop :=
  ∃ bytes decoded, cidProtobufEncode pb (some cid) (cidProtobufEncodeSize (some cid)) = some bytes ∧
    cidProtobufDecode pb bytes = .returned (some decoded) ∧
    decoded.version = cid.version ∧ decoded.codec = cid.codec ∧ decoded.hash = cid.hash ∧
    cidCompare (some cid) (some decoded) = 0

/-- The codec goes through a `char`. -/
theorem cid_roundTrips_iff (cid : Cid) (sized : cidProtobufEncodeSize (some cid) < 2 ^ 64) :
    cid.RoundTrips pb ↔ -128 ≤ cid.codec.toInt ∧ cid.codec.toInt < 128 := by
  have small : cid.hash.length < 2 ^ 64 := by
    rw [cidProtobufEncodeSize] at sized
    omega
  have encoded : cidProtobufEncode pb (some cid) (cidProtobufEncodeSize (some cid)) = some (cidBytes cid) := by
    rw [cidProtobufEncode_some, Wire.fit_of_le (cidBytes_length_le cid small)]
  constructor
  · rintro ⟨bytes, decoded, written, read, -, codec, -⟩
    obtain rfl := Option.some.inj (encoded.symm.trans written)
    rw [cidProtobufDecode_cidBytes, Outcome.returned.injEq, Option.some.injEq] at read
    rw [← codec, ← read, Int8.toInt_toInt32]
    exact ⟨Int8.le_toInt _, Int8.toInt_lt _⟩
  · rintro ⟨lower, upper⟩
    obtain ⟨char, codec⟩ := exists_char lower upper
    have decoded : cidProtobufDecode pb (cidBytes cid) = .returned (some cid) := by
      rw [cidProtobufDecode_cidBytes, ← codec, unsignedToChar_intToUnsigned, codec]
    exact ⟨cidBytes cid, cid, encoded, decoded, rfl, rfl, rfl, cidCompare_self cid⟩

theorem cid_roundTrips_cbor : Cid.RoundTrips .standard { version := 1, codec := 0x71, hash := [0x41, 0x42, 0x43] } :=
  (cid_roundTrips_iff .standard _ (by decide)).mpr (by decide)

/-- `CID_ETHEREUM_BLOCK` comes back as a negative codec. -/
theorem not_cid_roundTrips_ethereumBlock :
    ¬ Cid.RoundTrips .standard { version := 1, codec := 0x90, hash := [0x41, 0x42, 0x43, 0x31, 0x32, 0x33] } := by
  rintro ⟨bytes, decoded, written, read, -, codec, -⟩
  rw [cidProtobufEncode_some, Wire.fit_of_le (cidBytes_length_le _ (by decide)), Option.some.injEq] at written
  rw [← written, cidProtobufDecode_cidBytes, Outcome.returned.injEq, Option.some.injEq] at read
  rw [← read] at codec
  revert codec
  decide

end Ipfs
