import Ipfs.Protobuf.Scan

namespace Ipfs

/-- `enum UnixFSDataType`; a decoded object can hold a value outside the enumeration. -/
inductive UnixFSDataType
  | raw
  | directory
  | file
  | metadata
  | symlink
  | other (value : UInt32)
  deriving DecidableEq

namespace UnixFSDataType

def toUnsigned : UnixFSDataType → UInt64
  | .raw => 0
  | .directory => 1
  | .file => 2
  | .metadata => 3
  | .symlink => 4
  | .other value => value.toUInt64

def ofUnsigned (value : UInt64) : UnixFSDataType :=
  match value.toUInt32.toNat with
  | 0 => .raw
  | 1 => .directory
  | 2 => .file
  | 3 => .metadata
  | 4 => .symlink
  | _ => .other value.toUInt32

def Listed : UnixFSDataType → Prop
  | .other _ => False
  | _ => True

theorem ofUnsigned_toUnsigned {type : UnixFSDataType} (listed : type.Listed) :
    ofUnsigned type.toUnsigned = type := by
  cases type <;> first | rfl | exact listed.elim

end UnixFSDataType

/-- `struct UnixFS`; `hash` is not saved. -/
structure UnixFS where
  dataType : UnixFSDataType := .raw
  bytes : Bytes := []
  fileSize : UInt64 := 0
  blockSizes : List UInt64 := []
  hash : Bytes := []
  deriving DecidableEq

def unixfsAddBlocksize (blockSize : UInt64) (unixFs : UnixFS) : UnixFS :=
  { unixFs with blockSizes := unixFs.blockSizes ++ [blockSize] }

theorem foldl_unixfsAddBlocksize (obj : UnixFS) (blockSizes : List UInt64) :
    blockSizes.foldl (fun obj b => unixfsAddBlocksize b obj) obj =
      { obj with blockSizes := obj.blockSizes ++ blockSizes } := by
  induction blockSizes generalizing obj with
  | nil => simp
  | cons b blockSizes ih =>
      rw [List.foldl_cons, ih]
      simp [unixfsAddBlocksize]

def unixfsProtobufEncodeSize (obj : UnixFS) : Nat :=
  obj.bytes.length + 11 + 2 + 11 + 11 * obj.blockSizes.length

def unixfsEncodeBlockSizes (pb : Protobuf) (maxBufferSize : Nat) : Bytes → List UInt64 → Outcome Bytes
  | out, [] => .returned out
  | out, blockSize :: blockSizes => do
      -- the return value is not looked at: a failed write would still be counted in `bytes_written`
      let out ← .access .unassigned (Wire.append maxBufferSize out fun left =>
        pb.encodeVarint 4 .varint blockSize left)
      unixfsEncodeBlockSizes pb maxBufferSize out blockSizes

def unixfsProtobufEncode (pb : Protobuf) (incoming : UnixFS) (maxBufferSize : Nat) : Outcome Bytes := do
  let out ← .ofOption do
    let out ← pb.encodeVarint 1 .varint incoming.dataType.toUnsigned maxBufferSize
    let out ← Wire.appendIf (0 < incoming.bytes.length) maxBufferSize out fun left =>
      pb.encodeLengthDelimited 2 .lengthDelimited incoming.bytes left
    Wire.appendIf (0 < incoming.fileSize) maxBufferSize out fun left =>
      pb.encodeVarint 3 .varint incoming.fileSize left
  unixfsEncodeBlockSizes pb maxBufferSize out incoming.blockSizes

def unixfsFields : Nat → Option (Field UnixFS)
  | 1 => some (.rawVarint fun obj value => { obj with dataType := .ofUnsigned value })
  | 2 => some (.lengthDelimited fun obj bytes => .returned { obj with bytes })
  | 3 => some (.rawVarint fun obj value => { obj with fileSize := value })
  | 4 => some (.rawVarint fun obj value => unixfsAddBlocksize value obj)
  | _ => none

def unixfsProtobufDecode (pb : Protobuf) (incoming : Bytes) : Outcome UnixFS :=
  if incoming = [] then .failed
  else (decodeFields pb unixfsFields incoming {}).result

def unixfsProtobufDecoded (pb : Protobuf) (incoming : Bytes) : Outcome UnixFS :=
  if incoming = [] then .fault .nullPointer
  else
    let scan := decodeFields pb unixfsFields incoming {}
    match scan.result with
    | .returned _ | .failed => .returned scan.state
    | .fault cause => .fault cause

def unixfsBytes (obj : UnixFS) : Bytes :=
  Wire.varintField 1 .varint obj.dataType.toUnsigned.toNat ++
    (if 0 < obj.bytes.length then Wire.bytesField 2 .lengthDelimited obj.bytes else []) ++
    (if 0 < obj.fileSize then Wire.varintField 3 .varint obj.fileSize.toNat else []) ++
    obj.blockSizes.flatMap fun blockSize => Wire.varintField 4 .varint blockSize.toNat

variable (pb : Protobuf)

theorem unixfsBytes_ne_nil (obj : UnixFS) : unixfsBytes obj ≠ [] := by
  have := Wire.varintField_length_pos 1 .varint obj.dataType.toUnsigned.toNat
  apply List.ne_nil_of_length_pos
  simp only [unixfsBytes, List.length_append]
  omega

theorem unixfsEncodeBlockSizes_eq (room : Nat) (out : Bytes) (blockSizes : List UInt64)
    (fits : (out ++ blockSizes.flatMap fun b => Wire.varintField 4 .varint b.toNat).length ≤ room) :
    unixfsEncodeBlockSizes pb room out blockSizes =
      .returned (out ++ blockSizes.flatMap fun b => Wire.varintField 4 .varint b.toNat) := by
  induction blockSizes generalizing out with
  | nil => simp [unixfsEncodeBlockSizes]
  | cons b blockSizes ih =>
      rw [List.flatMap_cons, ← List.append_assoc] at fits ⊢
      have first : (out ++ Wire.varintField 4 .varint b.toNat).length ≤ room := by
        rw [List.length_append] at fits
        omega
      have before : out.length ≤ room := by
        rw [List.length_append] at first
        omega
      rw [unixfsEncodeBlockSizes]
      simp only [pb.encodeVarint_eq, Wire.append_fit before, Wire.fit_of_le first, Outcome.access_some,
        Outcome.returned_bind]
      exact ih _ fits

theorem unixfsProtobufEncode_eq (obj : UnixFS) (room : Nat) (fits : (unixfsBytes obj).length ≤ room) :
    unixfsProtobufEncode pb obj room = .returned (unixfsBytes obj) := by
  have head := fits
  rw [unixfsBytes, List.length_append] at head
  simp only [unixfsProtobufEncode, pb.encodeVarint_eq, pb.encodeLengthDelimited_eq, Option.bind_eq_bind,
    Wire.fit_bind_appendIf_bind, Wire.fit_bind_appendIf]
  rw [Wire.fit_of_le (by omega), Outcome.ofOption_some, Outcome.returned_bind]
  exact unixfsEncodeBlockSizes_eq pb room _ _ fits

theorem unixfsBytes_length_le (obj : UnixFS) (listed : obj.dataType.Listed)
    (bound : obj.bytes.length < 2 ^ 64) :
    (unixfsBytes obj).length ≤ unixfsProtobufEncodeSize obj := by
  have type : (Wire.varintField 1 .varint obj.dataType.toUnsigned.toNat).length = 2 := by
    cases dataType : obj.dataType <;> first | decide | simp [dataType, UnixFSDataType.Listed] at listed
  have data := Wire.bytesField_length_le .lengthDelimited (by decide : 2 < 15) bound
  have size := Wire.varintField_length_le .varint (by decide : 3 < 15) obj.fileSize.toNat_lt
  have blocks : (obj.blockSizes.flatMap fun b => Wire.varintField 4 .varint b.toNat).length ≤
      11 * obj.blockSizes.length :=
    Wire.flatMap_length_le 11 _ fun b _ => Wire.varintField_length_le .varint (by decide) b.toNat_lt
  simp only [unixfsBytes, unixfsProtobufEncodeSize, List.length_append, apply_ite List.length,
    List.length_nil]
  split <;> split <;> omega

theorem unixfsProtobufDecode_unixfsBytes (obj : UnixFS) (listed : obj.dataType.Listed) :
    unixfsProtobufDecode pb (unixfsBytes obj) = .returned { obj with hash := [] } := by
  obtain ⟨dataType, bytes, fileSize, blockSizes, hash⟩ := obj
  have type : Feeds pb unixfsFields {} (Wire.varintField 1 .varint dataType.toUnsigned.toNat)
      { dataType } :=
    .rawVarint (by decide) (by decide) rfl (by simp [UnixFSDataType.ofUnsigned_toUnsigned listed])
  have data : Feeds pb unixfsFields { dataType }
      (if 0 < bytes.length then Wire.bytesField 2 .lengthDelimited bytes else []) { dataType, bytes } := by
    by_cases present : 0 < bytes.length
    · rw [if_pos present]
      exact .lengthDelimited (by decide) (by decide) rfl rfl
    · obtain rfl : bytes = [] := List.eq_nil_of_length_eq_zero (by omega)
      exact .nil _
  have size : Feeds pb unixfsFields { dataType, bytes }
      (if 0 < fileSize then Wire.varintField 3 .varint fileSize.toNat else [])
      { dataType, bytes, fileSize } := by
    by_cases present : 0 < fileSize
    · rw [if_pos present]
      exact .rawVarint (by decide) (by decide) rfl rfl
    · obtain rfl : fileSize = 0 := by simpa using present
      exact .nil _
  have block (b : UInt64) (obj : UnixFS) : Feeds pb unixfsFields obj
      (Wire.varintField 4 .varint b.toNat) (unixfsAddBlocksize b obj) :=
    .rawVarint (by decide) (by decide) rfl rfl
  have blocks := Feeds.flatMap _ _ blockSizes { dataType, bytes, fileSize } fun b _ => block b
  rw [foldl_unixfsAddBlocksize] at blocks
  rw [unixfsProtobufDecode, if_neg (unixfsBytes_ne_nil _)]
  exact decodeFields_feeds (((type.append data).append size).append blocks)

theorem unixfsProtobufDecoded_unixfsBytes (obj : UnixFS) (listed : obj.dataType.Listed) :
    unixfsProtobufDecoded pb (unixfsBytes obj) = .returned { obj with hash := [] } := by
  have decoded := unixfsProtobufDecode_unixfsBytes pb obj listed
  rw [unixfsProtobufDecode, if_neg (unixfsBytes_ne_nil obj)] at decoded
  simp only [unixfsProtobufDecoded, unixfsBytes_ne_nil, if_false, decoded]
  rw [decodeFields] at decoded ⊢
  rw [decodeLoop_state decoded]

/-! ## Round trip -/

theorem unixfs_roundTrip (obj : UnixFS) (listed : obj.dataType.Listed) (sized : unixfsProtobufEncodeSize obj < 2 ^ 64) :
    unixfsProtobufEncode pb obj (unixfsProtobufEncodeSize obj) = .returned (unixfsBytes obj) ∧
      ∃ obj', unixfsProtobufDecode pb (unixfsBytes obj) = .returned obj' ∧ obj'.dataType = obj.dataType ∧
        obj'.bytes = obj.bytes ∧ obj'.fileSize = obj.fileSize ∧ obj'.blockSizes = obj.blockSizes := by
  have bound : obj.bytes.length < 2 ^ 64 := by
    rw [unixfsProtobufEncodeSize] at sized
    omega
  have fits := unixfsBytes_length_le obj listed bound
  exact ⟨unixfsProtobufEncode_eq pb obj _ fits,
    { obj with hash := [] }, unixfsProtobufDecode_unixfsBytes pb obj listed, rfl, rfl, rfl, rfl⟩

theorem unixfs_roundTrip_zeroBlocks :
    ∃ obj : UnixFS, obj.blockSizes = [0, 0, 300] ∧
      unixfsProtobufEncode .standard obj (unixfsProtobufEncodeSize obj) = .returned (unixfsBytes obj) ∧
      ∃ obj', unixfsProtobufDecode .standard (unixfsBytes obj) = .returned obj' ∧ obj'.dataType = obj.dataType ∧
        obj'.bytes = obj.bytes ∧ obj'.fileSize = obj.fileSize ∧ obj'.blockSizes = obj.blockSizes :=
  ⟨{ dataType := .file, bytes := [0x68, 0x69], blockSizes := [0, 0, 300] }, rfl,
    unixfs_roundTrip .standard _ trivial (by decide)⟩

end Ipfs
