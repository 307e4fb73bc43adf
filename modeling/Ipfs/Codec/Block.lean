import Ipfs.Codec.Cid

namespace Ipfs

/-- `struct Block`. -/
structure Block where
  cid : Option Cid := none
  data : Bytes := []
  deriving DecidableEq

def blocksBlockProtobufEncodeSize (block : Block) : Nat :=
  22 + cidProtobufEncodeSize block.cid + block.data.length

def blocksBlockProtobufEncode (pb : Protobuf) (block : Block) (maxBufferLength : Nat) : Option Bytes := do
  -- the return value of the first write is not looked at
  let out := (pb.encodeLengthDelimited 1 .lengthDelimited block.data maxBufferLength).getD []
  let cid ← cidProtobufEncode pb block.cid (cidProtobufEncodeSize block.cid)
  Wire.append maxBufferLength out fun left => pb.encodeLengthDelimited 2 .lengthDelimited cid left

def blockFields (pb : Protobuf) : Nat → Option (Field Block)
  | 1 => some (.lengthDelimited fun block data => .returned { block with data })
  | 2 => some (.lengthDelimited fun block temp => do
      let cid ← cidProtobufDecode pb temp
      pure { block with cid })
  | _ => none

def blocksBlockProtobufDecode (pb : Protobuf) (buffer : Bytes) : Outcome Block :=
  (decodeFields pb (blockFields pb) buffer {}).result

def blockCopy (original : Block) : Outcome Block := do
  let cid ← cidCopy original.cid
  pure { cid := some cid, data := original.data }

theorem blockCopy_eq_returned {original copy : Block} (copied : blockCopy original = .returned copy) :
    copy = original ∧ original.cid.isSome := by
  obtain ⟨cid, data⟩ := original
  cases cid with
  | none => simp [blockCopy, cidCopy] at copied
  | some cid => simpa [blockCopy, cidCopy, eq_comm] using copied

theorem blockCopy_returns {original : Block} (cid : original.cid.isSome) : blockCopy original = .returned original := by
  obtain ⟨cid', data⟩ := original
  cases cid' with
  | none => simp at cid
  | some cid' => rfl

def blockBytes (cid : Cid) (data : Bytes) : Bytes :=
  Wire.bytesField 1 .lengthDelimited data ++ Wire.bytesField 2 .lengthDelimited (cidBytes cid)

variable (pb : Protobuf)

theorem blockBytes_length_le (cid : Cid) (data : Bytes)
    (bound : blocksBlockProtobufEncodeSize ⟨some cid, data⟩ < 2 ^ 64) :
    (blockBytes cid data).length ≤ blocksBlockProtobufEncodeSize ⟨some cid, data⟩ := by
  simp only [blocksBlockProtobufEncodeSize, cidProtobufEncodeSize] at bound ⊢
  have inner := cidBytes_length_le cid (by omega)
  simp only [cidProtobufEncodeSize] at inner
  have first := Wire.bytesField_length_le .lengthDelimited (by decide : 1 < 15)
    (show data.length < 2 ^ 64 by omega)
  have second := Wire.bytesField_length_le .lengthDelimited (by decide : 2 < 15)
    (show (cidBytes cid).length < 2 ^ 64 by omega)
  simp only [blockBytes, List.length_append]
  omega

theorem blocksBlockProtobufEncode_eq (cid : Cid) (data : Bytes) (room : Nat)
    (bound : cid.hash.length < 2 ^ 64) (fits : (blockBytes cid data).length ≤ room) :
    blocksBlockProtobufEncode pb ⟨some cid, data⟩ room = some (blockBytes cid data) := by
  have first : (Wire.bytesField 1 .lengthDelimited data).length ≤ room := by
    simp only [blockBytes, List.length_append] at fits
    omega
  simp only [blocksBlockProtobufEncode, pb.encodeLengthDelimited_eq, cidProtobufEncode_some,
    Wire.fit_of_le (cidBytes_length_le cid bound), Wire.fit_of_le first, Option.getD_some,
    Option.bind_eq_bind, Option.bind_some, Wire.append_fit first]
  exact Wire.fit_of_le fits

theorem blocksBlockProtobufEncode_size (cid : Cid) (data : Bytes)
    (bound : blocksBlockProtobufEncodeSize ⟨some cid, data⟩ < 2 ^ 64) :
    blocksBlockProtobufEncode pb ⟨some cid, data⟩ (blocksBlockProtobufEncodeSize ⟨some cid, data⟩) =
      some (blockBytes cid data) := by
  refine blocksBlockProtobufEncode_eq pb cid data _ ?_ (blockBytes_length_le cid data bound)
  simp only [blocksBlockProtobufEncodeSize, cidProtobufEncodeSize] at bound
  omega

theorem blocksBlockProtobufDecode_blockBytes {cid cid' : Cid} (data : Bytes)
    (inner : cidProtobufDecode pb (cidBytes cid) = .returned (some cid')) :
    blocksBlockProtobufDecode pb (blockBytes cid data) = .returned ⟨some cid', data⟩ := by
  have first : Feeds pb (blockFields pb) {} (Wire.bytesField 1 .lengthDelimited data) { data } :=
    .lengthDelimited (by decide) (by decide) rfl rfl
  have second : Feeds pb (blockFields pb) { data } (Wire.bytesField 2 .lengthDelimited (cidBytes cid))
      { cid := some cid', data } :=
    .lengthDelimited (by decide) (by decide) rfl (by simp [inner])
  exact decodeFields_feeds (first.append second)

theorem blocksBlockProtobufDecode_data_le {buffer : Bytes} {block : Block}
    (decoded : blocksBlockProtobufDecode pb buffer = .returned block) : block.data.length ≤ buffer.length := by
  refine decodeFields_invariant (fun block : Block => block.data.length ≤ buffer.length) ?_ (Nat.zero_le _) decoded
  intro fieldNo field known
  match fieldNo, known with
  | 1, rfl =>
      rintro block data _ _ short ⟨⟩
      exact short.trans (Nat.sub_le _ _)
  | 2, rfl =>
      intro block data block' holds _ stored
      obtain ⟨cid, _, stored⟩ := Outcome.bind_eq_returned.mp stored
      exact Outcome.returned.inj stored ▸ holds

end Ipfs
