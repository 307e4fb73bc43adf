import Ipfs.Protobuf.Scan

/-!
# Blocks of the first Bitswap protocol

A prefix and the bytes, both length-delimited. The decoder stores what it reads of a field and then
moves behind the tag only, so that lengths and contents are read as tags in their turn.
-/

namespace Ipfs

/-- `struct BitswapBlock`. The decoder allocates one without assigning its fields. -/
structure BitswapBlock where
  prefixBytes : Option Bytes := none
  bytes : Option Bytes := none
  deriving DecidableEq

def bitswapMessageBlockProtobufSize (block : Option BitswapBlock) : Outcome Nat := do
  let block ← .access .nullPointer block
  let prefixBytes ← .access .unassigned block.prefixBytes
  let bytes ← .access .unassigned block.bytes
  pure ((33 + prefixBytes.length + bytes.length) % 2 ^ 64)

def bitswapMessageBlockProtobufEncode (pb : Protobuf) (incoming : Option BitswapBlock) (maxSize : Nat) :
    Outcome Bytes :=
  match incoming with
  | none => .returned []
  | some incoming => do
      let prefixBytes ← .access .unassigned incoming.prefixBytes
      let out ← .ofOption (pb.encodeLengthDelimited 1 .lengthDelimited prefixBytes maxSize)
      let bytes ← .access .unassigned incoming.bytes
      .ofOption (Wire.append maxSize out fun left => pb.encodeLengthDelimited 2 .lengthDelimited bytes left)

/-- The switch over the field number. The bytes that a payload takes are reported and not added to `pos`. -/
def bitswapBlockCase (pb : Protobuf) (fieldNo : Nat) (window : Bytes) (block : BitswapBlock) :
    Outcome BitswapBlock :=
  match fieldNo with
  | 1 => do
      let payload ← .ofOption (pb.decodeLengthDelimited window)
      pure { block with prefixBytes := some payload.1 }
  | 2 => do
      let payload ← .ofOption (pb.decodeLengthDelimited window)
      pure { block with bytes := some payload.1 }
  | _ => pure block

def bitswapBlockLoop (pb : Protobuf) : Nat → Nat → Bytes → BitswapBlock → Outcome BitswapBlock
  | 0, _, _, block => .returned block
  | fuel + 1, pos, rest, block =>
      if rest = [] then .returned block
      else match pb.decodeFieldAndType rest with
        | .malformed => .failed
        -- as in the other decoders, the window is as long as the whole buffer
        | .truncated => if pos = 0 then .failed else .fault .outOfBounds
        | .done fieldNo _ n =>
            bitswapBlockCase pb fieldNo (rest.drop n) block >>=
              bitswapBlockLoop pb fuel (pos + n) (rest.drop n)

def bitswapMessageBlockProtobufDecode (pb : Protobuf) (buffer : Bytes) : Outcome (Option BitswapBlock) :=
  if buffer = [] then .returned none
  else do
    let block ← bitswapBlockLoop pb buffer.length 0 buffer {}
    pure (some block)

def bitswapBlockBytes (prefixBytes bytes : Bytes) : Bytes :=
  Wire.bytesField 1 .lengthDelimited prefixBytes ++ Wire.bytesField 2 .lengthDelimited bytes

/-- What follows the tag of the prefix. -/
def bitswapBlockBehind (prefixBytes bytes : Bytes) : Bytes :=
  Leb128.encode prefixBytes.length ++ (prefixBytes ++ Wire.bytesField 2 .lengthDelimited bytes)

/-! ## Tags right behind one another -/

/-- The bytes are tags, each one right behind the one before. They are listed with what is behind them. -/
inductive TagChain (pb : Protobuf) : Bytes → List (Nat × Bytes) → Prop
  | nil : TagChain pb [] []
  | cons {bytes : Bytes} {fieldNo n : Nat} {type : WireType} {tags : List (Nat × Bytes)}
      (tag : pb.decodeFieldAndType bytes = .done fieldNo type n) (rest : TagChain pb (bytes.drop n) tags) :
      TagChain pb bytes ((fieldNo, bytes.drop n) :: tags)

/-- What is behind the last tag of a number. -/
def lastPayload (pb : Protobuf) (number : Nat) : List (Nat × Bytes) → Option Bytes
  | [] => none
  | (fieldNo, window) :: tags =>
      (lastPayload pb number tags).or
        (if fieldNo = number then (pb.decodeLengthDelimited window).map Prod.fst else none)

/-- Behind every tag of the two fields there is a length with as many bytes. -/
def Delimited (pb : Protobuf) (tags : List (Nat × Bytes)) : Prop :=
  ∀ tag ∈ tags, tag.1 = 1 ∨ tag.1 = 2 → (pb.decodeLengthDelimited tag.2).isSome

variable {pb : Protobuf}

theorem delimited_cons {fieldNo : Nat} {window : Bytes} {tags : List (Nat × Bytes)} :
    Delimited pb ((fieldNo, window) :: tags) ↔
      (fieldNo = 1 ∨ fieldNo = 2 → (pb.decodeLengthDelimited window).isSome) ∧ Delimited pb tags := by
  unfold Delimited
  exact List.forall_mem_cons

def BitswapBlock.after (pb : Protobuf) (tags : List (Nat × Bytes)) (block : BitswapBlock) : BitswapBlock :=
  { prefixBytes := (lastPayload pb 1 tags).or block.prefixBytes, bytes := (lastPayload pb 2 tags).or block.bytes }

theorem BitswapBlock.after_nil (block : BitswapBlock) : block.after pb [] = block := rfl

theorem BitswapBlock.after_cons (tag : Nat × Bytes) (tags : List (Nat × Bytes)) (block : BitswapBlock) :
    block.after pb (tag :: tags) = (block.after pb [tag]).after pb tags := by
  simp [BitswapBlock.after, lastPayload, Option.or_assoc]

theorem bitswapBlockCase_eq_returned {fieldNo : Nat} {window : Bytes} {block block' : BitswapBlock} :
    bitswapBlockCase pb fieldNo window block = .returned block' ↔
      (fieldNo = 1 ∨ fieldNo = 2 → (pb.decodeLengthDelimited window).isSome) ∧
        block.after pb [(fieldNo, window)] = block' := by
  unfold bitswapBlockCase
  split
  · cases read : pb.decodeLengthDelimited window with
    | none => simp
    | some payload => simp [BitswapBlock.after, lastPayload, read]
  · cases read : pb.decodeLengthDelimited window with
    | none => simp
    | some payload => simp [BitswapBlock.after, lastPayload, read]
  · rename_i other other'
    have no : fieldNo ≠ 1 := other
    have no' : fieldNo ≠ 2 := other'
    simp [BitswapBlock.after, lastPayload, no, no']

theorem tagChain_nil_iff {tags : List (Nat × Bytes)} : TagChain pb [] tags ↔ tags = [] := by
  constructor
  · intro chain
    cases chain with
    | nil => rfl
    | cons tag rest =>
        have consumed := pb.decodeFieldAndType_bound [] _ _ _ tag
        rw [List.length_nil] at consumed
        omega
  · rintro rfl
    exact .nil

theorem tagChain_iff {bytes : Bytes} {tags : List (Nat × Bytes)} (nonempty : bytes ≠ []) :
    TagChain pb bytes tags ↔ ∃ fieldNo type n behind, pb.decodeFieldAndType bytes = .done fieldNo type n ∧
      TagChain pb (bytes.drop n) behind ∧ (fieldNo, bytes.drop n) :: behind = tags := by
  constructor
  · intro chain
    cases chain with
    | nil => exact absurd rfl nonempty
    | cons tag rest => exact ⟨_, _, _, _, tag, rest, rfl⟩
  · rintro ⟨fieldNo, type, n, behind, tag, rest, rfl⟩
    exact .cons tag rest

/-- The loop comes to its end exactly over a chain of tags, and has stored the last payload of each field. -/
theorem bitswapBlockLoop_eq_returned {fuel pos : Nat} {rest : Bytes} {block block' : BitswapBlock}
    (enough : rest.length ≤ fuel) :
    bitswapBlockLoop pb fuel pos rest block = .returned block' ↔
      ∃ tags, TagChain pb rest tags ∧ Delimited pb tags ∧ block.after pb tags = block' := by
  induction fuel generalizing pos rest block with
  | zero =>
      obtain rfl : rest = [] := List.eq_nil_of_length_eq_zero (by omega)
      simp [bitswapBlockLoop, tagChain_nil_iff, Delimited, BitswapBlock.after_nil]
  | succ fuel ih =>
      unfold bitswapBlockLoop
      by_cases empty : rest = []
      · subst empty
        simp [tagChain_nil_iff, Delimited, BitswapBlock.after_nil]
      rw [if_neg empty]
      simp only [tagChain_iff empty]
      cases tag : pb.decodeFieldAndType rest with
      | malformed => simp
      | truncated => by_cases first : pos = 0 <;> simp [first]
      | done fieldNo type n =>
          have consumed := pb.decodeFieldAndType_bound rest fieldNo type n tag
          have shorter : (rest.drop n).length ≤ fuel := by
            rw [List.length_drop]
            omega
          simp only [Outcome.bind_eq_returned, bitswapBlockCase_eq_returned, ih shorter, TagRead.done.injEq]
          constructor
          · rintro ⟨_, ⟨here, rfl⟩, behind, chain, delimited, rfl⟩
            refine ⟨_, ⟨fieldNo, type, n, behind, ⟨rfl, rfl, rfl⟩, chain, rfl⟩, ?_, ?_⟩
            · exact delimited_cons.mpr ⟨here, delimited⟩
            · exact BitswapBlock.after_cons (fieldNo, rest.drop n) behind block
          · rintro ⟨_, ⟨_, _, _, behind, ⟨rfl, rfl, rfl⟩, chain, rfl⟩, delimited, rfl⟩
            obtain ⟨here, delimited⟩ := delimited_cons.mp delimited
            refine ⟨_, ⟨here, rfl⟩, behind, chain, delimited, ?_⟩
            exact (BitswapBlock.after_cons (fieldNo, rest.drop n) behind block).symm

theorem bitswapMessageBlockProtobufDecode_eq_some {buffer : Bytes} {block : BitswapBlock} :
    bitswapMessageBlockProtobufDecode pb buffer = .returned (some block) ↔
      buffer ≠ [] ∧ ∃ tags, TagChain pb buffer tags ∧ Delimited pb tags ∧
        BitswapBlock.after pb tags {} = block := by
  unfold bitswapMessageBlockProtobufDecode
  by_cases empty : buffer = []
  · simp [empty]
  · simp [empty, Outcome.bind_eq_returned, bitswapBlockLoop_eq_returned]

/-! ## Encoding -/

theorem bitswapBlockBytes_ne_nil (prefixBytes bytes : Bytes) : bitswapBlockBytes prefixBytes bytes ≠ [] := by
  have := Wire.bytesField_length_pos 1 .lengthDelimited prefixBytes
  apply List.ne_nil_of_length_pos
  simp only [bitswapBlockBytes, List.length_append]
  omega

theorem bitswapBlockBytes_eq (prefixBytes bytes : Bytes) :
    bitswapBlockBytes prefixBytes bytes = Wire.tag 1 .lengthDelimited ++ bitswapBlockBehind prefixBytes bytes := by
  simp only [bitswapBlockBytes, bitswapBlockBehind, Wire.bytesField, List.append_assoc]

theorem decode_bitswapBlockBehind (prefixBytes bytes : Bytes) :
    pb.decodeLengthDelimited (bitswapBlockBehind prefixBytes bytes) =
      some (prefixBytes, (Leb128.encode prefixBytes.length).length + prefixBytes.length) :=
  pb.decodeLengthDelimited_encode prefixBytes (Wire.bytesField 2 .lengthDelimited bytes)

theorem decodeTag_bitswapBlockBytes (prefixBytes bytes : Bytes) :
    pb.decodeFieldAndType (bitswapBlockBytes prefixBytes bytes) =
      .done 1 .lengthDelimited (Wire.tag 1 .lengthDelimited).length := by
  rw [bitswapBlockBytes_eq]
  exact pb.decodeFieldAndType_tag 1 .lengthDelimited (bitswapBlockBehind prefixBytes bytes) (by decide) (by decide)

theorem tagChain_bitswapBlockBytes {prefixBytes bytes : Bytes} {tags : List (Nat × Bytes)} :
    TagChain pb (bitswapBlockBytes prefixBytes bytes) tags ↔
      ∃ behind, TagChain pb (bitswapBlockBehind prefixBytes bytes) behind ∧
        (1, bitswapBlockBehind prefixBytes bytes) :: behind = tags := by
  rw [tagChain_iff (bitswapBlockBytes_ne_nil prefixBytes bytes), decodeTag_bitswapBlockBytes]
  simp only [TagRead.done.injEq]
  constructor
  · rintro ⟨_, _, _, behind, ⟨rfl, rfl, rfl⟩, chain, rfl⟩
    rw [bitswapBlockBytes_eq, List.drop_left] at chain ⊢
    exact ⟨behind, chain, rfl⟩
  · rintro ⟨behind, chain, rfl⟩
    refine ⟨1, .lengthDelimited, _, behind, ⟨rfl, rfl, rfl⟩, ?_⟩
    rw [bitswapBlockBytes_eq, List.drop_left]
    exact ⟨chain, rfl⟩

theorem bitswapMessageBlockProtobufEncode_some (prefixBytes bytes : Bytes) (room : Nat) :
    bitswapMessageBlockProtobufEncode pb (some ⟨some prefixBytes, some bytes⟩) room =
      .ofOption (Wire.fit room (bitswapBlockBytes prefixBytes bytes)) := by
  simp only [bitswapMessageBlockProtobufEncode, Outcome.access_some, Outcome.returned_bind,
    pb.encodeLengthDelimited_eq, Outcome.ofOption_bind_ofOption, Wire.fit_bind_append, bitswapBlockBytes]

/-- The estimate holds the encoding unless it wraps around a `size_t`. -/
theorem bitswapBlockBytes_fits (prefixBytes bytes : Bytes) :
    (bitswapBlockBytes prefixBytes bytes).length ≤ (33 + prefixBytes.length + bytes.length) % 2 ^ 64 ↔
      33 + prefixBytes.length + bytes.length < 2 ^ 64 := by
  unfold bitswapBlockBytes
  rw [List.length_append]
  constructor
  · intro fits
    have := Wire.bytesField_length_ge 1 .lengthDelimited prefixBytes
    have := Wire.bytesField_length_ge 2 .lengthDelimited bytes
    omega
  · intro sized
    have := Wire.bytesField_length_le .lengthDelimited (by decide : 1 < 15) (show prefixBytes.length < 2 ^ 64 by omega)
    have := Wire.bytesField_length_le .lengthDelimited (by decide : 2 < 15) (show bytes.length < 2 ^ 64 by omega)
    rw [Nat.mod_eq_of_lt sized]
    omega

/-! ## Round trip -/

/-- What is written into a buffer of the estimated size is read back. -/
def BitswapBlock.RoundTrips (pb : Protobuf) (block : BitswapBlock) : Prop :=
  ∃ size out, bitswapMessageBlockProtobufSize (some block) = .returned size ∧
    bitswapMessageBlockProtobufEncode pb (some block) size = .returned out ∧
    bitswapMessageBlockProtobufDecode pb out = .returned (some block)

/-- From the length of the prefix on, everything passes for tags, and those of the two fields do no harm. -/
structure PassesAsTags (pb : Protobuf) (prefixBytes bytes : Bytes) (tags : List (Nat × Bytes)) : Prop where
  chain : TagChain pb (bitswapBlockBehind prefixBytes bytes) tags
  delimited : Delimited pb tags
  lastPrefix : ∀ payload ∈ lastPayload pb 1 tags, payload = prefixBytes
  lastBytes : lastPayload pb 2 tags = some bytes

theorem decode_bitswapBlockBytes (prefixBytes bytes : Bytes) :
    bitswapMessageBlockProtobufDecode pb (bitswapBlockBytes prefixBytes bytes) =
      .returned (some ⟨some prefixBytes, some bytes⟩) ↔ ∃ tags, PassesAsTags pb prefixBytes bytes tags := by
  have nonempty := bitswapBlockBytes_ne_nil prefixBytes bytes
  have payload := @decode_bitswapBlockBehind pb prefixBytes bytes
  simp only [bitswapMessageBlockProtobufDecode_eq_some, ne_eq, nonempty, not_false_eq_true, true_and,
    tagChain_bitswapBlockBytes]
  constructor
  · rintro ⟨_, ⟨tags, chain, rfl⟩, delimited, stored⟩
    simp only [BitswapBlock.after, lastPayload, payload, Option.or_none, BitswapBlock.mk.injEq] at stored
    refine ⟨tags, chain, (delimited_cons.mp delimited).2, ?_, by simpa using stored.2⟩
    intro last found
    simpa [Option.mem_def.mp found] using stored.1
  · rintro ⟨tags, chain, delimited, lastPrefix, lastBytes⟩
    refine ⟨_, ⟨tags, chain, rfl⟩, delimited_cons.mpr ⟨by simp [payload], delimited⟩, ?_⟩
    cases last : lastPayload pb 1 tags with
    | none => simp [BitswapBlock.after, lastPayload, payload, last, lastBytes]
    | some found => simp [BitswapBlock.after, lastPayload, last, lastBytes, lastPrefix found last]

theorem bitswapBlock_roundTrips_iff (pb : Protobuf) (prefixBytes bytes : Bytes) :
    BitswapBlock.RoundTrips pb ⟨some prefixBytes, some bytes⟩ ↔
      33 + prefixBytes.length + bytes.length < 2 ^ 64 ∧ ∃ tags, PassesAsTags pb prefixBytes bytes tags := by
  rw [← decode_bitswapBlockBytes, ← bitswapBlockBytes_fits]
  simp only [BitswapBlock.RoundTrips, bitswapMessageBlockProtobufSize, Outcome.access_some, Outcome.returned_bind,
    Outcome.pure_def, Outcome.returned.injEq, bitswapMessageBlockProtobufEncode_some,
    Outcome.ofOption_eq_returned, Wire.fit, Option.ite_none_right_eq_some, Option.some.injEq]
  constructor
  · rintro ⟨_, _, rfl, ⟨fits, rfl⟩, read⟩
    exact ⟨fits, read⟩
  · rintro ⟨fits, read⟩
    exact ⟨_, _, rfl, ⟨fits, rfl⟩, read⟩

-- the length 8 is read as a tag of field 1, and the first byte of the prefix as a length of 24
theorem not_bitswapBlock_roundTrips_eight :
    ¬ BitswapBlock.RoundTrips .standard ⟨some (List.replicate 8 24), some (List.replicate 24 24)⟩ := by
  rintro ⟨size, out, sized, encoded, decoded⟩
  obtain rfl : 65 = size := Outcome.returned.inj sized
  obtain rfl : bitswapBlockBytes (List.replicate 8 24) (List.replicate 24 24) = out := Outcome.returned.inj encoded
  revert decoded
  decide

example : BitswapBlock.RoundTrips .standard ⟨some (List.replicate 24 24), some (List.replicate 24 24)⟩ :=
  ⟨_, _, rfl, rfl, by decide⟩

/-- Where a tag of number 0 is refused, a prefix of fewer than eight bytes is: its length is such a tag. -/
theorem bitswapMessageBlockProtobufDecode_short {prefixBytes : Bytes} (short : prefixBytes.length < 8)
    (refused : ∀ key rest, key < 8 → pb.decodeFieldAndType (Leb128.encode key ++ rest) = .malformed) (bytes : Bytes) :
    bitswapMessageBlockProtobufDecode pb (bitswapBlockBytes prefixBytes bytes) = .failed := by
  have nonempty := bitswapBlockBytes_ne_nil prefixBytes bytes
  have payload := @decode_bitswapBlockBehind pb prefixBytes bytes
  have second : pb.decodeFieldAndType (bitswapBlockBehind prefixBytes bytes) = .malformed :=
    refused prefixBytes.length (prefixBytes ++ Wire.bytesField 2 .lengthDelimited bytes) short
  have behind : bitswapBlockBehind prefixBytes bytes ≠ [] := by
    have := Leb128.encode_length_pos prefixBytes.length
    apply List.ne_nil_of_length_pos
    rw [bitswapBlockBehind, List.length_append]
    omega
  have long : 1 < (bitswapBlockBytes prefixBytes bytes).length := by
    have := Wire.bytesField_length_ge 1 .lengthDelimited prefixBytes
    rw [bitswapBlockBytes, List.length_append]
    omega
  obtain ⟨fuel, fuelEq⟩ : ∃ fuel, (bitswapBlockBytes prefixBytes bytes).length = fuel + 2 :=
    ⟨_, (Nat.sub_add_cancel long).symm⟩
  unfold bitswapMessageBlockProtobufDecode
  rw [if_neg nonempty, fuelEq, bitswapBlockLoop, if_neg nonempty, decodeTag_bitswapBlockBytes]
  simp only [bitswapBlockBytes_eq, List.drop_left, bitswapBlockCase, payload, Outcome.ofOption_some,
    Outcome.returned_bind, Outcome.pure_def]
  rw [bitswapBlockLoop, if_neg behind, second, Outcome.failed_bind]

theorem Protobuf.standard_refuses (key : Nat) (rest : Bytes) (numberless : key < 8) :
    Protobuf.standard.decodeFieldAndType (Leb128.encode key ++ rest) = .malformed := by
  have zero : key / 8 = 0 := by omega
  simp only [standard, readTag, Leb128.decode_encode, zero, lt_irrefl, false_and, if_false]
  split <;> rfl

-- version, codec, and the header of a multihash
example : bitswapMessageBlockProtobufDecode .standard (bitswapBlockBytes [0x01, 0x70, 0x12, 0x20] [0x08, 0x01]) =
    .failed :=
  bitswapMessageBlockProtobufDecode_short (by decide) Protobuf.standard_refuses [0x08, 0x01]

end Ipfs
