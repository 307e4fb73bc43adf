import Ipfs.Codec.Block

namespace Ipfs

/-- `struct WantlistEntry`. The decoder allocates an entry without assigning its fields. -/
structure WantlistEntry where
  block : Option Bytes := none
  priority : Option UInt32 := none
  cancel : Option UInt8 := none
  deriving DecidableEq

/-- `struct BitswapWantlist`. The vector, and each entry in it, may be NULL. -/
structure BitswapWantlist where
  entries : Option (List (Option WantlistEntry)) := none
  full : UInt8 := 1
  deriving DecidableEq

structure BitswapMessage where
  wantlist : Option BitswapWantlist := none
  blocks : Option (List Block) := none
  payload : Option (List Block) := none
  deriving DecidableEq

/-- `libp2p_utils_vector_add` to a vector that is created for the first item. -/
def vectorAdd {α : Type} (vector : Option (List α)) (item : α) : Option (List α) :=
  some (vector.getD [] ++ [item])

/-- Protobuf the items of a vector one after the other, each into a buffer of its own first. -/
def encodeVector {α : Type} (pb : Protobuf) (fieldNo : Nat) (encode : α → Outcome Bytes)
    (bufferLength : Nat) : Bytes → List α → Outcome Bytes
  | out, [] => .returned out
  | out, item :: items => do
      let temp ← encode item
      let out ← .ofOption (Wire.append bufferLength out fun left =>
        pb.encodeLengthDelimited fieldNo .lengthDelimited temp left)
      encodeVector pb fieldNo encode bufferLength out items

/-! ## Wantlist entries -/

def wantlistEntryProtobufEncodeSize (entry : Option WantlistEntry) : Outcome Nat := do
  let entry ← .access .nullPointer entry
  let block ← .access .unassigned entry.block
  pure (33 + block.length)

def wantlistEntryProtobufEncode (pb : Protobuf) (entry : Option WantlistEntry) (bufferLength : Nat) :
    Outcome Bytes :=
  match entry with
  | none => .returned []
  | some entry => do
      let block ← .access .unassigned entry.block
      let out ← .ofOption (pb.encodeLengthDelimited 1 .lengthDelimited block bufferLength)
      let cancel ← .access .unassigned entry.cancel
      let out ← .ofOption (Wire.append bufferLength out fun left =>
        pb.encodeVarint 2 .varint cancel.toUInt64 left)
      let priority ← .access .unassigned entry.priority
      .ofOption (Wire.append bufferLength out fun left =>
        pb.encodeVarint 3 .varint priority.toUInt64 left)

def wantlistEntryFields : Nat → Option (Field WantlistEntry)
  | 1 => some (.lengthDelimited fun entry block => .returned { entry with block := some block })
  | 2 => some (.rawVarint fun entry value => { entry with cancel := some value.toUInt8 })
  | 3 => some (.rawVarint fun entry value => { entry with priority := some value.toUInt32 })
  | _ => none

def wantlistEntryProtobufDecode (pb : Protobuf) (buffer : Bytes) : Outcome (Option WantlistEntry) :=
  if buffer = [] then .returned none
  else do
    let entry ← (decodeFields pb wantlistEntryFields buffer {}).result
    pure (some entry)

/-! ## Wantlists -/

def bitswapWantlistProtobufEncodeSize (list : Option BitswapWantlist) : Outcome Nat :=
  match list with
  | none => .returned 0
  | some list => do
      let entries ← .access .nullPointer list.entries
      let sizes ← entries.mapM wantlistEntryProtobufEncodeSize
      pure (sizes.sum + (11 + 12 + 11))

def bitswapWantlistProtobufEncode (pb : Protobuf) (list : Option BitswapWantlist) (bufferLength : Nat) :
    Outcome Bytes :=
  match list with
  | none => .returned []
  | some list => do
      let entries ← .access .nullPointer list.entries
      let out ← encodeVector pb 1 (fun entry => do
        let size ← wantlistEntryProtobufEncodeSize entry
        wantlistEntryProtobufEncode pb entry size) bufferLength [] entries
      .ofOption (Wire.append bufferLength out fun left => pb.encodeVarint 2 .varint list.full.toUInt64 left)

def bitswapWantlistFields (pb : Protobuf) : Nat → Option (Field BitswapWantlist)
  | 1 => some (.lengthDelimited fun list temp => do
      let entry ← wantlistEntryProtobufDecode pb temp
      pure { list with entries := vectorAdd list.entries entry })
  | 2 => some (.rawVarint fun list value => { list with full := value.toUInt8 })
  | _ => none

def bitswapWantlistProtobufDecode (pb : Protobuf) (buffer : Bytes) : Outcome (Option BitswapWantlist) :=
  if buffer = [] then .returned none
  else do
    let list ← (decodeFields pb (bitswapWantlistFields pb) buffer {}).result
    pure (some list)

/-! ## Messages -/

def bitswapMessageProtobufEncodeSize (message : Option BitswapMessage) : Outcome Nat :=
  match message with
  | none => .returned 0
  | some message => do
      let wantlist ← bitswapWantlistProtobufEncodeSize message.wantlist
      pure (((message.blocks.getD []).map fun block => 11 + block.data.length).sum +
        ((message.payload.getD []).map fun block => 11 + blocksBlockProtobufEncodeSize block).sum +
        wantlist + (11 + 12 + 11))

def bitswapMessageProtobufEncode (pb : Protobuf) (message : Option BitswapMessage) (bufferLength : Nat) :
    Outcome Bytes :=
  match message with
  | none => .returned []
  | some message => do
      let out ← encodeVector pb 1 (fun block : Block => .returned block.data) bufferLength []
        (message.blocks.getD [])
      let out ← encodeVector pb 2 (fun block : Block =>
        .ofOption (blocksBlockProtobufEncode pb block (blocksBlockProtobufEncodeSize block)))
        bufferLength out (message.payload.getD [])
      encodeVector pb 3 (fun list : BitswapWantlist => do
        let size ← bitswapWantlistProtobufEncodeSize (some list)
        bitswapWantlistProtobufEncode pb (some list) size) bufferLength out message.wantlist.toList

def bitswapMessageFields (pb : Protobuf) : Nat → Option (Field BitswapMessage)
  -- a Blocks entry that is just an array of bytes
  | 1 => some (.lengthDelimited fun message data =>
      .returned { message with blocks := vectorAdd message.blocks { data } })
  | 2 => some (.lengthDelimited fun message temp => do
      let block ← blocksBlockProtobufDecode pb temp
      pure { message with payload := vectorAdd message.payload block })
  | 3 => some (.lengthDelimited fun message temp => do
      let wantlist ← bitswapWantlistProtobufDecode pb temp
      pure { message with wantlist })
  | _ => none

def bitswapMessageProtobufDecode (pb : Protobuf) (buffer : Bytes) : Outcome (Option BitswapMessage) :=
  if buffer = [] then .returned none
  else do
    let message ← (decodeFields pb (bitswapMessageFields pb) buffer {}).result
    pure (some message)

theorem bitswapMessageProtobufDecode_payload_le (pb : Protobuf) {buffer : Bytes} {message : BitswapMessage}
    (decoded : bitswapMessageProtobufDecode pb buffer = .returned (some message)) :
    ∀ block ∈ message.payload.getD [], block.data.length ≤ buffer.length := by
  rw [bitswapMessageProtobufDecode] at decoded
  split at decoded
  · simp at decoded
  · obtain ⟨message', scanned, same⟩ := Outcome.bind_eq_returned.mp decoded
    obtain rfl : message' = message := by simpa using same
    refine decodeFields_invariant (fun message : BitswapMessage =>
      ∀ block ∈ message.payload.getD [], block.data.length ≤ buffer.length) ?_ (by simp) scanned
    intro fieldNo field known
    match fieldNo, known with
    | 1, rfl =>
        rintro message data _ holds _ ⟨⟩
        exact holds
    | 2, rfl =>
        intro message temp message' holds short stored
        obtain ⟨block, inner, stored⟩ := Outcome.bind_eq_returned.mp stored
        obtain rfl := Outcome.returned.inj stored
        have length := blocksBlockProtobufDecode_data_le pb inner
        simp only [vectorAdd, Option.getD_some, List.mem_append, List.mem_singleton]
        rintro other (old | rfl)
        · exact holds other old
        · omega
    | 3, rfl =>
        intro message temp message' holds _ stored
        obtain ⟨wantlist, _, stored⟩ := Outcome.bind_eq_returned.mp stored
        exact Outcome.returned.inj stored ▸ holds

/-! ## What is written -/

def wantlistEntryBytes : Option WantlistEntry → Bytes
  | some ⟨some block, some priority, some cancel⟩ =>
      Wire.bytesField 1 .lengthDelimited block ++ Wire.varintField 2 .varint cancel.toNat ++
        Wire.varintField 3 .varint priority.toNat
  | _ => []

def bitswapWantlistBytes (list : BitswapWantlist) : Bytes :=
  ((list.entries.getD []).flatMap fun entry =>
      Wire.bytesField 1 .lengthDelimited (wantlistEntryBytes entry)) ++
    Wire.varintField 2 .varint list.full.toNat

def payloadBytes : Block → Bytes
  | ⟨some cid, data⟩ => blockBytes cid data
  | ⟨none, _⟩ => []

def bitswapMessageBytes (message : BitswapMessage) : Bytes :=
  ((message.blocks.getD []).flatMap fun block => Wire.bytesField 1 .lengthDelimited block.data) ++
    ((message.payload.getD []).flatMap fun block => Wire.bytesField 2 .lengthDelimited (payloadBytes block)) ++
    message.wantlist.toList.flatMap fun list =>
      Wire.bytesField 3 .lengthDelimited (bitswapWantlistBytes list)

def WantlistEntry.Assigned (entry : Option WantlistEntry) : Prop :=
  ∃ block priority cancel, entry = some ⟨some block, some priority, some cancel⟩

def BitswapWantlist.Sendable (list : BitswapWantlist) : Prop :=
  ∃ entries, list.entries = some entries ∧ ∀ entry ∈ entries, WantlistEntry.Assigned entry

/-- A payload block has a Cid, whose codec is a `char`. -/
def Block.Sendable (block : Block) : Prop :=
  ∃ cid, block.cid = some cid ∧ -128 ≤ cid.codec.toInt ∧ cid.codec.toInt < 128

/-- A message that can be sent: it has a part, and its size does not wrap around a `size_t`. -/
structure BitswapMessage.Sendable (message : BitswapMessage) : Prop where
  nonempty : message.blocks.getD [] ≠ [] ∨ message.payload.getD [] ≠ [] ∨ message.wantlist ≠ none
  wantlist : ∀ list, message.wantlist = some list → list.Sendable
  payload : ∀ block ∈ message.payload.getD [], block.Sendable
  sized : ∀ size, bitswapMessageProtobufEncodeSize (some message) = .returned size → size < 2 ^ 64

structure BitswapMessage.Same (message message' : BitswapMessage) : Prop where
  blocks : (message.blocks.getD []).map Block.data = (message'.blocks.getD []).map Block.data
  payload : message.payload.getD [] = message'.payload.getD []
  wantlist : message.wantlist.map (fun list => (list.entries.getD [], list.full)) =
    message'.wantlist.map fun list => (list.entries.getD [], list.full)

variable (pb : Protobuf)

theorem encodeVector_eq {α : Type} {fieldNo : Nat} {encode : α → Outcome Bytes} {bytes : α → Bytes}
    (room : Nat) (out : Bytes) (items : List α)
    (each : ∀ item ∈ items, encode item = .returned (bytes item))
    (fits : (out ++ items.flatMap fun item =>
      Wire.bytesField fieldNo .lengthDelimited (bytes item)).length ≤ room) :
    encodeVector pb fieldNo encode room out items =
      .returned (out ++ items.flatMap fun item => Wire.bytesField fieldNo .lengthDelimited (bytes item)) := by
  induction items generalizing out with
  | nil => simp [encodeVector]
  | cons item items ih =>
      rw [List.flatMap_cons, ← List.append_assoc] at fits ⊢
      have here : (out ++ Wire.bytesField fieldNo .lengthDelimited (bytes item)).length ≤ room := by
        rw [List.length_append] at fits
        omega
      have before : out.length ≤ room := by
        rw [List.length_append] at here
        omega
      rw [encodeVector, each item (by simp), Outcome.returned_bind]
      simp only [pb.encodeLengthDelimited_eq, Wire.append_fit before, Wire.fit_of_le here,
        Outcome.ofOption_some, Outcome.returned_bind]
      exact ih _ (fun item' mem => each item' (by simp [mem])) fits

theorem wantlistEntryBytes_length_le {block : Bytes} (priority : UInt32) (cancel : UInt8)
    (bound : block.length < 2 ^ 64) :
    (wantlistEntryBytes (some ⟨some block, some priority, some cancel⟩)).length ≤ 20 + block.length := by
  have first := Wire.bytesField_length_le .lengthDelimited (by decide : 1 < 15) bound
  have second := Wire.varintField_length_le_of_lt .varint (by decide : 2 < 15) 1
    (show cancel.toNat < 128 ^ 2 by have := cancel.toNat_lt; omega)
  have third := Wire.varintField_length_le_of_lt .varint (by decide : 3 < 15) 4
    (show priority.toNat < 128 ^ 5 by have := priority.toNat_lt; omega)
  simp only [wantlistEntryBytes, List.length_append]
  omega

theorem wantlistEntryProtobufEncode_size {block : Bytes} (priority : UInt32) (cancel : UInt8)
    (bound : block.length < 2 ^ 64) :
    wantlistEntryProtobufEncode pb (some ⟨some block, some priority, some cancel⟩) (33 + block.length) =
      .returned (wantlistEntryBytes (some ⟨some block, some priority, some cancel⟩)) := by
  have fits := wantlistEntryBytes_length_le priority cancel bound
  simp only [wantlistEntryProtobufEncode, Outcome.access_some, Outcome.returned_bind,
    Outcome.ofOption_bind_ofOption, pb.encodeLengthDelimited_eq, pb.encodeVarint_eq,
    Wire.fit_bind_append_bind, Wire.fit_bind_append, UInt8.toNat_toUInt64, UInt32.toNat_toUInt64]
  rw [wantlistEntryBytes] at fits ⊢
  rw [Wire.fit_of_le (by omega), Outcome.ofOption_some]

def WantlistEntry.size : Option WantlistEntry → Nat
  | some ⟨some block, _, _⟩ => 33 + block.length
  | _ => 0

theorem bitswapWantlistProtobufEncodeSize_eq {list : BitswapWantlist} (sendable : list.Sendable) :
    bitswapWantlistProtobufEncodeSize (some list) =
      .returned (((list.entries.getD []).map WantlistEntry.size).sum + 34) := by
  obtain ⟨entries, present, assigned⟩ := sendable
  have sizes : entries.mapM wantlistEntryProtobufEncodeSize = .returned (entries.map WantlistEntry.size) := by
    refine Outcome.mapM_eq_returned entries fun entry mem => ?_
    obtain ⟨block, priority, cancel, rfl⟩ := assigned entry mem
    rfl
  simp [bitswapWantlistProtobufEncodeSize, present, sizes]

section
variable {list : BitswapWantlist}

theorem wantlistEntry_field_length_le {entry : Option WantlistEntry} (assigned : WantlistEntry.Assigned entry)
    (bound : WantlistEntry.size entry < 2 ^ 64) :
    (Wire.bytesField 1 .lengthDelimited (wantlistEntryBytes entry)).length ≤ WantlistEntry.size entry := by
  obtain ⟨block, priority, cancel, rfl⟩ := assigned
  rw [WantlistEntry.size] at bound ⊢
  have inner := wantlistEntryBytes_length_le priority cancel (show block.length < 2 ^ 64 by omega)
  have outer := Wire.bytesField_length_le .lengthDelimited (by decide : 1 < 15)
    (show (wantlistEntryBytes (some ⟨some block, some priority, some cancel⟩)).length < 2 ^ 64 by omega)
  omega

theorem bitswapWantlistBytes_length_le (sendable : list.Sendable)
    (bound : ((list.entries.getD []).map WantlistEntry.size).sum < 2 ^ 64) :
    (bitswapWantlistBytes list).length ≤ ((list.entries.getD []).map WantlistEntry.size).sum + 3 := by
  obtain ⟨entries, present, assigned⟩ := sendable
  rw [present, Option.getD_some] at bound ⊢
  have each : (entries.flatMap fun entry =>
      Wire.bytesField 1 .lengthDelimited (wantlistEntryBytes entry)).length ≤
        (entries.map WantlistEntry.size).sum := by
    rw [List.length_flatMap]
    refine List.sum_le_sum fun entry mem => wantlistEntry_field_length_le (assigned entry mem) ?_
    exact lt_of_le_of_lt (List.single_le_sum (by simp) _ (List.mem_map_of_mem mem)) bound
  have full := Wire.varintField_length_le_of_lt .varint (by decide : 2 < 15) 1
    (show list.full.toNat < 128 ^ 2 by have := list.full.toNat_lt; omega)
  simp only [bitswapWantlistBytes, present, Option.getD_some, List.length_append]
  omega

theorem bitswapWantlistProtobufEncode_size (sendable : list.Sendable)
    (bound : ((list.entries.getD []).map WantlistEntry.size).sum < 2 ^ 64) :
    bitswapWantlistProtobufEncode pb (some list)
        (((list.entries.getD []).map WantlistEntry.size).sum + 34) =
      .returned (bitswapWantlistBytes list) := by
  have fits := bitswapWantlistBytes_length_le sendable bound
  obtain ⟨entries, present, assigned⟩ := sendable
  simp only [bitswapWantlistBytes, present, Option.getD_some] at fits bound ⊢
  have each : ∀ entry ∈ entries, (do
      let size ← wantlistEntryProtobufEncodeSize entry
      wantlistEntryProtobufEncode pb entry size) = .returned (wantlistEntryBytes entry) := by
    intro entry mem
    have here : WantlistEntry.size entry ≤ (entries.map WantlistEntry.size).sum :=
      List.single_le_sum (by simp) _ (List.mem_map_of_mem mem)
    obtain ⟨block, priority, cancel, rfl⟩ := assigned entry mem
    rw [WantlistEntry.size] at here
    exact wantlistEntryProtobufEncode_size pb priority cancel (by omega)
  rw [List.length_append] at fits
  simp only [bitswapWantlistProtobufEncode, present, Outcome.access_some, Outcome.returned_bind]
  rw [encodeVector_eq pb _ [] entries each (by rw [List.nil_append]; omega), Outcome.returned_bind,
    List.nil_append]
  simp only [pb.encodeVarint_eq, UInt8.toNat_toUInt64]
  rw [Wire.append_fit (by omega), Wire.fit_of_le (by rw [List.length_append]; omega), Outcome.ofOption_some]

theorem wantlistEntryProtobufDecode_wantlistEntryBytes {entry : Option WantlistEntry}
    (assigned : WantlistEntry.Assigned entry) :
    wantlistEntryProtobufDecode pb (wantlistEntryBytes entry) = .returned entry := by
  obtain ⟨block, priority, cancel, rfl⟩ := assigned
  have first : Feeds pb wantlistEntryFields {} (Wire.bytesField 1 .lengthDelimited block)
      { block := some block } :=
    .lengthDelimited (by decide) (by decide) rfl rfl
  have second : Feeds pb wantlistEntryFields { block := some block }
      (Wire.varintField 2 .varint cancel.toUInt64.toNat) { block := some block, cancel := some cancel } :=
    .rawVarint (by decide) (by decide) rfl (by simp)
  have third : Feeds pb wantlistEntryFields { block := some block, cancel := some cancel }
      (Wire.varintField 3 .varint priority.toUInt64.toNat)
      { block := some block, priority := some priority, cancel := some cancel } :=
    .rawVarint (by decide) (by decide) rfl (by simp)
  have feeds := (first.append second).append third
  rw [UInt8.toNat_toUInt64, UInt32.toNat_toUInt64] at feeds
  have nonempty : wantlistEntryBytes (some ⟨some block, some priority, some cancel⟩) ≠ [] := by
    have := List.ne_nil_of_length_pos (Wire.bytesField_length_pos 1 .lengthDelimited block)
    simp [wantlistEntryBytes, this]
  rw [wantlistEntryProtobufDecode, if_neg nonempty, wantlistEntryBytes, decodeFields_feeds feeds]
  rfl

theorem Feeds.vector {σ α β : Type} {fields : Nat → Option (Field σ)} {encode : α → Bytes}
    (set : Option (List β) → σ) (item : α → β) (items : List α)
    (each : ∀ x ∈ items, ∀ vector,
      Feeds pb fields (set vector) (encode x) (set (vectorAdd vector (item x))))
    (vector : Option (List β)) :
    ∃ vector', Feeds pb fields (set vector) (items.flatMap encode) (set vector') ∧
      vector'.getD [] = vector.getD [] ++ items.map item := by
  induction items generalizing vector with
  | nil => exact ⟨vector, .nil _, by simp⟩
  | cons x items ih =>
      obtain ⟨vector', feeds, collected⟩ :=
        ih (fun x' mem => each x' (by simp [mem])) (vectorAdd vector (item x))
      refine ⟨vector', ?_, ?_⟩
      · rw [List.flatMap_cons]
        exact (each x (by simp) vector).append feeds
      · simp [collected, vectorAdd]

theorem bitswapWantlistProtobufDecode_bitswapWantlistBytes (sendable : list.Sendable) :
    ∃ list', bitswapWantlistProtobufDecode pb (bitswapWantlistBytes list) = .returned (some list') ∧
      list'.entries.getD [] = list.entries.getD [] ∧ list'.full = list.full := by
  obtain ⟨entries, present, assigned⟩ := sendable
  obtain ⟨decoded, each, collected⟩ := Feeds.vector pb (fun entries => ({ entries } : BitswapWantlist)) id
    entries (fun entry mem vector =>
      show Feeds pb (bitswapWantlistFields pb) _ (Wire.bytesField 1 .lengthDelimited (wantlistEntryBytes entry)) _
      from .lengthDelimited (by decide) (by decide) rfl
        (by simp [wantlistEntryProtobufDecode_wantlistEntryBytes pb (assigned entry mem)])) none
  have full (s : BitswapWantlist) : Feeds pb (bitswapWantlistFields pb) s
      (Wire.varintField 2 .varint list.full.toUInt64.toNat) { s with full := list.full } :=
    .rawVarint (by decide) (by decide) rfl (by simp)
  have feeds := each.append (full _)
  rw [UInt8.toNat_toUInt64] at feeds
  have nonempty : bitswapWantlistBytes list ≠ [] := by
    have := List.ne_nil_of_length_pos (Wire.varintField_length_pos 2 .varint list.full.toNat)
    simp [bitswapWantlistBytes, this]
  refine ⟨{ entries := decoded, full := list.full }, ?_, by simpa [present] using collected, rfl⟩
  rw [bitswapWantlistProtobufDecode, if_neg nonempty, bitswapWantlistBytes, present, Option.getD_some,
    decodeFields_feeds feeds]
  rfl

end

theorem payload_decode {block : Block} (sendable : block.Sendable) :
    blocksBlockProtobufDecode pb (payloadBytes block) = .returned block := by
  obtain ⟨cid, data⟩ := block
  obtain ⟨⟨version, codec, hash⟩, rfl, lower, upper⟩ := sendable
  obtain ⟨char, rfl⟩ := Conversion.exists_char lower upper
  exact blocksBlockProtobufDecode_blockBytes pb data (cidProtobufDecode_cidNew pb version char hash)

def writtenPayload (block : Block) : Bytes :=
  Wire.bytesField 1 .lengthDelimited block.data ++
    Wire.bytesField 2 .lengthDelimited ((block.cid.map cidBytes).getD [])

theorem writtenPayload_length_le (block : Block) (bound : blocksBlockProtobufEncodeSize block < 2 ^ 64) :
    (writtenPayload block).length ≤ blocksBlockProtobufEncodeSize block := by
  obtain ⟨cid, data⟩ := block
  cases cid with
  | some cid => exact blockBytes_length_le cid data bound
  | none =>
      simp only [blocksBlockProtobufEncodeSize, cidProtobufEncodeSize] at bound ⊢
      have first := Wire.bytesField_length_le .lengthDelimited (by decide : 1 < 15)
        (show data.length < 2 ^ 64 by omega)
      have second := Wire.bytesField_length_le .lengthDelimited (by decide : 2 < 15)
        (show ([] : Bytes).length < 2 ^ 64 by decide)
      simp only [writtenPayload, Option.map_none, Option.getD_none, List.length_append, List.length_nil] at second ⊢
      omega

theorem blocksBlockProtobufEncode_written {block : Block} (bound : blocksBlockProtobufEncodeSize block < 2 ^ 64) :
    Outcome.ofOption (blocksBlockProtobufEncode pb block (blocksBlockProtobufEncodeSize block)) =
      .returned (writtenPayload block) := by
  obtain ⟨cid, data⟩ := block
  cases cid with
  | some cid =>
      rw [blocksBlockProtobufEncode_size pb cid data bound]
      rfl
  | none =>
      have fits := writtenPayload_length_le _ bound
      simp only [writtenPayload, Option.map_none, Option.getD_none, List.length_append] at fits
      have first : (Wire.bytesField 1 .lengthDelimited data).length ≤ blocksBlockProtobufEncodeSize ⟨none, data⟩ := by
        omega
      simp only [blocksBlockProtobufEncode, pb.encodeLengthDelimited_eq, cidProtobufEncode, Wire.fit_of_le first,
        Option.getD_some, Option.bind_eq_bind, Option.bind_some, Wire.append_fit first]
      rw [Wire.fit_of_le (by rw [List.length_append]; omega)]
      rfl

/-! ## Round trip -/

def BitswapMessage.size (message : BitswapMessage) : Nat :=
  ((message.blocks.getD []).map fun block => 11 + block.data.length).sum +
    ((message.payload.getD []).map fun block => 11 + blocksBlockProtobufEncodeSize block).sum +
    (message.wantlist.toList.map fun list =>
      ((list.entries.getD []).map WantlistEntry.size).sum + 34).sum + 34

def writtenMessage (message : BitswapMessage) : Bytes :=
  ((message.blocks.getD []).flatMap fun block => Wire.bytesField 1 .lengthDelimited block.data) ++
    ((message.payload.getD []).flatMap fun block => Wire.bytesField 2 .lengthDelimited (writtenPayload block)) ++
    message.wantlist.toList.flatMap fun list =>
      Wire.bytesField 3 .lengthDelimited (bitswapWantlistBytes list)

/-- The entries of the wantlist are assigned, and the size does not wrap around a `size_t`. -/
structure BitswapMessage.Encodable (message : BitswapMessage) : Prop where
  wantlist : ∀ list, message.wantlist = some list → list.Sendable
  sized : message.size < 2 ^ 64

section
variable {message : BitswapMessage}

theorem bitswapMessageProtobufEncodeSize_eq
    (wantlist : ∀ list, message.wantlist = some list → list.Sendable) :
    bitswapMessageProtobufEncodeSize (some message) = .returned message.size := by
  have estimate : bitswapWantlistProtobufEncodeSize message.wantlist =
      .returned (message.wantlist.toList.map fun list =>
        ((list.entries.getD []).map WantlistEntry.size).sum + 34).sum := by
    cases present : message.wantlist with
    | none => rfl
    | some list => simp [bitswapWantlistProtobufEncodeSize_eq (wantlist list present)]
  simp [bitswapMessageProtobufEncodeSize, estimate, BitswapMessage.size]

section
variable (encodable : message.Encodable)
include encodable

theorem BitswapMessage.Encodable.payload_lt {block : Block} (mem : block ∈ message.payload.getD []) :
    11 + blocksBlockProtobufEncodeSize block < 2 ^ 64 := by
  have part : 11 + blocksBlockProtobufEncodeSize block ≤
      ((message.payload.getD []).map fun block => 11 + blocksBlockProtobufEncodeSize block).sum :=
    List.single_le_sum (by simp) _ (List.mem_map_of_mem mem)
  have total := encodable.sized
  rw [BitswapMessage.size] at total
  omega

theorem BitswapMessage.Encodable.wantlist_lt {list : BitswapWantlist} (present : message.wantlist = some list) :
    ((list.entries.getD []).map WantlistEntry.size).sum + 34 < 2 ^ 64 := by
  have total := encodable.sized
  simp only [BitswapMessage.size, present, Option.toList_some, List.map_cons, List.map_nil,
    List.sum_singleton] at total
  omega

theorem writtenMessage_length_le : (writtenMessage message).length ≤ message.size := by
  have total := encodable.sized
  have blocks : ((message.blocks.getD []).flatMap fun block =>
      Wire.bytesField 1 .lengthDelimited block.data).length ≤
      ((message.blocks.getD []).map fun block => 11 + block.data.length).sum := by
    rw [List.length_flatMap]
    refine List.sum_le_sum fun block mem => ?_
    have part : 11 + block.data.length ≤
        ((message.blocks.getD []).map fun block => 11 + block.data.length).sum :=
      List.single_le_sum (by simp) _ (List.mem_map_of_mem mem)
    rw [BitswapMessage.size] at total
    exact Wire.bytesField_length_le .lengthDelimited (by decide) (by omega)
  have payload : ((message.payload.getD []).flatMap fun block =>
      Wire.bytesField 2 .lengthDelimited (writtenPayload block)).length ≤
      ((message.payload.getD []).map fun block => 11 + blocksBlockProtobufEncodeSize block).sum := by
    rw [List.length_flatMap]
    refine List.sum_le_sum fun block mem => ?_
    have bound := encodable.payload_lt mem
    have inner := writtenPayload_length_le block (by omega)
    have outer := Wire.bytesField_length_le .lengthDelimited (by decide : 2 < 15)
      (show (writtenPayload block).length < 2 ^ 64 by omega)
    omega
  have wantlist : (message.wantlist.toList.flatMap fun list =>
      Wire.bytesField 3 .lengthDelimited (bitswapWantlistBytes list)).length ≤
      (message.wantlist.toList.map fun list =>
        ((list.entries.getD []).map WantlistEntry.size).sum + 34).sum := by
    rw [List.length_flatMap]
    refine List.sum_le_sum fun list mem => ?_
    have present : message.wantlist = some list := by simpa using mem
    have bound := encodable.wantlist_lt present
    have inner := bitswapWantlistBytes_length_le (encodable.wantlist list present) (by omega)
    have outer := Wire.bytesField_length_le .lengthDelimited (by decide : 3 < 15)
      (show (bitswapWantlistBytes list).length < 2 ^ 64 by omega)
    omega
  simp only [writtenMessage, BitswapMessage.size, List.length_append]
  omega

theorem bitswapMessageProtobufEncode_written :
    bitswapMessageProtobufEncode pb (some message) message.size = .returned (writtenMessage message) := by
  have fits := writtenMessage_length_le encodable
  have payload : ∀ block ∈ message.payload.getD [], Outcome.ofOption
      (blocksBlockProtobufEncode pb block (blocksBlockProtobufEncodeSize block)) =
        .returned (writtenPayload block) := by
    intro block mem
    have bound := encodable.payload_lt mem
    exact blocksBlockProtobufEncode_written pb (by omega)
  have wantlist : ∀ list ∈ message.wantlist.toList, (do
      let size ← bitswapWantlistProtobufEncodeSize (some list)
      bitswapWantlistProtobufEncode pb (some list) size) = .returned (bitswapWantlistBytes list) := by
    intro list mem
    have present : message.wantlist = some list := by simpa using mem
    have bound := encodable.wantlist_lt present
    rw [bitswapWantlistProtobufEncodeSize_eq (encodable.wantlist list present), Outcome.returned_bind]
    exact bitswapWantlistProtobufEncode_size pb (encodable.wantlist list present) (by omega)
  have upToPayload := fits
  rw [writtenMessage, List.length_append] at upToPayload
  have upToBlocks := upToPayload
  rw [List.length_append] at upToBlocks
  simp only [bitswapMessageProtobufEncode]
  rw [encodeVector_eq pb _ [] _ (fun _ _ => rfl) (by rw [List.nil_append]; omega), Outcome.returned_bind,
    List.nil_append, encodeVector_eq pb _ _ _ payload (by omega), Outcome.returned_bind,
    encodeVector_eq pb _ _ _ wantlist fits]
  rfl

end

section
variable (sendable : message.Sendable)
include sendable

theorem BitswapMessage.Sendable.encodable : message.Encodable :=
  ⟨sendable.wantlist, sendable.sized _ (bitswapMessageProtobufEncodeSize_eq sendable.wantlist)⟩

theorem writtenMessage_eq_bitswapMessageBytes : writtenMessage message = bitswapMessageBytes message := by
  have payload : ∀ block ∈ message.payload.getD [], Wire.bytesField 2 .lengthDelimited (writtenPayload block) =
      Wire.bytesField 2 .lengthDelimited (payloadBytes block) := by
    intro block mem
    obtain ⟨cid, isCid, _⟩ := sendable.payload block mem
    obtain ⟨cid', data⟩ := block
    obtain rfl : cid' = some cid := isCid
    rfl
  rw [writtenMessage, bitswapMessageBytes, List.flatMap_congr payload]

theorem bitswapMessageBytes_ne_nil : bitswapMessageBytes message ≠ [] := by
  have field (fieldNo : Nat) (data : Bytes) : Wire.bytesField fieldNo .lengthDelimited data ≠ [] :=
    List.ne_nil_of_length_pos (Wire.bytesField_length_pos fieldNo .lengthDelimited data)
  intro empty
  simp only [bitswapMessageBytes, List.append_eq_nil_iff, List.flatMap_eq_nil_iff, field, imp_false] at empty
  obtain ⟨⟨blocks, payload⟩, wantlist⟩ := empty
  rcases sendable.nonempty with present | present | present
  · exact present (List.eq_nil_iff_forall_not_mem.mpr blocks)
  · exact present (List.eq_nil_iff_forall_not_mem.mpr payload)
  · exact present (Option.eq_none_iff_forall_not_mem.mpr fun list mem => wantlist list (by simpa using mem))

theorem bitswapMessageProtobufDecode_bitswapMessageBytes :
    ∃ message', bitswapMessageProtobufDecode pb (bitswapMessageBytes message) = .returned (some message') ∧
      message'.Same message := by
  obtain ⟨blocks, feedBlocks, sameBlocks⟩ := Feeds.vector pb (fun blocks => ({ blocks } : BitswapMessage))
    (fun block : Block => ({ data := block.data } : Block)) (message.blocks.getD []) (fun block mem vector =>
      show Feeds pb (bitswapMessageFields pb) _ (Wire.bytesField 1 .lengthDelimited block.data) _
      from .lengthDelimited (by decide) (by decide) rfl rfl) none
  obtain ⟨payload, feedPayload, samePayload⟩ := Feeds.vector pb
    (fun payload => ({ blocks, payload } : BitswapMessage)) id (message.payload.getD [])
    (fun block mem vector =>
      show Feeds pb (bitswapMessageFields pb) _ (Wire.bytesField 2 .lengthDelimited (payloadBytes block)) _
      from .lengthDelimited (by decide) (by decide) rfl
        (by simp [payload_decode pb (sendable.payload block mem)])) none
  obtain ⟨wantlist, feedWantlist, sameWantlist⟩ : ∃ wantlist : Option BitswapWantlist,
      Feeds pb (bitswapMessageFields pb) { blocks, payload } (message.wantlist.toList.flatMap fun list =>
        Wire.bytesField 3 .lengthDelimited (bitswapWantlistBytes list)) { blocks, payload, wantlist } ∧
      wantlist.map (fun list => (list.entries.getD [], list.full)) =
        message.wantlist.map fun list => (list.entries.getD [], list.full) := by
    cases present : message.wantlist with
    | none => exact ⟨none, .nil _, rfl⟩
    | some list =>
        obtain ⟨list', decoded, entries, full⟩ :=
          bitswapWantlistProtobufDecode_bitswapWantlistBytes pb (sendable.wantlist list present)
        refine ⟨some list', ?_, by simp [entries, full]⟩
        rw [Option.toList_some, List.flatMap_singleton]
        exact .lengthDelimited (by decide) (by decide) rfl (by simp [decoded])
  refine ⟨{ blocks, payload, wantlist }, ?_, ?_⟩
  · rw [bitswapMessageProtobufDecode, if_neg (bitswapMessageBytes_ne_nil sendable), bitswapMessageBytes,
      decodeFields_feeds ((feedBlocks.append feedPayload).append feedWantlist)]
    rfl
  · exact ⟨by simp [sameBlocks, Function.comp_def], by simpa using samePayload, sameWantlist⟩

end
end

theorem bitswapMessage_roundTrip (message : BitswapMessage) (sendable : message.Sendable) :
    ∃ size bytes message', bitswapMessageProtobufEncodeSize (some message) = .returned size ∧
      bitswapMessageProtobufEncode pb (some message) size = .returned bytes ∧
      bitswapMessageProtobufDecode pb bytes = .returned (some message') ∧ message'.Same message := by
  obtain ⟨message', decoded, same⟩ := bitswapMessageProtobufDecode_bitswapMessageBytes pb sendable
  refine ⟨_, _, message', bitswapMessageProtobufEncodeSize_eq sendable.wantlist, ?_, decoded, same⟩
  rw [bitswapMessageProtobufEncode_written pb sendable.encodable, writtenMessage_eq_bitswapMessageBytes sendable]

theorem bitswapMessage_roundTrip_allParts :
    ∃ message : BitswapMessage, message.Sendable ∧ message.blocks.isSome ∧ message.payload.isSome ∧
      message.wantlist.isSome ∧ ∃ size bytes message',
      bitswapMessageProtobufEncodeSize (some message) = .returned size ∧
      bitswapMessageProtobufEncode .standard (some message) size = .returned bytes ∧
      bitswapMessageProtobufDecode .standard bytes = .returned (some message') ∧ message'.Same message := by
  let message : BitswapMessage :=
    { wantlist := some { entries := some [some ⟨some [1, 2], some 300, some 1⟩, some ⟨some [], some 1, some 0⟩] }
      blocks := some [{ data := [9] }]
      payload := some [{ cid := some (cidNew 1 [5, 6] cidDagProtobuf), data := [1, 2, 3] }] }
  have sendable : message.Sendable :=
    { nonempty := by simp [message]
      wantlist := by
        intro list present
        simp only [message, Option.some.injEq] at present
        subst present
        refine ⟨_, rfl, fun entry mem => ?_⟩
        simp only [List.mem_cons, List.not_mem_nil, or_false] at mem
        rcases mem with rfl | rfl <;> exact ⟨_, _, _, rfl⟩
      payload := by
        intro block mem
        simp only [message, Option.getD_some, List.mem_singleton] at mem
        subst mem
        exact ⟨_, rfl, by decide, by decide⟩
      sized := by
        intro size estimate
        have value : bitswapMessageProtobufEncodeSize (some message) = .returned 220 := by decide
        rw [value, Outcome.returned.injEq] at estimate
        omega }
  exact ⟨message, sendable, rfl, rfl, rfl, bitswapMessage_roundTrip .standard message sendable⟩

end Ipfs
