import Ipfs.Codec.Journal
import Ipfs.Codec.Message
import Ipfs.Codec.Node
import Ipfs.Protobuf.Skims

/-!
# Fields that a decoder does not know

At an unknown field number the decoders step over the tag. The value behind it is read as fields.
-/

namespace Ipfs
variable (pb : Protobuf)

inductive MessageDecoder
  | node
  | nodeLink
  | block
  | cid
  | unixFS
  | bitswapMessage
  | wantlist
  | wantlistEntry
  | journalMessage
  | journalEntry

namespace MessageDecoder

def Object : MessageDecoder → Type
  | node => HashtableNode
  | nodeLink => NodeLink
  | block => Block
  | cid => Option Cid
  | unixFS => UnixFS
  | bitswapMessage => Option BitswapMessage
  | wantlist => Option BitswapWantlist
  | wantlistEntry => Option WantlistEntry
  | journalMessage => JournalMessage
  | journalEntry => JournalEntry

def decode : (decoder : MessageDecoder) → Bytes → Outcome decoder.Object
  | node => hashtableNodeProtobufDecode pb
  | nodeLink => nodeLinkProtobufDecode pb
  | block => blocksBlockProtobufDecode pb
  | cid => cidProtobufDecode pb
  | unixFS => unixfsProtobufDecode pb
  | bitswapMessage => bitswapMessageProtobufDecode pb
  | wantlist => bitswapWantlistProtobufDecode pb
  | wantlistEntry => wantlistEntryProtobufDecode pb
  | journalMessage => journalMessageDecode pb
  | journalEntry => journalEntryDecode pb

/-- An empty buffer is the encoding of NULL. -/
def NullWhenEmpty : MessageDecoder → Prop
  | cid | bitswapMessage | wantlist | wantlistEntry => True
  | node | nodeLink | block | unixFS | journalMessage | journalEntry => False

def reader : (decoder : MessageDecoder) → Reader decoder.Object
  | node =>
      { State := HashtableNode, init := {}, fields := hashtableNodeFields pb, finish := .returned, empty := .failed }
  | nodeLink => { State := NodeLink, init := {}, fields := nodeLinkFields, finish := .returned }
  | block => { State := Block, init := {}, fields := blockFields pb, finish := .returned }
  | cid =>
      { State := CidDecoding
        init := {}
        fields := cidFields
        finish := fun s => do
          let hash ← .access .unassigned s.hash
          pure (some (cidNew s.version hash s.codec))
        empty := .returned none }
  | unixFS => { State := UnixFS, init := {}, fields := unixfsFields, finish := .returned, empty := .failed }
  | bitswapMessage =>
      { State := BitswapMessage
        init := {}
        fields := bitswapMessageFields pb
        finish := fun message => .returned (some message)
        empty := .returned none }
  | wantlist =>
      { State := BitswapWantlist
        init := {}
        fields := bitswapWantlistFields pb
        finish := fun list => .returned (some list)
        empty := .returned none }
  | wantlistEntry =>
      { State := WantlistEntry
        init := {}
        fields := wantlistEntryFields
        finish := fun entry => .returned (some entry)
        empty := .returned none }
  | journalMessage =>
      { State := Collecting JournalMessage
        init := { out := {} }
        fields := journalMessageFields pb
        finish := Collecting.result }
  | journalEntry =>
      { State := Collecting JournalEntry
        init := { out := {} }
        fields := journalEntryFields
        finish := Collecting.result }

theorem reader_decode (decoder : MessageDecoder) (buffer : Bytes) :
    (decoder.reader pb).decode pb buffer = decoder.decode pb buffer := by
  by_cases empty : buffer = []
  · subst empty
    cases decoder <;> rfl
  · rw [Reader.decode, if_neg empty]
    cases decoder with
    | node | unixFS => exact (bind_pure _).trans (if_neg empty).symm
    | nodeLink | block => exact bind_pure _
    | cid | bitswapMessage | wantlist | wantlistEntry => exact (if_neg empty).symm
    | journalMessage | journalEntry => rfl

/-! ## Messages that no field makes alike -/

theorem node_merges (fieldNo : Nat) (field : Field HashtableNode)
    (known : hashtableNodeFields pb fieldNo = some field) :
    field.Merges fun node node' => node.data = node'.data ∨ node.links ≠ [] := by
  match fieldNo, known with
  | 1, rfl =>
      intro data
      right
      rintro node node' _ _ ⟨⟩ ⟨⟩
      exact .inl rfl
  | 2, rfl =>
      intro payload
      cases decoded : nodeLinkProtobufDecode pb payload with
      | failed => exact .inl fun _ => by simp only [decoded]
      | returned link =>
          right
          intro node node' _ _ stored _
          simp only [decoded, Outcome.returned.injEq] at stored
          subst stored
          simp [hashtableNodeAddLink]
      | fault cause =>
          right
          intro node node' _ _ stored _
          simp only [decoded] at stored
          cases stored

theorem nodeLink_merges (fieldNo : Nat) (field : Field NodeLink) (known : nodeLinkFields fieldNo = some field) :
    field.Merges fun link link' => link.hash = link'.hash ∨ link.name = link'.name ∨ link.tSize = link'.tSize := by
  match fieldNo, known with
  | 1, rfl =>
      intro hash
      right
      intro link link' _ _ stored stored'
      dsimp only at stored stored'
      split at stored
      · cases stored
      · rw [if_neg ‹_›] at stored'
        obtain rfl := Outcome.returned.inj stored
        obtain rfl := Outcome.returned.inj stored'
        exact .inl rfl
  | 2, rfl => exact fun _ _ _ => .inr (.inl rfl)
  | 3, rfl => exact fun _ _ _ => .inr (.inr rfl)

theorem block_merges (fieldNo : Nat) (field : Field Block) (known : blockFields pb fieldNo = some field) :
    field.Merges fun block block' => block.data = block'.data ∨ block.cid = block'.cid := by
  match fieldNo, known with
  | 1, rfl =>
      intro data
      right
      rintro block block' _ _ ⟨⟩ ⟨⟩
      exact .inl rfl
  | 2, rfl =>
      intro payload
      right
      intro block block' _ _ stored stored'
      obtain ⟨cid, decoded, stored⟩ := Outcome.bind_eq_returned.mp stored
      simp only [decoded, Outcome.returned_bind, Outcome.pure_def, Outcome.returned.injEq] at stored stored'
      subst stored stored'
      exact .inr rfl

theorem cid_merges (fieldNo : Nat) (field : Field CidDecoding) (known : cidFields fieldNo = some field) :
    field.Merges fun s s' => s.version = s'.version ∨ s.codec = s'.codec ∨ s.hash = s'.hash := by
  match fieldNo, known with
  | 1, rfl => exact fun _ _ _ => .inl rfl
  | 2, rfl => exact fun _ _ _ => .inr (.inl rfl)
  | 3, rfl =>
      intro hash
      right
      rintro s s' _ _ ⟨⟩ ⟨⟩
      exact .inr (.inr rfl)

theorem unixFS_merges (fieldNo : Nat) (field : Field UnixFS) (known : unixfsFields fieldNo = some field) :
    field.Merges fun obj obj' => obj.dataType = obj'.dataType ∨ obj.bytes = obj'.bytes ∨
      obj.fileSize = obj'.fileSize ∨ obj.blockSizes ≠ [] := by
  match fieldNo, known with
  | 1, rfl => exact fun _ _ _ => .inl rfl
  | 2, rfl =>
      intro bytes
      right
      rintro obj obj' _ _ ⟨⟩ ⟨⟩
      exact .inr (.inl rfl)
  | 3, rfl => exact fun _ _ _ => .inr (.inr (.inl rfl))
  | 4, rfl => exact fun _ _ _ => .inr (.inr (.inr (by simp [unixfsAddBlocksize])))

theorem wantlistEntry_merges (fieldNo : Nat) (field : Field WantlistEntry)
    (known : wantlistEntryFields fieldNo = some field) :
    field.Merges fun entry entry' => entry.block = entry'.block ∨ entry.cancel = entry'.cancel ∨
      entry.priority = entry'.priority := by
  match fieldNo, known with
  | 1, rfl =>
      intro block
      right
      rintro entry entry' _ _ ⟨⟩ ⟨⟩
      exact .inl rfl
  | 2, rfl => exact fun _ _ _ => .inr (.inl rfl)
  | 3, rfl => exact fun _ _ _ => .inr (.inr rfl)

theorem wantlist_merges (fieldNo : Nat) (field : Field BitswapWantlist)
    (known : bitswapWantlistFields pb fieldNo = some field) :
    field.Merges fun list list' => list.entries ≠ none ∨ list.full = list'.full := by
  match fieldNo, known with
  | 1, rfl =>
      intro payload
      right
      intro list list' _ _ stored _
      obtain ⟨entry, decoded, stored⟩ := Outcome.bind_eq_returned.mp stored
      obtain rfl := Outcome.returned.inj stored
      exact .inl (by simp [vectorAdd])
  | 2, rfl => exact fun _ _ _ => .inr rfl

theorem bitswapMessage_merges (fieldNo : Nat) (field : Field BitswapMessage)
    (known : bitswapMessageFields pb fieldNo = some field) :
    field.Merges fun message message' => message.blocks ≠ none ∨ message.payload ≠ none ∨
      message.wantlist = message'.wantlist := by
  match fieldNo, known with
  | 1, rfl =>
      intro data
      right
      rintro message message' _ _ ⟨⟩ _
      exact .inl (by simp [vectorAdd])
  | 2, rfl =>
      intro payload
      right
      intro message message' _ _ stored _
      obtain ⟨block, decoded, stored⟩ := Outcome.bind_eq_returned.mp stored
      obtain rfl := Outcome.returned.inj stored
      exact .inr (.inl (by simp [vectorAdd]))
  | 3, rfl =>
      intro payload
      right
      intro message message' _ _ stored stored'
      obtain ⟨wantlist, decoded, stored⟩ := Outcome.bind_eq_returned.mp stored
      simp only [decoded, Outcome.returned_bind, Outcome.pure_def, Outcome.returned.injEq] at stored stored'
      subst stored stored'
      exact .inr (.inr rfl)

theorem journalMessage_merges (fieldNo : Nat) (field : Field (Collecting JournalMessage))
    (known : journalMessageFields pb fieldNo = some field) :
    field.Merges fun s s' => s.out.currentEpoch = s'.out.currentEpoch ∨ s.out.startEpoch = s'.out.startEpoch ∨
      s.out.endEpoch = s'.out.endEpoch ∨ s.out.journalEntries ≠ [] := by
  match fieldNo, known with
  | 1, rfl => exact fun _ _ _ => .inl rfl
  | 2, rfl => exact fun _ _ _ => .inr (.inl rfl)
  | 3, rfl => exact fun _ _ _ => .inr (.inr (.inl rfl))
  | 4, rfl =>
      intro payload
      right
      intro s s' _ _ stored _
      obtain ⟨entry, decoded, stored⟩ := Outcome.bind_eq_returned.mp stored
      obtain rfl := Outcome.returned.inj stored
      exact .inr (.inr (.inr (by simp [Collecting.got])))

theorem journalEntry_merges (fieldNo : Nat) (field : Field (Collecting JournalEntry))
    (known : journalEntryFields fieldNo = some field) :
    field.Merges fun s s' => s.out.timestamp = s'.out.timestamp ∨ s.out.hash = s'.out.hash ∨
      s.out.pin = s'.out.pin := by
  match fieldNo, known with
  | 1, rfl => exact fun _ _ _ => .inl rfl
  | 2, rfl =>
      intro hash
      right
      rintro s s' _ _ ⟨⟩ ⟨⟩
      exact .inr (.inl rfl)
  | 3, rfl => exact fun _ _ _ => .inr (.inr rfl)

theorem wantlist_writes (full : UInt64) :
    (wantlist.reader pb).Writes [⟨2, .varint full⟩] (some { full := full.toUInt8 }) :=
  ⟨{ full := full.toUInt8 }, .cons (by decide) rfl rfl (.nil _), rfl, by simp⟩

theorem bitswapMessage_writes (full : UInt64) :
    (bitswapMessage.reader pb).Writes [⟨3, .bytes (WireField.bytes ⟨2, .varint full⟩)⟩]
      (some { wantlist := some { full := full.toUInt8 } }) := by
  have inner := (wantlist_writes pb full).decode_eq pb
  rw [reader_decode, List.flatMap_singleton] at inner
  refine ⟨{ wantlist := some { full := full.toUInt8 } }, .cons (by decide) rfl ?_ (.nil _), rfl, by simp⟩
  exact Outcome.bind_eq_returned.mpr ⟨_, inner, rfl⟩

theorem block_writes (data hash : Bytes) :
    (block.reader pb).Writes [⟨1, .bytes data⟩, ⟨2, .bytes (cidBytes (cidNew 1 hash cidDagProtobuf))⟩]
      { cid := some (cidNew 1 hash cidDagProtobuf), data } := by
  refine ⟨{ cid := some (cidNew 1 hash cidDagProtobuf), data }, .cons (by decide) rfl rfl
    (.cons (by decide) rfl ?_ (.nil _)), rfl, by simp⟩
  exact Outcome.bind_eq_returned.mpr ⟨_, cidProtobufDecode_cidNew pb 1 cidDagProtobuf hash, rfl⟩

theorem node_writes (data : Bytes) : (node.reader pb).Writes [⟨1, .bytes data⟩] { data } :=
  ⟨{ data }, .cons (by decide) rfl rfl (.nil _), rfl, by simp⟩

theorem nodeLink_writes :
    (nodeLink.reader pb).Writes [⟨1, .bytes [0, 0, 1]⟩, ⟨2, .bytes [1]⟩, ⟨3, .varint 1⟩]
      { hash := [1], name := some ⟨[1], by decide⟩, tSize := 1 } :=
  ⟨_, .cons (by decide) rfl rfl (.cons (by decide) rfl ⟨⟨[1], by decide⟩, rfl, rfl⟩
    (.cons (by decide) rfl rfl (.nil _))), rfl, by simp⟩

theorem cid_writes :
    (cid.reader pb).Writes [⟨3, .bytes [1]⟩] (some (cidNew 0 [1] 0)) ∧
      (cid.reader pb).Writes [⟨1, .varint 1⟩, ⟨2, .varint 1⟩, ⟨3, .bytes [2]⟩] (some (cidNew 1 [2] 1)) :=
  ⟨⟨{ hash := some [1] }, .cons (by decide) rfl rfl (.nil _), rfl, by simp⟩,
    ⟨{ version := 1, codec := 1, hash := some [2] }, .cons (by decide) rfl rfl
      (.cons (by decide) rfl rfl (.cons (by decide) rfl rfl (.nil _))), rfl, by simp⟩⟩

theorem unixFS_writes :
    (unixFS.reader pb).Writes [⟨1, .varint 0⟩] {} ∧
      (unixFS.reader pb).Writes [⟨1, .varint 1⟩, ⟨2, .bytes [1]⟩, ⟨3, .varint 1⟩]
        { dataType := .directory, bytes := [1], fileSize := 1 } :=
  ⟨⟨{}, .cons (by decide) rfl rfl (.nil _), rfl, by simp⟩,
    ⟨_, .cons (by decide) rfl rfl
      (.cons (by decide) rfl rfl (.cons (by decide) rfl rfl (.nil _))), rfl, by simp⟩⟩

theorem wantlistEntry_writes :
    (wantlistEntry.reader pb).Writes [⟨2, .varint 0⟩] (some { cancel := some 0 }) ∧
      (wantlistEntry.reader pb).Writes [⟨1, .bytes [1]⟩, ⟨2, .varint 1⟩, ⟨3, .varint 1⟩]
        (some { block := some [1], cancel := some 1, priority := some 1 }) :=
  ⟨⟨_, .cons (by decide) rfl rfl (.nil _), rfl, by simp⟩,
    ⟨_, .cons (by decide) rfl rfl
      (.cons (by decide) rfl rfl (.cons (by decide) rfl rfl (.nil _))), rfl, by simp⟩⟩

theorem journalMessage_writes :
    (journalMessage.reader pb).Writes [⟨1, .varint 0⟩] {} ∧
      (journalMessage.reader pb).Writes [⟨1, .varint 1⟩, ⟨2, .varint 1⟩, ⟨3, .varint 1⟩]
        { currentEpoch := 1, startEpoch := 1, endEpoch := 1 } :=
  ⟨⟨_, .cons (by decide) rfl rfl (.nil _), rfl, by simp⟩,
    ⟨_, .cons (by decide) rfl rfl
      (.cons (by decide) rfl rfl (.cons (by decide) rfl rfl (.nil _))), rfl, by simp⟩⟩

theorem journalEntry_writes :
    (journalEntry.reader pb).Writes [⟨1, .varint 0⟩] {} ∧
      (journalEntry.reader pb).Writes [⟨1, .varint 1⟩, ⟨2, .bytes [1]⟩, ⟨3, .varint 1⟩]
        { timestamp := 1, pin := true, hash := [1] } :=
  ⟨⟨_, .cons (by decide) rfl rfl (.nil _), rfl, by simp⟩,
    ⟨_, .cons (by decide) rfl rfl
      (.cons (by decide) rfl rfl (.cons (by decide) rfl rfl (.nil _))), rfl, by simp⟩⟩

theorem cid_finished {s : CidDecoding} {version : Int32} {hash : Bytes} {codec : Int8}
    (finished : (do
      let hash ← .access .unassigned s.hash
      pure (some (cidNew s.version hash s.codec)) : Outcome (Option Cid)) =
        .returned (some (cidNew version hash codec))) :
    s.version = version ∧ s.codec = codec ∧ s.hash = some hash := by
  obtain ⟨read, assigned, made⟩ := Outcome.bind_eq_returned.mp finished
  simp only [Outcome.pure_def, Outcome.returned.injEq, Option.some.injEq, cidNew, Cid.mk.injEq] at made
  obtain ⟨same, wide, rfl⟩ := made
  have same' := congrArg Int32.toInt8 wide
  rw [Int8.toInt8_toInt32, Int8.toInt8_toInt32] at same'
  exact ⟨same, same', Outcome.access_eq_returned.mp assigned⟩

theorem apart (decoder : MessageDecoder) : (decoder.reader pb).Apart := by
  cases decoder with
  | node =>
      refine .messages (node_merges pb) (node_writes pb [0]) (node_writes pb [1]) ?_
      rintro s s' ⟨⟩ ⟨⟩
      decide
  | nodeLink =>
      refine .messages nodeLink_merges ⟨{}, .nil _, rfl, fun _ => rfl⟩ (nodeLink_writes pb) ?_
      rintro s s' ⟨⟩ ⟨⟩
      decide
  | block =>
      refine .messages (block_merges pb) ⟨{}, .nil _, rfl, fun _ => rfl⟩ (block_writes pb [1] [1]) ?_
      rintro s s' ⟨⟩ ⟨⟩
      simp
  | cid =>
      refine .messages cid_merges (cid_writes pb).1 (cid_writes pb).2 fun s s' finished finished' => ?_
      obtain ⟨version, codec, hash⟩ := cid_finished finished
      obtain ⟨version', codec', hash'⟩ := cid_finished finished'
      rw [version, codec, hash, version', codec', hash']
      decide
  | unixFS =>
      refine .messages unixFS_merges (unixFS_writes pb).1 (unixFS_writes pb).2 ?_
      rintro s s' ⟨⟩ ⟨⟩
      decide
  | bitswapMessage =>
      refine .messages (bitswapMessage_merges pb) (bitswapMessage_writes pb 0) (bitswapMessage_writes pb 1) ?_
      rintro s s' ⟨⟩ ⟨⟩
      decide
  | wantlist =>
      refine .messages (wantlist_merges pb) (wantlist_writes pb 0) (wantlist_writes pb 1) ?_
      rintro s s' ⟨⟩ ⟨⟩
      decide
  | wantlistEntry =>
      refine .messages wantlistEntry_merges (wantlistEntry_writes pb).1 (wantlistEntry_writes pb).2 ?_
      rintro s s' ⟨⟩ ⟨⟩
      decide
  | journalMessage =>
      refine .messages (journalMessage_merges pb) (journalMessage_writes pb).1 (journalMessage_writes pb).2
        fun s s' finished finished' => ?_
      rw [Collecting.result_eq_returned finished, Collecting.result_eq_returned finished']
      decide
  | journalEntry =>
      refine .messages journalEntry_merges (journalEntry_writes pb).1 (journalEntry_writes pb).2
        fun s s' finished finished' => ?_
      rw [Collecting.result_eq_returned finished, Collecting.result_eq_returned finished']
      decide

end MessageDecoder

/-! ## Unknown fields -/

structure UnknownField (decoder : MessageDecoder) where
  number : Nat
  content : Content
  valid : 0 < number ∧ number < 2 ^ 29
  unknown : (decoder.reader pb).fields number = none

def UnknownField.bytes {pb : Protobuf} {decoder : MessageDecoder} (field : UnknownField pb decoder) : Bytes :=
  WireField.bytes ⟨field.number, field.content⟩

/-- The object is decoded as before wherever between the fields of an encoding the bytes are put. -/
def MessageDecoder.Skips (decoder : MessageDecoder) (bytes : Bytes) : Prop :=
  ∀ before after object, (decoder.reader pb).Writes (before ++ after) object →
    decoder.decode pb (before.flatMap WireField.bytes ++ bytes ++ after.flatMap WireField.bytes) =
      decoder.decode pb ((before ++ after).flatMap WireField.bytes)

theorem MessageDecoder.decode_ne_of_nullWhenEmpty {pb : Protobuf} {decoder : MessageDecoder}
    (null : decoder.NullWhenEmpty) {bytes : Bytes} (nonempty : bytes ≠ []) :
    decoder.decode pb bytes ≠ decoder.decode pb [] := by
  rw [← reader_decode, ← reader_decode, Reader.decode, if_neg nonempty]
  intro same
  obtain ⟨object, empty, some⟩ : ∃ object, (decoder.reader pb).decode pb [] = .returned object ∧
      ∀ s, (decoder.reader pb).finish s ≠ .returned object := by
    cases decoder with
    | cid =>
        refine ⟨none, rfl, fun s finished => ?_⟩
        obtain ⟨hash, _, made⟩ := Outcome.bind_eq_returned.mp finished
        cases made
    | bitswapMessage | wantlist | wantlistEntry => exact ⟨none, rfl, fun s => by rintro ⟨⟩⟩
    | node | nodeLink | block | unixFS | journalMessage | journalEntry => exact null.elim
  obtain ⟨s, _, finished⟩ := Outcome.bind_eq_returned.mp (same.trans empty)
  exact some s finished

variable {pb}

theorem unknownField_skipped_iff (front : pb.ReadsFront) (decoder : MessageDecoder)
    (field : UnknownField pb decoder) :
    (decoder.Skips pb field.bytes ↔ Skims pb (decoder.reader pb).fields field.bytes) ∧
      (decoder.NullWhenEmpty → decoder.decode pb field.bytes ≠ decoder.decode pb []) := by
  have nonempty : field.bytes ≠ [] := WireField.bytes_ne_nil _
  refine ⟨?_, fun null => MessageDecoder.decode_ne_of_nullWhenEmpty null nonempty⟩
  simp only [MessageDecoder.Skips, ← MessageDecoder.reader_decode]
  exact Reader.keeps_iff_skims front (MessageDecoder.apart pb decoder) nonempty

theorem unknownField_skipped_filler : MessageDecoder.unixFS.Skips .standard [0x78, 0x78] := by
  refine (unknownField_skipped_iff Protobuf.standard_readsFront .unixFS ⟨15, .varint 0x78, by decide, rfl⟩).1.mpr ?_
  have tag (bytes rest : Bytes) :
      Protobuf.standard.decodeFieldAndType (0x78 :: bytes ++ rest) = .done 15 .varint 1 := rfl
  exact .unknown (tag [0x78]) (by decide) rfl (.unknown (tag []) (by decide) rfl .nil)

/-- A file of type 2, and behind it field 5 with eight bytes that look like fields: the file comes out as a directory
of five bytes. -/
theorem not_unknownField_skipped_lookalike :
    ¬ ∀ (decoder : MessageDecoder) (field : UnknownField .standard decoder), decoder.Skips .standard field.bytes := by
  intro skips
  have kept := skips .unixFS ⟨5, .bytes [1, 0x18, 5, 0x18, 5, 0x18, 5, 0x28], by decide, rfl⟩ [⟨1, .varint 2⟩] []
    { dataType := .file } ⟨{ dataType := .file }, .cons (by decide) rfl rfl (.nil _), rfl, by simp⟩
  have inserted : unixfsProtobufDecode .standard [8, 2, 0x2a, 8, 1, 0x18, 5, 0x18, 5, 0x18, 5, 0x28] =
      .returned { dataType := .directory, fileSize := 5 } := by decide
  have alone : unixfsProtobufDecode .standard [8, 2] = .returned { dataType := .file } := by decide
  exact absurd (inserted.symm.trans (kept.trans alone)) (by decide)

end Ipfs
