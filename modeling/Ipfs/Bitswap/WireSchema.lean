import Ipfs.Codec.Message
import Ipfs.Lib.Schema

/-!
# The schema of a bitswap message

`message.h` numbers the fields of a message; the encoder writes blocks, payload and wantlist under other
numbers, and the priority and the cancel flag of an entry under each other's.
-/

namespace Ipfs
open Schema

/-! ## The schema of `message.h` -/

structure EntryRead where
  block : Bytes := []
  priority : UInt32 := 1
  cancel : Bool := false

def entrySchema : Nat → Option (Reader EntryRead)
  | 1 => some (.lengthDelimited fun entry block => some { entry with block })
  | 2 => some (.varint fun entry n => { entry with priority := .ofNat n })
  | 3 => some (.varint fun entry n => { entry with cancel := n ≠ 0 })
  | _ => none

structure WantlistRead where
  entries : List EntryRead := []
  full : Bool := false

def wantlistSchema : Nat → Option (Reader WantlistRead)
  | 1 => some (.lengthDelimited fun list data =>
      (parse entrySchema {} data).map fun entry => { list with entries := list.entries ++ [entry] })
  | 2 => some (.varint fun list n => { list with full := n ≠ 0 })
  | _ => none

/-- A message as it is read; a payload block is left in its encoding. -/
structure MessageRead where
  wantlist : Option WantlistRead := none
  blocks : List Bytes := []
  payload : List Bytes := []

def messageSchema : Nat → Option (Reader MessageRead)
  | 1 => some (.lengthDelimited fun message data =>
      (parse wantlistSchema (message.wantlist.getD {}) data).map fun list => { message with wantlist := some list })
  | 2 => some (.lengthDelimited fun message data => some { message with blocks := message.blocks ++ [data] })
  | 3 => some (.lengthDelimited fun message data => some { message with payload := message.payload ++ [data] })
  | _ => none

/-! ## What is given back -/

def EntryRead.Same (entry : Option WantlistEntry) (read : EntryRead) : Prop :=
  ∃ block priority cancel, entry = some ⟨some block, some priority, some cancel⟩ ∧ read.block = block ∧
    read.priority = priority ∧ read.cancel = decide (cancel ≠ 0)

structure WantlistRead.Same (list : BitswapWantlist) (read : WantlistRead) : Prop where
  entries : List.Forall₂ EntryRead.Same (list.entries.getD []) read.entries
  full : read.full = decide (list.full ≠ 0)

structure MessageRead.Same (pb : Protobuf) (message : BitswapMessage) (read : MessageRead) : Prop where
  wantlist : Option.Rel WantlistRead.Same message.wantlist read.wantlist
  blocks : read.blocks = (message.blocks.getD []).map Block.data
  payload : List.Forall₂ (fun block data => blocksBlockProtobufEncode pb block (blocksBlockProtobufEncodeSize block) = some data)
    (message.payload.getD []) read.payload

def ReadsBack (pb : Protobuf) (message : BitswapMessage) (bytes : Bytes) : Prop :=
  ∃ read, parse messageSchema {} bytes = some read ∧ read.Same pb message

/-! ## What is written under which number -/

section
variable {pb : Protobuf}

theorem encodeVector_returned {α : Type} {fieldNo room : Nat} {encode : α → Outcome Bytes} {out out' : Bytes}
    {items : List α} (written : encodeVector pb fieldNo encode room out items = .returned out') (fits : out.length ≤ room) :
    ∃ temps, List.Forall₂ (fun item temp => encode item = .returned temp) items temps ∧
      out' = out ++ temps.flatMap (Wire.bytesField fieldNo .lengthDelimited) ∧ out'.length ≤ room := by
  induction items generalizing out with
  | nil =>
      obtain rfl := Outcome.returned.inj written
      exact ⟨[], .nil, by simp, fits⟩
  | cons item items ih =>
      obtain ⟨temp, encoded, written⟩ := Outcome.bind_eq_returned.mp written
      obtain ⟨out₁, appended, written⟩ := Outcome.bind_eq_returned.mp written
      have appended := Outcome.ofOption_eq_returned.mp appended
      simp only [pb.encodeLengthDelimited_eq] at appended
      have fits₁ := Wire.append_length_le fits appended
      rw [Wire.append_fit fits, Wire.fit] at appended
      split at appended
      · obtain rfl := Option.some.inj appended
        obtain ⟨temps, encoded', rfl, fits'⟩ := ih written fits₁
        exact ⟨temp :: temps, .cons encoded encoded', by rw [List.flatMap_cons, List.append_assoc], fits'⟩
      · cases appended

theorem length_lt_of_written {fieldNo bound : Nat} {temps : List Bytes}
    (fits : (temps.flatMap (Wire.bytesField fieldNo .lengthDelimited)).length < bound) :
    ∀ temp ∈ temps, temp.length < bound := by
  intro temp mem
  have whole : (Wire.bytesField fieldNo .lengthDelimited temp).length ≤
      (temps.flatMap (Wire.bytesField fieldNo .lengthDelimited)).length := by
    rw [List.length_flatMap]
    exact List.single_le_sum (by simp) _ (List.mem_map_of_mem mem)
  have long := Wire.bytesField_length_ge fieldNo .lengthDelimited temp
  omega

theorem reads_written {fieldNo : Nat} (pos : 0 < fieldNo) (bound : fieldNo < 2 ^ 29) {temps : List Bytes}
    (fits : (temps.flatMap (Wire.bytesField fieldNo .lengthDelimited)).length < 2 ^ 64) :
    Reads (temps.flatMap (Wire.bytesField fieldNo .lengthDelimited)) (temps.map fun temp => ⟨fieldNo, .lengthDelimited temp⟩) :=
  .flatMap temps fun temp mem => .bytesField pos bound (length_lt_of_written fits temp mem)

theorem tokens_wantlist {list : BitswapWantlist} {room : Nat} {bytes : Bytes} (bound : bytes.length < 2 ^ 64)
    (encoded : bitswapWantlistProtobufEncode pb (some list) room = .returned bytes) :
    ∃ entries, tokens bytes = some (entries ++ [⟨2, .varint list.full.toNat⟩]) := by
  rw [bitswapWantlistProtobufEncode] at encoded
  obtain ⟨entries, _, encoded⟩ := Outcome.bind_eq_returned.mp encoded
  obtain ⟨out, written, encoded⟩ := Outcome.bind_eq_returned.mp encoded
  obtain ⟨temps, _, rfl, fits⟩ := encodeVector_returned written (Nat.zero_le _)
  have appended := Outcome.ofOption_eq_returned.mp encoded
  simp only [pb.encodeVarint_eq, UInt8.toNat_toUInt64] at appended
  rw [List.nil_append] at appended fits
  rw [Wire.append_fit fits, Wire.fit] at appended
  split at appended
  · obtain rfl := Option.some.inj appended
    rw [List.length_append] at bound
    have small : list.full.toNat < 2 ^ 64 := lt_trans list.full.toNat_lt (by decide)
    have first : Reads _ (temps.map fun temp => ⟨1, .lengthDelimited temp⟩) :=
      reads_written (by decide) (by decide) (by omega)
    exact ⟨_, (first.append (.varintField (by decide) (by decide) small)).tokens⟩
  · cases appended

theorem tokens_block {block : Block} {room : Nat} {bytes : Bytes} (bound : bytes.length < 2 ^ 64)
    (encoded : blocksBlockProtobufEncode pb block room = some bytes) :
    ∃ data cid, tokens bytes = some (data ++ [⟨2, .lengthDelimited cid⟩]) := by
  simp only [blocksBlockProtobufEncode, pb.encodeLengthDelimited_eq] at encoded
  obtain ⟨cid, _, appended⟩ := Option.bind_eq_some_iff.mp encoded
  -- the data is left out when there is no room for it
  obtain ⟨out, reads, fits, same⟩ : ∃ out : Bytes, (∃ data, out.length ≤ bytes.length → Reads out data) ∧
      out.length ≤ room ∧ (Wire.fit room (Wire.bytesField 1 .lengthDelimited block.data)).getD [] = out := by
    by_cases fits : (Wire.bytesField 1 .lengthDelimited block.data).length ≤ room
    · refine ⟨_, ⟨_, fun shorter => .bytesField (by decide) (by decide) ?_⟩, fits, by rw [Wire.fit_of_le fits]; rfl⟩
      have long := Wire.bytesField_length_ge 1 .lengthDelimited block.data
      omega
    · exact ⟨[], ⟨_, fun _ => .nil⟩, Nat.zero_le _, by rw [Wire.fit_of_lt (by omega)]; rfl⟩
  rw [same, Wire.append_fit fits, Wire.fit] at appended
  split at appended
  · obtain rfl := Option.some.inj appended
    obtain ⟨data, reads⟩ := reads
    rw [List.length_append] at bound reads
    have long := Wire.bytesField_length_ge 2 .lengthDelimited cid
    have last : Reads (Wire.bytesField 2 .lengthDelimited cid) [⟨2, .lengthDelimited cid⟩] :=
      .bytesField (by decide) (by decide) (by omega)
    exact ⟨data, cid, ((reads (by omega)).append last).tokens⟩
  · cases appended

theorem wantlist_ne_block {list : BitswapWantlist} {block : Block} {room room' : Nat} {bytes : Bytes}
    (bound : bytes.length < 2 ^ 64) (encoded : bitswapWantlistProtobufEncode pb (some list) room = .returned bytes) :
    blocksBlockProtobufEncode pb block room' ≠ some bytes := by
  intro encoded'
  obtain ⟨entries, read⟩ := tokens_wantlist bound encoded
  obtain ⟨data, cid, read'⟩ := tokens_block bound encoded'
  have last := congrArg List.getLast? (Option.some.inj (read.symm.trans read'))
  rw [List.getLast?_concat, List.getLast?_concat] at last
  cases last

/-! ## What is read -/

/-- The contents of the fields of this number. -/
def contents (fieldNo : Nat) (token : Token) : List Bytes :=
  match token with
  | ⟨field, .lengthDelimited data⟩ => if field = fieldNo then [data] else []
  | _ => []

theorem flatMap_contents (fieldNo field : Nat) (temps : List Bytes) :
    ((temps.map fun temp => (⟨field, .lengthDelimited temp⟩ : Token)).flatMap (contents fieldNo)) =
      if field = fieldNo then temps else [] := by
  rw [List.flatMap_map]
  by_cases same : field = fieldNo
  · simp [contents, same]
  · simp [contents, same]

theorem messageSchema_stores {s s' : MessageRead} {token : Token} (stored : store messageSchema s token = some s') :
    s'.blocks = s.blocks ++ contents 2 token ∧ s'.payload = s.payload ++ contents 3 token := by
  obtain ⟨field, value⟩ := token
  cases value with
  | lengthDelimited data =>
      match field with
      | 1 =>
          obtain ⟨list, _, rfl⟩ := Option.map_eq_some_iff.mp stored
          simp [contents]
      | 2 | 3 =>
          obtain rfl := Option.some.inj stored
          simp [contents]
      | 0 | _ + 4 =>
          obtain rfl := Option.some.inj stored
          simp [contents]
  | varint _ | fixed64 _ | startGroup | endGroup | fixed32 _ =>
      match field with
      | 0 | 1 | 2 | 3 | _ + 4 =>
          obtain rfl := Option.some.inj stored
          simp [contents]

/-- The blocks are written as the wantlist is numbered, the payload as the blocks and the wantlist as the payload. -/
theorem bitswapMessageProtobufEncode_returned {message : BitswapMessage} {room : Nat} (bound : room < 2 ^ 64) {bytes : Bytes}
    (encoded : bitswapMessageProtobufEncode pb (some message) room = .returned bytes) :
    ∃ payload wantlist,
      List.Forall₂ (fun block data => blocksBlockProtobufEncode pb block (blocksBlockProtobufEncodeSize block) = some data)
        (message.payload.getD []) payload ∧
      List.Forall₂ (fun list data => ∃ size, bitswapWantlistProtobufEncode pb (some list) size = .returned data)
        message.wantlist.toList wantlist ∧
      (∀ data ∈ wantlist, data.length < 2 ^ 64) ∧
      Reads bytes ((((message.blocks.getD []).map Block.data).map fun data => ⟨1, .lengthDelimited data⟩) ++
        (payload.map fun data => ⟨2, .lengthDelimited data⟩) ++ wantlist.map fun data => ⟨3, .lengthDelimited data⟩) := by
  obtain ⟨_, written₁, encoded⟩ := Outcome.bind_eq_returned.mp encoded
  obtain ⟨_, written₂, written₃⟩ := Outcome.bind_eq_returned.mp encoded
  obtain ⟨blocks, each₁, rfl, fits₁⟩ := encodeVector_returned written₁ (Nat.zero_le _)
  obtain ⟨payload, each₂, rfl, fits₂⟩ := encodeVector_returned written₂ fits₁
  obtain ⟨wantlist, each₃, rfl, fits₃⟩ := encodeVector_returned written₃ fits₂
  have same : (message.blocks.getD []).map Block.data = blocks := by
    rw [← List.forall₂_eq_eq_eq, List.forall₂_map_left_iff]
    exact each₁.imp fun _ _ returned => Outcome.returned.inj returned
  simp only [List.nil_append, List.length_append] at fits₁ fits₂ fits₃ ⊢
  refine ⟨payload, wantlist, each₂.imp fun _ _ returned => Outcome.ofOption_eq_returned.mp returned,
    each₃.imp fun list data returned => ?_, fun data mem => ?_, ?_⟩
  · obtain ⟨size, _, encoded⟩ := Outcome.bind_eq_returned.mp returned
    exact ⟨size, encoded⟩
  · have short : (wantlist.flatMap (Wire.bytesField 3 .lengthDelimited)).length < 2 ^ 64 := by omega
    exact length_lt_of_written short data mem
  · rw [same]
    exact ((reads_written (by decide) (by decide) (by omega)).append
      (reads_written (by decide) (by decide) (by omega))).append (reads_written (by decide) (by decide) (by omega))

theorem bitswapMessage_readsBack_iff (pb : Protobuf) (message : BitswapMessage) (room : Nat) (bound : room < 2 ^ 64)
    (bytes : Bytes) (encoded : bitswapMessageProtobufEncode pb (some message) room = .returned bytes) :
    ReadsBack pb message bytes ↔
      message.wantlist = none ∧ message.blocks.getD [] = [] ∧ message.payload.getD [] = [] := by
  obtain ⟨payload, wantlist, payloads, wantlists, short, reads⟩ := bitswapMessageProtobufEncode_returned bound encoded
  have parsed : parse messageSchema {} bytes = List.foldlM (store messageSchema) {} _ := reads.parse (by
    intro token mem
    simp only [List.mem_append, List.mem_map] at mem
    rcases mem with (⟨_, _, rfl⟩ | ⟨_, _, rfl⟩) | ⟨_, _, rfl⟩ <;> exact ⟨Value.noConfusion, Value.noConfusion⟩)
  constructor
  · rintro ⟨read, found, same⟩
    rw [parsed] at found
    have blocks := foldlM_collects (fun _ _ _ stored => (messageSchema_stores stored).1) found
    have payload' := foldlM_collects (fun _ _ _ stored => (messageSchema_stores stored).2) found
    simp only [List.flatMap_append, flatMap_contents, Nat.reduceEqDiff, OfNat.one_ne_ofNat, if_true,
      if_false, List.nil_append, List.append_nil] at blocks payload'
    have same₁ := same.blocks
    have same₂ := same.payload
    rw [payload'] at same₂
    rw [blocks] at same₁
    cases present : message.wantlist with
    | none =>
        rw [present] at wantlists
        obtain rfl := List.forall₂_nil_left_iff.mp wantlists
        have noPayload := List.forall₂_nil_right_iff.mp same₂
        rw [noPayload] at payloads
        obtain rfl := List.forall₂_nil_left_iff.mp payloads
        exact ⟨rfl, List.map_eq_nil_iff.mp same₁.symm, noPayload⟩
    | some list =>
        rw [present] at wantlists
        obtain ⟨data, later, ⟨size, written⟩, last, rfl⟩ := List.forall₂_cons_left_iff.mp wantlists
        obtain rfl := List.forall₂_nil_left_iff.mp last
        obtain ⟨block, _, encoded', _, _⟩ := List.forall₂_cons_right_iff.mp same₂
        exact absurd encoded' (wantlist_ne_block (short data List.mem_cons_self) written)
  · rintro ⟨absent, blocks, payload'⟩
    rw [absent] at wantlists
    rw [payload'] at payloads
    obtain rfl := List.forall₂_nil_left_iff.mp wantlists
    obtain rfl := List.forall₂_nil_left_iff.mp payloads
    rw [blocks] at parsed
    refine ⟨{}, parsed, ⟨by rw [absent]; exact .none, by rw [blocks]; rfl, by rw [payload']; exact .nil⟩⟩

end

theorem bitswapMessage_readsBack_empty : ReadsBack .standard {} [] :=
  (bitswapMessage_readsBack_iff .standard {} 0 (by decide) [] rfl).mpr ⟨rfl, rfl, rfl⟩

/-- A message that asks for one block. -/
def wantMessage : BitswapMessage := { wantlist := some { entries := some [some ⟨some [0x63], some 1, some 0⟩] } }

theorem not_bitswapMessage_readsBack_want :
    ¬ ∀ (pb : Protobuf) (message : BitswapMessage) (room : Nat), room < 2 ^ 64 → ∀ bytes,
      bitswapMessageProtobufEncode pb (some message) room = .returned bytes → ReadsBack pb message bytes := by
  intro claim
  obtain ⟨read, found, same⟩ := claim .standard wantMessage 100 (by decide)
    [0x1a, 0x0b, 0x0a, 0x07, 0x0a, 0x01, 0x63, 0x10, 0x00, 0x18, 0x01, 0x10, 0x01] rfl
  -- the wantlist is read as a payload block
  obtain rfl : { payload := [[0x0a, 0x07, 0x0a, 0x01, 0x63, 0x10, 0x00, 0x18, 0x01, 0x10, 0x01]] } = read :=
    Option.some.inj found
  cases same.wantlist

end Ipfs
