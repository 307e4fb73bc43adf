import Ipfs.Codec.Journal

/-!
# Journal messages, written and read back

The size of a message is estimated without the tag and the length in front of each entry. They take
up what the varints inside leave unused.
-/

namespace Ipfs
open Conversion

def varintWidth (n : Nat) : Nat := (Leb128.encode n).length

def JournalEntry.encodedLength (entry : JournalEntry) : Nat :=
  4 + varintWidth entry.timestamp.toNat + varintWidth entry.hash.length + entry.hash.length

def JournalEntry.widths (entry : JournalEntry) : Nat :=
  varintWidth entry.timestamp.toNat + varintWidth entry.hash.length + varintWidth entry.encodedLength

/-- The varints of a message take at most ten bytes for each epoch and eighteen for each entry. -/
def JournalMessage.Narrow (message : JournalMessage) : Prop :=
  varintWidth message.currentEpoch.toNat + varintWidth message.startEpoch.toNat + varintWidth message.endEpoch.toNat +
    (message.journalEntries.map JournalEntry.widths).sum ≤ 30 + 18 * message.journalEntries.length

/-- The estimate of the size is in the range of an `int`. -/
def JournalMessage.Estimable (message : JournalMessage) : Prop :=
  33 + (message.journalEntries.map fun entry => entry.hash.length + 23).sum < 2 ^ 31

instance (message : JournalMessage) : Decidable message.Narrow := inferInstanceAs (Decidable (_ ≤ _))

instance (message : JournalMessage) : Decidable message.Estimable := inferInstanceAs (Decidable (_ < _))

def JournalMessage.RoundTrips (pb : Protobuf) (message : JournalMessage) : Prop :=
  ∃ size bytes, journalMessageEncodeSize message = .returned size ∧
    journalMessageEncode pb message (intToSize size) = .returned bytes ∧
    journalMessageDecode pb bytes = .returned message

def journalEntryBytes (entry : JournalEntry) : Bytes :=
  Wire.varintField 1 .varint entry.timestamp.toNat ++ Wire.bytesField 2 .lengthDelimited entry.hash ++
    Wire.varintField 3 .varint entry.pin.toUInt64.toNat

def journalMessageBytes (message : JournalMessage) : Bytes :=
  Wire.varintField 1 .varint message.currentEpoch.toNat ++ Wire.varintField 2 .varint message.startEpoch.toNat ++
    Wire.varintField 3 .varint message.endEpoch.toNat ++
    message.journalEntries.flatMap fun entry => Wire.bytesField 4 .lengthDelimited (journalEntryBytes entry)

variable (pb : Protobuf)

/-! ## Entries -/

section
variable {entry : JournalEntry}

theorem journalEntryBytes_length (entry : JournalEntry) : (journalEntryBytes entry).length = entry.encodedLength := by
  have pin : (Leb128.encode entry.pin.toUInt64.toNat).length = 1 := by
    cases entry.pin <;> rfl
  simp only [journalEntryBytes, Wire.varintField, Wire.bytesField, List.length_append, Wire.tag_length,
    Nat.reduceLT, pin, JournalEntry.encodedLength, varintWidth]
  omega

theorem journalEntryEncodeSize_eq (small : entry.hash.length < 2 ^ 31) :
    journalEntryEncodeSize entry =
      if entry.hash.length + 23 < 2 ^ 31 then .returned ((entry.hash.length + 23 : Nat) : Int) else .fault .overflow := by
  rw [journalEntryEncodeSize, sizeToInt_of_lt small]
  have first := intAdd_natCast entry.hash.length 11
  have second := intAdd_natCast (entry.hash.length + 11) 1
  have third := intAdd_natCast (entry.hash.length + 12) 11
  rw [Nat.cast_ofNat] at first third
  rw [Nat.cast_one] at second
  rw [first]
  by_cases hash : entry.hash.length + 11 < 2 ^ 31
  · rw [if_pos hash, Outcome.returned_bind, second]
    by_cases pin : entry.hash.length + 12 < 2 ^ 31
    · rw [if_pos pin, Outcome.returned_bind, third]
    · rw [if_neg pin, if_neg (by omega)]
      rfl
  · rw [if_neg hash, if_neg (by omega)]
    rfl

theorem journalEntryEncode_size (small : entry.hash.length + 23 < 2 ^ 31) :
    journalEntryEncode pb entry (entry.hash.length + 23) = some (journalEntryBytes entry) := by
  have timestamp : varintWidth entry.timestamp.toNat ≤ 10 := Leb128.encode_length_le_ten entry.timestamp.toNat_lt
  have hash : varintWidth entry.hash.length ≤ 5 := Leb128.encode_length_le 4 _ (by omega)
  have fits : (journalEntryBytes entry).length ≤ entry.hash.length + 23 := by
    rw [journalEntryBytes_length, JournalEntry.encodedLength]
    omega
  rw [journalEntryEncode, if_neg (by omega)]
  simp only [pb.encodeVarint_eq, pb.encodeLengthDelimited_eq, Option.bind_eq_bind, Wire.fit_bind_append_bind,
    Wire.fit_bind_append]
  exact Wire.fit_of_le fits

theorem journalEntryDecode_journalEntryBytes (entry : JournalEntry) :
    journalEntryDecode pb (journalEntryBytes entry) = .returned entry := by
  have timestamp : Feeds pb journalEntryFields { out := {} } (Wire.varintField 1 .varint entry.timestamp.toNat)
      (.got { timestamp := entry.timestamp }) :=
    .varint (by decide) (by decide) rfl rfl
  have hash : Feeds pb journalEntryFields (.got { timestamp := entry.timestamp })
      (Wire.bytesField 2 .lengthDelimited entry.hash) (.got { timestamp := entry.timestamp, hash := entry.hash }) :=
    .lengthDelimited (by decide) (by decide) rfl rfl
  have pin : Feeds pb journalEntryFields (.got { timestamp := entry.timestamp, hash := entry.hash })
      (Wire.varintField 3 .varint entry.pin.toUInt64.toNat) (.got entry) :=
    .varint (by decide) (by decide) rfl (by obtain ⟨timestamp, pin, hash⟩ := entry; cases pin <;> rfl)
  rw [journalEntryDecode, journalEntryBytes, decodeFields_feeds ((timestamp.append hash).append pin)]
  rfl

end

/-! ## Messages -/

section
variable {message : JournalMessage}

theorem journalEncodeSize_foldlM (entries : List JournalEntry) (sz : Nat)
    (small : (entries.map fun entry => entry.hash.length).sum < 2 ^ 31) (started : sz < 2 ^ 31) :
    entries.foldlM (fun sz entry => do
      let size ← journalEntryEncodeSize entry
      intAdd sz size) (sz : Int) =
      if sz + (entries.map fun entry => entry.hash.length + 23).sum < 2 ^ 31 then
        .returned ((sz + (entries.map fun entry => entry.hash.length + 23).sum : Nat) : Int)
      else .fault .overflow := by
  induction entries generalizing sz with
  | nil => exact (if_pos started).symm
  | cons entry entries ih =>
      simp only [List.map_cons, List.sum_cons] at small ⊢
      rw [List.foldlM_cons, journalEntryEncodeSize_eq (by omega)]
      by_cases fits : entry.hash.length + 23 < 2 ^ 31
      · rw [if_pos fits, Outcome.returned_bind, intAdd_natCast]
        by_cases more : sz + (entry.hash.length + 23) < 2 ^ 31
        · rw [if_pos more, Outcome.returned_bind, ih _ (by omega) more, Nat.add_assoc]
        · rw [if_neg more, if_neg (by omega)]
          rfl
      · rw [if_neg fits, if_neg (by omega)]
        rfl

theorem journalMessageEncodeSize_eq (small : (message.journalEntries.map fun entry => entry.hash.length).sum < 2 ^ 31) :
    journalMessageEncodeSize message =
      if message.Estimable then
        .returned ((33 + (message.journalEntries.map fun entry => entry.hash.length + 23).sum : Nat) : Int)
      else .fault .overflow :=
  journalEncodeSize_foldlM message.journalEntries 33 small (by decide)

theorem journalEncodeEntries_eq (room : Nat) (out : Bytes) (entries : List JournalEntry)
    (small : ∀ entry ∈ entries, entry.hash.length + 23 < 2 ^ 31) :
    (Outcome.ofOption (Wire.fit room out) >>= fun out => journalEncodeEntries pb room out entries) =
      .ofOption (Wire.fit room (out ++ entries.flatMap fun entry =>
        Wire.bytesField 4 .lengthDelimited (journalEntryBytes entry))) := by
  induction entries generalizing out with
  | nil =>
      simp only [journalEncodeEntries, List.flatMap_nil, List.append_nil]
      exact bind_pure _
  | cons entry entries ih =>
      have first := small entry (by simp)
      have encode (out : Bytes) : journalEncodeEntries pb room out (entry :: entries) =
          Outcome.ofOption (Wire.append room out fun left =>
            Wire.fit left (Wire.bytesField 4 .lengthDelimited (journalEntryBytes entry))) >>= fun out =>
          journalEncodeEntries pb room out entries := by
        rw [journalEncodeEntries, journalEntryEncodeSize_eq (by omega), if_pos first, Outcome.returned_bind,
          intToSize_natCast (by omega), journalEntryEncode_size pb first, Outcome.ofOption_some, Outcome.returned_bind]
        simp only [pb.encodeLengthDelimited_eq]
      simp only [encode]
      rw [← bind_assoc, Outcome.ofOption_bind_ofOption, Wire.fit_bind_append,
        ih _ fun entry' mem => small entry' (by simp [mem]), List.flatMap_cons, List.append_assoc]

theorem journalMessageEncode_eq {room : Nat} (present : 0 < room)
    (small : ∀ entry ∈ message.journalEntries, entry.hash.length + 23 < 2 ^ 31) :
    journalMessageEncode pb message room = .ofOption (Wire.fit room (journalMessageBytes message)) := by
  rw [journalMessageBytes, ← journalEncodeEntries_eq pb room _ _ small, journalMessageEncode, if_neg (by omega),
    ← Wire.fit_bind_append, ← Wire.fit_bind_append, ← Outcome.ofOption_bind_ofOption, ← Outcome.ofOption_bind_ofOption]
  simp only [pb.encodeVarint_eq, bind_assoc]

def Collecting.add (s : Collecting JournalMessage) (entry : JournalEntry) : Collecting JournalMessage :=
  .got { s.out with journalEntries := s.out.journalEntries ++ [entry] }

theorem foldl_add (message : JournalMessage) (entries : List JournalEntry) :
    entries.foldl Collecting.add (.got message) =
      .got { message with journalEntries := message.journalEntries ++ entries } := by
  induction entries generalizing message with
  | nil => simp
  | cons entry entries ih =>
      rw [List.foldl_cons, Collecting.add, ih]
      simp [Collecting.got]

theorem journalMessageDecode_journalMessageBytes (message : JournalMessage) :
    journalMessageDecode pb (journalMessageBytes message) = .returned message := by
  obtain ⟨currentEpoch, startEpoch, endEpoch, journalEntries⟩ := message
  have current : Feeds pb (journalMessageFields pb) { out := {} } (Wire.varintField 1 .varint currentEpoch.toNat)
      (.got { currentEpoch }) :=
    .varint (by decide) (by decide) rfl rfl
  have start : Feeds pb (journalMessageFields pb) (.got { currentEpoch }) (Wire.varintField 2 .varint startEpoch.toNat)
      (.got { currentEpoch, startEpoch }) :=
    .varint (by decide) (by decide) rfl rfl
  have last : Feeds pb (journalMessageFields pb) (.got { currentEpoch, startEpoch })
      (Wire.varintField 3 .varint endEpoch.toNat) (.got { currentEpoch, startEpoch, endEpoch }) :=
    .varint (by decide) (by decide) rfl rfl
  have entry (entry : JournalEntry) (s : Collecting JournalMessage) : Feeds pb (journalMessageFields pb) s
      (Wire.bytesField 4 .lengthDelimited (journalEntryBytes entry)) (s.add entry) :=
    .uncheckedLengthDelimited (by decide) (by decide) rfl (by simp [journalEntryDecode_journalEntryBytes, Collecting.add])
  have entries := Feeds.flatMap _ _ journalEntries (.got { currentEpoch, startEpoch, endEpoch }) fun e _ => entry e
  rw [journalMessageDecode, journalMessageBytes, decodeFields_feeds (((current.append start).append last).append entries),
    foldl_add]
  rfl

theorem journalMessageBytes_length (message : JournalMessage) :
    (journalMessageBytes message).length + 18 * message.journalEntries.length =
      3 + varintWidth message.currentEpoch.toNat + varintWidth message.startEpoch.toNat +
        varintWidth message.endEpoch.toNat + (message.journalEntries.map JournalEntry.widths).sum +
        (message.journalEntries.map fun entry => entry.hash.length + 23).sum := by
  obtain ⟨currentEpoch, startEpoch, endEpoch, entries⟩ := message
  have fields : (entries.flatMap fun entry => Wire.bytesField 4 .lengthDelimited (journalEntryBytes entry)).length +
      18 * entries.length = (entries.map JournalEntry.widths).sum +
        (entries.map fun entry => entry.hash.length + 23).sum := by
    induction entries with
    | nil => rfl
    | cons entry entries ih =>
        have outer : (Wire.bytesField 4 .lengthDelimited (journalEntryBytes entry)).length =
            1 + varintWidth entry.encodedLength + entry.encodedLength := by
          simp only [Wire.bytesField, List.length_append, Wire.tag_length, Nat.reduceLT, journalEntryBytes_length,
            varintWidth]
          omega
        simp only [List.flatMap_cons, List.length_append, List.length_cons, List.map_cons, List.sum_cons, outer,
          JournalEntry.widths]
        rw [JournalEntry.encodedLength] at *
        omega
  simp only [journalMessageBytes, Wire.varintField, List.length_append, Wire.tag_length, Nat.reduceLT, varintWidth] at *
  omega

theorem journalMessageEncode_estimate (estimable : message.Estimable) :
    journalMessageEncode pb message (33 + (message.journalEntries.map fun entry => entry.hash.length + 23).sum) =
      if message.Narrow then .returned (journalMessageBytes message) else .failed := by
  have each : ∀ entry ∈ message.journalEntries, entry.hash.length + 23 < 2 ^ 31 := by
    intro entry mem
    have := List.single_le_sum (by simp) _ (List.mem_map_of_mem (f := fun entry => entry.hash.length + 23) mem)
    rw [JournalMessage.Estimable] at estimable
    omega
  have length := journalMessageBytes_length message
  rw [journalMessageEncode_eq pb (by omega) each]
  by_cases narrow : message.Narrow
  · have fits := narrow
    rw [JournalMessage.Narrow] at fits
    rw [if_pos narrow, Wire.fit_of_le (by omega), Outcome.ofOption_some]
  · have wide := narrow
    rw [JournalMessage.Narrow, not_le] at wide
    rw [if_neg narrow, Wire.fit_of_lt (by omega), Outcome.ofOption_none]

end

theorem journalMessage_roundTrips_iff (pb : Protobuf) (message : JournalMessage)
    (small : (message.journalEntries.map fun entry => entry.hash.length).sum < 2 ^ 31) :
    message.RoundTrips pb ↔ message.Estimable ∧ message.Narrow := by
  rw [JournalMessage.RoundTrips, journalMessageEncodeSize_eq small]
  by_cases estimable : message.Estimable
  · have estimate := journalMessageEncode_estimate pb estimable
    have size := intToSize_natCast (lt_trans estimable (by decide))
    rw [if_pos estimable]
    simp only [Outcome.returned.injEq, exists_and_left, exists_eq_left', size, estimate, estimable, true_and]
    by_cases narrow : message.Narrow
    · simp [narrow, journalMessageDecode_journalMessageBytes]
    · simp [narrow]
  · simp [estimable]

theorem journalMessage_roundTrips_single :
    JournalMessage.RoundTrips .standard
      { currentEpoch := 2, startEpoch := 3, endEpoch := 4, journalEntries := [{ timestamp := 1, pin := true, hash := [1] }] } :=
  (journalMessage_roundTrips_iff .standard _ (by decide)).mpr ⟨by decide, by decide⟩

theorem not_journalMessage_roundTrips_wide :
    ¬ ∀ (pb : Protobuf) (message : JournalMessage),
      (message.journalEntries.map fun entry => entry.hash.length).sum < 2 ^ 31 → message.RoundTrips pb := by
  intro claim
  let last : UInt64 := 18446744073709551615
  let entry : JournalEntry := { timestamp := last, hash := List.replicate (2 ^ 28) 0 }
  let message : JournalMessage := { currentEpoch := last, startEpoch := last, endEpoch := last, journalEntries := [entry] }
  have hash : entry.hash.length = 2 ^ 28 := List.length_replicate ..
  have small : (message.journalEntries.map fun entry => entry.hash.length).sum < 2 ^ 31 := by
    rw [List.map_singleton, List.sum_singleton, hash]
    decide
  have estimable : message.Estimable := by
    rw [JournalMessage.Estimable, List.map_singleton, List.sum_singleton, hash]
    decide
  have wide : ¬ message.Narrow := by
    have time : 10 ≤ varintWidth last.toNat := Leb128.le_encode_length 9 _ (by decide)
    have length : 5 ≤ varintWidth entry.hash.length := Leb128.le_encode_length 4 _ (by rw [hash]; decide)
    have wrapper : 5 ≤ varintWidth entry.encodedLength :=
      Leb128.le_encode_length 4 _ (by rw [JournalEntry.encodedLength, hash]; omega)
    rw [JournalMessage.Narrow, List.map_singleton, List.sum_singleton, JournalEntry.widths]
    show ¬ varintWidth last.toNat + varintWidth last.toNat + varintWidth last.toNat + (varintWidth last.toNat + _ + _) ≤ 30 + 18 * 1
    omega
  obtain ⟨size, bytes, sized, encoded, _⟩ := claim .standard message small
  rw [journalMessageEncodeSize_eq small, if_pos estimable, Outcome.returned.injEq] at sized
  rw [← sized, intToSize_natCast (lt_trans estimable (by decide)), journalMessageEncode_estimate .standard estimable,
    if_neg wide] at encoded
  cases encoded

end Ipfs
