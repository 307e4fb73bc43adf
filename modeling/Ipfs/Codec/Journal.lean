import Ipfs.Lib.Conversion
import Ipfs.Protobuf.Scan

namespace Ipfs

/-- `struct JournalEntry`. -/
structure JournalEntry where
  timestamp : UInt64 := 0
  pin : Bool := false
  hash : Bytes := []
  deriving DecidableEq

/-- `struct JournalMessage`. -/
structure JournalMessage where
  currentEpoch : UInt64 := 0
  startEpoch : UInt64 := 0
  endEpoch : UInt64 := 0
  journalEntries : List JournalEntry := []
  deriving DecidableEq

/-! ## Encoding -/

def journalEntryEncodeSize (entry : JournalEntry) : Outcome Int := do
  let retVal ← Conversion.intAdd (Conversion.sizeToInt entry.hash.length) 11
  -- pin
  let retVal ← Conversion.intAdd retVal 1
  Conversion.intAdd retVal 11

def journalEntryEncode (pb : Protobuf) (entry : JournalEntry) (maxBufferSize : Nat) : Option Bytes :=
  if maxBufferSize = 0 then none
  else do
    let out ← pb.encodeVarint 1 .varint entry.timestamp maxBufferSize
    let out ← Wire.append maxBufferSize out fun left => pb.encodeLengthDelimited 2 .lengthDelimited entry.hash left
    Wire.append maxBufferSize out fun left => pb.encodeVarint 3 .varint entry.pin.toUInt64 left

/-- The maximum size of a message, as the comment says: three epochs and the entries. -/
def journalMessageEncodeSize (message : JournalMessage) : Outcome Int :=
  message.journalEntries.foldlM (fun sz entry => do
    let size ← journalEntryEncodeSize entry
    Conversion.intAdd sz size) 33

def journalEncodeEntries (pb : Protobuf) (maxBufferSize : Nat) : Bytes → List JournalEntry → Outcome Bytes
  | out, [] => .returned out
  | out, entry :: entries => do
      let tempSize ← journalEntryEncodeSize entry
      let temp ← .ofOption (journalEntryEncode pb entry (Conversion.intToSize tempSize))
      let out ← .ofOption (Wire.append maxBufferSize out fun left =>
        pb.encodeLengthDelimited 4 .lengthDelimited temp left)
      journalEncodeEntries pb maxBufferSize out entries

def journalMessageEncode (pb : Protobuf) (message : JournalMessage) (maxBufferSize : Nat) : Outcome Bytes :=
  if maxBufferSize = 0 then .failed
  else do
    let out ← .ofOption (pb.encodeVarint 1 .varint message.currentEpoch maxBufferSize)
    let out ← .ofOption (Wire.append maxBufferSize out fun left =>
      pb.encodeVarint 2 .varint message.startEpoch left)
    let out ← .ofOption (Wire.append maxBufferSize out fun left =>
      pb.encodeVarint 3 .varint message.endEpoch left)
    journalEncodeEntries pb maxBufferSize out message.journalEntries

/-! ## Decoding -/

structure Collecting (α : Type) where
  out : α
  gotSomething : Bool := false

namespace Collecting
variable {α : Type}

def got (out : α) : Collecting α := { out, gotSomething := true }

def result (s : Collecting α) : Outcome α := if s.gotSomething then .returned s.out else .failed

theorem result_eq_returned {s : Collecting α} {out : α} (done : s.result = .returned out) : s.out = out := by
  rw [result] at done
  split at done
  · exact Outcome.returned.inj done
  · cases done

end Collecting

def journalEntryFields : Nat → Option (Field (Collecting JournalEntry))
  | 1 => some (.varint fun s timestamp => .got { s.out with timestamp })
  | 2 => some (.lengthDelimited fun s hash => .returned (.got { s.out with hash }))
  | 3 => some (.varint fun s temp => .got { s.out with pin := temp = 1 })
  | _ => none

def journalEntryDecode (pb : Protobuf) (incoming : Bytes) : Outcome JournalEntry := do
  let s ← (decodeFields pb journalEntryFields incoming { out := {} }).result
  s.result

def journalMessageFields (pb : Protobuf) : Nat → Option (Field (Collecting JournalMessage))
  | 1 => some (.varint fun s currentEpoch => .got { s.out with currentEpoch })
  | 2 => some (.varint fun s startEpoch => .got { s.out with startEpoch })
  | 3 => some (.varint fun s endEpoch => .got { s.out with endEpoch })
  | 4 => some (.uncheckedLengthDelimited fun s temp => do
      let entry ← journalEntryDecode pb temp
      pure (.got { s.out with journalEntries := s.out.journalEntries ++ [entry] }))
  | _ => none

def journalMessageDecode (pb : Protobuf) (incoming : Bytes) : Outcome JournalMessage := do
  let s ← (decodeFields pb (journalMessageFields pb) incoming { out := {} }).result
  s.result

end Ipfs
