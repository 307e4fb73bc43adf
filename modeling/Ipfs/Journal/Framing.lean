import Ipfs.Lib.Outcome
import Ipfs.Lib.Wire

/-!
# The segments of a journal message

The header line and the body are two writes, which may arrive as one segment or as two.
-/

namespace Ipfs

/-- "/ipfs/journalio/1.0.0" without the newline. -/
def journalProtocol : Bytes :=
  [0x2f, 0x69, 0x70, 0x66, 0x73, 0x2f, 0x6a, 0x6f, 0x75, 0x72, 0x6e, 0x61, 0x6c, 0x69, 0x6f, 0x2f, 0x31, 0x2e, 0x30,
   0x2e, 0x30]

def newline : UInt8 := 0x0a

def journalHeader : Bytes := journalProtocol ++ [newline]

inductive FramePosition
  | incoming (offset : Nat)
  -- the data of the message that was read, which may have been freed with it
  | read (freed : Bool)
  deriving DecidableEq

structure JournalFrame where
  incomingPos : FramePosition := .incoming 0
  posSize : Nat
  deriving DecidableEq

/-- The loop that removes the protocol, from an index on. The message that it reads is freed at the end of the
round; `freesData` is whether `libp2p_stream_message_free` frees the data too. -/
def journalFrameLoop (freesData readable : Bool) (dataSize : Nat) : Nat → Bytes → JournalFrame → Outcome JournalFrame
  | _, [], frame => .returned frame
  | i, byte :: bytes, frame =>
      if byte = newline then
        if i + 1 < dataSize then .returned { incomingPos := .incoming (i + 1), posSize := dataSize - i }
        -- read next segment from network
        else if readable then
          journalFrameLoop freesData readable dataSize (i + 1) bytes { frame with incomingPos := .read freesData }
        else .failed
      else journalFrameLoop freesData readable dataSize (i + 1) bytes frame

/-- What `ipfs_journal_handle_message` hands to the decoder: the memory from `incoming_pos` on, and the size. -/
def journalHandOver (freesData : Bool) (incoming : Bytes) (next : Option Bytes) : Outcome (Bytes × Nat) := do
  let frame ← journalFrameLoop freesData next.isSome incoming.length 0 incoming { posSize := incoming.length }
  match frame.incomingPos with
  | .incoming offset => pure (incoming.drop offset, frame.posSize)
  | .read true => .fault .released
  | .read false => do
      let data ← .access .nullPointer next
      pure (data, frame.posSize)

/-- How the body arrives behind the header line. -/
inductive BodyArrival
  | sameSegment
  | nextSegment
  deriving DecidableEq

def BodyArrival.handOver (arrival : BodyArrival) (freesData : Bool) (body : Bytes) : Outcome (Bytes × Nat) :=
  match arrival with
  | .sameSegment => journalHandOver freesData (journalHeader ++ body) none
  | .nextSegment => journalHandOver freesData journalHeader (some body)

theorem journalFrameLoop_protocol {freesData readable : Bool} {dataSize : Nat} {text : Bytes} (clean : newline ∉ text)
    (i : Nat) (bytes : Bytes) (frame : JournalFrame) :
    journalFrameLoop freesData readable dataSize i (text ++ bytes) frame =
      journalFrameLoop freesData readable dataSize (i + text.length) bytes frame := by
  induction text generalizing i with
  | nil => rfl
  | cons byte text ih =>
      rw [List.mem_cons, not_or] at clean
      rw [List.cons_append, journalFrameLoop, if_neg (Ne.symm clean.1), ih clean.2, List.length_cons]
      congr 1
      omega

theorem journalProtocol_clean : newline ∉ journalProtocol := by decide

theorem handOver_sameSegment (freesData : Bool) {body : Bytes} (nonempty : body ≠ []) :
    BodyArrival.sameSegment.handOver freesData body = .returned (body, body.length + 1) := by
  have positive := List.length_pos_of_ne_nil nonempty
  have size : (journalHeader ++ body).length = journalProtocol.length + (1 + body.length) := by
    simp only [journalHeader, List.length_append, List.length_singleton]
    omega
  have split : journalHeader ++ body = journalProtocol ++ newline :: body := by simp [journalHeader]
  have behind : (journalHeader ++ body).drop (journalProtocol.length + 1) = body :=
    List.drop_left' (by simp [journalHeader])
  rw [BodyArrival.handOver, journalHandOver, size]
  simp only [split] at behind ⊢
  rw [journalFrameLoop_protocol journalProtocol_clean, journalFrameLoop, if_pos rfl, if_pos (by omega)]
  simp only [Outcome.returned_bind, Nat.zero_add, behind, Outcome.pure_def, Outcome.returned.injEq, Prod.mk.injEq,
    true_and]
  omega

theorem handOver_empty (freesData : Bool) : BodyArrival.sameSegment.handOver freesData [] = .failed := by
  cases freesData <;> rfl

theorem handOver_nextSegment (freesData : Bool) (body : Bytes) :
    BodyArrival.nextSegment.handOver freesData body =
      if freesData then .fault .released else .returned (body, journalHeader.length) := by
  cases freesData <;> rfl

/-- The decoder gets the body only by chance: when it is the next segment, is as long as the header, and its
memory is still there. -/
theorem journalHandOver_exact_iff (arrival : BodyArrival) (freesData : Bool) (body : Bytes) :
    arrival.handOver freesData body = .returned (body, body.length) ↔
      arrival = .nextSegment ∧ freesData = false ∧ body.length = journalHeader.length := by
  cases arrival with
  | sameSegment =>
      simp only [reduceCtorEq, false_and, iff_false]
      by_cases empty : body = []
      · rw [empty, handOver_empty]
        nofun
      · rw [handOver_sameSegment freesData empty]
        simp
  | nextSegment =>
      rw [handOver_nextSegment]
      cases freesData with
      | true => simp
      | false => simp [eq_comm]

theorem not_journalHandOver_exact :
    BodyArrival.sameSegment.handOver true [8, 1] ≠ .returned ([8, 1], 2) ∧
      BodyArrival.nextSegment.handOver false [8, 1] ≠ .returned ([8, 1], 2) := by decide

end Ipfs
