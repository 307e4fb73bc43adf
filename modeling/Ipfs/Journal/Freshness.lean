import Ipfs.Journal.TimeMerge

/-!
# The freshness of a journal message

The times are unsigned and their difference is read as signed, so it goes round twice.
-/

namespace Ipfs

/-- `llabs`, which has no value to return for the least number. -/
def llabs (difference : Int64) : Outcome Int64 :=
  if difference = Int64.minValue then .fault .overflow else .returned difference.abs

def JournalMessage.ourTimeDiff (message : JournalMessage) (startTime : UInt64) : Int64 :=
  (startTime - message.currentEpoch).toInt64

variable {exchange : BlockExchange}

def journalApply (message : JournalMessage) (node : JournalNode exchange) : JournalNode exchange :=
  (journalBuildTodo node.datastore message).foldl journalPerformTodo node

/-- `ipfs_journal_handle_message`, from the bytes behind the protocol on. -/
def journalHandleMessage (pb : Protobuf) (startTime : UInt64) (incoming : Bytes) (node : JournalNode exchange) :
    Outcome (Int × JournalNode exchange) :=
  match journalMessageDecode pb incoming with
  | .failed => .returned (-1, node)
  | .fault cause => .fault cause
  | .returned message => do
      -- see if the remote's time is within 5 minutes of now
      let difference ← llabs (message.ourTimeDiff startTime)
      if difference > 300 then .returned (-1, node) else .returned (1, journalApply message node)

def JournalMessage.Within (message : JournalMessage) (startTime : UInt64) : Prop :=
  ((startTime.toNat : Int) - message.currentEpoch.toNat).natAbs ≤ 300

instance (message : JournalMessage) (startTime : UInt64) : Decidable (message.Within startTime) :=
  inferInstanceAs (Decidable (_ ≤ _))

def journalGated (message : JournalMessage) (startTime : UInt64) (node : JournalNode exchange) :
    Int × JournalNode exchange :=
  if message.Within startTime then (1, journalApply message node) else (-1, node)

theorem llabs_minValue : llabs Int64.minValue = .fault .overflow := if_pos rfl

theorem llabs_of_ne {difference : Int64} (ne : difference ≠ Int64.minValue) :
    llabs difference = .returned difference.abs := if_neg ne

theorem toInt_abs {difference : Int64} (ne : difference ≠ Int64.minValue) :
    difference.abs.toInt = difference.toInt.natAbs := by
  have bits : difference.toBitVec ≠ BitVec.intMin 64 := fun same => ne (Int64.toBitVec_inj.mp same)
  exact BitVec.toInt_abs_eq_natAbs.trans (if_neg bits)

theorem ourTimeDiff_toInt (message : JournalMessage) (startTime : UInt64) :
    (message.ourTimeDiff startTime).toInt =
      ((startTime.toNat : Int) - message.currentEpoch.toNat).bmod (2 ^ 64) := by
  have bits : (message.ourTimeDiff startTime).toBitVec = startTime.toBitVec - message.currentEpoch.toBitVec := rfl
  rw [Int64.toInt, bits, BitVec.toInt_sub, BitVec.toInt_eq_toNat_bmod, BitVec.toInt_eq_toNat_bmod, ← Int.sub_bmod]
  rfl

theorem ourTimeDiff_eq_minValue_iff {message : JournalMessage} {startTime : UInt64} (range : startTime.toNat < 2 ^ 63) :
    message.ourTimeDiff startTime = Int64.minValue ↔ message.currentEpoch.toNat = startTime.toNat + 2 ^ 63 := by
  have epoch := message.currentEpoch.toNat_lt
  rw [← Int64.toInt_inj, ourTimeDiff_toInt, Int.bmod_def]
  change _ = (-2 ^ 63 : Int) ↔ _
  split <;> omega

/-- The signed difference goes round for distant times only, where it stays above the bound as well. -/
theorem within_iff {message : JournalMessage} {startTime : UInt64} (late : 300 ≤ startTime.toNat)
    (range : startTime.toNat < 2 ^ 63) (ne : message.ourTimeDiff startTime ≠ Int64.minValue) :
    ¬ (message.ourTimeDiff startTime).abs > 300 ↔ message.Within startTime := by
  have epoch := message.currentEpoch.toNat_lt
  have apart := mt (ourTimeDiff_eq_minValue_iff range).mpr ne
  have bound : (300 : Int64).toInt = 300 := rfl
  rw [gt_iff_lt, Int64.lt_iff_toInt_lt, toInt_abs ne, bound, ourTimeDiff_toInt, Int.bmod_def, JournalMessage.Within]
  split <;> omega

theorem journalHandleMessage_decoded {pb : Protobuf} {startTime : UInt64} {incoming : Bytes} {message : JournalMessage}
    (decoded : journalMessageDecode pb incoming = .returned message) (late : 300 ≤ startTime.toNat)
    (range : startTime.toNat < 2 ^ 63) (node : JournalNode exchange) :
    journalHandleMessage pb startTime incoming node =
      if message.currentEpoch.toNat = startTime.toNat + 2 ^ 63 then .fault .overflow
      else .returned (journalGated message startTime node) := by
  rw [journalHandleMessage, decoded]
  by_cases opposite : message.ourTimeDiff startTime = Int64.minValue
  · rw [if_pos ((ourTimeDiff_eq_minValue_iff range).mp opposite)]
    simp only [opposite, llabs_minValue, Outcome.fault_bind]
  · rw [if_neg (mt (ourTimeDiff_eq_minValue_iff range).mpr opposite), journalGated]
    simp only [llabs_of_ne opposite, Outcome.returned_bind]
    have fresh := within_iff late range opposite
    by_cases within : message.Within startTime
    · rw [if_neg (fresh.mpr within), if_pos within]
    · rw [if_pos (not_not.mp (mt fresh.mp within)), if_neg within]

/-- The gate is right on both sides of both ends of the range, and undefined where the times are half the range
apart. -/
theorem journalHandleMessage_gate_iff (pb : Protobuf) (startTime : UInt64) (late : 300 ≤ startTime.toNat)
    (range : startTime.toNat < 2 ^ 63) (incoming : Bytes) (message : JournalMessage)
    (decoded : journalMessageDecode pb incoming = .returned message) (node : JournalNode exchange) :
    journalHandleMessage pb startTime incoming node = .returned (journalGated message startTime node) ↔
      message.currentEpoch.toNat ≠ startTime.toNat + 2 ^ 63 := by
  rw [journalHandleMessage_decoded decoded late range]
  by_cases opposite : message.currentEpoch.toNat = startTime.toNat + 2 ^ 63
  · simp [opposite]
  · rw [if_neg opposite]
    exact iff_of_true rfl opposite

/-- A peer whose clock is 2^64 - 1: the difference goes round to a small one, and to a large one. -/
theorem journalHandleMessage_gate_round :
    journalHandleMessage .standard 300 [0x08, 0xff, 0xff, 0xff, 0xff, 0xff, 0xff, 0xff, 0xff, 0xff, 0x01]
        (⟨singleRecord, []⟩ : JournalNode wantingExchange) =
      .returned (-1, ⟨singleRecord, []⟩) :=
  (journalHandleMessage_gate_iff .standard 300 (by decide) (by decide) _ { currentEpoch := 0xffffffffffffffff }
    (by decide) _).mpr (by decide)

def oppositeMessage : JournalMessage := { currentEpoch := 0x800000000000012c }

def oppositeIncoming : Bytes := [0x08, 0xac, 0x82, 0x80, 0x80, 0x80, 0x80, 0x80, 0x80, 0x80, 0x01]

theorem not_journalHandleMessage_gate :
    journalMessageDecode .standard oppositeIncoming = .returned oppositeMessage ∧
      journalHandleMessage .standard 300 oppositeIncoming (⟨singleRecord, []⟩ : JournalNode wantingExchange) ≠
        .returned (journalGated oppositeMessage 300 ⟨singleRecord, []⟩) := by
  have decoded : journalMessageDecode .standard oppositeIncoming = .returned oppositeMessage := by decide
  refine ⟨decoded, ?_⟩
  rw [journalHandleMessage_decoded decoded (by decide) (by decide), if_pos (by decide)]
  simp

/-- The handler of the merging agrees where the difference has an absolute value. -/
theorem journalHandleMessage_eq_journalHandleDecoded {pb : Protobuf} {startTime : UInt64} {incoming : Bytes}
    {message : JournalMessage} (decoded : journalMessageDecode pb incoming = .returned message)
    (ne : message.ourTimeDiff startTime ≠ Int64.minValue) (node : JournalNode exchange) :
    journalHandleMessage pb startTime incoming node = .returned (journalHandleDecoded startTime message node) := by
  have bound : (300 : Int64).toInt = 300 := rfl
  have fresh : ¬ (message.ourTimeDiff startTime).abs > 300 ↔ message.FreshAt startTime := by
    rw [gt_iff_lt, Int64.lt_iff_toInt_lt, toInt_abs ne, bound, JournalMessage.FreshAt, ← JournalMessage.ourTimeDiff]
    omega
  rw [journalHandleMessage, decoded, journalHandleDecoded]
  simp only [llabs_of_ne ne, Outcome.returned_bind]
  by_cases held : message.FreshAt startTime
  · rw [if_neg (fresh.mpr held), if_pos held, journalApply]
  · rw [if_pos (not_not.mp (mt fresh.mp held)), if_neg held]

end Ipfs
