import Ipfs.Bitswap.Network

/-!
# What a peer wants

The loop over the entries of a peer does not get past the first one.
-/

namespace Ipfs

def CidEntry.isFor (cid : Cid) (entry : CidEntry) : Bool := cidCompare (some entry.cid) (some cid) = 0

/-- The entry for the Cid is there once and live, or it is gone; the others stay as they are. -/
structure CidQueueAdjusted (cid : Cid) (cancel : UInt8) (collection result : List CidEntry) : Prop where
  wanted : cancel = 0 → result.countP (fun entry => entry.isFor cid && !entry.cancel) = 1
  cancelled : cancel ≠ 0 → ∀ entry ∈ result, entry.isFor cid = false
  others : result.filter (fun entry => !entry.isFor cid) = collection.filter fun entry => !entry.isFor cid

/-- The update is right on an empty list, and when the first entry is for the Cid: with one live entry for it
if it is wanted, with no other entry for it if it is not. -/
theorem networkAdjustCidQueue_adjusted_iff (collection : List CidEntry) (cid : Cid) (cancel : UInt8) :
    (∃ result, networkAdjustCidQueue collection cid cancel = .returned result ∧
        CidQueueAdjusted cid cancel collection result) ↔
      collection = [] ∨ ∃ current rest, collection = current :: rest ∧ current.isFor cid ∧
        if cancel = 0 then collection.countP (fun entry => entry.isFor cid && !entry.cancel) = 1
        else ∀ entry ∈ rest, entry.isFor cid = false := by
  cases collection with
  | nil =>
      refine iff_of_true ⟨if cancel = 0 then [{ cid }] else [], rfl, ?_⟩ (.inl rfl)
      have own : ({ cid } : CidEntry).isFor cid := by simp [CidEntry.isFor, cidCompare_self]
      by_cases wanted : cancel = 0
      · exact ⟨by simp [wanted, own], fun cancelled => absurd wanted cancelled, by simp [wanted, own]⟩
      · exact ⟨fun zero => absurd zero wanted, by simp [wanted], by simp [wanted]⟩
  | cons current rest =>
      simp only [networkAdjustCidQueue, reduceCtorEq, false_or, List.cons.injEq]
      by_cases first : current.isFor cid
      · have same : cidCompare (some current.cid) (some cid) = 0 := by simpa [CidEntry.isFor] using first
        rw [if_pos same]
        by_cases wanted : cancel = 0
        · simp only [wanted, if_true, Outcome.returned.injEq, exists_eq_left']
          constructor
          · exact fun adjusted => ⟨current, rest, ⟨rfl, rfl⟩, first, adjusted.wanted rfl⟩
          · rintro ⟨_, _, _, _, once⟩
            exact ⟨fun _ => once, fun other => absurd rfl other, rfl⟩
        · simp only [wanted, if_false, Outcome.returned.injEq, exists_eq_left']
          constructor
          · exact fun adjusted => ⟨current, rest, ⟨rfl, rfl⟩, first, adjusted.cancelled wanted⟩
          · rintro ⟨_, _, ⟨rfl, rfl⟩, _, gone⟩
            exact ⟨fun zero => absurd zero wanted, fun _ => gone, by simp [first]⟩
      · have other : cidCompare (some current.cid) (some cid) ≠ 0 := by simpa [CidEntry.isFor] using first
        rw [if_neg other]
        constructor
        · rintro ⟨_, faults, _⟩
          cases faults
        · rintro ⟨_, _, ⟨rfl, rfl⟩, isFor, _⟩
          exact absurd isFor first

/-- A Cid that was served and is wanted again, and one behind another. -/
theorem not_networkAdjustCidQueue_adjusted_served :
    (¬ ∃ result, networkAdjustCidQueue [{ cid := ⟨0, 0x70, [1]⟩, cancel := true }] ⟨0, 0x70, [1]⟩ 0 = .returned result ∧
        CidQueueAdjusted ⟨0, 0x70, [1]⟩ 0 [{ cid := ⟨0, 0x70, [1]⟩, cancel := true }] result) ∧
      networkAdjustCidQueue [{ cid := ⟨0, 0x70, [1]⟩ }, { cid := ⟨0, 0x70, [2]⟩ }] ⟨0, 0x70, [2]⟩ 1 =
        .fault .outOfBounds := by
  refine ⟨?_, by decide⟩
  rintro ⟨result, returned, adjusted⟩
  have kept : networkAdjustCidQueue [{ cid := ⟨0, 0x70, [1]⟩, cancel := true }] ⟨0, 0x70, [1]⟩ 0 =
      .returned [{ cid := ⟨0, 0x70, [1]⟩, cancel := true }] := by decide
  obtain rfl := Outcome.returned.inj (kept.symm.trans returned)
  exact absurd (adjusted.wanted rfl) (by decide)

end Ipfs
