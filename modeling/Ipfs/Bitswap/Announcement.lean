import Ipfs.Bitswap.PeerRequest
import Ipfs.Lib.Run

/-!
# What a peer is told of our wants

Each want and each cancel goes into one message, and there is work to do exactly when the next message
will tell something.
-/

namespace Ipfs

def CidEntry.Pending (entry : CidEntry) : Prop :=
  (entry.cancel ∧ entry.cancelHasBeenSent = false) ∨ (entry.cancel = false ∧ entry.requestHasBeenSent = false)

instance (entry : CidEntry) : Decidable entry.Pending := inferInstanceAs (Decidable (_ ∨ _))

def CidEntry.announce (entry : CidEntry) : CidEntry :=
  if entry.cancel then { entry with cancelHasBeenSent := true } else { entry with requestHasBeenSent := true }

/-- The hash length is a `size_t`. -/
def CidEntry.Sized (entry : CidEntry) : Prop := entry.cid.hash.length < 2 ^ 64

def CidEntry.item (entry : CidEntry) : WantlistEntry :=
  { block := some (cidBytes entry.cid), priority := some 1, cancel := some (if entry.cancel then 1 else 0) }

theorem CidEntry.announce_not_pending (entry : CidEntry) : ¬ entry.announce.Pending := by
  obtain ⟨cid, cancel, cancelSent, requestSent⟩ := entry
  cases cancel <;> simp [CidEntry.announce, CidEntry.Pending]

def CidEntry.told (entry : CidEntry) : CidEntry := if entry.Pending then entry.announce else entry

theorem CidEntry.told_not_pending (entry : CidEntry) : ¬ entry.told.Pending := by
  rw [CidEntry.told]
  split
  · exact entry.announce_not_pending
  · assumption

theorem CidEntry.told_cases (entry : CidEntry) :
    entry.told = entry ∨ entry.told = { entry with cancelHasBeenSent := true } ∨
      entry.told = { entry with requestHasBeenSent := true } := by
  rw [CidEntry.told, CidEntry.announce]
  split_ifs <;> simp

theorem CidEntry.told_cid (entry : CidEntry) : entry.told.cid = entry.cid := by
  rcases entry.told_cases with same | same | same <;> rw [same]

theorem CidEntry.told_cancel (entry : CidEntry) : entry.told.cancel = entry.cancel := by
  rcases entry.told_cases with same | same | same <;> rw [same]

theorem CidEntry.told_requests {entry : CidEntry} (sent : entry.requestHasBeenSent) : entry.told.requestHasBeenSent := by
  rcases entry.told_cases with same | same | same <;> simp [same, sent]

theorem CidEntry.told_cancels {entry : CidEntry} (sent : entry.cancelHasBeenSent) : entry.told.cancelHasBeenSent := by
  rcases entry.told_cases with same | same | same <;> simp [same, sent]

theorem peerRequestWeWantCids_iff (cids : List CidEntry) :
    peerRequestWeWantCids cids ↔ ∃ entry ∈ cids, entry.Pending := by
  simp [peerRequestWeWantCids, CidEntry.Pending]

section
variable (pb : Protobuf)

theorem wantlistItems_cons_pending {entry : CidEntry} (i : Nat) (cids : List CidEntry) (pending : entry.Pending)
    (sized : entry.Sized) :
    wantlistItems pb i (entry :: cids) =
      ⟨entry.announce :: (wantlistItems pb (i + 1) cids).cids, (i, entry.item) :: (wantlistItems pb (i + 1) cids).entries,
        (wantlistItems pb (i + 1) cids).complete⟩ := by
  have told : ((entry.cancel && entry.cancelHasBeenSent) || (!entry.cancel && entry.requestHasBeenSent)) = false := by
    rcases pending with ⟨cancel, unsent⟩ | ⟨cancel, unsent⟩ <;> simp [cancel, unsent]
  rw [wantlistItems, told, cidProtobufEncode_some, Wire.fit_of_le (cidBytes_length_le entry.cid sized)]
  rfl

theorem wantlistItems_cons_told {entry : CidEntry} (i : Nat) (cids : List CidEntry) (told : ¬ entry.Pending) :
    wantlistItems pb i (entry :: cids) =
      ⟨entry :: (wantlistItems pb (i + 1) cids).cids, (wantlistItems pb (i + 1) cids).entries,
        (wantlistItems pb (i + 1) cids).complete⟩ := by
  have sent : ((entry.cancel && entry.cancelHasBeenSent) || (!entry.cancel && entry.requestHasBeenSent)) = true := by
    obtain ⟨cid, cancel, cancelSent, requestSent⟩ := entry
    cases cancel <;> simpa [CidEntry.Pending] using told
  rw [wantlistItems, sent, if_pos rfl]

theorem wantlistItems_eq (i : Nat) (cids : List CidEntry) (sized : ∀ entry ∈ cids, entry.Sized) :
    wantlistItems pb i cids =
      ⟨cids.map CidEntry.told,
        (cids.zipIdx i).filterMap fun (entry, j) => if entry.Pending then some (j, entry.item) else none, true⟩ := by
  induction cids generalizing i with
  | nil => rfl
  | cons entry cids ih =>
      have rest := ih (i + 1) fun entry' mem => sized entry' (by simp [mem])
      by_cases pending : entry.Pending
      · rw [wantlistItems_cons_pending pb i cids pending (sized entry (by simp)), rest]
        simp [pending, CidEntry.told]
      · rw [wantlistItems_cons_told pb i cids pending, rest]
        simp [pending, CidEntry.told]

theorem wantlistItems_told (i : Nat) (cids : List CidEntry) (told : ∀ entry ∈ cids, ¬ entry.Pending) :
    wantlistItems pb i cids = ⟨cids, [], true⟩ := by
  induction cids generalizing i with
  | nil => rfl
  | cons entry cids ih =>
      rw [wantlistItems_cons_told pb i cids (told entry (by simp)), ih (i + 1) fun entry' mem => told entry' (by simp [mem])]

theorem wantlistItems_entries_eq_nil (cids : List CidEntry) (sized : ∀ entry ∈ cids, entry.Sized) :
    (wantlistItems pb 0 cids).entries = [] ↔ ∀ entry ∈ cids, ¬ entry.Pending := by
  constructor
  · intro none entry mem pending
    obtain ⟨i, here⟩ := List.mem_iff_getElem?.mp mem
    have item : (i, entry.item) ∈ (wantlistItems pb 0 cids).entries := by
      rw [wantlistItems_eq pb 0 cids sized]
      refine List.mem_filterMap.mpr ⟨(entry, i), List.mem_zipIdx_iff_getElem?.mpr here, ?_⟩
      simp only [pending, if_true]
    simp [none] at item
  · intro told
    rw [wantlistItems_told pb 0 cids told]

def BitswapMessage.listed (message : BitswapMessage) : List (Option WantlistEntry) :=
  (message.wantlist.bind BitswapWantlist.entries).getD []

theorem messageAddWantlistItems_listed (message : BitswapMessage) (cids : List CidEntry) :
    (messageAddWantlistItems pb message cids).2.1.listed =
      message.listed ++ (wantlistItems pb 0 cids).entries.map fun (_, entry) => some entry := by
  cases present : message.wantlist <;> simp [messageAddWantlistItems, BitswapMessage.listed, present]

end

/-! ## Runs -/

inductive WantCall
  | add (cid : Cid) (sized : cid.hash.length < 2 ^ 64)
  | cancel (i : Nat)
  | build

structure Announcing where
  cidsWeWant : List CidEntry := []
  -- all that the messages said so far, with the place of the CidEntry
  produced : List (Nat × WantlistEntry) := []

def WantCall.perform (pb : Protobuf) (s : Announcing) : WantCall → Announcing
  | .add cid _ => { s with cidsWeWant := s.cidsWeWant ++ [{ cid }] }
  | .cancel i => { s with cidsWeWant := s.cidsWeWant.modify i ({ · with cancel := true }) }
  | .build =>
      { cidsWeWant := (messageAddWantlistItems pb {} s.cidsWeWant).2.2
        produced := s.produced ++ (wantlistItems pb 0 s.cidsWeWant).entries }

def Announcing.run (pb : Protobuf) (s : Announcing) (calls : List WantCall) : Announcing :=
  calls.foldl (WantCall.perform pb) s

def Announcing.told (s : Announcing) : List (Nat × Option UInt8) :=
  s.produced.map fun (i, entry) => (i, entry.cancel)

def Revived (first second : Nat × Option UInt8) : Prop :=
  first.1 = second.1 ∧ first.2 = some 1 ∧ second.2 = some 0

def announcements (cids : List CidEntry) : List (Nat × Option UInt8) :=
  cids.zipIdx.filterMap fun (entry, i) =>
    if entry.Pending then some (i, some (if entry.cancel then 1 else 0)) else none

theorem mem_announcements {cids : List CidEntry} {i : Nat} {cancel : Option UInt8} :
    (i, cancel) ∈ announcements cids ↔
      ∃ entry, cids[i]? = some entry ∧ entry.Pending ∧ cancel = some (if entry.cancel then 1 else 0) := by
  simp only [announcements, List.mem_filterMap, Option.ite_none_right_eq_some, Option.some.injEq, Prod.mk.injEq]
  constructor
  · rintro ⟨⟨entry, j⟩, mem, pending, rfl, rfl⟩
    exact ⟨entry, List.mem_zipIdx_iff_getElem?.mp mem, pending, rfl⟩
  · rintro ⟨entry, here, pending, rfl⟩
    exact ⟨(entry, i), List.mem_zipIdx_iff_getElem?.mpr here, pending, rfl, rfl⟩

theorem announcements_places (cids : List CidEntry) : (announcements cids).Pairwise fun a b => a.1 ≠ b.1 := by
  have places : cids.zipIdx.Pairwise fun a b => a.2 ≠ b.2 := by
    rw [← List.pairwise_map (f := Prod.snd) (R := (· ≠ ·)), List.zipIdx_map_snd]
    exact List.nodup_range'
  rw [announcements, List.pairwise_filterMap]
  refine places.imp fun {a b} apart first isFirst second isSecond => ?_
  simp only [Option.ite_none_right_eq_some, Option.some.injEq] at isFirst isSecond
  obtain ⟨_, rfl⟩ := isFirst
  obtain ⟨_, rfl⟩ := isSecond
  exact apart

structure Announcing.Consistent (s : Announcing) : Prop where
  sized : ∀ entry ∈ s.cidsWeWant, entry.Sized
  requests : ∀ i, (i, some 0) ∈ s.told → ∃ entry, s.cidsWeWant[i]? = some entry ∧ entry.requestHasBeenSent
  cancels : ∀ i, (i, some 1) ∈ s.told →
    ∃ entry, s.cidsWeWant[i]? = some entry ∧ entry.cancel ∧ entry.cancelHasBeenSent
  once : s.told.Nodup
  order : s.told.Pairwise fun first second => ¬ Revived first second

/-- Nothing that was said about an entry is taken back. -/
structure CidEntry.Advances (entry entry' : CidEntry) : Prop where
  requested : entry.requestHasBeenSent → entry'.requestHasBeenSent
  cancelled : entry.cancel → entry'.cancel
  cancelSent : entry.cancelHasBeenSent → entry'.cancelHasBeenSent

theorem CidEntry.told_advances (entry : CidEntry) : entry.Advances entry.told where
  requested := CidEntry.told_requests
  cancelled cancel := entry.told_cancel.trans cancel
  cancelSent := CidEntry.told_cancels

/-- What a message announces, the list records. -/
theorem announced_told {cids : List CidEntry} {i : Nat} {cancel : Option UInt8} (now : (i, cancel) ∈ announcements cids) :
    ∃ entry, (cids.map CidEntry.told)[i]? = some entry ∧ (cancel = some 0 → entry.requestHasBeenSent) ∧
      (cancel = some 1 → entry.cancel ∧ entry.cancelHasBeenSent) := by
  obtain ⟨entry, here, pending, rfl⟩ := mem_announcements.mp now
  refine ⟨entry.told, by rw [List.getElem?_map, here]; rfl, ?_⟩
  cases cancelled : entry.cancel with
  | false => simp [CidEntry.told, pending, CidEntry.announce, cancelled]
  | true => simp [CidEntry.told, pending, CidEntry.announce, cancelled]

namespace Announcing.Consistent
variable {s : Announcing} (consistent : s.Consistent)
include consistent

theorem carry {cids' : List CidEntry} (sized : ∀ entry ∈ cids', entry.Sized)
    (advances : ∀ (i : Nat) (entry : CidEntry), s.cidsWeWant[i]? = some entry →
      ∃ entry', cids'[i]? = some entry' ∧ entry.Advances entry') :
    Announcing.Consistent { s with cidsWeWant := cids' } where
  sized := sized
  requests i said := by
    obtain ⟨entry, here, sent⟩ := consistent.requests i said
    obtain ⟨entry', here', advanced⟩ := advances i entry here
    exact ⟨entry', here', advanced.requested sent⟩
  cancels i said := by
    obtain ⟨entry, here, cancelled, sent⟩ := consistent.cancels i said
    obtain ⟨entry', here', advanced⟩ := advances i entry here
    exact ⟨entry', here', advanced.cancelled cancelled, advanced.cancelSent sent⟩
  once := consistent.once
  order := consistent.order

theorem fresh {item : Nat × Option UInt8} (now : item ∈ announcements s.cidsWeWant) : item ∉ s.told := by
  intro before
  obtain ⟨i, cancel⟩ := item
  obtain ⟨entry, here, pending, rfl⟩ := mem_announcements.mp now
  rcases pending with ⟨cancelled, unsent⟩ | ⟨live, unsent⟩
  · rw [cancelled] at before
    obtain ⟨entry', here', _, sent⟩ := consistent.cancels i before
    obtain rfl := Option.some.inj (here.symm.trans here')
    simp [unsent] at sent
  · rw [live] at before
    obtain ⟨entry', here', sent⟩ := consistent.requests i before
    obtain rfl := Option.some.inj (here.symm.trans here')
    simp [unsent] at sent

theorem not_revived {first second : Nat × Option UInt8} (before : first ∈ s.told)
    (now : second ∈ announcements s.cidsWeWant) : ¬ Revived first second := by
  obtain ⟨i, cancel⟩ := first
  obtain ⟨j, cancel'⟩ := second
  rintro ⟨rfl, rfl, rfl⟩
  obtain ⟨entry, here, pending, live⟩ := mem_announcements.mp now
  obtain ⟨entry', here', cancelled, _⟩ := consistent.cancels i before
  obtain rfl := Option.some.inj (here.symm.trans here')
  simp [cancelled] at live

theorem perform_add {pb : Protobuf} (cid : Cid) (short : cid.hash.length < 2 ^ 64) :
    (WantCall.perform pb s (.add cid short)).Consistent := by
  apply consistent.carry
  · simp only [List.mem_append, List.mem_singleton]
    rintro entry (old | rfl)
    · exact consistent.sized entry old
    · exact short
  · intro i entry here
    exact ⟨entry, (List.getElem?_append_left (List.getElem?_eq_some_iff.mp here).1).trans here, id, id, id⟩

theorem perform_cancel {pb : Protobuf} (j : Nat) : (WantCall.perform pb s (.cancel j)).Consistent := by
  have at' (i : Nat) : (s.cidsWeWant.modify j ({ · with cancel := true }))[i]? =
      s.cidsWeWant[i]?.map fun entry => if j = i then { entry with cancel := true } else entry := by
    rw [List.getElem?_modify]
    by_cases same : j = i <;> simp [same]
  apply consistent.carry
  · intro entry mem
    obtain ⟨i, here⟩ := List.mem_iff_getElem?.mp mem
    rw [at', Option.map_eq_some_iff] at here
    obtain ⟨entry', here, rfl⟩ := here
    have short := consistent.sized entry' (List.mem_of_getElem? here)
    split <;> exact short
  · intro i entry here
    refine ⟨_, (at' i).trans (by rw [here]; rfl), ?_⟩
    split
    · exact ⟨id, fun _ => rfl, id⟩
    · exact ⟨id, id, id⟩

theorem perform_build {pb : Protobuf} : (WantCall.perform pb s .build).Consistent := by
  have items := wantlistItems_eq pb 0 s.cidsWeWant consistent.sized
  have cids : (WantCall.perform pb s .build).cidsWeWant = s.cidsWeWant.map CidEntry.told := by
    simp [WantCall.perform, messageAddWantlistItems, items]
  have told : (WantCall.perform pb s .build).told = s.told ++ announcements s.cidsWeWant := by
    simp only [Announcing.told, WantCall.perform, items, List.map_append, List.map_filterMap, announcements]
    congr 2
    funext place
    obtain ⟨entry, i⟩ := place
    by_cases pending : entry.Pending <;> simp [pending, CidEntry.item]
  have carried : Announcing.Consistent { s with cidsWeWant := s.cidsWeWant.map CidEntry.told } := by
    apply consistent.carry
    · simp only [List.forall_mem_map, CidEntry.Sized, CidEntry.told_cid]
      exact consistent.sized
    · intro i entry here
      exact ⟨entry.told, by rw [List.getElem?_map, here]; rfl, entry.told_advances⟩
  constructor
  · rw [cids]
    exact carried.sized
  · intro i said
    rw [told, List.mem_append] at said
    rw [cids]
    rcases said with before | now
    · exact carried.requests i before
    · obtain ⟨entry, here, requested, _⟩ := announced_told now
      exact ⟨entry, here, requested rfl⟩
  · intro i said
    rw [told, List.mem_append] at said
    rw [cids]
    rcases said with before | now
    · exact carried.cancels i before
    · obtain ⟨entry, here, _, cancelled⟩ := announced_told now
      exact ⟨entry, here, cancelled rfl⟩
  · rw [told, List.nodup_append]
    refine ⟨consistent.once, ?_, ?_⟩
    · exact (announcements_places s.cidsWeWant).imp fun {a b} apart same => apart (congrArg Prod.fst same)
    · rintro item before _ now rfl
      exact consistent.fresh now before
  · rw [told, List.pairwise_append]
    refine ⟨consistent.order, ?_, fun first before second now => consistent.not_revived before now⟩
    exact (announcements_places s.cidsWeWant).imp fun apart revived => apart revived.1

theorem perform {pb : Protobuf} (call : WantCall) : (call.perform pb s).Consistent := by
  cases call with
  | add cid short => exact consistent.perform_add cid short
  | cancel j => exact consistent.perform_cancel j
  | build => exact consistent.perform_build

end Announcing.Consistent

theorem Announcing.Consistent.run {pb : Protobuf} {s : Announcing} (consistent : s.Consistent) (calls : List WantCall) :
    (s.run pb calls).Consistent := by
  induction calls generalizing s with
  | nil => exact consistent
  | cons call calls ih => exact ih (consistent.perform call)

theorem Announcing.consistent_new : ({} : Announcing).Consistent where
  sized := by simp
  requests := by simp [Announcing.told]
  cancels := by simp [Announcing.told]
  once := .nil
  order := .nil

theorem announced_once (pb : Protobuf) (calls : List WantCall) (message message' : BitswapMessage) :
    let s := Announcing.run pb {} calls
    let built := messageAddWantlistItems pb message s.cidsWeWant
    let again := messageAddWantlistItems pb message' built.2.2
    s.told.Nodup ∧ (s.told.Pairwise fun first second => ¬ Revived first second) ∧
      (again.2.1.listed = message'.listed ∧ again.2.2 = built.2.2) ∧
      (peerRequestWeWantCids s.cidsWeWant ↔ message.listed.length < built.2.1.listed.length) := by
  intro s built again
  have consistent : s.Consistent := Announcing.consistent_new.run calls
  have after : built.2.2 = s.cidsWeWant.map CidEntry.told := by
    simp only [built, messageAddWantlistItems, wantlistItems_eq pb 0 s.cidsWeWant consistent.sized]
  have nothing : wantlistItems pb 0 built.2.2 = ⟨built.2.2, [], true⟩ := by
    refine wantlistItems_told pb 0 _ fun entry mem => ?_
    rw [after] at mem
    obtain ⟨entry', _, rfl⟩ := List.mem_map.mp mem
    exact entry'.told_not_pending
  refine ⟨consistent.once, consistent.order, ⟨?_, ?_⟩, ?_⟩
  · rw [messageAddWantlistItems_listed, nothing]
    simp
  · have left : again.2.2 = (wantlistItems pb 0 built.2.2).cids := rfl
    rw [left, nothing]
  · rw [peerRequestWeWantCids_iff, messageAddWantlistItems_listed, List.length_append, List.length_map,
      Nat.lt_add_right_iff_pos, List.length_pos_iff, Ne, wantlistItems_entries_eq_nil pb _ consistent.sized]
    simp

end Ipfs
