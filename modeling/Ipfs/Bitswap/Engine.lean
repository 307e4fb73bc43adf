import Ipfs.Bitswap.WantListQueue

/-!
# The want list processor

The processor takes the first want that is pending, over and over. What it does to a want that has failed too
often does not make it any less pending.
-/

namespace Ipfs
namespace WantListQueue

/-- What a want is processed with: `blockstore->Get`, and whether the network has providers of a Cid. -/
structure Surroundings where
  get : Cid → Option Block
  getBlockRemote : Cid → Bool

/-- `ipfs_bitswap_wantlist_queue_pop`: the place of the entry, which stays in the queue. -/
def pop (wantlist : WantListQueue) : Option Nat :=
  wantlist.entries.findIdx? fun current => current.block = none && !current.askedNetwork

def localRequest (sessions : List (Option WantListSession)) : Bool :=
  sessions.any fun curr => curr.map WantListSession.type = some 0

/-- `ipfs_bitswap_wantlist_process_entry`, but for the blocks that it puts into the queues of peers. -/
def processEntry (surroundings : Surroundings) (entry : WantListEntry) : WantListEntry :=
  match surroundings.get entry.cid with
  | some block => { entry with block := some block }
  | none =>
      if localRequest entry.sessionsRequesting then
        if surroundings.getBlockRemote entry.cid then { entry with askedNetwork := true }
        else { entry with attempts := entry.attempts + 1 }
      else entry

variable (compare : Peer → Peer → Int)

/-- The loop over the sessions of the entry at a place, from an index on. Each round removes a session from the
vector that it goes over; the fuel is the number of sessions at the start. -/
def giveUp (item : Nat) : Nat → Nat → WantListQueue → Outcome WantListQueue
  | 0, _, wantlist => .returned wantlist
  | fuel + 1, i, wantlist => do
      let entry ← .access .outOfBounds wantlist.entries[item]?
      match entry.sessionsRequesting[i]? with
      | none => pure wantlist
      | some currSession => do
          let (_, wantlist) ← wantlist.remove compare entry.cid currSession
          giveUp item fuel (i + 1) wantlist

def processorStep (surroundings : Surroundings) (wantlist : WantListQueue) : Outcome WantListQueue :=
  match wantlist.pop with
  | none => .returned wantlist
  | some item => do
      let entry ← .access .outOfBounds wantlist.entries[item]?
      -- we have tried too many times
      if 10 < entry.attempts then giveUp compare item entry.sessionsRequesting.length 0 wantlist
      else pure ⟨wantlist.queue.map fun queue => queue.modify item (processEntry surroundings)⟩

def processor : Machine WantListQueue Surroundings where
  step wantlist surroundings := match processorStep compare surroundings wantlist with
    | .returned wantlist => some wantlist
    | _ => none

/-- The entry is the next to be processed, and has failed too often. -/
def Exhausted (wantlist : WantListQueue) (item : Nat) : Prop :=
  wantlist.pop = some item ∧ ∃ entry, wantlist.entries[item]? = some entry ∧ 10 < entry.attempts

/-- The want is given up: nobody requests it, and it does not come up again in the rounds to come. -/
def GivenUp (item : Nat) (wantlist : WantListQueue) : Prop :=
  (∃ entry, wantlist.entries[item]? = some entry ∧ entry.sessionsRequesting = []) ∧
    ∀ rounds wantlist', (processor compare).run wantlist rounds = some wantlist' → wantlist'.pop ≠ some item

/-! ## A round -/

section
variable {compare} {wantlist wantlist' : WantListQueue} {item : Nat}

structure SameWants (wantlist wantlist' : WantListQueue) : Prop where
  pending : wantlist'.entries.map (fun entry => (entry.block, entry.askedNetwork)) =
    wantlist.entries.map fun entry => (entry.block, entry.askedNetwork)
  attempts : wantlist'.entries.map WantListEntry.attempts = wantlist.entries.map WantListEntry.attempts

theorem SameWants.trans {wantlist'' : WantListQueue} (first : SameWants wantlist wantlist')
    (second : SameWants wantlist' wantlist'') : SameWants wantlist wantlist'' :=
  ⟨second.pending.trans first.pending, second.attempts.trans first.attempts⟩

theorem SameWants.pop (same : SameWants wantlist wantlist') : wantlist'.pop = wantlist.pop := by
  have place (wantlist : WantListQueue) : wantlist.pop =
      (wantlist.entries.map fun entry => (entry.block, entry.askedNetwork)).findIdx? fun want =>
        want.1 = none && !want.2 := by
    rw [List.findIdx?_map]
    rfl
  rw [place, place, same.pending]

theorem SameWants.exhausted (same : SameWants wantlist wantlist') (exhausted : wantlist.Exhausted item) :
    wantlist'.Exhausted item := by
  obtain ⟨popped, entry, here, attempts⟩ := exhausted
  have counts := congrArg (fun attempts : List Int32 => attempts[item]?) same.attempts
  simp only [List.getElem?_map, here, Option.map_some, Option.map_eq_some_iff] at counts
  obtain ⟨entry', here', count⟩ := counts
  exact ⟨same.pop.trans popped, entry', here', count ▸ attempts⟩

theorem entryDecrement_same (session : Option WantListSession) (entry : WantListEntry) :
    (entryDecrement compare session entry).block = entry.block ∧
      (entryDecrement compare session entry).askedNetwork = entry.askedNetwork ∧
      (entryDecrement compare session entry).attempts = entry.attempts := by
  rw [entryDecrement]
  split <;> exact ⟨rfl, rfl, rfl⟩

theorem remove_same {queue : List WantListEntry} (filled : wantlist.queue = some queue) (cid : Cid)
    (session : Option WantListSession) :
    ∃ found wantlist', wantlist.remove compare cid session = .returned (found, wantlist') ∧
      SameWants wantlist wantlist' ∧ ∃ queue', wantlist'.queue = some queue' := by
  obtain ⟨queue'⟩ := wantlist
  obtain rfl : queue' = some queue := filled
  cases place : place queue cid with
  | none => exact ⟨false, _, by rw [remove, find_some, place]; rfl, ⟨rfl, rfl⟩, queue, rfl⟩
  | some i =>
      have kept := @entryDecrement_same compare session
      refine ⟨true, _, by rw [remove, find_some, place]; rfl, ⟨?_, ?_⟩, _, rfl⟩
      · exact modify_map (fun entry => Prod.ext (kept entry).1 (kept entry).2.1) queue i
      · exact modify_map (fun entry => (kept entry).2.2) queue i

theorem giveUp_same {queue : List WantListEntry} (filled : wantlist.queue = some queue)
    (inside : item < wantlist.entries.length) (fuel i : Nat) :
    ∃ wantlist', giveUp compare item fuel i wantlist = .returned wantlist' ∧ SameWants wantlist wantlist' := by
  induction fuel generalizing wantlist queue i with
  | zero => exact ⟨wantlist, rfl, rfl, rfl⟩
  | succ fuel ih =>
      rw [giveUp, List.getElem?_eq_getElem inside, Outcome.access_some, Outcome.returned_bind]
      cases session : wantlist.entries[item].sessionsRequesting[i]? with
      | none => exact ⟨wantlist, rfl, rfl, rfl⟩
      | some currSession =>
          obtain ⟨found, next, removed, same, queue', filled'⟩ := @remove_same compare wantlist queue filled
            wantlist.entries[item].cid currSession
          have length := congrArg List.length same.attempts
          simp only [List.length_map] at length
          obtain ⟨wantlist', rest, same'⟩ := ih filled' (by omega) (i + 1)
          refine ⟨wantlist', ?_, same.trans same'⟩
          simp only [removed, Outcome.returned_bind, rest]

theorem Exhausted.step (exhausted : wantlist.Exhausted item) (surroundings : Surroundings) :
    ∃ wantlist', processorStep compare surroundings wantlist = .returned wantlist' ∧ SameWants wantlist wantlist' := by
  obtain ⟨popped, entry, here, attempts⟩ := exhausted
  have inside := (List.getElem?_eq_some_iff.mp here).1
  obtain ⟨queue, filled⟩ : ∃ queue, wantlist.queue = some queue := by
    cases queue : wantlist.queue with
    | none => simp [entries, queue] at inside
    | some queue' => exact ⟨queue', rfl⟩
  obtain ⟨wantlist', gaveUp, same⟩ := @giveUp_same compare wantlist item queue filled inside
    entry.sessionsRequesting.length 0
  refine ⟨wantlist', ?_, same⟩
  simp only [processorStep, popped, here, Outcome.access_some, Outcome.returned_bind, if_pos attempts, gaveUp]

theorem Exhausted.run (exhausted : wantlist.Exhausted item) (rounds : List Surroundings) :
    ∃ wantlist', (processor compare).run wantlist rounds = some wantlist' ∧ wantlist'.Exhausted item := by
  induction rounds generalizing wantlist with
  | nil => exact ⟨wantlist, rfl, exhausted⟩
  | cons surroundings rounds ih =>
      obtain ⟨next, stepped, same⟩ := @Exhausted.step compare wantlist item exhausted surroundings
      obtain ⟨wantlist', rest, last⟩ := ih (same.exhausted exhausted)
      refine ⟨wantlist', ?_, last⟩
      simp only [Machine.run, processor, stepped, Option.bind_some]
      exact rest

end

/-! ## The sessions that stay -/

section
variable {compare} {item : Nat}

theorem entryDecrement_length {entry : WantListEntry} {session : Option WantListSession}
    (reflexive : wantlistSessionCompare compare session session = 0) (mem : session ∈ entry.sessionsRequesting) :
    (entryDecrement compare session entry).sessionsRequesting.length = entry.sessionsRequesting.length - 1 := by
  have found : (entry.sessionsRequesting.findIdx? fun current =>
      wantlistSessionCompare compare session current = 0).isSome := by
    rw [List.findIdx?_isSome, List.any_eq_true]
    exact ⟨session, mem, by simp [reflexive]⟩
  obtain ⟨i, place⟩ := Option.isSome_iff_exists.mp found
  have inside := (List.findIdx?_eq_some_iff_getElem.mp place).1
  rw [entryDecrement, place]
  exact List.length_eraseIdx_of_lt inside

theorem giveUp_sessions (reflexive : ∀ session, wantlistSessionCompare compare session session = 0)
    {queue : List WantListEntry} {entry : WantListEntry} (here : queue[item]? = some entry)
    (own : place queue entry.cid = some item) {fuel i : Nat} (enough : entry.sessionsRequesting.length ≤ fuel + i) :
    ∃ wantlist' entry', giveUp compare item fuel i ⟨some queue⟩ = .returned wantlist' ∧
      wantlist'.entries[item]? = some entry' ∧ entry'.sessionsRequesting.length =
        min entry.sessionsRequesting.length ((entry.sessionsRequesting.length + i) / 2) := by
  induction fuel generalizing queue entry i with
  | zero => exact ⟨_, entry, rfl, here, by omega⟩
  | succ fuel ih =>
      have here' : (⟨some queue⟩ : WantListQueue).entries[item]? = some entry := here
      rw [giveUp, here', Outcome.access_some, Outcome.returned_bind]
      cases session : entry.sessionsRequesting[i]? with
      | none =>
          have past := List.getElem?_eq_none_iff.mp session
          exact ⟨_, entry, rfl, here, by omega⟩
      | some currSession =>
          have removed : remove compare ⟨some queue⟩ entry.cid currSession =
              .returned (true, ⟨some (queue.modify item (entryDecrement compare currSession))⟩) := by
            rw [remove, find_some, own]
            rfl
          have shorter := entryDecrement_length (reflexive currSession) (List.mem_of_getElem? session)
          have inside := (List.getElem?_eq_some_iff.mp session).1
          have next : (queue.modify item (entryDecrement compare currSession))[item]? =
              some (entryDecrement compare currSession entry) := by
            simp [here]
          have own' : place (queue.modify item (entryDecrement compare currSession))
              (entryDecrement compare currSession entry).cid = some item := by
            rw [place_congr (map_cid_modify _ (entryDecrement_cid currSession)), entryDecrement_cid, own]
          obtain ⟨wantlist', entry', rest, last, left⟩ := @ih _ _ next own' (i + 1) (by omega)
          refine ⟨wantlist', entry', ?_, last, by omega⟩
          simp only [removed, Outcome.returned_bind, rest]

/-- Half of the sessions stay. -/
theorem processorStep_sessions (reflexive : ∀ session, wantlistSessionCompare compare session session = 0)
    {queue : List WantListEntry} {entry : WantListEntry} (popped : pop ⟨some queue⟩ = some item)
    (here : queue[item]? = some entry) (attempts : 10 < entry.attempts) (own : place queue entry.cid = some item)
    (surroundings : Surroundings) :
    ∃ wantlist' entry', processorStep compare surroundings ⟨some queue⟩ = .returned wantlist' ∧
      wantlist'.entries[item]? = some entry' ∧
      entry'.sessionsRequesting.length = entry.sessionsRequesting.length / 2 := by
  obtain ⟨wantlist', entry', gaveUp, last, left⟩ :=
    @giveUp_sessions compare item reflexive queue entry here own entry.sessionsRequesting.length 0 le_rfl
  refine ⟨wantlist', entry', ?_, last, by omega⟩
  have here' : (⟨some queue⟩ : WantListQueue).entries[item]? = some entry := here
  simp only [processorStep, popped, here', Outcome.access_some, Outcome.returned_bind, if_pos attempts, gaveUp]

end

/-- A want that has failed too often is never given up: each round from then on takes the same entry again. -/
theorem processor_never_givenUp (wantlist : WantListQueue) (item : Nat) (exhausted : wantlist.Exhausted item) :
    (∀ rounds, ∃ wantlist', (processor compare).run wantlist rounds = some wantlist' ∧ wantlist'.pop = some item) ∧
      ∀ surroundings wantlist', processorStep compare surroundings wantlist = .returned wantlist' →
        ¬ GivenUp compare item wantlist' := by
  constructor
  · intro rounds
    obtain ⟨wantlist', ran, last⟩ := @Exhausted.run compare wantlist item exhausted rounds
    exact ⟨wantlist', ran, last.1⟩
  · intro surroundings wantlist' stepped gone
    obtain ⟨next, stepped', same⟩ := @Exhausted.step compare wantlist item exhausted surroundings
    obtain rfl := Outcome.returned.inj (stepped.symm.trans stepped')
    exact gone.2 [] wantlist' rfl (same.exhausted exhausted).1

def stuckWants : WantListQueue where
  queue := some [{ cid := ⟨0, 0x70, [1]⟩, sessionsRequesting := [some .localNode, some .localNode], attempts := 11 },
    { cid := ⟨0, 0x70, [2]⟩, sessionsRequesting := [some .localNode] }]

def quiet : Surroundings := ⟨fun _ => none, fun _ => false⟩

theorem processor_never_givenUp_stuck :
    ∃ wantlist', (processor fun _ _ => 0).run stuckWants [quiet, quiet] = some wantlist' ∧ wantlist'.pop = some 0 :=
  (processor_never_givenUp (fun _ _ => 0) stuckWants 0 ⟨by decide, _, rfl, by decide⟩).1 [quiet, quiet]

theorem not_givenUp_stuck :
    ∃ wantlist', processorStep (fun _ _ => 0) quiet stuckWants = .returned wantlist' ∧
      ¬ GivenUp (fun _ _ => 0) 0 wantlist' := by
  refine ⟨⟨some [{ cid := ⟨0, 0x70, [1]⟩, sessionsRequesting := [some .localNode], attempts := 11 },
    { cid := ⟨0, 0x70, [2]⟩, sessionsRequesting := [some .localNode] }]⟩, by decide, ?_⟩
  rintro ⟨⟨entry, here, empty⟩, -⟩
  obtain rfl := Option.some.inj here
  cases empty

end WantListQueue
end Ipfs
