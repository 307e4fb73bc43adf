import Ipfs.Bitswap.Network
import Ipfs.Lib.Run

/-!
# The want list and who wants what

Each Cid that is wanted has one entry, and each session that asked for it is recorded there once, but for
the session that asked first.
-/

namespace Ipfs

/-- `struct WantListSession`, by its type. -/
inductive WantListSession
  | localNode
  | remote (context : Peer)
  deriving DecidableEq

/-- `struct WantListQueueEntry` with the fields that the handlers do not read. -/
structure WantListEntry extends WantListQueueEntry where
  priority : Int32 := 0
  sessionsRequesting : List (Option WantListSession) := []
  askedNetwork : Bool := false
  attempts : Int32 := 0
  deriving DecidableEq

structure WantListQueue where
  queue : Option (List WantListEntry) := none
  deriving DecidableEq

def WantListSession.type : WantListSession → Int
  | .localNode => 0
  | .remote _ => 1

/-- `ipfs_bitswap_wantlist_session_compare`. -/
def wantlistSessionCompare (compare : Peer → Peer → Int) : Option WantListSession → Option WantListSession → Int
  | none, none => 0
  | none, some _ => -1
  | some _, none => 1
  | some a, some b =>
      if a.type ≠ b.type then b.type - a.type
      else match a, b with
        | .remote contextA, .remote contextB => compare contextA contextB
        -- it's local, there should be only 1
        | _, _ => 0

namespace WantListQueue
variable (compare : Peer → Peer → Int)

def find (wantlist : WantListQueue) (cid : Cid) : Outcome (Option Nat) :=
  wantlistQueueFind (wantlist.queue.map fun queue => queue.map WantListEntry.toWantListQueueEntry) (some cid)

/-- `libp2p_utils_vector_add` on the sessions of an entry. -/
def addSession (session : Option WantListSession) (entry : WantListEntry) : WantListEntry :=
  { entry with sessionsRequesting := entry.sessionsRequesting ++ [session] }

def add (wantlist : WantListQueue) (cid : Cid) (session : Option WantListSession) : Outcome (Nat × WantListQueue) := do
  let queue := wantlist.queue.getD []
  let (entry, queue) ← match ← find ⟨some queue⟩ cid with
    | some entry => pure (entry, queue)
    | none => do
        -- create a new one
        let copy ← cidCopy (some cid)
        pure (queue.length, queue ++ [addSession session { cid := copy, priority := 1 }])
  pure (entry, ⟨some (queue.modify entry (addSession session))⟩)

def entryDecrement (session : Option WantListSession) (entry : WantListEntry) : WantListEntry :=
  match entry.sessionsRequesting.findIdx? fun current => wantlistSessionCompare compare session current = 0 with
  | some i => { entry with sessionsRequesting := entry.sessionsRequesting.eraseIdx i }
  | none => entry

def remove (wantlist : WantListQueue) (cid : Cid) (session : Option WantListSession) : Outcome (Bool × WantListQueue) := do
  match ← wantlist.find cid with
  | some entry => pure (true, ⟨wantlist.queue.map fun queue => queue.modify entry (entryDecrement compare session)⟩)
  | none => pure (false, wantlist)

inductive Call
  | add (cid : Cid) (session : Option WantListSession)
  | remove (cid : Cid) (session : Option WantListSession)

def machine : Machine WantListQueue Call where
  step wantlist call :=
    match call with
    | .add cid session => match wantlist.add cid session with
        | .returned (_, wantlist) => some wantlist
        | _ => none
    | .remove cid session => match wantlist.remove compare cid session with
        | .returned (_, wantlist) => some wantlist
        | _ => none

/-! ## Accounting -/

def entries (wantlist : WantListQueue) : List WantListEntry := wantlist.queue.getD []

def place (entries : List WantListEntry) (cid : Cid) : Option Nat :=
  entries.findIdx? fun entry => cidCompare (some cid) (some entry.cid) = 0

/-- How often a session is recorded in an entry. -/
def held (session : Option WantListSession) (entry : WantListEntry) : Nat :=
  entry.sessionsRequesting.countP fun current => wantlistSessionCompare compare session current = 0

def added (entries : List WantListEntry) (i : Nat) (session : Option WantListSession) (calls : List Call) : Nat :=
  calls.countP fun call => match call with
    | .add cid other => place entries cid = some i ∧ wantlistSessionCompare compare session other = 0
    | .remove _ _ => false

def effectiveRemove (i : Nat) (session : Option WantListSession) (wantlist : WantListQueue) (call : Call) : Nat :=
  match call with
  | .add _ _ => 0
  | .remove cid other =>
      if place wantlist.entries cid = some i ∧ wantlistSessionCompare compare session other = 0 ∧
          ∃ entry ∈ wantlist.entries[i]?, 0 < held compare other entry then 1 else 0

def removed (i : Nat) (session : Option WantListSession) (calls : List Call) : Nat :=
  (machine compare).tally (effectiveRemove compare i session) {} calls

/-- The session of the first add to the entry at a place. -/
def firstSession (entries : List WantListEntry) (i : Nat) (calls : List Call) : Option (Option WantListSession) :=
  calls.findSome? fun call => match call with
    | .add cid session => if place entries cid = some i then some session else none
    | .remove _ _ => none

def Call.addedCid : Call → Option Cid
  | .add cid _ => some cid
  | .remove _ _ => none

def rememberCid (seen : List Cid) (cid : Cid) : List Cid :=
  if ∃ other ∈ seen, cidCompare (some cid) (some other) = 0 then seen else seen ++ [cid]

/-- Of the Cids that compare equal, the one that came first. -/
def distinctCids (cids : List Cid) : List Cid := cids.foldl rememberCid []

/-! ## What a step does -/

section
variable {compare} {wantlist wantlist' : WantListQueue} {call : Call}

theorem find_some (queue : List WantListEntry) (cid : Cid) :
    find ⟨some queue⟩ cid = .returned (place queue cid) := by
  simp only [find, wantlistQueueFind, place, Option.map_some, Outcome.access_some, Outcome.returned_bind, List.findIdx?_map]
  rfl

theorem modify_length (queue : List WantListEntry) (entry : WantListEntry) (f : WantListEntry → WantListEntry) :
    (queue ++ [entry]).modify queue.length f = queue ++ [f entry] := by
  induction queue with
  | nil => rfl
  | cons first queue ih => simpa using ih

/-- An entry is found or made, and gets the session; a remove takes the first session that compares equal. -/
theorem machine_step (stepped : (machine compare).step wantlist call = some wantlist') :
    (∃ cid session i, call = .add cid session ∧ place wantlist.entries cid = some i ∧
        wantlist'.entries = wantlist.entries.modify i (addSession session)) ∨
      (∃ cid session, call = .add cid session ∧ place wantlist.entries cid = none ∧
        wantlist'.entries = wantlist.entries ++ [addSession session (addSession session { cid, priority := 1 })]) ∨
      (∃ cid session, call = .remove cid session ∧ place wantlist.entries cid = none ∧
        wantlist'.entries = wantlist.entries) ∨
      ∃ cid session i, call = .remove cid session ∧ place wantlist.entries cid = some i ∧
        wantlist'.entries = wantlist.entries.modify i (entryDecrement compare session) := by
  obtain ⟨queue⟩ := wantlist
  cases call with
  | add cid session =>
      cases found : place (queue.getD []) cid with
      | some i =>
          simp only [machine, add, find_some, found, Outcome.returned_bind, Outcome.pure_def, Option.some.injEq] at stepped
          exact .inl ⟨cid, session, i, rfl, found, by rw [← stepped]; rfl⟩
      | none =>
          simp only [machine, add, find_some, found, cidCopy, Outcome.access_some, Outcome.returned_bind, Outcome.pure_def,
            Option.some.injEq] at stepped
          refine .inr (.inl ⟨cid, session, rfl, found, ?_⟩)
          rw [← stepped]
          exact modify_length _ _ _
  | remove cid session =>
      cases queue with
      | none => simp [machine, remove, find, wantlistQueueFind] at stepped
      | some queue =>
          cases found : place queue cid with
          | none =>
              simp only [machine, remove, find_some, found, Outcome.returned_bind, Outcome.pure_def,
                Option.some.injEq] at stepped
              exact .inr (.inr (.inl ⟨cid, session, rfl, found, by rw [← stepped]⟩))
          | some i =>
              simp only [machine, remove, find_some, found, Outcome.returned_bind, Outcome.pure_def,
                Option.some.injEq] at stepped
              exact .inr (.inr (.inr ⟨cid, session, i, rfl, found, by rw [← stepped]; rfl⟩))

/-! ## The place of a Cid -/

section
variable {queue queue' : List WantListEntry} {cid : Cid} {i : Nat}

theorem place_congr (same : queue.map (·.cid) = queue'.map (·.cid)) : place queue cid = place queue' cid := by
  have mapped (queue : List WantListEntry) : place queue cid =
      (queue.map (·.cid)).findIdx? fun other => cidCompare (some cid) (some other) = 0 := by
    rw [List.findIdx?_map]
    rfl
  rw [mapped, mapped, same]

theorem modify_map {α β : Type} {f : α → α} {g : α → β} (keeps : ∀ a, g (f a) = g a) (items : List α) (i : Nat) :
    (items.modify i f).map g = items.map g := by
  apply List.ext_getElem?
  intro j
  rw [List.getElem?_map, List.getElem?_map, List.getElem?_modify]
  cases items[j]? with
  | none => rfl
  | some a => by_cases here : i = j <;> simp [here, keeps]

theorem map_cid_modify (f : WantListEntry → WantListEntry) (keeps : ∀ entry, (f entry).cid = entry.cid) :
    (queue.modify i f).map (·.cid) = queue.map (·.cid) :=
  modify_map keeps queue i

theorem place_append (found : place queue cid = some i) (entry : WantListEntry) :
    place (queue ++ [entry]) cid = some i := by
  rw [place] at found
  rw [place, List.findIdx?_append, found]
  rfl

theorem place_append_new (absent : place queue cid = none) (entry : WantListEntry) (own : entry.cid = cid) :
    place (queue ++ [entry]) cid = some queue.length := by
  rw [place] at absent
  simp [place, List.findIdx?_append, absent, own, cidCompare_self]

theorem place_lt (found : place queue cid = some i) : i < queue.length :=
  (List.findIdx?_eq_some_iff_getElem.mp found).1

end

@[simp] theorem addSession_cid (session : Option WantListSession) (entry : WantListEntry) :
    (addSession session entry).cid = entry.cid := rfl

@[simp] theorem entryDecrement_cid (session : Option WantListSession) (entry : WantListEntry) :
    (entryDecrement compare session entry).cid = entry.cid := by
  rw [entryDecrement]
  split <;> rfl

theorem step_cids (stepped : (machine compare).step wantlist call = some wantlist') :
    wantlist'.entries.map (·.cid) = call.addedCid.toList.foldl rememberCid (wantlist.entries.map (·.cid)) := by
  have known (cid : Cid) : (∃ other ∈ wantlist.entries.map (·.cid), cidCompare (some cid) (some other) = 0) ↔
      place wantlist.entries cid ≠ none := by
    simp [place, List.findIdx?_eq_none_iff]
  rcases machine_step stepped with ⟨cid, session, i, rfl, found, after⟩ | ⟨cid, session, rfl, absent, after⟩ |
    ⟨_, _, rfl, _, after⟩ | ⟨_, session, _, rfl, _, after⟩
  · rw [after, map_cid_modify _ (addSession_cid session)]
    simp only [Call.addedCid, Option.toList_some, List.foldl_cons, List.foldl_nil, rememberCid]
    rw [if_pos ((known cid).mpr (by simp [found]))]
  · rw [after, List.map_append]
    simp only [Call.addedCid, Option.toList_some, List.foldl_cons, List.foldl_nil, rememberCid]
    rw [if_neg (mt (known cid).mp (by simp [absent]))]
    rfl
  · rw [after]
    rfl
  · rw [after, map_cid_modify _ (entryDecrement_cid session)]
    rfl

theorem step_place (stepped : (machine compare).step wantlist call = some wantlist') {cid : Cid} {i : Nat}
    (found : place wantlist.entries cid = some i) : place wantlist'.entries cid = some i := by
  rcases machine_step stepped with ⟨_, session, j, rfl, _, after⟩ | ⟨_, _, rfl, _, after⟩ | ⟨_, _, rfl, _, after⟩ |
    ⟨_, session, j, rfl, _, after⟩
  · rw [after, place_congr (map_cid_modify _ (addSession_cid session))]
    exact found
  · rw [after]
    exact place_append found _
  · rw [after]
    exact found
  · rw [after, place_congr (map_cid_modify _ (entryDecrement_cid session))]
    exact found

theorem run_place {calls : List Call} (ran : (machine compare).run wantlist calls = some wantlist') {cid : Cid} {i : Nat}
    (found : place wantlist.entries cid = some i) : place wantlist'.entries cid = some i := by
  induction calls generalizing wantlist with
  | nil => exact Option.some.inj ran ▸ found
  | cons call calls ih =>
      obtain ⟨next, step, rest⟩ := Option.bind_eq_some_iff.mp ran
      exact ih rest (step_place step found)

theorem run_cids {calls : List Call} (ran : (machine compare).run wantlist calls = some wantlist') :
    wantlist'.entries.map (·.cid) =
      (calls.filterMap Call.addedCid).foldl rememberCid (wantlist.entries.map (·.cid)) := by
  induction calls generalizing wantlist with
  | nil => exact Option.some.inj ran ▸ rfl
  | cons call calls ih =>
      obtain ⟨next, step, rest⟩ := Option.bind_eq_some_iff.mp ran
      rw [ih rest, step_cids step, ← List.foldl_append]
      congr 1
      cases call <;> rfl

/-! ## Sessions -/

theorem wantlistSessionCompare_equivalence (equivalence : Equivalence fun a b => compare a b = 0) :
    Equivalence fun a b => wantlistSessionCompare compare a b = 0 := by
  have same (a b : Option WantListSession) : wantlistSessionCompare compare a b = 0 ↔
      a = b ∨ ∃ contextA contextB, a = some (.remote contextA) ∧ b = some (.remote contextB) ∧
        compare contextA contextB = 0 := by
    match a, b with
    | none, none => simp [wantlistSessionCompare]
    | none, some b => simp [wantlistSessionCompare]
    | some a, none => simp [wantlistSessionCompare]
    | some .localNode, some .localNode => simp [wantlistSessionCompare]
    | some .localNode, some (.remote _) => simp [wantlistSessionCompare, WantListSession.type]
    | some (.remote _), some .localNode => simp [wantlistSessionCompare, WantListSession.type]
    | some (.remote contextA), some (.remote contextB) =>
        simp only [wantlistSessionCompare, ne_eq, Option.some.injEq, WantListSession.remote.injEq]
        constructor
        · exact fun equal => .inr ⟨contextA, contextB, rfl, rfl, equal⟩
        · rintro (rfl | ⟨_, _, rfl, rfl, equal⟩)
          · exact equivalence.refl contextA
          · exact equal
  constructor
  · exact fun a => (same a a).mpr (.inl rfl)
  · intro a b equal
    rcases (same a b).mp equal with rfl | ⟨contextA, contextB, rfl, rfl, equal⟩
    · exact (same a a).mpr (.inl rfl)
    · exact (same _ _).mpr (.inr ⟨contextB, contextA, rfl, rfl, equivalence.symm equal⟩)
  · intro a b c first second
    rcases (same a b).mp first with rfl | ⟨contextA, contextB, rfl, rfl, equal⟩
    · exact second
    · rcases (same _ c).mp second with rfl | ⟨_, contextC, isB, rfl, equal'⟩
      · exact first
      · simp only [Option.some.injEq, WantListSession.remote.injEq] at isB
        exact (same _ _).mpr (.inr ⟨contextA, contextC, rfl, rfl, equivalence.trans equal (isB ▸ equal')⟩)

theorem held_addSession (session other : Option WantListSession) (entry : WantListEntry) :
    held compare session (addSession other entry) =
      held compare session entry + if wantlistSessionCompare compare session other = 0 then 1 else 0 := by
  simp [held, addSession, List.countP_append, List.countP_singleton]

theorem held_entryDecrement (same : Equivalence fun a b => wantlistSessionCompare compare a b = 0)
    (session other : Option WantListSession) (entry : WantListEntry) :
    held compare session (entryDecrement compare other entry) +
        (if wantlistSessionCompare compare session other = 0 ∧ 0 < held compare other entry then 1 else 0) =
      held compare session entry := by
  rw [entryDecrement]
  cases found : entry.sessionsRequesting.findIdx? fun current => wantlistSessionCompare compare other current = 0 with
  | none =>
      have absent : held compare other entry = 0 := by
        rw [held, List.countP_eq_zero]
        exact fun current mem => by simpa using List.findIdx?_eq_none_iff.mp found current mem
      simp [absent]
  | some i =>
      obtain ⟨inside, equal, _⟩ := List.findIdx?_eq_some_iff_getElem.mp found
      rw [decide_eq_true_eq] at equal
      have present : 0 < held compare other entry :=
        List.countP_pos_iff.mpr ⟨_, List.getElem_mem inside, by simpa using equal⟩
      have taken : wantlistSessionCompare compare session entry.sessionsRequesting[i] = 0 ↔
          wantlistSessionCompare compare session other = 0 :=
        ⟨fun here => same.trans here (same.symm equal), fun here => same.trans here equal⟩
      have count := (List.getElem_cons_eraseIdx_perm inside).countP_eq
        fun current => wantlistSessionCompare compare session current = 0
      rw [List.countP_cons] at count
      simp only [and_iff_left present]
      simpa [held, taken] using count

/-! ## The balance -/

def heldAt (compare : Peer → Peer → Int) (session : Option WantListSession) (entries : List WantListEntry) (i : Nat) : Nat :=
  (entries[i]?.map (held compare session)).getD 0

def surplus (compare : Peer → Peer → Int) (session : Option WantListSession) (entries : List WantListEntry) (i : Nat)
    (calls : List Call) : Nat :=
  match firstSession entries i calls with
  | some first => if wantlistSessionCompare compare session first = 0 then 1 else 0
  | none => 0

theorem heldAt_modify (session : Option WantListSession) (queue : List WantListEntry) (i j : Nat)
    (f : WantListEntry → WantListEntry) (other : i ≠ j) :
    heldAt compare session (queue.modify i f) j = heldAt compare session queue j := by
  rw [heldAt, List.getElem?_modify_ne f queue other, heldAt]

theorem heldAt_eq {session : Option WantListSession} {queue : List WantListEntry} {i : Nat} {entry : WantListEntry}
    (here : queue[i]? = some entry) : heldAt compare session queue i = held compare session entry := by
  rw [heldAt, here]
  rfl

theorem heldAt_modify_own {session : Option WantListSession} {queue : List WantListEntry} {i : Nat}
    {entry : WantListEntry} (here : queue[i]? = some entry) (f : WantListEntry → WantListEntry) :
    heldAt compare session (queue.modify i f) i = held compare session (f entry) :=
  heldAt_eq (by rw [List.getElem?_modify_eq, here]; rfl)

section
variable {queue : List WantListEntry} {cid : Cid} {i : Nat} {session other : Option WantListSession} {calls : List Call}

theorem added_add_own (found : place queue cid = some i) :
    added compare queue i session (.add cid other :: calls) =
      added compare queue i session calls + if wantlistSessionCompare compare session other = 0 then 1 else 0 := by
  simp [added, List.countP_cons, found]

theorem added_add_other (found : place queue cid ≠ some i) :
    added compare queue i session (.add cid other :: calls) = added compare queue i session calls := by
  simp [added, found]

theorem added_remove : added compare queue i session (.remove cid other :: calls) = added compare queue i session calls := by
  simp [added]

theorem surplus_remove :
    surplus compare session queue i (.remove cid other :: calls) = surplus compare session queue i calls := by
  simp [surplus, firstSession]

theorem surplus_add_own (found : place queue cid = some i) :
    surplus compare session queue i (.add cid other :: calls) =
      if wantlistSessionCompare compare session other = 0 then 1 else 0 := by
  simp [surplus, firstSession, found]

theorem surplus_add_other (found : place queue cid ≠ some i) :
    surplus compare session queue i (.add cid other :: calls) = surplus compare session queue i calls := by
  simp [surplus, firstSession, found]

end

/-- What is held of a session at the end, and what is removed on the way, come from the adds, and one more from the
add that makes the entry. -/
def SessionsBalance (compare : Peer → Peer → Int) (session : Option WantListSession) (i : Nat) (wantlist wantlist' : WantListQueue)
    (calls : List Call) : Prop :=
  heldAt compare session wantlist'.entries i + (machine compare).tally (effectiveRemove compare i session) wantlist calls =
    heldAt compare session wantlist.entries i + added compare wantlist'.entries i session calls +
      if wantlist.entries.length ≤ i then surplus compare session wantlist'.entries i calls else 0

section
variable {next : WantListQueue} {cid : Cid} {i j : Nat} {session other : Option WantListSession} {calls : List Call}
  (balance : SessionsBalance compare session i next wantlist' calls)
include balance

theorem balanced_add_known (step : (machine compare).step wantlist (.add cid other) = some next)
    (found : place wantlist.entries cid = some j) (last : place wantlist'.entries cid = some j)
    (after : next.entries = wantlist.entries.modify j (addSession other)) :
    SessionsBalance compare session i wantlist wantlist' (.add cid other :: calls) := by
  have inside := place_lt found
  have here := List.getElem?_eq_getElem inside
  have length : next.entries.length = wantlist.entries.length := by rw [after, List.length_modify]
  unfold SessionsBalance at balance ⊢
  rw [Machine.tally_cons step]
  rw [length] at balance
  by_cases own : j = i
  · subst own
    rw [after, heldAt_modify_own here, held_addSession, if_neg (Nat.not_le.mpr inside)] at balance
    rw [heldAt_eq here, added_add_own last, if_neg (Nat.not_le.mpr inside)]
    simp only [effectiveRemove]
    omega
  · rw [added_add_other (by simp [last, own]), surplus_add_other (by simp [last, own])]
    rw [after, heldAt_modify _ _ _ _ _ own] at balance
    simpa [effectiveRemove] using balance

theorem balanced_add_new (step : (machine compare).step wantlist (.add cid other) = some next)
    (last : place wantlist'.entries cid = some wantlist.entries.length)
    (after : next.entries = wantlist.entries ++ [addSession other (addSession other { cid, priority := 1 })]) :
    SessionsBalance compare session i wantlist wantlist' (.add cid other :: calls) := by
  have length : next.entries.length = wantlist.entries.length + 1 := by rw [after, List.length_append]; rfl
  unfold SessionsBalance at balance ⊢
  rw [Machine.tally_cons step]
  rw [length] at balance
  by_cases own : wantlist.entries.length = i
  · subst own
    have here : next.entries[wantlist.entries.length]? =
        some (addSession other (addSession other { cid, priority := 1 })) := by simp [after]
    have before : heldAt compare session wantlist.entries wantlist.entries.length = 0 := by simp [heldAt]
    have empty : held compare session { cid, priority := 1 } = 0 := rfl
    rw [heldAt_eq here, held_addSession, held_addSession, empty,
      if_neg (Nat.not_succ_le_self wantlist.entries.length)] at balance
    rw [before, added_add_own last, surplus_add_own last, if_pos (Nat.le_refl wantlist.entries.length)]
    simp only [effectiveRemove]
    omega
  · have kept : heldAt compare session next.entries i = heldAt compare session wantlist.entries i := by
      rw [heldAt, heldAt, after]
      rcases Nat.lt_or_gt_of_ne own with behind | before
      · rw [List.getElem?_eq_none (by simp; omega), List.getElem?_eq_none (by omega)]
      · rw [List.getElem?_append_left before]
    have range : wantlist.entries.length + 1 ≤ i ↔ wantlist.entries.length ≤ i := by omega
    rw [added_add_other (by simp [last, own]), surplus_add_other (by simp [last, own])]
    simp only [kept, range] at balance
    simpa [effectiveRemove] using balance

theorem balanced_remove_unknown (step : (machine compare).step wantlist (.remove cid other) = some next)
    (absent : place wantlist.entries cid = none) (after : next.entries = wantlist.entries) :
    SessionsBalance compare session i wantlist wantlist' (.remove cid other :: calls) := by
  unfold SessionsBalance at balance ⊢
  rw [Machine.tally_cons step, added_remove, surplus_remove]
  rw [after] at balance
  simpa [effectiveRemove, absent] using balance

theorem balanced_remove_known (same : Equivalence fun a b => wantlistSessionCompare compare a b = 0)
    (step : (machine compare).step wantlist (.remove cid other) = some next) (found : place wantlist.entries cid = some j)
    (after : next.entries = wantlist.entries.modify j (entryDecrement compare other)) :
    SessionsBalance compare session i wantlist wantlist' (.remove cid other :: calls) := by
  have inside := place_lt found
  have here := List.getElem?_eq_getElem inside
  have length : next.entries.length = wantlist.entries.length := by rw [after, List.length_modify]
  unfold SessionsBalance at balance ⊢
  rw [Machine.tally_cons step, added_remove, surplus_remove]
  rw [length] at balance
  by_cases own : j = i
  · subst own
    have taken := held_entryDecrement same session other wantlist.entries[j]
    rw [after, heldAt_modify_own here] at balance
    rw [heldAt_eq here]
    simp only [effectiveRemove, found, true_and, here, Option.mem_def, Option.some.injEq, exists_eq_left']
    omega
  · rw [after, heldAt_modify _ _ _ _ _ own] at balance
    simpa [effectiveRemove, found, own] using balance

end

theorem run_balance (same : Equivalence fun a b => wantlistSessionCompare compare a b = 0) {calls : List Call}
    (ran : (machine compare).run wantlist calls = some wantlist') (i : Nat) (session : Option WantListSession) :
    SessionsBalance compare session i wantlist wantlist' calls := by
  induction calls generalizing wantlist with
  | nil =>
      obtain rfl := Option.some.inj ran
      simp [SessionsBalance, Machine.tally, added, surplus, firstSession]
  | cons call calls ih =>
      obtain ⟨next, step, rest⟩ := Option.bind_eq_some_iff.mp ran
      have balance := ih rest
      rcases machine_step step with ⟨cid, other, j, rfl, found, after⟩ | ⟨cid, other, rfl, absent, after⟩ |
        ⟨cid, other, rfl, absent, after⟩ | ⟨cid, other, j, rfl, found, after⟩
      · exact balanced_add_known balance step found (run_place rest (step_place step found)) after
      · have isNew := place_append_new absent (addSession other (addSession other { cid, priority := 1 })) rfl
        exact balanced_add_new balance step (run_place rest (after ▸ isNew)) after
      · exact balanced_remove_unknown balance step absent after
      · exact balanced_remove_known balance same step found after

theorem run_firstSession {calls : List Call} (ran : (machine compare).run wantlist calls = some wantlist') {i : Nat}
    (absent : wantlist.entries.length ≤ i) (present : i < wantlist'.entries.length) :
    ∃ first, firstSession wantlist'.entries i calls = some first := by
  rw [← Option.isSome_iff_exists, firstSession, List.findSome?_isSome_iff]
  induction calls generalizing wantlist with
  | nil =>
      obtain rfl := Option.some.inj ran
      omega
  | cons call calls ih =>
      obtain ⟨next, step, rest⟩ := Option.bind_eq_some_iff.mp ran
      by_cases later : next.entries.length ≤ i
      · obtain ⟨call', mem, found⟩ := ih rest later
        exact ⟨call', List.mem_cons_of_mem _ mem, found⟩
      · rcases machine_step step with ⟨_, _, _, _, _, after⟩ | ⟨cid, session, rfl, absent', after⟩ | ⟨_, _, _, _, after⟩ |
          ⟨_, _, _, _, _, after⟩
        · rw [after, List.length_modify] at later
          omega
        · have isNew := place_append_new absent' (addSession session (addSession session { cid, priority := 1 })) rfl
          rw [← after] at isNew
          rw [after, List.length_append, List.length_singleton] at later
          obtain rfl : wantlist.entries.length = i := by omega
          exact ⟨_, List.mem_cons_self, by simp [run_place rest isNew]⟩
        · rw [after] at later
          omega
        · rw [after, List.length_modify] at later
          omega

end

end WantListQueue

def samePeer (a b : Peer) : Int := if a.id = b.id then 0 else 1

open WantListQueue in
def twoSessions : List Call :=
  [.add (cidNew 0 [1] cidDagProtobuf) (some .localNode),
    .add (cidNew 0 [1] cidDagProtobuf) (some (.remote { id := [2] })),
    .remove (cidNew 0 [1] cidDagProtobuf) (some (.remote { id := [2] }))]

end Ipfs
