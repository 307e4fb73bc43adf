import Ipfs.Bitswap.PeerRequest
import Ipfs.Bitswap.PeerRequestQueue

/-!
# The queue of peer requests as a list

What `ipfs_bitswap_peer_request_queue_add`, `_pop` and `_remove` do to the entries, beside the list of requests
that they are for.
-/

namespace Ipfs

/-- The queue, and the requests that were freed, each with its entry. -/
structure PeerQueue extends PeerRequestQueue where
  freed : List Nat := []
  deriving DecidableEq

/-- A call, or other code that works on a request in memory and leaves its peer in it. -/
inductive QueueCall
  | add (request : Option PeerRequest)
  | remove (request : Option PeerRequest)
  | pop (peek : Int)
  | work (address : Nat) (request : PeerRequest)

inductive QueueResult
  | flag (success : Bool)
  | request (address : Option Nat)
  deriving DecidableEq

def workOn (requests : List PeerRequest) (address : Nat) (request : PeerRequest) : List PeerRequest :=
  requests.modify address fun old => if request.peer.map Peer.id = old.peer.map Peer.id then request else old

/-- `libp2p_peer_compare`, and `libp2p_peer_handle_connection_error`. -/
structure PeerLibrary where
  compare : Peer → Peer → Int
  handleConnectionError : Peer → Peer

variable (peers : PeerLibrary)

/-- `ipfs_bitswap_peer_request_something_to_do`, with what `peek` returns on the stream of the session. -/
def peerRequestSomethingToDo (peek : Int) (request : PeerRequest) : Option (Int × PeerRequest) :=
  if request.blocksWeWantToSend.length > 0 then some (1, request)
  else if request.cidsWeWant.length > 0 then some (1, request)
  else if peerRequestCidsWaiting request.cidsTheyWant then some (1, request)
  else do
    let peer ← request.peer
    if !peer.connected then some (0, request)
    else if !peer.session then none
    else if peek < 0 then some (0, { request with peer := some (peers.handleConnectionError peer) })
    else some (peek, request)

namespace PeerQueue

def cell (queue : PeerQueue) (entry : Nat) : Option (Cell Nat) := do
  let cell ← queue.entries.cells[entry]?
  if cell.current ∈ queue.freed then none else some cell

/-- `ipfs_bitswap_peer_request_queue_find_entry`, which does not come through an entry that was freed. -/
def findEntry (queue : PeerQueue) (peer : Option Peer) : Option (Option Nat) :=
  match peer with
  | none => some none
  | some peer => queue.entries.findFirst fun request =>
      if request ∈ queue.freed then none else queue.comparesTo peers.compare peer request

def add (queue : PeerQueue) (request : Option PeerRequest) : Bool × PeerQueue :=
  match request with
  | none => (false, queue)
  | some request =>
      let entry := queue.entries.cells.length
      (true, { queue with
        requests := queue.requests ++ [request]
        entries := { cells := queue.entries.cells ++ [{ prior := queue.entries.last, current := queue.requests.length }]
                     first := some (queue.entries.first.getD entry)
                     last := some entry } })

def remove (queue : PeerQueue) (request : Option PeerRequest) : Option (Bool × PeerQueue) :=
  match request with
  | none => some (false, queue)
  | some request => do
      match ← queue.findEntry peers request.peer with
      | none => some (false, queue)
      | some entry =>
          let cell ← queue.cell entry
          -- remove the entry's link, and hook prior and next together
          let prior ← cell.prior
          let priorCell ← queue.cell prior
          let cells := queue.entries.cells.set prior { priorCell with next := cell.next }
          some (true, { queue with
            entries := { queue.entries with cells := cells.set entry { current := cell.current } }
            freed := cell.current :: queue.freed })

def pop (queue : PeerQueue) (peek : Int) : Option (Option Nat × PeerQueue) :=
  match queue.entries.first with
  | none => some (none, queue)
  | some entry => do
      let cell ← queue.cell entry
      let request ← queue.requests[cell.current]?
      let (something, request) ← peerRequestSomethingToDo peers peek request
      let queue := { queue with requests := queue.requests.set cell.current request }
      if something = 0 then some (none, queue)
      else match cell.next with
        | none => some (some cell.current, queue)
        | some next =>
            -- move to the end of the queue
            let last ← queue.entries.last
            let lastCell ← queue.cell last
            some (some cell.current, { queue with
              entries := { cells := queue.entries.cells.set last { lastCell with next := some entry }
                           first := some next
                           last := some entry } })

def call (queue : PeerQueue) : QueueCall → Option (QueueResult × PeerQueue)
  | .add request => some (.flag (queue.add request).1, (queue.add request).2)
  | .remove request => (queue.remove peers request).map fun result => (.flag result.1, result.2)
  | .pop peek => (queue.pop peers peek).map fun result => (.request result.1, result.2)
  | .work address request => some (.flag true, { queue with requests := workOn queue.requests address request })

end PeerQueue

/-! ## The list -/

/-- The requests in memory, and the addresses of those that are queued, in their order. -/
structure RequestList where
  requests : List PeerRequest := []
  queue : List Nat := []

namespace RequestList

def isFor (list : RequestList) (peer : Peer) (address : Nat) : Bool :=
  ((list.requests[address]?.bind PeerRequest.peer).map fun other => decide (peers.compare other peer = 0)).getD false

def somethingToDo (list : RequestList) (peek : Int) (address : Nat) : Option (Int × PeerRequest) :=
  list.requests[address]?.bind (peerRequestSomethingToDo peers peek)

def call (list : RequestList) : QueueCall → QueueResult × RequestList
  | .add none => (.flag false, list)
  | .add (some request) => (.flag true, ⟨list.requests ++ [request], list.queue ++ [list.requests.length]⟩)
  | .remove request =>
      match request.bind PeerRequest.peer with
      | none => (.flag false, list)
      | some peer =>
          (.flag (list.queue.any (list.isFor peers peer)),
            { list with queue := list.queue.filter fun address => !list.isFor peers peer address })
  | .pop peek =>
      match list.queue with
      | [] => (.request none, list)
      | head :: rest =>
          match list.somethingToDo peers peek head with
          | none => (.request none, list)
          | some (something, request) =>
              let requests := list.requests.set head request
              if something = 0 then (.request none, { list with requests })
              else (.request (some head), ⟨requests, rest ++ [head]⟩)
  | .work address request => (.flag true, { list with requests := workOn list.requests address request })

end RequestList

/-! ## What is wanted -/

/-- Forward and backward the entries read as the list, and find_entry finds the peers that are in it. -/
structure PeerQueue.Reads (queue : PeerQueue) (list : RequestList) : Prop where
  forward : queue.entries.forward = some list.queue
  backward : queue.entries.backward = some list.queue.reverse
  requests : queue.requests = list.requests
  live : ∀ address ∈ list.queue, address ∉ queue.freed
  finds : ∀ peer, ∃ found, queue.findEntry peers (some peer) = some found ∧
    match found with
    | some entry => ∃ cell, queue.cell entry = some cell ∧ cell.current ∈ list.queue ∧ list.isFor peers peer cell.current
    | none => ∀ address ∈ list.queue, ¬ list.isFor peers peer address

namespace PeerQueue

def machine : Machine (PeerQueue × RequestList) QueueCall where
  step s call := (s.1.call peers call).map fun result => (result.2, (s.2.call peers call).2)

def start : PeerQueue × RequestList := ({}, {})

/-- The call comes back with what the list returns. -/
def Agrees (s : PeerQueue × RequestList) (call : QueueCall) : Prop :=
  ∃ result, s.1.call peers call = some result ∧ result.1 = (s.2.call peers call).1

/-- All through the calls the queue reads as the list, and returns what the list returns. -/
def IsList (calls : List QueueCall) : Prop :=
  (machine peers).RunMeets (fun s call => s.1.Reads peers s.2 ∧ Agrees peers s call) start calls ∧
    ∃ s, (machine peers).run start calls = some s ∧ s.1.Reads peers s.2

/-- A request is added to the empty queue only and has a peer, the peer of one that is removed is not in the
queue, and the head of the queue can be asked whether there is something to do. -/
def Allowed (s : PeerQueue × RequestList) : QueueCall → Prop
  | .add request => ∀ added, request = some added → s.2.queue = [] ∧ added.peer ≠ none
  | .remove request => ∀ peer, request.bind PeerRequest.peer = some peer →
      ∀ address ∈ s.2.queue, ¬ s.2.isFor peers peer address
  | .pop peek => ∀ head, s.2.queue.head? = some head → s.2.somethingToDo peers peek head ≠ none
  | .work _ _ => True

/-- Nothing was freed, and the queue has one entry at most, whose request has a peer. -/
structure Inv (s : PeerQueue × RequestList) (entries : List (Nat × Nat)) : Prop where
  represents : s.1.entries.Represents entries
  few : entries.length ≤ 1
  queued : entries.map Prod.snd = s.2.queue
  requests : s.1.requests = s.2.requests
  freed : s.1.freed = []
  peered : ∀ address ∈ s.2.queue, ∃ request, s.2.requests[address]? = some request ∧ request.peer ≠ none

section
variable {peers} {s : PeerQueue × RequestList} {entries : List (Nat × Nat)}

theorem Inv.cell (inv : Inv s entries) {entry : Nat × Nat} (mem : entry ∈ entries) :
    ∃ cell, s.1.cell entry.1 = some cell ∧ cell.current = entry.2 ∧ cell.prior = none ∧ cell.next = none := by
  obtain ⟨i, here⟩ := List.mem_iff_getElem?.mp mem
  have inside := (List.getElem?_eq_some_iff.mp here).1
  have single : i = 0 := by have := inv.few; omega
  subst single
  have last : entries[0 + 1]? = none := List.getElem?_eq_none (by have := inv.few; omega)
  have found := inv.represents.chain.getElem here
  rw [last] at found
  exact ⟨{ current := entry.2 }, by simp [PeerQueue.cell, found, inv.freed], rfl, rfl, rfl⟩

theorem Inv.findEntry (inv : Inv s entries) (peer : Peer) :
    s.1.findEntry peers (some peer) = some ((entries.find? fun entry => s.2.isFor peers peer entry.2).map Prod.fst) := by
  apply inv.represents.findFirst _ (s.2.isFor peers peer)
  intro entry mem
  obtain ⟨request, found, peered⟩ := inv.peered entry.2 (inv.queued ▸ List.mem_map_of_mem mem)
  obtain ⟨other, isPeer⟩ := Option.ne_none_iff_exists'.mp peered
  simp [inv.freed, PeerRequestQueue.comparesTo, PeerRequestQueue.peerOf, RequestList.isFor, inv.requests, found, isPeer]

theorem Inv.reads (inv : Inv s entries) : s.1.Reads peers s.2 where
  forward := by rw [inv.represents.forward, inv.queued]
  backward := by rw [inv.represents.backward, inv.queued]
  requests := inv.requests
  live := by simp [inv.freed]
  finds := by
    intro peer
    refine ⟨_, inv.findEntry peer, ?_⟩
    cases place : entries.find? fun entry => s.2.isFor peers peer entry.2 with
    | some entry =>
        have mem := List.mem_of_find?_eq_some place
        obtain ⟨cell, isCell, current, -⟩ := inv.cell mem
        refine ⟨cell, isCell, ?_⟩
        rw [current]
        exact ⟨inv.queued ▸ List.mem_map_of_mem mem, by simpa using List.find?_some place⟩
    | none =>
        intro address isQueued
        rw [← inv.queued] at isQueued
        obtain ⟨entry, mem, rfl⟩ := List.mem_map.mp isQueued
        simpa using List.find?_eq_none.mp place entry mem

theorem Inv.start : Inv start [] where
  represents := LinkedList.represents_empty
  few := Nat.zero_le _
  queued := rfl
  requests := rfl
  freed := rfl
  peered := by simp [PeerQueue.start]

/-- Before anything is freed, find_entry is that of the queue alone. -/
theorem findEntry_eq (queue : PeerRequestQueue) (peer : Option Peer) :
    ({ toPeerRequestQueue := queue } : PeerQueue).findEntry peers peer = queue.findEntry peers.compare peer := by
  cases peer <;> simp [PeerQueue.findEntry, PeerRequestQueue.findEntry]

/-! ## One call -/

theorem peerRequestSomethingToDo_peer {peek something : Int} {request request' : PeerRequest}
    (done : peerRequestSomethingToDo peers peek request = some (something, request')) (peered : request.peer ≠ none) :
    request'.peer ≠ none := by
  simp only [peerRequestSomethingToDo] at done
  split at done
  · cases done
    exact peered
  · split at done
    · cases done
      exact peered
    · split at done
      · cases done
        exact peered
      · obtain ⟨peer, isPeer⟩ := Option.ne_none_iff_exists'.mp peered
        simp only [isPeer, Option.bind_eq_bind, Option.bind_some] at done
        split at done
        · cases done
          exact peered
        · split at done
          · cases done
          · split at done
            · cases done
              simp
            · cases done
              exact peered

theorem Inv.add (inv : Inv s []) {request : PeerRequest} (peered : request.peer ≠ none) :
    Inv ((s.1.add (some request)).2, (s.2.call peers (.add (some request))).2)
      [(s.1.entries.cells.length, s.1.requests.length)] where
  represents :=
    { distinct := by simp
      first := by simp [PeerQueue.add, inv.represents.first]
      last := by simp [PeerQueue.add]
      chain := ⟨by simp [PeerQueue.add, inv.represents.last], trivial⟩ }
  few := le_rfl
  queued := by simp [RequestList.call, ← inv.queued, inv.requests]
  requests := by simp [PeerQueue.add, RequestList.call, inv.requests]
  freed := inv.freed
  peered := by
    intro address isQueued
    have isNew : address = s.2.requests.length := by simpa [RequestList.call, ← inv.queued] using isQueued
    exact ⟨request, by simp [RequestList.call, isNew], peered⟩

theorem Inv.work (inv : Inv s entries) {requests : List PeerRequest}
    (kept : ∀ (address : Nat) (request : PeerRequest), s.2.requests[address]? = some request → request.peer ≠ none →
      ∃ request', requests[address]? = some request' ∧ request'.peer ≠ none) :
    Inv ({ s.1 with requests }, { s.2 with requests }) entries where
  represents := inv.represents
  few := inv.few
  queued := inv.queued
  requests := rfl
  freed := inv.freed
  peered := by
    intro address isQueued
    obtain ⟨request, found, peered⟩ := inv.peered address isQueued
    exact kept address request found peered

theorem workOn_kept {requests : List PeerRequest} (place : Nat) (other : PeerRequest) (address : Nat)
    (request : PeerRequest) (found : requests[address]? = some request) (peered : request.peer ≠ none) :
    ∃ request', (workOn requests place other)[address]? = some request' ∧ request'.peer ≠ none := by
  rw [workOn, List.getElem?_modify, found]
  refine ⟨_, rfl, ?_⟩
  dsimp only
  split
  · split
    · rename_i same
      intro absent
      simp [absent] at same
      exact peered same
    · exact peered
  · exact peered

theorem Inv.none_isFor (inv : Inv s entries) {peer : Peer}
    (absent : ∀ address ∈ s.2.queue, ¬ s.2.isFor peers peer address) :
    s.1.findEntry peers (some peer) = some none ∧
      (s.2.call peers (.remove (some { peer := some peer }))) = (.flag false, s.2) := by
  constructor
  · rw [inv.findEntry peer, List.find?_eq_none.mpr, Option.map_none]
    exact fun entry mem => absent entry.2 (inv.queued ▸ List.mem_map_of_mem mem)
  · have others : s.2.queue.filter (fun address => !s.2.isFor peers peer address) = s.2.queue :=
      List.filter_eq_self.mpr fun address mem => by simpa using absent address mem
    simp only [RequestList.call, Option.bind_some, others, List.any_eq_false.mpr absent]

theorem Inv.remove_step (inv : Inv s entries) {request : Option PeerRequest}
    (allowed : Allowed peers s (.remove request)) :
    s.1.remove peers request = some (false, s.1) ∧ s.2.call peers (.remove request) = (.flag false, s.2) := by
  cases request with
  | none => exact ⟨rfl, rfl⟩
  | some request =>
      cases peer : request.peer with
      | none => simp [PeerQueue.remove, RequestList.call, PeerQueue.findEntry, peer]
      | some peer' =>
          obtain ⟨found, unchanged⟩ := inv.none_isFor (allowed peer' (by simp [peer]))
          simp only [RequestList.call, Option.bind_some] at unchanged
          simp [PeerQueue.remove, RequestList.call, peer, found, unchanged]

theorem Inv.pop_step (inv : Inv s entries) {peek : Int} (allowed : Allowed peers s (.pop peek)) :
    Agrees peers s (.pop peek) ∧ ∃ s', (machine peers).step s (.pop peek) = some s' ∧ Inv s' entries := by
  match entries, inv with
  | [], inv =>
      have first : s.1.entries.first = none := inv.represents.first
      have queue : s.2.queue = [] := inv.queued.symm
      refine ⟨⟨_, by simp only [PeerQueue.call, PeerQueue.pop, first]; rfl, ?_⟩, s, ?_, inv⟩
      · simp only [RequestList.call, queue]
      · simp only [machine, PeerQueue.call, PeerQueue.pop, first, RequestList.call, queue]
        rfl
  | [(entry, head)], inv =>
      have first : s.1.entries.first = some entry := inv.represents.first
      have queue : s.2.queue = [head] := inv.queued.symm
      obtain ⟨cell, isCell, current, -, next⟩ := inv.cell (List.mem_singleton.mpr rfl)
      obtain ⟨request, found, peered⟩ := inv.peered head (by simp [queue])
      obtain ⟨result, asked⟩ := Option.ne_none_iff_exists'.mp (allowed head (by simp [queue]))
      obtain ⟨something, request'⟩ := result
      have done : peerRequestSomethingToDo peers peek request = some (something, request') := by
        simpa [RequestList.somethingToDo, found] using asked
      have popped : s.1.pop peers peek =
          some (if something = 0 then none else some head, { s.1 with requests := s.1.requests.set head request' }) := by
        simp only [PeerQueue.pop, first, isCell, current, inv.requests, found, done, next, Option.bind_eq_bind,
          Option.bind_some]
        split <;> rfl
      have listed : s.2.call peers (.pop peek) =
          (.request (if something = 0 then none else some head),
            { s.2 with requests := s.2.requests.set head request' }) := by
        simp only [RequestList.call, queue, asked]
        split <;> simp
      have kept : ∀ (address : Nat) (old : PeerRequest), s.2.requests[address]? = some old → old.peer ≠ none →
          ∃ new, (s.2.requests.set head request')[address]? = some new ∧ new.peer ≠ none := by
        intro address old isOld oldPeer
        by_cases here : head = address
        · subst here
          have inside := (List.getElem?_eq_some_iff.mp isOld).1
          exact ⟨request', by simp [inside], peerRequestSomethingToDo_peer done peered⟩
        · exact ⟨old, by rw [List.getElem?_set_ne here, isOld], oldPeer⟩
      refine ⟨⟨_, by simp only [PeerQueue.call, popped]; rfl, by rw [listed]⟩, _, ?_, inv.work kept⟩
      simp only [machine, PeerQueue.call, popped, listed, inv.requests]
      rfl

theorem Inv.step (inv : Inv s entries) {call : QueueCall} (allowed : Allowed peers s call) :
    Agrees peers s call ∧ ∃ s' entries', (machine peers).step s call = some s' ∧ Inv s' entries' := by
  cases call with
  | add request =>
      cases request with
      | none => exact ⟨⟨_, rfl, rfl⟩, s, entries, rfl, inv⟩
      | some request =>
          obtain ⟨empty, peered⟩ := allowed request rfl
          obtain rfl : entries = [] := List.map_eq_nil_iff.mp (inv.queued.trans empty)
          exact ⟨⟨_, rfl, rfl⟩, _, _, rfl, inv.add peered⟩
  | remove request =>
      obtain ⟨removed, listed⟩ := inv.remove_step allowed
      refine ⟨⟨_, by rw [PeerQueue.call, removed]; rfl, by rw [listed]⟩, s, entries, ?_, inv⟩
      simp only [machine, PeerQueue.call, removed, listed]
      rfl
  | pop peek =>
      obtain ⟨agrees, s', stepped, inv'⟩ := inv.pop_step allowed
      exact ⟨agrees, s', entries, stepped, inv'⟩
  | work address request =>
      refine ⟨⟨_, rfl, rfl⟩, _, entries, rfl, ?_⟩
      have worked := @Inv.work s entries inv _ (workOn_kept address request)
      simpa [PeerQueue.call, RequestList.call, inv.requests] using worked

/-- The entry that is there does not get to know of the one behind it. -/
theorem Inv.add_forward {entry : Nat × Nat} (inv : Inv s [entry]) (request : PeerRequest) :
    (s.1.add (some request)).2.entries.forward = some [entry.2] := by
  have first : s.1.entries.first = some entry.1 := inv.represents.first
  have cell : s.1.entries.cells[entry.1]? = some ⟨none, entry.2, none⟩ :=
    inv.represents.chain.getElem (i := 0) rfl
  have inside := (List.getElem?_eq_some_iff.mp cell).1
  simp [PeerQueue.add, first, LinkedList.forward, LinkedList.walk, List.getElem?_append_left inside, cell]

theorem Inv.add_findEntry (inv : Inv s []) {request : PeerRequest} (peerless : request.peer = none) (peer : Peer) :
    (s.1.add (some request)).2.findEntry peers (some peer) = none := by
  have first : s.1.entries.first = none := inv.represents.first
  simp [PeerQueue.findEntry, PeerQueue.add, first, LinkedList.findFirst, LinkedList.find, inv.freed,
    PeerRequestQueue.comparesTo, PeerRequestQueue.peerOf, peerless]

/-- The entry of the peer is the first, and has none before it that could be hooked to the next. -/
theorem Inv.remove_present (inv : Inv s entries) {request : PeerRequest} {peer : Peer}
    (isPeer : request.peer = some peer)
    {address : Nat} (isQueued : address ∈ s.2.queue) (present : s.2.isFor peers peer address) :
    s.1.remove peers (some request) = none := by
  rw [← inv.queued] at isQueued
  obtain ⟨entry, mem, rfl⟩ := List.mem_map.mp isQueued
  have found := @Inv.findEntry peers s entries inv peer
  cases place : entries.find? fun entry => s.2.isFor peers peer entry.2 with
  | none => exact absurd present (List.find?_eq_none.mp place entry mem)
  | some other =>
      obtain ⟨cell, isCell, -, prior, -⟩ := inv.cell (List.mem_of_find?_eq_some place)
      rw [place, Option.map_some] at found
      simp [PeerQueue.remove, isPeer, found, isCell, prior]

theorem Inv.allowed (inv : Inv s entries) {call : QueueCall} (agrees : Agrees peers s call)
    {s' : PeerQueue × RequestList} (stepped : (machine peers).step s call = some s') (reads : s'.1.Reads peers s'.2) :
    Allowed peers s call := by
  obtain ⟨result, returned, -⟩ := agrees
  cases call with
  | add request =>
      rintro added rfl
      obtain rfl := Option.some.inj stepped
      match entries, inv with
      | [], inv =>
          refine ⟨inv.queued.symm, fun peerless => ?_⟩
          obtain ⟨found, finds, -⟩ := reads.finds { id := [] }
          have stuck := @Inv.add_findEntry peers s inv added peerless { id := [] }
          cases stuck.symm.trans finds
      | [entry], inv =>
          have forward := (inv.add_forward added).symm.trans reads.forward
          have queue : s.2.queue = [entry.2] := inv.queued.symm
          simp [RequestList.call, queue] at forward
  | remove request =>
      intro peer isPeer address isQueued present
      obtain ⟨removed, rfl, hasPeer⟩ := Option.bind_eq_some_iff.mp isPeer
      rw [PeerQueue.call, inv.remove_present hasPeer isQueued present] at returned
      cases returned
  | pop peek =>
      intro head isHead undefined
      match entries, inv with
      | [], inv =>
          rw [← inv.queued] at isHead
          cases isHead
      | [entry], inv =>
          have first : s.1.entries.first = some entry.1 := inv.represents.first
          obtain ⟨cell, isCell, current, -⟩ := inv.cell (List.mem_singleton.mpr rfl)
          obtain rfl : entry.2 = head := by simpa [← inv.queued] using isHead
          obtain ⟨request, found, -⟩ := inv.peered entry.2 (by simp [← inv.queued])
          have stuck : peerRequestSomethingToDo peers peek request = none := by
            simpa [RequestList.somethingToDo, found] using undefined
          simp [PeerQueue.call, PeerQueue.pop, first, isCell, current, inv.requests, found, stuck] at returned
  | work address request => trivial

end

/-- The queue is the list through exactly the runs of these calls: one request is added, none is removed. -/
theorem isList_iff (calls : List QueueCall) :
    IsList peers calls ↔ (machine peers).RunMeets (Allowed peers) start calls := by
  have good : ∀ s, (∃ entries, Inv s entries) → s.1.Reads peers s.2 := fun s ⟨entries, inv⟩ => inv.reads
  have each : ∀ s call, (∃ entries, Inv s entries) →
      (Allowed peers s call ↔
        Agrees peers s call ∧ ∃ s', (machine peers).step s call = some s' ∧ s'.1.Reads peers s'.2) := by
    rintro s call ⟨entries, inv⟩
    constructor
    · intro allowed
      obtain ⟨agrees, s', entries', stepped, inv'⟩ := inv.step allowed
      exact ⟨agrees, s', stepped, inv'.reads⟩
    · rintro ⟨agrees, s', stepped, reads⟩
      exact inv.allowed agrees stepped reads
  have preserved : ∀ s call s', (∃ entries, Inv s entries) → Allowed peers s call →
      (machine peers).step s call = some s' → ∃ entries, Inv s' entries := by
    rintro s call s' ⟨entries, inv⟩ allowed stepped
    obtain ⟨-, next, entries', stepped', inv'⟩ := inv.step allowed
    rw [stepped, Option.some.injEq] at stepped'
    exact ⟨entries', stepped' ▸ inv'⟩
  exact (Machine.runMeets_iff good each preserved ⟨[], Inv.start⟩).symm

/-- The second of two requests is not reached from the first, and the removal of the only one goes to the entry
before it. -/
theorem not_isList_two :
    ¬ IsList ⟨fun a b => if a.id = b.id then 0 else 1, id⟩
        [.add (some { peer := some { id := [1] } }), .add (some { peer := some { id := [2] } })] ∧
      ¬ IsList ⟨fun a b => if a.id = b.id then 0 else 1, id⟩
        [.add (some { peer := some { id := [1] } }), .remove (some { peer := some { id := [1] } })] := by
  constructor
  · rintro ⟨-, s, ran, reads⟩
    have shorter : ((machine ⟨fun a b => if a.id = b.id then 0 else 1, id⟩).run start
        [.add (some { peer := some { id := [1] } }), .add (some { peer := some { id := [2] } })]).map
          (fun s => (s.1.entries.forward, s.2.queue)) = some (some [0], [0, 1]) := by decide
    rw [ran, Option.map_some, Option.some.injEq, Prod.mk.injEq] at shorter
    have forward := reads.forward
    rw [shorter.1, shorter.2] at forward
    exact absurd forward (by decide)
  · rintro ⟨-, s, ran, -⟩
    have faults : (machine ⟨fun a b => if a.id = b.id then 0 else 1, id⟩).run start
        [.add (some { peer := some { id := [1] } }), .remove (some { peer := some { id := [1] } })] = none := by decide
    rw [faults] at ran
    cases ran

end PeerQueue
end Ipfs
