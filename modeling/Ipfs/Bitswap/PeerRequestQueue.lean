import Ipfs.Bitswap.Network
import Ipfs.Lib.LinkedList
import Ipfs.Lib.Run

/-!
# The queue of peer requests

A doubly linked list of entries, each with a pointer to its request.
-/

namespace Ipfs

/-- `struct PeerRequestQueue` with the memory behind it: the requests that were allocated, and the entries,
whose `current` is the address of a request. -/
structure PeerRequestQueue where
  requests : List PeerRequest := []
  entries : LinkedList Nat := {}
  deriving DecidableEq

namespace PeerRequestQueue
variable (compare : Peer → Peer → Int)

/-- `ipfs_bitswap_peer_request_queue_new`. -/
def new : PeerRequestQueue := {}

def peerOf (queue : PeerRequestQueue) (request : Nat) : Option Peer :=
  queue.requests[request]?.bind PeerRequest.peer

def comparesTo (queue : PeerRequestQueue) (peer : Peer) (request : Nat) : Option Bool :=
  (queue.peerOf request).map fun other => compare other peer = 0

/-- `ipfs_bitswap_peer_request_queue_find_entry`: the address of the entry, or NULL. -/
def findEntry (queue : PeerRequestQueue) (peer : Option Peer) : Option (Option Nat) :=
  match peer with
  | none => some none
  | some peer => queue.entries.findFirst (queue.comparesTo compare peer)

/-- `ipfs_peer_request_queue_find_peer`: the address of the request. -/
def findPeer (queue : PeerRequestQueue) (peer : Peer) : Option (Nat × PeerRequestQueue) := do
  match ← queue.entries.findFirst (queue.comparesTo compare peer) with
  | some entry =>
      let cell ← queue.entries.cells[entry]?
      some (cell.current, queue)
  | none =>
      -- we didn't find one, so create one
      let request := queue.requests.length
      let entries ← queue.entries.pushBack request
      some (request, { requests := queue.requests ++ [{ peer := some peer }], entries })

inductive Call
  | findPeer (peer : Peer)
  | findEntry (peer : Option Peer)

def Call.passed : Call → Option Peer
  | .findPeer peer => some peer
  | .findEntry _ => none

def machine : Machine PeerRequestQueue Call where
  step queue
    | .findPeer peer => (queue.findPeer compare peer).map Prod.snd
    | .findEntry peer => (queue.findEntry compare peer).map fun _ => queue

def remember (seen : List Peer) (peer : Peer) : List Peer :=
  if ∃ other ∈ seen, compare other peer = 0 then seen else seen ++ [peer]

/-- Of the peers that compare equal, the one that came first. -/
def distinctPeers (peers : List Peer) : List Peer := peers.foldl (remember compare) []

/-- The queue is a list of entries whose requests are for these peers. -/
structure Holds (queue : PeerRequestQueue) (peers : List Peer) (entries : List (Nat × Nat)) : Prop where
  represents : queue.entries.Represents entries
  peers : entries.map (fun entry => queue.peerOf entry.2) = peers.map some

section
variable {queue : PeerRequestQueue} {peers : List Peer} {entries : List (Nat × Nat)}

theorem holds_new : new.Holds [] [] := ⟨LinkedList.represents_empty, rfl⟩

theorem Holds.peerOf (holds : queue.Holds peers entries) {entry : Nat × Nat} (mem : entry ∈ entries) :
    ∃ other ∈ peers, queue.peerOf entry.2 = some other := by
  have mapped : queue.peerOf entry.2 ∈ peers.map some := holds.peers ▸ List.mem_map_of_mem mem
  obtain ⟨other, isPeer, same⟩ := List.mem_map.mp mapped
  exact ⟨other, isPeer, same.symm⟩

theorem Holds.entry (holds : queue.Holds peers entries) {other : Peer} (mem : other ∈ peers) :
    ∃ entry ∈ entries, queue.peerOf entry.2 = some other := by
  have mapped : some other ∈ entries.map fun entry => queue.peerOf entry.2 := holds.peers ▸ List.mem_map_of_mem mem
  exact List.mem_map.mp mapped

theorem Holds.findFirst_eq (holds : queue.Holds peers entries) (compare : Peer → Peer → Int) (peer : Peer) :
    queue.entries.findFirst (queue.comparesTo compare peer) =
      some ((entries.find? fun entry => (queue.comparesTo compare peer entry.2).getD false).map Prod.fst) :=
  holds.represents.findFirst _ (fun request => (queue.comparesTo compare peer request).getD false) fun entry mem => by
    obtain ⟨other, _, isPeer⟩ := holds.peerOf mem
    simp [comparesTo, isPeer]

theorem Holds.findFirst (holds : queue.Holds peers entries) (peer : Peer) :
    (∃ entry ∈ entries, queue.entries.findFirst (queue.comparesTo compare peer) = some (some entry.1) ∧
        ∃ other ∈ peers, compare other peer = 0) ∨
      (queue.entries.findFirst (queue.comparesTo compare peer) = some none ∧ ∀ other ∈ peers, compare other peer ≠ 0) := by
  have found := holds.findFirst_eq compare peer
  cases place : entries.find? fun entry => (queue.comparesTo compare peer entry.2).getD false with
  | some entry =>
      rw [place, Option.map_some] at found
      have mem := List.mem_of_find?_eq_some place
      obtain ⟨other, isPeer, same⟩ := holds.peerOf mem
      have equal : compare other peer = 0 := by
        simpa [comparesTo, same] using List.find?_some place
      exact .inl ⟨entry, mem, found, other, isPeer, equal⟩
  | none =>
      rw [place, Option.map_none] at found
      refine .inr ⟨found, fun other isPeer => ?_⟩
      obtain ⟨entry, mem, same⟩ := holds.entry isPeer
      simpa [comparesTo, same] using List.find?_eq_none.mp place entry mem

theorem Holds.attach (holds : queue.Holds peers entries) (peer : Peer) :
    ∃ list, queue.entries.pushBack queue.requests.length = some list ∧
      Holds { requests := queue.requests ++ [{ peer := some peer }], entries := list } (peers ++ [peer])
        (entries ++ [(queue.entries.cells.length, queue.requests.length)]) := by
  obtain ⟨list, pushed, represents⟩ := holds.represents.pushBack queue.requests.length
  refine ⟨list, pushed, represents, ?_⟩
  rw [List.map_append, List.map_append, ← holds.peers]
  congr 1
  · apply List.map_congr_left
    intro entry mem
    obtain ⟨other, _, same⟩ := holds.peerOf mem
    obtain ⟨request, allocated, _⟩ := Option.bind_eq_some_iff.mp same
    have inside := (List.getElem?_eq_some_iff.mp allocated).1
    simp [PeerRequestQueue.peerOf, List.getElem?_append_left inside]
  · simp [PeerRequestQueue.peerOf]

theorem Holds.findPeer (holds : queue.Holds peers entries) (peer : Peer) :
    ∃ request queue' entries', queue.findPeer compare peer = some (request, queue') ∧
      queue'.Holds (remember compare peers peer) entries' := by
  rcases holds.findFirst compare peer with ⟨entry, mem, found, known⟩ | ⟨found, unknown⟩
  · obtain ⟨cell, isCell, _⟩ := holds.represents.chain.cell mem
    exact ⟨cell.current, queue, entries, by simp [PeerRequestQueue.findPeer, found, isCell],
      by rwa [remember, if_pos known]⟩
  · obtain ⟨list, pushed, holds'⟩ := holds.attach peer
    rw [remember, if_neg fun ⟨other, isPeer, same⟩ => unknown other isPeer same]
    refine ⟨queue.requests.length, _, _, ?_, holds'⟩
    simp only [PeerRequestQueue.findPeer, found, pushed, Option.bind_eq_bind, Option.bind_some]

theorem Holds.findEntry (holds : queue.Holds peers entries) (peer : Option Peer) :
    ∃ address, queue.findEntry compare peer = some address := by
  cases peer with
  | none => exact ⟨none, rfl⟩
  | some peer =>
      rcases holds.findFirst compare peer with ⟨entry, _, found, _⟩ | ⟨found, _⟩
      · exact ⟨_, found⟩
      · exact ⟨_, found⟩

theorem run_holds (calls : List Call) (holds : queue.Holds peers entries) :
    ∃ queue' entries', (machine compare).run queue calls = some queue' ∧
      queue'.Holds ((calls.filterMap Call.passed).foldl (remember compare) peers) entries' := by
  induction calls generalizing queue peers entries with
  | nil => exact ⟨queue, entries, rfl, holds⟩
  | cons call calls ih =>
      cases call with
      | findPeer peer =>
          obtain ⟨request, next, entries', found, holds'⟩ := holds.findPeer compare peer
          have step : (machine compare).step queue (.findPeer peer) = some next := by simp [machine, found]
          obtain ⟨queue', last, ran, holds''⟩ := ih holds'
          exact ⟨queue', last, by rw [Machine.run, step, Option.bind_some, ran], holds''⟩
      | findEntry peer =>
          obtain ⟨address, found⟩ := holds.findEntry compare peer
          have step : (machine compare).step queue (.findEntry peer) = some queue := by simp [machine, found]
          obtain ⟨queue', last, ran, holds'⟩ := ih holds
          exact ⟨queue', last, by rw [Machine.run, step, Option.bind_some, ran], holds'⟩

variable {compare}

theorem foldl_remember_iff (equivalence : Equivalence fun a b => compare a b = 0) (seen peers : List Peer) (peer : Peer) :
    (∃ other ∈ peers.foldl (remember compare) seen, compare other peer = 0) ↔
      ∃ other ∈ seen ++ peers, compare other peer = 0 := by
  induction peers generalizing seen with
  | nil => simp
  | cons next peers ih =>
      rw [List.foldl_cons, ih, remember]
      split
      · rename_i known
        obtain ⟨other, isSeen, same⟩ := known
        constructor
        · rintro ⟨found, mem, equal⟩
          exact ⟨found, by simp only [List.mem_append, List.mem_cons] at mem ⊢; tauto, equal⟩
        · rintro ⟨found, mem, equal⟩
          simp only [List.mem_append, List.mem_cons] at mem
          rcases mem with old | rfl | later
          · exact ⟨found, by simp [old], equal⟩
          · exact ⟨other, by simp [isSeen], equivalence.trans same equal⟩
          · exact ⟨found, by simp [later], equal⟩
      · simp

theorem exists_distinctPeers_iff (equivalence : Equivalence fun a b => compare a b = 0) (peers : List Peer) (peer : Peer) :
    (∃ other ∈ distinctPeers compare peers, compare other peer = 0) ↔ ∃ other ∈ peers, compare other peer = 0 :=
  foldl_remember_iff equivalence [] peers peer

theorem distinctPeers_pairwise (peers : List Peer) :
    (distinctPeers compare peers).Pairwise fun first second => compare first second ≠ 0 := by
  rw [distinctPeers]
  suffices grow : ∀ seen : List Peer, seen.Pairwise (fun first second => compare first second ≠ 0) →
      (peers.foldl (remember compare) seen).Pairwise fun first second => compare first second ≠ 0 from grow [] .nil
  induction peers with
  | nil => exact fun seen apart => apart
  | cons peer peers ih =>
      intro seen apart
      rw [List.foldl_cons]
      apply ih
      rw [remember]
      split
      · exact apart
      · rename_i unknown
        rw [List.pairwise_append]
        refine ⟨apart, by simp, fun other isSeen new isNew same => ?_⟩
        obtain rfl := List.mem_singleton.mp isNew
        exact unknown ⟨other, isSeen, same⟩

/-! ## The queue as a list of requests -/

structure Abstracts (queue : PeerRequestQueue) (requests : List PeerRequest) (entries : List (Nat × Nat)) : Prop where
  represents : queue.entries.Represents entries
  requests : entries.map (fun entry => queue.requests[entry.2]?) = requests.map some

theorem Abstracts.holds {requests : List PeerRequest} (abstracts : queue.Abstracts requests entries)
    (peers : List Peer) (named : requests.map PeerRequest.peer = peers.map some) : queue.Holds peers entries := by
  refine ⟨abstracts.represents, ?_⟩
  rw [← named]
  have mapped := congrArg (List.map fun request => request.bind PeerRequest.peer) abstracts.requests
  simpa [Function.comp_def, PeerRequestQueue.peerOf] using mapped

theorem Abstracts.findIdx {requests : List PeerRequest} (abstracts : queue.Abstracts requests entries)
    (ids : ∀ a b, compare a b = 0 ↔ a.id = b.id) (peer : Peer) :
    entries.findIdx? (fun entry => (queue.comparesTo compare peer entry.2).getD false) =
      requests.findIdx? fun request => request.peer.map Peer.id = some peer.id := by
  let isOf (request : Option PeerRequest) : Bool := (request.bind PeerRequest.peer).map Peer.id = some peer.id
  have each (entry : Nat × Nat) :
      (queue.comparesTo compare peer entry.2).getD false = isOf queue.requests[entry.2]? := by
    show ((queue.requests[entry.2]?.bind PeerRequest.peer).map _).getD false =
      decide ((queue.requests[entry.2]?.bind PeerRequest.peer).map Peer.id = some peer.id)
    cases queue.requests[entry.2]?.bind PeerRequest.peer with
    | none => rfl
    | some other => simp [ids]
  calc entries.findIdx? (fun entry => (queue.comparesTo compare peer entry.2).getD false)
      = (entries.map fun entry => queue.requests[entry.2]?).findIdx? isOf := by
        simp only [List.findIdx?_map, Function.comp_def, each]
    _ = (requests.map some).findIdx? isOf := by rw [abstracts.requests]
    _ = requests.findIdx? fun request => request.peer.map Peer.id = some peer.id := by
        simp only [List.findIdx?_map, Function.comp_def, isOf, Option.bind_some]

theorem Abstracts.findPeer {lib : Library} {context : BitswapContext lib} {peers : List Peer}
    (abstracts : queue.Abstracts context.peerRequestQueue entries) (ids : ∀ a b, compare a b = 0 ↔ a.id = b.id)
    (named : context.peerRequestQueue.map PeerRequest.peer = peers.map some) (peer : Peer) :
    ∃ i context' request queue' entries', peerRequestQueueFindPeer peer context = (.returned i, context') ∧
      queue.findPeer compare peer = some (request, queue') ∧ queue'.Abstracts context'.peerRequestQueue entries' ∧
      entries'[i]?.map Prod.snd = some request := by
  have holds := abstracts.holds peers named
  have found := holds.findFirst_eq compare peer
  have place := abstracts.findIdx ids peer
  rw [List.find?_eq_bind_findIdx?_getElem?, place] at found
  cases search : context.peerRequestQueue.findIdx? fun request => request.peer.map Peer.id = some peer.id with
  | some i =>
      obtain ⟨inside, _⟩ := List.findIdx?_eq_some_iff_getElem.mp (place.trans search)
      have here := List.getElem?_eq_getElem inside
      rw [search, Option.bind_some, here, Option.map_some] at found
      obtain ⟨cell, isCell, current⟩ := holds.represents.chain.cell (List.getElem_mem inside)
      refine ⟨i, context, cell.current, queue, entries, ?_, ?_, abstracts, ?_⟩
      · rw [peerRequestQueueFindPeer, search]
      · simp [PeerRequestQueue.findPeer, found, isCell]
      · rw [here, Option.map_some, current]
  | none =>
      rw [search, Option.bind_none, Option.map_none] at found
      obtain ⟨list, pushed, represents⟩ := holds.represents.pushBack queue.requests.length
      have length : entries.length = context.peerRequestQueue.length := by
        simpa using congrArg List.length abstracts.requests
      refine ⟨_, _, queue.requests.length, { requests := queue.requests ++ [{ peer := some peer }], entries := list }, _,
        by rw [peerRequestQueueFindPeer, search], ?_, ⟨represents, ?_⟩, ?_⟩
      · simp only [PeerRequestQueue.findPeer, found, pushed, Option.bind_eq_bind, Option.bind_some]
      · rw [List.map_append, List.map_append, ← abstracts.requests]
        congr 1
        · apply List.map_congr_left
          intro entry mem
          obtain ⟨other, _, same⟩ := holds.peerOf mem
          obtain ⟨request, allocated, _⟩ := Option.bind_eq_some_iff.mp same
          exact List.getElem?_append_left (List.getElem?_eq_some_iff.mp allocated).1
        · simp
      · simp [← length]

end

end PeerRequestQueue

open PeerRequestQueue in
/-- After any calls from a new queue on, the queue is a doubly linked list with one entry for each distinct peer
that was passed to find_peer, in the order in which they came first, and the lookups agree. -/
theorem peerRequestQueue_invariant (compare : Peer → Peer → Int) (equivalence : Equivalence fun a b => compare a b = 0) (calls : List Call) :
    ∃ queue entries, (machine compare).run new calls = some queue ∧
      queue.entries.Represents entries ∧ queue.entries.DoublyLinked (entries.map Prod.fst) ∧
      entries.map (fun entry => queue.peerOf entry.2) =
        (distinctPeers compare (calls.filterMap Call.passed)).map some ∧
      (distinctPeers compare (calls.filterMap Call.passed)).Pairwise (fun first second => compare first second ≠ 0) ∧
      queue.findEntry compare none = some none ∧
      ∀ peer, if ∃ other ∈ calls.filterMap Call.passed, compare other peer = 0 then
          ∃ address cell, queue.findEntry compare (some peer) = some (some address) ∧
            queue.entries.cells[address]? = some cell ∧ queue.findPeer compare peer = some (cell.current, queue)
        else queue.findEntry compare (some peer) = some none := by
  obtain ⟨queue, entries, ran, holds⟩ := run_holds compare calls holds_new
  refine ⟨queue, entries, ran, holds.represents, holds.represents.doublyLinked, holds.peers,
    distinctPeers_pairwise _, rfl, fun peer => ?_⟩
  have known := exists_distinctPeers_iff equivalence (calls.filterMap Call.passed) peer
  rcases holds.findFirst compare peer with ⟨entry, mem, found, other⟩ | ⟨found, unknown⟩
  · obtain ⟨cell, isCell, _⟩ := holds.represents.chain.cell mem
    rw [if_pos (known.mp other)]
    exact ⟨entry.1, cell, found, isCell, by simp [findPeer, found, isCell]⟩
  · rw [if_neg fun passed => ?_]
    · exact found
    · obtain ⟨other, isPeer, same⟩ := known.mpr passed
      exact unknown other isPeer same

open PeerRequestQueue in
theorem peerRequestQueue_invariant_twoPeers :
    ∃ queue entries, (machine fun a b => if a.id = b.id then 0 else 1).run new
        [.findPeer { id := [1] }, .findEntry (some { id := [2] }), .findPeer { id := [2] },
          .findPeer { id := [1], address := true }] = some queue ∧
      queue.entries.Represents entries ∧
      entries.map (fun entry => queue.peerOf entry.2) = [some { id := [1] }, some { id := [2] }] := by
  obtain ⟨queue, entries, ran, represents, _, peers, _⟩ :=
    peerRequestQueue_invariant (fun a b => if a.id = b.id then 0 else 1)
      ⟨fun _ => by simp, fun same => by simp_all, fun first second => by simp_all⟩
      [.findPeer { id := [1] }, .findEntry (some { id := [2] }), .findPeer { id := [2] },
        .findPeer { id := [1], address := true }]
  exact ⟨queue, entries, ran, represents, peers.trans (by decide)⟩

end Ipfs
