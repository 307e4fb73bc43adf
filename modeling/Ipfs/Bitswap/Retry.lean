import Ipfs.Bitswap.Announcement

/-!
# When a peer request can be tried again

The queues are changed while the message is built, before it is known whether it can be sent.
-/

namespace Ipfs

/-- Nothing is lost: the blocks to send and the flags of all entries are what they were. -/
structure PeerRequest.Untouched (before after : PeerRequest) : Prop where
  blocksWeWantToSend : after.blocksWeWantToSend = before.blocksWeWantToSend
  cidsTheyWant : after.cidsTheyWant = before.cidsTheyWant
  cidsWeWant : after.cidsWeWant = before.cidsWeWant

def Retryable (pb : Protobuf) (exchange : Exchange) (request : PeerRequest) : Prop :=
  (peerRequestProcessEntry pb exchange request).1 = .returned () ∨
    request.Untouched (peerRequestProcessEntry pb exchange request).2

def PeerRequest.Reachable (request : PeerRequest) (exchange : Exchange) (peer : Peer) : Prop :=
  request.peer = some peer ∧
    (peer.isLocal ∨ peer.connected ∨ (peer.address ∧ exchange.connect.returned))

def PeerRequest.Takes (request : PeerRequest) (get : Cid → Option Block) : Prop :=
  request.blocksWeWantToSend ≠ [] ∨
    (∃ entry ∈ request.cidsTheyWant, entry.cancel = false ∧ (get entry.cid).isSome) ∨
    ∃ entry ∈ request.cidsWeWant, entry.Pending

def Peer.beforeSend (peer : Peer) (exchange : Exchange) : Peer :=
  if peer.isLocal ∨ peer.connected then peer else peer.connect exchange.connect

def Peer.Sends (peer : Peer) (exchange : Exchange) : Prop :=
  ((peer.beforeSend exchange).reconnect exchange).connected ∧
    ((peer.beforeSend exchange).reconnect exchange).session ∧ 0 < exchange.bytesWritten

section
variable (pb : Protobuf) {exchange : Exchange} {request : PeerRequest}

/-! ## What building a message takes -/

theorem messageCancelCid_cancelled {cids : List CidEntry} (cid : Option Cid) {i : Nat}
    (cancelled : ∃ entry, cids[i]? = some entry ∧ entry.cancel) :
    ∃ entry, (messageCancelCid cids cid)[i]? = some entry ∧ entry.cancel := by
  induction cids generalizing i with
  | nil => exact cancelled
  | cons entry cids ih =>
      rw [messageCancelCid]
      by_cases same : cidCompare (some entry.cid) cid = 0
      · rw [if_pos same]
        cases i with
        | zero => exact ⟨_, rfl, rfl⟩
        | succ i => exact cancelled
      · rw [if_neg same]
        cases i with
        | zero => exact cancelled
        | succ i => exact ih cancelled

theorem messageCancelCids_cancelled {cids : List CidEntry} (blocks : List Block) {i : Nat}
    (cancelled : ∃ entry, cids[i]? = some entry ∧ entry.cancel) :
    ∃ entry, (blocks.foldl (fun cids current => messageCancelCid cids current.cid) cids)[i]? = some entry ∧
      entry.cancel := by
  induction blocks generalizing cids with
  | nil => exact cancelled
  | cons block blocks ih => exact ih (messageCancelCid_cancelled block.cid cancelled)

theorem messageAddBlocks_cancelled {cids : List CidEntry} (message : BitswapMessage) (blocks : List Block) {i : Nat}
    (cancelled : ∃ entry, cids[i]? = some entry ∧ entry.cancel) :
    ∃ entry, (messageAddBlocks message blocks cids).2.2[i]? = some entry ∧ entry.cancel := by
  rw [messageAddBlocks]
  split
  · exact cancelled
  · exact messageCancelCids_cancelled blocks cancelled

theorem messageAddBlocks_blocks (message : BitswapMessage) (blocks : List Block) (cids : List CidEntry) :
    (messageAddBlocks message blocks cids).2.1 = [] := by
  rw [messageAddBlocks]
  split
  · assumption
  · rfl

theorem peerRequestGetBlocksTheyWant_none {get : Cid → Option Block}
    (none : ∀ entry ∈ request.cidsTheyWant, entry.cancel = false → get entry.cid = none) :
    peerRequestGetBlocksTheyWant get request = request := by
  have found : ∀ entry ∈ request.cidsTheyWant, (if entry.cancel then Option.none else get entry.cid) = Option.none := by
    intro entry mem
    cases cancel : entry.cancel with
    | true => rfl
    | false => exact none entry mem cancel
  have blocks : request.cidsTheyWant.filterMap (fun entry => if entry.cancel then Option.none else get entry.cid) = [] :=
    List.filterMap_eq_nil_iff.mpr found
  have cids : request.cidsTheyWant.map (fun entry =>
      if (if entry.cancel then Option.none else get entry.cid).isSome then { entry with cancel := true } else entry) =
        request.cidsTheyWant := by
    refine (List.map_congr_left fun entry mem => ?_).trans (List.map_id _)
    rw [found entry mem]
    rfl
  simp only [peerRequestGetBlocksTheyWant, blocks, cids, List.append_nil]

theorem peerRequestBuildMessage_untouched_iff (get : Cid → Option Block)
    (sized : ∀ entry ∈ request.cidsWeWant, entry.Sized) :
    request.Untouched (peerRequestBuildMessage pb get request).2 ↔ ¬ request.Takes get := by
  have wants : (peerRequestBuildMessage pb get request).2.cidsWeWant = request.cidsWeWant.map CidEntry.told := by
    simp only [peerRequestBuildMessage, messageAddWantlistItems, peerRequestGetBlocksTheyWant,
      wantlistItems_eq pb 0 _ sized]
  have blocks : (peerRequestBuildMessage pb get request).2.blocksWeWantToSend = [] := messageAddBlocks_blocks _ _ _
  constructor
  · rintro untouched (queued | ⟨entry, mem, live, found⟩ | ⟨entry, mem, pending⟩)
    · exact queued (untouched.blocksWeWantToSend.symm.trans blocks)
    · obtain ⟨i, here⟩ := List.mem_iff_getElem?.mp mem
      obtain ⟨entry', here', cancelled⟩ : ∃ entry,
          (peerRequestBuildMessage pb get request).2.cidsTheyWant[i]? = some entry ∧ entry.cancel := by
        refine messageAddBlocks_cancelled _ _ ⟨{ entry with cancel := true }, ?_, rfl⟩
        simp [peerRequestGetBlocksTheyWant, here, live, found]
      rw [untouched.cidsTheyWant, here, Option.some.injEq] at here'
      rw [← here', live] at cancelled
      exact absurd cancelled (by simp)
    · obtain ⟨i, here⟩ := List.mem_iff_getElem?.mp mem
      have same := congrArg (·[i]?) (wants.symm.trans untouched.cidsWeWant)
      simp only [List.getElem?_map, here, Option.map_some, Option.some.injEq] at same
      exact entry.told_not_pending (by rwa [same])
  · intro takes
    simp only [PeerRequest.Takes, not_or, not_exists, not_and, ne_eq, not_not] at takes
    obtain ⟨empty, absent, told⟩ := takes
    have fetched : peerRequestGetBlocksTheyWant get request = request :=
      peerRequestGetBlocksTheyWant_none fun entry mem live => by simpa using absent entry mem live
    refine ⟨blocks.trans empty.symm, ?_, ?_⟩
    · simp only [peerRequestBuildMessage, fetched, messageAddBlocks, empty, if_true]
    · rw [wants]
      refine (List.map_congr_left fun entry mem => ?_).trans (List.map_id _)
      rw [CidEntry.told, if_neg (told entry mem)]
      rfl

/-! ## When the message is sent -/

theorem messageAddBlocks_wantlist (message : BitswapMessage) (blocks : List Block) (cids : List CidEntry) :
    (messageAddBlocks message blocks cids).1.wantlist = message.wantlist := by
  rw [messageAddBlocks]
  split <;> rfl

theorem peerRequestBuildMessage_encodable {get : Cid → Option Block}
    (sized : ∀ entry ∈ request.cidsWeWant, entry.Sized)
    (short : (peerRequestBuildMessage pb get request).1.size < 2 ^ 64) :
    (peerRequestBuildMessage pb get request).1.Encodable := by
  refine ⟨fun list present => ?_, short⟩
  simp only [peerRequestBuildMessage, messageAddWantlistItems, messageAddBlocks_wantlist, Option.getD_none,
    Option.some.injEq] at present
  subst present
  refine ⟨_, rfl, fun entry mem => ?_⟩
  have announced : (peerRequestGetBlocksTheyWant get request).cidsWeWant = request.cidsWeWant := rfl
  rw [announced, wantlistItems_eq pb 0 _ sized] at mem
  simp only [List.nil_append, List.mem_map, List.mem_filterMap, Option.ite_none_right_eq_some] at mem
  obtain ⟨_, ⟨_, _, _, same⟩, rfl⟩ := mem
  obtain rfl := Option.some.inj same
  exact ⟨_, _, _, rfl⟩

theorem networkSendMessage_returned_iff {message : BitswapMessage} (encodable : message.Encodable) (peer : Peer) :
    (networkSendMessage pb exchange message peer).1 = .returned () ↔
      (peer.reconnect exchange).connected ∧ (peer.reconnect exchange).session ∧ 0 < exchange.bytesWritten := by
  have start : networkSendMessage pb exchange message peer =
      ((do
        let peer ← .gets id
        if peer.connected = false then .lift .failed
        else
          let bufSize ← .lift (bitswapMessageProtobufEncodeSize (some message))
          let _ ← .lift (bitswapMessageProtobufEncode pb (some message) bufSize)
          if peer.session = false then .lift (.fault .nullPointer)
          else if exchange.bytesWritten ≤ 0 then .lift .failed else pure () : Act Peer Unit)
        (peer.reconnect exchange)) := rfl
  rw [start, Act.bind_apply]
  simp only [Act.gets, id, bitswapMessageProtobufEncodeSize_eq encodable.wantlist]
  cases connected : (peer.reconnect exchange).connected with
  | false => simp
  | true =>
      cases session : (peer.reconnect exchange).session with
      | false => simp [bitswapMessageProtobufEncode_written pb encodable]
      | true =>
          by_cases written : exchange.bytesWritten ≤ 0
          · simp [bitswapMessageProtobufEncode_written pb encodable, written, not_lt.mpr written]
          · simp [bitswapMessageProtobufEncode_written pb encodable, written, not_le.mp written]

theorem PeerRequest.Takes.needToConnect {get : Cid → Option Block} (takes : request.Takes get) :
    request.needToConnect = true := by
  rcases takes with queued | ⟨entry, mem, live, _⟩ | wanted
  · simp [PeerRequest.needToConnect, queued]
  · have waiting : peerRequestCidsWaiting request.cidsTheyWant = true :=
      List.any_eq_true.mpr ⟨entry, mem, by simp [live]⟩
    simp [PeerRequest.needToConnect, waiting]
  · have want : peerRequestWeWantCids request.cidsWeWant = true := (peerRequestWeWantCids_iff _).mpr wanted
    simp [PeerRequest.needToConnect, want]

end

theorem peerRequestProcessEntry_reachable (pb : Protobuf) {exchange : Exchange} {request : PeerRequest} {peer : Peer}
    (reachable : request.Reachable exchange peer) (need : request.needToConnect = true) :
    peerRequestProcessEntry pb exchange request =
      ((networkSendMessage pb exchange (peerRequestBuildMessage pb exchange.get request).1
          (peer.beforeSend exchange)).1,
        { (peerRequestBuildMessage pb exchange.get request).2 with
          peer := some (networkSendMessage pb exchange (peerRequestBuildMessage pb exchange.get request).1
            (peer.beforeSend exchange)).2 }) := by
  obtain ⟨isPeer, reached⟩ := reachable
  cases isLocal : peer.isLocal <;> cases connected : peer.connected <;>
    simp_all [peerRequestProcessEntry, Peer.beforeSend]

theorem peerRequestProcessEntry_unreachable (pb : Protobuf) {exchange : Exchange} {request : PeerRequest}
    (unreachable : request.needToConnect = false ∨ ∀ peer, ¬ request.Reachable exchange peer) :
    request.Untouched (peerRequestProcessEntry pb exchange request).2 := by
  have same (peer : Option Peer) : request.Untouched { request with peer } := ⟨rfl, rfl, rfl⟩
  rw [peerRequestProcessEntry]
  cases isPeer : request.peer with
  | none => exact ⟨rfl, rfl, rfl⟩
  | some peer =>
      by_cases noAddress : peer.isLocal = false ∧ peer.connected = false ∧ peer.address = false
      · simp only [if_pos noAddress]
        exact ⟨rfl, rfl, rfl⟩
      by_cases idle : request.needToConnect = false
      · simp only [if_neg noAddress, if_pos idle]
        exact ⟨rfl, rfl, rfl⟩
      by_cases connected : (peer.isLocal || peer.connected || exchange.connect.returned) = true
      · have unreached := (unreachable.resolve_left idle) peer
        refine absurd ⟨isPeer, ?_⟩ unreached
        cases isLocal : peer.isLocal <;> cases isConnected : peer.connected <;> simp_all
      · simp only [if_neg noAddress, if_neg idle, if_neg connected]
        exact same _

/-- A request whose one want has not been sent, and a peer that is connected but does not take the message. -/
def wantRequest : PeerRequest :=
  { peer := some { id := [1], connected := true, session := true }, cidsWeWant := [{ cid := cidNew 1 [5, 6] cidDagProtobuf }] }

def brokenStream : Exchange where
  get _ := none
  connect := ⟨false, false, false⟩
  reconnect := ⟨false, false, false⟩
  bytesWritten := -1

def workingStream : Exchange := { brokenStream with bytesWritten := 100 }

end Ipfs
