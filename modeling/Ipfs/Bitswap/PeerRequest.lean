import Ipfs.Bitswap.Network

/-!
# Processing a peer request

The message for a peer is built from the queues of its request, which are emptied or flagged on the
way, and sent last.
-/

namespace Ipfs

/-! ## Is there something to do -/

def peerRequestCidsWaiting (cidEntries : List CidEntry) : Bool := cidEntries.any fun entry => !entry.cancel

def peerRequestWeWantCids (cidEntries : List CidEntry) : Bool :=
  cidEntries.any fun entry =>
    (entry.cancel && !entry.cancelHasBeenSent) || (!entry.cancel && !entry.requestHasBeenSent)

/-! ## Building the message -/

def peerRequestGetBlocksTheyWant (get : Cid → Option Block) (request : PeerRequest) : PeerRequest :=
  let found (cidEntry : CidEntry) : Option Block := if cidEntry.cancel then none else get cidEntry.cid
  { request with
    blocksWeWantToSend := request.blocksWeWantToSend ++ request.cidsTheyWant.filterMap found
    cidsTheyWant := request.cidsTheyWant.map fun cidEntry =>
      if (found cidEntry).isSome then { cidEntry with cancel := true } else cidEntry }

def messageCancelCid : List CidEntry → Option Cid → List CidEntry
  | [], _ => []
  | entry :: entries, incomingCid =>
      if cidCompare (some entry.cid) incomingCid = 0 then { entry with cancel := true } :: entries
      else entry :: messageCancelCid entries incomingCid

def messageAddBlocks (message : BitswapMessage) (blocks : List Block) (cidsTheyWant : List CidEntry) :
    BitswapMessage × List Block × List CidEntry :=
  if blocks = [] then (message, blocks, cidsTheyWant)
  else ({ message with payload := some (message.payload.getD [] ++ blocks) }, [],
    blocks.foldl (fun cids current => messageCancelCid cids current.cid) cidsTheyWant)

structure WantlistItems where
  cids : List CidEntry
  -- each with the place of its CidEntry
  entries : List (Nat × WantlistEntry)
  complete : Bool

/-- The loop of `ipfs_bitswap_message_add_wantlist_items`, from an index on. -/
def wantlistItems (pb : Protobuf) : Nat → List CidEntry → WantlistItems
  | _, [] => ⟨[], [], true⟩
  | i, cidEntry :: cids =>
      if (cidEntry.cancel && cidEntry.cancelHasBeenSent) || (!cidEntry.cancel && cidEntry.requestHasBeenSent) then
        let rest := wantlistItems pb (i + 1) cids
        ⟨cidEntry :: rest.cids, rest.entries, rest.complete⟩
      else match cidProtobufEncode pb (some cidEntry.cid) (cidProtobufEncodeSize (some cidEntry.cid)) with
        | none => ⟨cidEntry :: cids, [], false⟩
        | some block =>
            let rest := wantlistItems pb (i + 1) cids
            let sent := if cidEntry.cancel then { cidEntry with cancelHasBeenSent := true }
              else { cidEntry with requestHasBeenSent := true }
            let entry : WantlistEntry :=
              { block := some block, priority := some 1, cancel := some (if cidEntry.cancel then 1 else 0) }
            ⟨sent :: rest.cids, (i, entry) :: rest.entries, rest.complete⟩

def messageAddWantlistItems (pb : Protobuf) (message : BitswapMessage) (cids : List CidEntry) :
    Bool × BitswapMessage × List CidEntry :=
  let list := message.wantlist.getD {}
  let items := wantlistItems pb 0 cids
  let entries := list.entries.getD [] ++ items.entries.map fun (_, entry) => some entry
  (items.complete, { message with wantlist := some { list with entries := some entries } }, items.cids)

def peerRequestBuildMessage (pb : Protobuf) (get : Cid → Option Block) (request : PeerRequest) :
    BitswapMessage × PeerRequest :=
  let request := peerRequestGetBlocksTheyWant get request
  let (msg, blocksWeWantToSend, cidsTheyWant) :=
    messageAddBlocks {} request.blocksWeWantToSend request.cidsTheyWant
  let (_, msg, cidsWeWant) := messageAddWantlistItems pb msg request.cidsWeWant
  (msg, { request with blocksWeWantToSend, cidsTheyWant, cidsWeWant })

/-! ## Sending it -/

/-- How a call of `libp2p_peer_connect` ends: its return value, and the peer behind it. -/
structure Connecting where
  returned : Bool
  connected : Bool
  session : Bool

/-- What the request is processed with: `blockstore->Get`, the two connection attempts and the return
value of the stream's write. -/
structure Exchange where
  get : Cid → Option Block
  connect : Connecting
  reconnect : Connecting
  bytesWritten : Int

def Peer.connect (peer : Peer) (connecting : Connecting) : Peer :=
  { peer with connected := connecting.connected, session := connecting.session }

def Peer.reconnect (peer : Peer) (exchange : Exchange) : Peer :=
  if peer.connected = false ∨ peer.session = false then peer.connect exchange.reconnect else peer

def networkSendMessage (pb : Protobuf) (exchange : Exchange) (message : BitswapMessage) : Act Peer Unit := do
  .modify (·.reconnect exchange)
  let peer ← .gets id
  if peer.connected = false then .lift .failed
  else
    let bufSize ← .lift (bitswapMessageProtobufEncodeSize (some message))
    let _ ← .lift (bitswapMessageProtobufEncode pb (some message) bufSize)
    if peer.session = false then .lift (.fault .nullPointer)
    else if exchange.bytesWritten ≤ 0 then .lift .failed else pure ()

def PeerRequest.needToConnect (request : PeerRequest) : Bool :=
  peerRequestWeWantCids request.cidsWeWant || peerRequestCidsWaiting request.cidsTheyWant ||
    request.blocksWeWantToSend ≠ []

def peerRequestProcessEntry (pb : Protobuf) (exchange : Exchange) : Act PeerRequest Unit := fun request =>
  match request.peer with
  | none => (.failed, request)
  | some peer =>
      if peer.isLocal = false ∧ peer.connected = false ∧ peer.address = false then (.failed, request)
      else if request.needToConnect = false then (.failed, request)
      else
        let connected := peer.isLocal || peer.connected
        let peer := if connected then peer else peer.connect exchange.connect
        if connected || exchange.connect.returned then
          let (msg, request) := peerRequestBuildMessage pb exchange.get request
          let (result, peer) := networkSendMessage pb exchange msg peer
          (result, { request with peer := some peer })
        else (.failed, { request with peer := some peer })

end Ipfs
