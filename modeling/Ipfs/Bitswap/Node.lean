import Ipfs.Bitswap.Engine
import Ipfs.Bitswap.PeerRequest
import Ipfs.Lib.Parties

/-!
# A Bitswap node

What the threads of a node do: those that add and want blocks, the two processors of the engine, and the handler
of messages.
-/

namespace Ipfs

/-- `struct IpfsNode` with its Bitswap context, and all that was written to the streams of its peers. -/
structure BitswapNode (lib : Library) where
  repo : FsRepo lib
  wantlist : WantListQueue := {}
  peerRequestQueue : List PeerRequest := []
  sent : List Bytes := []

variable {lib : Library}

namespace BitswapNode

def context (node : BitswapNode lib) : BitswapContext lib where
  repo := node.repo
  localWantlist := node.wantlist.queue.map fun queue => queue.map WantListEntry.toWantListQueueEntry
  peerRequestQueue := node.peerRequestQueue

def setContext (node : BitswapNode lib) (context : BitswapContext lib) : BitswapNode lib :=
  { node with
    repo := context.repo
    wantlist := ⟨context.localWantlist.map fun queue =>
      node.wantlist.entries.zipWith (fun entry current => { entry with toWantListQueueEntry := current }) queue⟩
    peerRequestQueue := context.peerRequestQueue }

def modifyRequest (place : Nat) (f : PeerRequest → PeerRequest) (node : BitswapNode lib) : BitswapNode lib :=
  { node with peerRequestQueue := node.peerRequestQueue.modify place f }

/-- `blockstore->Get`. -/
def get (node : BitswapNode lib) (cid : Cid) : Option Block :=
  match blockstoreGet node.repo cid with
  | .returned block => some block
  | _ => none

end BitswapNode

def onContext {α : Type} (x : Act (BitswapContext lib) α) : Act (BitswapNode lib) α :=
  .zoom BitswapNode.context BitswapNode.setContext x

/-! ## Wants -/

/-- `ipfs_bitswap_get_block` until it waits: the block, or the place of the want that it waits for. -/
def bitswapGetBlock (cid : Cid) : Act (BitswapNode lib) (Block ⊕ Nat) := fun node =>
  match blockstoreGet node.repo cid with
  | .returned block => (.returned (.inl block), node)
  | .fault cause => (.fault cause, node)
  | .failed =>
      match node.wantlist.add cid (some .localNode) with
      | .returned (entry, wantlist) => (.returned (.inr entry), { node with wantlist })
      | .failed => (.failed, node)
      | .fault cause => (.fault cause, node)

variable (compare : Peer → Peer → Int)

def wantManagerRemove (cid : Cid) : Act (BitswapNode lib) Unit := do
  let wantlist ← .gets BitswapNode.wantlist
  let (_, wantlist) ← .lift (wantlist.remove compare cid (some .localNode))
  .modify ({ · with wantlist })

/-- A look of `ipfs_bitswap_get_block` at the want that it waits for. -/
def bitswapGetBlockLook (cid : Cid) (wantEntry : Nat) : Act (BitswapNode lib) (Option Block) := do
  let wantlist ← .gets BitswapNode.wantlist
  let entry ← .lift (.access .outOfBounds wantlist.entries[wantEntry]?)
  match entry.block with
  | none => pure none
  | some found => do
      let block ← .lift (blockCopy found)
      -- error or not, we no longer need the block
      wantManagerRemove compare cid
      pure (some block)

/-! ## Peer requests -/

/-- The two connection attempts, and the return value of the stream's write. -/
structure SendAttempt where
  connect : Connecting
  reconnect : Connecting
  bytesWritten : Int

def SendAttempt.exchange (sending : SendAttempt) (get : Cid → Option Block) : Exchange :=
  { get, connect := sending.connect, reconnect := sending.reconnect, bytesWritten := sending.bytesWritten }

/-- What the stream takes: the message behind the protocol header. `malloc` has no 2^63 bytes. -/
def peerRequestSent (pb : Protobuf) (exchange : Exchange) (request : PeerRequest) : Option Bytes :=
  match (peerRequestProcessEntry pb exchange request).1 with
  | .returned () =>
      let msg := (peerRequestBuildMessage pb exchange.get request).1
      match bitswapMessageProtobufEncodeSize (some msg) with
      | .returned bufSize =>
          if bufSize + 20 < 2 ^ 63 then
            match bitswapMessageProtobufEncode pb (some msg) bufSize with
            | .returned buf => some (bitswapHeader ++ buf)
            | _ => none
          else none
      | _ => none
  | _ => none

/-- `ipfs_bitswap_peer_request_process_entry` for the request at a place of the queue. -/
def processPeerRequest (place : Nat) (sending : SendAttempt) : Act (BitswapNode lib) Unit := fun node =>
  match node.peerRequestQueue[place]? with
  | none => (.failed, node)
  | some request =>
      let exchange := sending.exchange node.get
      let (result, processed) := peerRequestProcessEntry lib.pb exchange request
      (result, { node with
        peerRequestQueue := node.peerRequestQueue.set place processed
        sent := node.sent ++ (peerRequestSent lib.pb exchange request).toList })

/-! ## The want list processor -/

/-- `ipfs_bitswap_wantlist_get_block_remote` with the providers that the router found. -/
def wantlistGetBlockRemote (cid : Cid) : List (Peer × SendAttempt) → Act (BitswapNode lib) Unit
  | [] => pure ()
  | (current, sending) :: providers => do
      let queueEntry ← onContext (peerRequestQueueFindPeer current)
      .modify fun node => node.modifyRequest queueEntry fun request =>
        { request with cidsWeWant := request.cidsWeWant ++ [{ cid }] }
      -- process this queue via bitswap protocol
      let _ ← (processPeerRequest queueEntry sending).attempt
      wantlistGetBlockRemote cid providers

/-- The loop that fulfills the requests of the sessions of an entry. -/
def wantlistFill (block : Block) : List (Option WantListSession) → Act (BitswapNode lib) Unit
  | [] => pure ()
  | none :: _ => .lift (.fault .nullPointer)
  | some .localNode :: sessions => wantlistFill block sessions
  | some (.remote peer) :: sessions => do
      let entry ← onContext (peerRequestQueueFindPeer peer)
      .modify fun node => node.modifyRequest entry fun request =>
        { request with blocksWeWantToSend := request.blocksWeWantToSend ++ [block] }
      wantlistFill block sessions

def BitswapNode.surroundings (node : BitswapNode lib) (providers : Option (List (Peer × SendAttempt))) :
    WantListQueue.Surroundings :=
  { get := node.get, getBlockRemote := fun _ => providers.isSome }

/-- `ipfs_bitswap_wantlist_process_entry`. -/
def wantlistProcessEntry (providers : Option (List (Peer × SendAttempt))) (item : Nat) : Act (BitswapNode lib) Unit := do
  let node ← .gets id
  let entry ← .lift (.access .outOfBounds node.wantlist.entries[item]?)
  let processed := WantListQueue.processEntry (node.surroundings providers) entry
  let wanted := if node.get entry.cid = none ∧ WantListQueue.localRequest entry.sessionsRequesting then
    providers.getD [] else []
  wantlistGetBlockRemote entry.cid wanted
  .modify fun node => { node with wantlist := ⟨node.wantlist.queue.map fun queue => queue.set item processed⟩ }
  match processed.block with
  | none => pure ()
  | some block => wantlistFill block entry.sessionsRequesting

/-- A round of `ipfs_bitswap_engine_wantlist_processor_start`. -/
def wantlistProcessorRound (providers : Option (List (Peer × SendAttempt))) : Act (BitswapNode lib) Unit := do
  let wantlist ← .gets BitswapNode.wantlist
  match wantlist.pop with
  | none => pure ()
  | some item => do
      let entry ← .lift (.access .outOfBounds wantlist.entries[item]?)
      -- we have tried too many times
      if 10 < entry.attempts then
        let wantlist ← .lift (WantListQueue.giveUp compare item entry.sessionsRequesting.length 0 wantlist)
        .modify ({ · with wantlist })
      else wantlistProcessEntry providers item

/-! ## The network -/

inductive BitswapCall
  | merkledagAdd (node : HashtableNode)
  | hasBlock (block : Block)
  | getBlock (cid : Cid)
  | look (cid : Cid) (wantEntry : Nat)
  | stopWaiting (cid : Cid)
  | wantlistProcessor (providers : Option (List (Peer × SendAttempt)))
  | peerRequestProcessor (place : Nat) (sending : SendAttempt)
  -- the connection of the peer of a request, which other threads change
  | link (place : Nat) (connecting : Connecting)

def BitswapCall.perform (node : BitswapNode lib) : BitswapCall → BitswapNode lib
  | .merkledagAdd dagNode => (onContext (onRepo (Ipfs.merkledagAdd dagNode)) node).2
  | .hasBlock block => (onContext (bitswapHasBlock block) node).2
  | .getBlock cid => (bitswapGetBlock cid node).2
  | .look cid wantEntry => (bitswapGetBlockLook compare cid wantEntry node).2
  | .stopWaiting cid => (wantManagerRemove compare cid node).2
  | .wantlistProcessor providers => (wantlistProcessorRound compare providers node).2
  | .peerRequestProcessor place sending => (processPeerRequest place sending node).2
  | .link place connecting => node.modifyRequest place fun request =>
      { request with peer := request.peer.map (·.connect connecting) }

/-- Nodes that run Bitswap. The messages of the nodes may arrive anywhere, in any order, repeatedly, or never. -/
def bitswapNetwork (lib : Library) : Parties (BitswapNode lib) BitswapCall Session Bytes where
  act call node := call.perform compare node
  receive session bytes node := (onContext (networkHandleMessage session bytes) node).2
  sent := BitswapNode.sent

end Ipfs
