import Ipfs.Codec.Message
import Ipfs.Store.FsRepo

/-!
# The Bitswap network

What is kept for the peers and for the local wants, and what an incoming message does to it.
-/

namespace Ipfs

structure Peer where
  id : Bytes
  isLocal : Bool := false
  -- `connection_type` is `CONNECTION_TYPE_CONNECTED`
  connected : Bool := false
  -- `sessionContext` is not NULL
  session : Bool := false
  -- `addr_head` has an address
  address : Bool := false
  deriving DecidableEq

structure CidEntry where
  cid : Cid
  cancel : Bool := false
  cancelHasBeenSent : Bool := false
  requestHasBeenSent : Bool := false
  deriving DecidableEq

structure PeerRequest where
  peer : Option Peer := none
  cidsTheyWant : List CidEntry := []
  cidsWeWant : List CidEntry := []
  blocksWeWantToSend : List Block := []
  deriving DecidableEq

structure WantListQueueEntry where
  cid : Cid
  block : Option Block := none
  deriving DecidableEq

/-- `struct BitswapContext` with the repository of its node. The vector of the local want list is
NULL until the first want is added. -/
structure BitswapContext (lib : Library) where
  repo : FsRepo lib
  localWantlist : Option (List WantListQueueEntry)
  peerRequestQueue : List PeerRequest

structure Session where
  remotePeerId : Option Bytes
  -- `libp2p_peerstore_get_or_add_peer_by_id`
  peerstore : Bytes → Option Peer

variable {lib : Library}

def onRepo {α : Type} (x : Act (FsRepo lib) α) : Act (BitswapContext lib) α :=
  .zoom BitswapContext.repo (fun context repo => { context with repo }) x

/-! ## Payload -/

def wantlistQueueFind (wantlist : Option (List WantListQueueEntry)) (cid : Option Cid) : Outcome (Option Nat) := do
  let queue ← .access .nullPointer wantlist
  pure (queue.findIdx? fun entry => cidCompare cid (some entry.cid) = 0)

def bitswapHasBlock (block : Block) : Act (BitswapContext lib) Unit := do
  -- neither return value is looked at
  let _ ← (onRepo (blockstorePut block)).attempt
  let _ ← (onRepo (datastoreHelperAddBlockToDatastore block)).attempt
  let wantlist ← .gets BitswapContext.localWantlist
  match ← .lift (wantlistQueueFind wantlist block.cid) with
  | none => pure ()
  | some i => .modify fun context => { context with
      localWantlist := context.localWantlist.map (·.modify i fun entry => { entry with block := some block }) }

def handlePayload : List Block → Act (BitswapContext lib) Unit
  | [] => pure ()
  | blk :: payload => do
      let block ← .lift (blockCopy blk)
      bitswapHasBlock block
      handlePayload payload

/-! ## Wantlist -/

def peerRequestQueueFindPeer (peer : Peer) : Act (BitswapContext lib) Nat := fun context =>
  match context.peerRequestQueue.findIdx? fun request => request.peer.map Peer.id = some peer.id with
  | some i => (.returned i, context)
  | none => (.returned context.peerRequestQueue.length,
      { context with peerRequestQueue := context.peerRequestQueue ++ [{ peer := some peer }] })

/-- The loop steps the vector and not its index: it looks at the first entry and then behind the vector. -/
def networkAdjustCidQueue (collection : List CidEntry) (cid : Cid) (cancel : UInt8) : Outcome (List CidEntry) :=
  match collection with
  | [] => .returned (if cancel = 0 then [{ cid }] else [])
  | current :: rest =>
      if cidCompare (some current.cid) (some cid) = 0 then .returned (if cancel = 0 then current :: rest else rest)
      else .fault .outOfBounds

def wantedCid (pb : Protobuf) (entry : Option WantlistEntry) : Outcome Cid := do
  let entry ← .access .nullPointer entry
  let block ← .access .unassigned entry.block
  let decoded ← cidProtobufDecode pb block
  let cid ← .access .nullPointer decoded
  if cid.hash = [] then .failed else pure cid

def handleWants (pb : Protobuf) : List (Option WantlistEntry) → Act (List CidEntry) Unit
  | [] => pure ()
  | entry :: entries => do
      let cid ← .lift (wantedCid pb entry)
      let cancel ← .lift (.access .unassigned (entry.bind WantlistEntry.cancel))
      let cids ← .gets id
      let cids ← .lift (networkAdjustCidQueue cids cid cancel)
      .modify fun _ => cids
      handleWants pb entries

def BitswapContext.cidsTheyWant (context : BitswapContext lib) (i : Nat) : List CidEntry :=
  (context.peerRequestQueue[i]?.map PeerRequest.cidsTheyWant).getD []

def BitswapContext.setCidsTheyWant (i : Nat) (context : BitswapContext lib) (cidsTheyWant : List CidEntry) :
    BitswapContext lib :=
  { context with peerRequestQueue := context.peerRequestQueue.modify i ({ · with cidsTheyWant }) }

def handleWantlist (session : Session) (entries : List (Option WantlistEntry)) : Act (BitswapContext lib) Unit := do
  let remotePeerId ← .lift (.ofOption session.remotePeerId)
  let peer ← .lift (.ofOption (session.peerstore remotePeerId))
  let i ← peerRequestQueueFindPeer peer
  .zoom (·.cidsTheyWant i) (BitswapContext.setCidsTheyWant i) (handleWants lib.pb entries)

/-! ## Messages -/

/-- "/ipfs/bitswap/1.1.0" and a newline. -/
def bitswapHeader : Bytes :=
  [0x2f, 0x69, 0x70, 0x66, 0x73, 0x2f, 0x62, 0x69, 0x74, 0x73, 0x77, 0x61, 0x70, 0x2f, 0x31, 0x2e, 0x31, 0x2e, 0x30,
   0x0a]

/-- What follows the protocol header, which is searched for with an `int`. -/
def messageBody (bytes : Bytes) : Outcome Bytes :=
  match bytes.findIdx? (· = 0x0a) with
  | some i => if i < 2 ^ 31 - 1 then .returned (bytes.drop (i + 1)) else .fault .overflow
  | none => if bytes.length < 2 ^ 31 then .failed else .fault .overflow

def networkHandleMessage (session : Session) (bytes : Bytes) : Act (BitswapContext lib) Unit := do
  let body ← .lift (messageBody bytes)
  let decoded ← .lift (bitswapMessageProtobufDecode lib.pb body)
  let message ← .lift (.access .nullPointer decoded)
  handlePayload (message.payload.getD [])
  match (message.wantlist.bind BitswapWantlist.entries).getD [] with
  | [] => pure ()
  | entries => handleWantlist session entries

end Ipfs
