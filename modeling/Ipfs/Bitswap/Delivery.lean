import Ipfs.Bitswap.Provenance

/-!
# A block that is delivered

A node wants a block and asks the provider that the router names; the provider answers with the block.
-/

namespace Ipfs

variable {lib : Library}

/-! ## The request of a peer -/

/-- The place of the request for a peer, and the queue with it. -/
def queueWith (peer : Peer) (queue : List PeerRequest) : Nat × List PeerRequest :=
  match queue.findIdx? fun request => request.peer.map Peer.id = some peer.id with
  | some i => (i, queue)
  | none => (queue.length, queue ++ [{ peer := some peer }])

theorem peerRequestQueueFindPeer_eq (peer : Peer) (context : BitswapContext lib) :
    peerRequestQueueFindPeer peer context = (.returned (queueWith peer context.peerRequestQueue).1,
      { context with peerRequestQueue := (queueWith peer context.peerRequestQueue).2 }) := by
  rw [peerRequestQueueFindPeer, queueWith]
  cases context.peerRequestQueue.findIdx? fun request => request.peer.map Peer.id = some peer.id <;> rfl

theorem BitswapNode.setContext_queue (node : BitswapNode lib) (queue : List PeerRequest) :
    node.setContext { node.context with peerRequestQueue := queue } = { node with peerRequestQueue := queue } := by
  obtain ⟨repo, ⟨wants⟩, requests, sent⟩ := node
  cases wants with
  | none => rfl
  | some wants =>
      have same : wants.zipWith (fun entry current => { entry with toWantListQueueEntry := current })
          (wants.map WantListEntry.toWantListQueueEntry) = wants := by
        rw [List.zipWith_map_right, List.zipWith_self]
        exact List.map_id _
      simp only [setContext, context, WantListQueue.entries, Option.map_some, Option.getD_some, same]

theorem onContext_findPeer (peer : Peer) (node : BitswapNode lib) :
    onContext (peerRequestQueueFindPeer peer) node = (.returned (queueWith peer node.peerRequestQueue).1,
      { node with peerRequestQueue := (queueWith peer node.peerRequestQueue).2 }) := by
  rw [onContext, Act.zoom, peerRequestQueueFindPeer_eq]
  simp only [BitswapNode.setContext_queue]
  rfl

/-! ## Sending a message -/

/-- Nothing is on its way to or from the peer. -/
structure PeerRequest.Quiet (request : PeerRequest) : Prop where
  told : ∀ entry ∈ request.cidsWeWant, ¬ entry.Pending
  served : ∀ entry ∈ request.cidsTheyWant, entry.cancel
  blocks : request.blocksWeWantToSend = []

theorem processPeerRequest_sends {node : BitswapNode lib} {place : Nat} {sending : SendAttempt} {request : PeerRequest}
    {peer : Peer} (here : node.peerRequestQueue[place]? = some request)
    (reachable : request.Reachable (sending.exchange node.get) peer) (sends : peer.Sends (sending.exchange node.get))
    (need : request.needToConnect = true)
    (fits : (peerRequestBuildMessage lib.pb node.get request).1.size + 20 < 2 ^ 63) :
    ∃ processed, processPeerRequest place sending node = (.returned (), { node with
      peerRequestQueue := node.peerRequestQueue.set place processed
      sent := node.sent ++ [bitswapHeader ++ writtenMessage (peerRequestBuildMessage lib.pb node.get request).1] }) := by
  let exchange := sending.exchange node.get
  obtain ⟨-, wantlist, -⟩ := peerRequestBuildMessage_parts lib.pb node.get request
  have sendable (list : BitswapWantlist)
      (present : (peerRequestBuildMessage lib.pb node.get request).1.wantlist = some list) : list.Sendable :=
    Option.some.inj (wantlist.symm.trans present) ▸ request.wantlist_sendable lib.pb
  have encodable : (peerRequestBuildMessage lib.pb node.get request).1.Encodable := ⟨sendable, by omega⟩
  have processed := peerRequestProcessEntry_reachable lib.pb reachable need
  have returned := (networkSendMessage_returned_iff lib.pb encodable (peer.beforeSend exchange)).mpr sends
  have result : (peerRequestProcessEntry lib.pb exchange request).1 = .returned () := by
    rw [processed]
    exact returned
  have isSent : peerRequestSent lib.pb exchange request =
      some (bitswapHeader ++ writtenMessage (peerRequestBuildMessage lib.pb node.get request).1) := by
    rw [peerRequestSent, result]
    dsimp only [exchange, SendAttempt.exchange]
    rw [bitswapMessageProtobufEncodeSize_eq sendable]
    dsimp only
    rw [if_pos fits, bitswapMessageProtobufEncode_written lib.pb encodable]
  have outcome : processPeerRequest place sending node = ((peerRequestProcessEntry lib.pb exchange request).1,
      { node with
        peerRequestQueue := node.peerRequestQueue.set place (peerRequestProcessEntry lib.pb exchange request).2
        sent := node.sent ++ (peerRequestSent lib.pb exchange request).toList }) := by
    rw [processPeerRequest, here]
  exact ⟨_, by rw [outcome, result, isSent, Option.toList_some]⟩

/-! ## The message that asks and the message that answers -/

section
variable (pb : Protobuf) {request : PeerRequest} {cid : Cid}

theorem wantlistItems_told_append (i : Nat) {cids : List CidEntry} (told : ∀ entry ∈ cids, ¬ entry.Pending)
    {entry : CidEntry} (pending : entry.Pending) (sized : entry.Sized) :
    ((wantlistItems pb i (cids ++ [entry])).entries.map fun item => some item.2) = [some entry.item] := by
  induction cids generalizing i with
  | nil =>
      rw [List.nil_append, wantlistItems_cons_pending pb i [] pending sized]
      rfl
  | cons first cids ih =>
      rw [List.cons_append, wantlistItems_cons_told pb i _ (told first List.mem_cons_self)]
      exact ih (i + 1) fun entry mem => told entry (List.mem_cons_of_mem _ mem)

theorem payload_of_served {get : Cid → Option Block} {cids : List CidEntry} (served : ∀ entry ∈ cids, entry.cancel) :
    cids.filterMap (fun entry => if entry.cancel then none else get entry.cid) = [] := by
  refine List.filterMap_eq_nil_iff.mpr fun entry mem => ?_
  rw [if_pos (served entry mem)]

/-- The request with one more want. -/
def PeerRequest.wanting (request : PeerRequest) (cid : Cid) : PeerRequest :=
  { request with cidsWeWant := request.cidsWeWant ++ [{ cid }] }

theorem PeerRequest.Quiet.asks (quiet : request.Quiet) (short : cid.hash.length < 2 ^ 32) (get : Cid → Option Block) :
    (request.wanting cid).needToConnect = true ∧ (request.wanting cid).payload get = [] ∧
      (request.wanting cid).wantlist pb = { entries := some [some (CidEntry.item { cid })] } := by
  have pending : CidEntry.Pending { cid } := .inr ⟨rfl, rfl⟩
  refine ⟨?_, ?_, ?_⟩
  · have want : peerRequestWeWantCids (request.wanting cid).cidsWeWant = true :=
      (peerRequestWeWantCids_iff _).mpr ⟨{ cid }, by simp [wanting], pending⟩
    rw [needToConnect, want, Bool.true_or, Bool.true_or]
  · rw [payload, show (request.wanting cid).blocksWeWantToSend = [] from quiet.blocks]
    exact payload_of_served quiet.served
  · have items := wantlistItems_told_append pb 0 quiet.told pending (show cid.hash.length < 2 ^ 64 by omega)
    exact congrArg (fun entries => ({ entries := some entries } : BitswapWantlist)) items

/-- A quiet request of a peer that wants one block, and nothing that it was served before. -/
def PeerRequest.wanted (request : PeerRequest) (cid : Cid) : PeerRequest := { request with cidsTheyWant := [{ cid }] }

theorem PeerRequest.Quiet.answers (quiet : request.Quiet) {get : Cid → Option Block} {block : Block}
    (found : get cid = some block) :
    (request.wanted cid).needToConnect = true ∧ (request.wanted cid).payload get = [block] ∧
      (request.wanted cid).wantlist pb = { entries := some [] } := by
  refine ⟨?_, ?_, ?_⟩
  · rw [needToConnect, show peerRequestCidsWaiting (request.wanted cid).cidsTheyWant = true from rfl, Bool.or_true,
      Bool.true_or]
  · rw [payload, show (request.wanted cid).blocksWeWantToSend = [] from quiet.blocks]
    simp [wanted, found]
  · have items := wantlistItems_told pb 0 request.cidsWeWant quiet.told
    have entries : (wantlistItems pb 0 (request.wanted cid).cidsWeWant).entries = [] := by
      rw [show (request.wanted cid).cidsWeWant = request.cidsWeWant from rfl, items]
    rw [wantlist, entries, List.map_nil]

theorem peerRequestBuildMessage_size (get : Cid → Option Block) (request : PeerRequest) :
    (peerRequestBuildMessage pb get request).1.size =
      ((request.payload get).map fun block => 11 + blocksBlockProtobufEncodeSize block).sum +
        (((request.wantlist pb).entries.getD []).map WantlistEntry.size).sum + 68 := by
  obtain ⟨payload, wantlist, blocks⟩ := peerRequestBuildMessage_parts pb get request
  rw [BitswapMessage.size, payload, wantlist, blocks]
  simp
  omega

end

/-! ## Taking a message -/

/-- The handler goes through the blocks as they arrive and through the wants. -/
theorem networkHandleMessage_built (session : Session) (get : Cid → Option Block) (request : PeerRequest)
    (cids : ∀ block ∈ request.payload get, block.cid.isSome) (context : BitswapContext lib) :
    networkHandleMessage session
        (bitswapHeader ++ writtenMessage (peerRequestBuildMessage lib.pb get request).1) context =
      (do
        handlePayload ((request.payload get).map Block.received)
        if ((request.wantlist lib.pb).entries.getD []).isEmpty then pure ()
        else handleWantlist session ((request.wantlist lib.pb).entries.getD []) : Act (BitswapContext lib) Unit) context := by
  obtain ⟨payload, wantlist, -⟩ := peerRequestBuildMessage_parts lib.pb get request
  obtain ⟨message', decoded, received, entries⟩ := bitswapMessageProtobufDecode_writtenMessage lib.pb wantlist
    (request.wantlist_sendable lib.pb) (by rwa [payload])
  rw [networkHandleMessage, messageBody_header]
  simp only [Act.lift_bind, decoded, Outcome.access_some, received, payload, entries]
  cases (request.wantlist lib.pb).entries.getD [] <;> rfl

/-! ## The five steps -/

section
variable {cid : Cid}

theorem bitswapGetBlock_wants {node : BitswapNode lib} (absent : blockstoreGet node.repo cid = .failed)
    (fresh : WantListQueue.place node.wantlist.entries cid = none) :
    bitswapGetBlock cid node = (.returned (.inr node.wantlist.entries.length), { node with
      wantlist := ⟨some (node.wantlist.entries ++ [WantListQueue.addSession (some .localNode)
        (WantListQueue.addSession (some .localNode) { cid, priority := 1 })])⟩ }) := by
  have added : node.wantlist.add cid (some .localNode) = .returned (node.wantlist.entries.length,
      ⟨some (node.wantlist.entries ++ [WantListQueue.addSession (some .localNode)
        (WantListQueue.addSession (some .localNode) { cid, priority := 1 })])⟩) := by
    have place : WantListQueue.place (node.wantlist.queue.getD []) cid = none := fresh
    rw [WantListQueue.add]
    simp only [WantListQueue.find_some, place, cidCopy, Outcome.access_some, Outcome.returned_bind, Outcome.pure_def,
      WantListQueue.modify_length]
    rfl
  rw [bitswapGetBlock, absent]
  simp only [added]

/-- The next want of the processor, when no other one is pending. -/
theorem WantListQueue.pop_append {entries : List WantListEntry} (idle : (⟨some entries⟩ : WantListQueue).pop = none)
    {entry : WantListEntry} (pending : entry.block = none ∧ entry.askedNetwork = false) :
    (⟨some (entries ++ [entry])⟩ : WantListQueue).pop = some entries.length := by
  have none : (⟨some entries⟩ : WantListQueue).entries.findIdx? (fun current =>
      current.block = none && !current.askedNetwork) = none := idle
  rw [pop, show (⟨some (entries ++ [entry])⟩ : WantListQueue).entries = entries ++ [entry] from rfl,
    List.findIdx?_append, show entries.findIdx? (fun current => current.block = Option.none && !current.askedNetwork) = Option.none
      from none]
  simp [pending]

/-- The request for a peer is quiet, and a message to the peer goes through. -/
structure BitswapNode.Route (node : BitswapNode lib) (provider : Peer) (sending : SendAttempt) (request : PeerRequest) : Prop where
  isRequest : (queueWith provider node.peerRequestQueue).2[(queueWith provider node.peerRequestQueue).1]? = some request
  quiet : request.Quiet
  goes : ∃ peer, request.Reachable (sending.exchange node.get) peer ∧ peer.Sends (sending.exchange node.get)

theorem wantlistGetBlockRemote_asks {node : BitswapNode lib} {provider : Peer} {sending : SendAttempt} {request : PeerRequest}
    (route : node.Route provider sending request) (short : cid.hash.length < 2 ^ 32) :
    ∃ queue, wantlistGetBlockRemote cid [(provider, sending)] node = (.returned (), { node with
      peerRequestQueue := queue
      sent := node.sent ++ [bitswapHeader ++
        writtenMessage (peerRequestBuildMessage lib.pb node.get (request.wanting cid)).1] }) := by
  obtain ⟨isRequest, quiet, peer, reachable, sends⟩ := route
  let place := (queueWith provider node.peerRequestQueue).1
  let queue := (queueWith provider node.peerRequestQueue).2
  let asking : BitswapNode lib := { node with peerRequestQueue := queue.modify place (·.wanting cid) }
  have here : asking.peerRequestQueue[place]? = some (request.wanting cid) := by
    rw [List.getElem?_modify, isRequest]
    simp [place]
  obtain ⟨need, payload, wantlist⟩ := quiet.asks lib.pb short node.get
  have fits : (peerRequestBuildMessage lib.pb node.get (request.wanting cid)).1.size + 20 < 2 ^ 63 := by
    have item := cidBytes_length_le cid (by omega)
    rw [peerRequestBuildMessage_size, payload, wantlist]
    simp only [List.map_nil, List.sum_nil, List.map_cons, List.sum_cons, Option.getD_some, CidEntry.item, WantlistEntry.size,
      cidProtobufEncodeSize] at item ⊢
    omega
  obtain ⟨processed, isSent⟩ := processPeerRequest_sends here reachable sends need fits
  refine ⟨asking.peerRequestQueue.set place processed, ?_⟩
  rw [wantlistGetBlockRemote, Act.bind_returned (onContext_findPeer provider node)]
  exact Act.attempt_bind_returned isSent fun _ => wantlistGetBlockRemote cid []

/-- The round of the processor in which a want has its turn. -/
theorem wantlistProcessorRound_item (compare : Peer → Peer → Int) (providers : Option (List (Peer × SendAttempt)))
    {node : BitswapNode lib} {item : Nat} {entry : WantListEntry} (popped : node.wantlist.pop = some item)
    (isEntry : node.wantlist.entries[item]? = some entry) (few : ¬ 10 < entry.attempts) :
    wantlistProcessorRound compare providers node = wantlistProcessEntry providers item node := by
  rw [wantlistProcessorRound]
  refine (Act.bind_returned (show Act.gets BitswapNode.wantlist node = (.returned node.wantlist, node) from rfl) _).trans ?_
  simp only [popped, isEntry, Act.lift_bind, Outcome.access_some]
  exact congrFun (if_neg few) node

/-- A want of the node itself that no file answers goes to the providers. -/
theorem wantlistProcessEntry_asks {providers : List (Peer × SendAttempt)} {node asked : BitswapNode lib} {item : Nat}
    {entry : WantListEntry} (isEntry : node.wantlist.entries[item]? = some entry) (absent : node.get entry.cid = none)
    (isLocal : WantListQueue.localRequest entry.sessionsRequesting = true) (unfilled : entry.block = none)
    (asks : wantlistGetBlockRemote entry.cid providers node = (.returned (), asked)) :
    wantlistProcessEntry (some providers) item node = (.returned (), { asked with
      wantlist := ⟨asked.wantlist.queue.map fun queue => queue.set item { entry with askedNetwork := true }⟩ }) := by
  have processed : WantListQueue.processEntry (node.surroundings (some providers)) entry =
      { entry with askedNetwork := true } := by
    rw [WantListQueue.processEntry, show (node.surroundings (some providers)).get entry.cid = none from absent]
    exact (if_pos isLocal).trans (if_pos rfl)
  rw [wantlistProcessEntry]
  refine (Act.bind_returned (show Act.gets id node = (.returned node, node) from rfl) _).trans ?_
  simp only [isEntry, Act.lift_bind, Outcome.access_some, absent, isLocal, and_self, if_true, Option.getD_some, processed,
    unfilled]
  exact Act.bind_returned asks _

/-- The node wants the block and asks the provider. -/
theorem getBlock_asks (compare : Peer → Peer → Int) {node : BitswapNode lib} (absent : blockstoreGet node.repo cid = .failed)
    (fresh : WantListQueue.place node.wantlist.entries cid = none) (idle : node.wantlist.pop = none)
    (short : cid.hash.length < 2 ^ 32) {provider : Peer} {sending : SendAttempt} {request : PeerRequest}
    (route : node.Route provider sending request) :
    ∃ entry queue, entry.cid = cid ∧ wantlistProcessorRound compare (some [(provider, sending)]) (bitswapGetBlock cid node).2 =
      (.returned (), { node with
        wantlist := ⟨some (node.wantlist.entries ++ [entry])⟩
        peerRequestQueue := queue
        sent := node.sent ++ [bitswapHeader ++
          writtenMessage (peerRequestBuildMessage lib.pb node.get (request.wanting cid)).1] }) := by
  let entry : WantListEntry := WantListQueue.addSession (some .localNode)
    (WantListQueue.addSession (some .localNode) { cid, priority := 1 })
  let wanting : BitswapNode lib := { node with wantlist := ⟨some (node.wantlist.entries ++ [entry])⟩ }
  have popped : wanting.wantlist.pop = some node.wantlist.entries.length :=
    WantListQueue.pop_append idle ⟨rfl, rfl⟩
  have isEntry : wanting.wantlist.entries[node.wantlist.entries.length]? = some entry := List.getElem?_concat_length
  have few : ¬ 10 < entry.attempts := show ¬ (10 : Int32) < 0 by decide
  have get : wanting.get entry.cid = none := by
    rw [BitswapNode.get, show wanting.repo = node.repo from rfl, show entry.cid = cid from rfl, absent]
  have route' : wanting.Route provider sending request := ⟨route.isRequest, route.quiet, route.goes⟩
  obtain ⟨queue, asked⟩ := wantlistGetBlockRemote_asks route' short
  have set : (node.wantlist.entries ++ [entry]).set node.wantlist.entries.length { entry with askedNetwork := true } =
      node.wantlist.entries ++ [{ entry with askedNetwork := true }] := by simp
  refine ⟨{ entry with askedNetwork := true }, queue, rfl, ?_⟩
  rw [bitswapGetBlock_wants absent fresh, ← set]
  exact (wantlistProcessorRound_item compare _ popped isEntry few).trans
    (wantlistProcessEntry_asks isEntry get rfl rfl asked)

theorem wantedCid_item (pb : Protobuf) (char : ∃ codec : Int8, cid.codec = codec.toInt32) (hashed : cid.hash ≠ []) :
    wantedCid pb (some (CidEntry.item { cid })) = .returned cid := by
  obtain ⟨version, codec, hash⟩ := cid
  obtain ⟨codec, rfl⟩ := char
  have decoded : cidProtobufDecode pb (cidBytes ⟨version, codec.toInt32, hash⟩) = .returned (some ⟨version, codec.toInt32, hash⟩) :=
    cidProtobufDecode_cidNew pb version codec hash
  simp only [wantedCid, CidEntry.item, Outcome.access_some, Outcome.returned_bind, decoded, if_neg hashed, Outcome.pure_def]

theorem handleWantlist_item {context : BitswapContext lib} {session : Session} {remotePeerId : Bytes} {asker : Peer}
    (isRemote : session.remotePeerId = some remotePeerId) (isAsker : session.peerstore remotePeerId = some asker)
    (char : ∃ codec : Int8, cid.codec = codec.toInt32) (hashed : cid.hash ≠ []) {request : PeerRequest}
    (isRequest : (queueWith asker context.peerRequestQueue).2[(queueWith asker context.peerRequestQueue).1]? = some request)
    (unasked : request.cidsTheyWant = []) :
    handleWantlist session [some (CidEntry.item { cid })] context = (.returned (), { context with
      peerRequestQueue := (queueWith asker context.peerRequestQueue).2.modify (queueWith asker context.peerRequestQueue).1
        (·.wanted cid) }) := by
  have wants : handleWants lib.pb [some (CidEntry.item { cid })] [] = (.returned (), [{ cid }]) := by
    rw [handleWants, wantedCid_item lib.pb char hashed]
    rfl
  have noted : @BitswapContext.cidsTheyWant lib
      { context with peerRequestQueue := (queueWith asker context.peerRequestQueue).2 }
      (queueWith asker context.peerRequestQueue).1 = [] := by
    rw [BitswapContext.cidsTheyWant, isRequest, Option.map_some, Option.getD_some, unasked]
  rw [handleWantlist, isRemote]
  simp only [Outcome.ofOption_some, Act.lift_bind, isAsker]
  refine (Act.bind_returned (peerRequestQueueFindPeer_eq asker context) _).trans ?_
  rw [Act.zoom, noted, wants]
  rfl

/-- The provider notes the want, and answers with the block. -/
theorem handleMessage_answers {node : BitswapNode lib} {session : Session} {remotePeerId : Bytes} {asker : Peer}
    (isRemote : session.remotePeerId = some remotePeerId) (isAsker : session.peerstore remotePeerId = some asker)
    (get : Cid → Option Block) {asking : PeerRequest} (silent : asking.payload get = [])
    (wants : asking.wantlist lib.pb = { entries := some [some (CidEntry.item { cid })] })
    (char : ∃ codec : Int8, cid.codec = codec.toInt32) (hashed : cid.hash ≠ []) (short : cid.hash.length < 2 ^ 32)
    {block : Block} (found : node.get cid = some block) (isCid : block.cid = some cid) (small : block.data.length < 2 ^ 62)
    {sending : SendAttempt} {request : PeerRequest} (route : node.Route asker sending request)
    (unasked : request.cidsTheyWant = []) :
    ∃ queue, processPeerRequest (queueWith asker node.peerRequestQueue).1 sending
        (onContext (networkHandleMessage session
          (bitswapHeader ++ writtenMessage (peerRequestBuildMessage lib.pb get asking).1)) node).2 =
      (.returned (), { node with
        peerRequestQueue := queue
        sent := node.sent ++ [bitswapHeader ++
          writtenMessage (peerRequestBuildMessage lib.pb node.get (request.wanted cid)).1] }) := by
  obtain ⟨isRequest, quiet, peer, reachable, sends⟩ := route
  let place := (queueWith asker node.peerRequestQueue).1
  let noted : BitswapNode lib := { node with
    peerRequestQueue := (queueWith asker node.peerRequestQueue).2.modify place (·.wanted cid) }
  have handled : (onContext (networkHandleMessage session
      (bitswapHeader ++ writtenMessage (peerRequestBuildMessage lib.pb get asking).1)) node).2 = noted := by
    have cids : ∀ block ∈ asking.payload get, block.cid.isSome := by simp [silent]
    rw [onContext, Act.zoom, networkHandleMessage_built session get asking cids, silent, wants]
    have taken : handleWantlist session [some (CidEntry.item { cid })] node.context = _ :=
      handleWantlist_item isRemote isAsker char hashed isRequest unasked
    exact (congrArg (fun result => node.setContext result.2) taken).trans (node.setContext_queue _)
  have here : noted.peerRequestQueue[place]? = some (request.wanted cid) := by
    rw [List.getElem?_modify, isRequest]
    simp [place]
  have get' : noted.get cid = some block := found
  obtain ⟨need, payload, wantlist⟩ := quiet.answers lib.pb get'
  have fits : (peerRequestBuildMessage lib.pb noted.get (request.wanted cid)).1.size + 20 < 2 ^ 63 := by
    rw [peerRequestBuildMessage_size, payload, wantlist]
    simp only [List.map_nil, List.sum_nil, List.map_cons, List.sum_cons, Option.getD_some, blocksBlockProtobufEncodeSize, isCid,
      cidProtobufEncodeSize]
    omega
  obtain ⟨processed, isSent⟩ := processPeerRequest_sends here reachable sends need fits
  refine ⟨noted.peerRequestQueue.set place processed, ?_⟩
  rw [handled]
  exact isSent

theorem modify_concat {α : Type} (items : List α) (item : α) (f : α → α) {i : Nat} (last : i = items.length) :
    (items ++ [item]).modify i f = items ++ [f item] := by
  subst last
  induction items with
  | nil => rfl
  | cons first items ih => simpa using ih

theorem BitswapNode.setContext_fills {node : BitswapNode lib} {entries : List WantListEntry} {entry : WantListEntry}
    (wantlist : node.wantlist = ⟨some (entries ++ [entry])⟩) (repo : FsRepo lib) (block : Block) :
    node.setContext { node.context with
        repo
        localWantlist := some (((entries ++ [entry]).map WantListEntry.toWantListQueueEntry).modify entries.length fun entry =>
          { entry with block := some block }) } =
      { node with repo, wantlist := ⟨some (entries ++ [{ entry with block := some block }])⟩ } := by
  have same : entries.zipWith (fun entry current => { entry with toWantListQueueEntry := current })
      (entries.map WantListEntry.toWantListQueueEntry) = entries := by
    rw [List.zipWith_map_right, List.zipWith_self]
    exact List.map_id _
  have isEntries : node.wantlist.entries = entries ++ [entry] := by
    rw [wantlist]
    rfl
  rw [List.map_append, List.map_singleton, modify_concat _ _ _ (List.length_map ..).symm, setContext, isEntries, context]
  simp only [Option.map_some, List.zipWith_append (List.length_map ..).symm, same]
  rfl

/-- A block that comes is written, and handed to the want that has its place. -/
theorem bitswapHasBlock_fills {context : BitswapContext lib} {queue : List WantListQueueEntry} {i : Nat} {block : Block}
    (wants : context.localWantlist = some queue) (writes : context.repo.disk.headD .complete = .complete)
    (isCid : block.cid = some cid) (sized : blocksBlockProtobufEncodeSize block < 2 ^ 64)
    (place : queue.findIdx? (fun entry => cidCompare (some cid) (some entry.cid) = 0) = some i) :
    ∃ repo, bitswapHasBlock block context = (.returned (), { context with
        repo, localWantlist := some (queue.modify i fun entry => { entry with block := some block }) }) ∧
      repo.blockstore (lib.crypto.base32 cid.hash) = some (blockBytes cid block.data) := by
  obtain ⟨cid', data⟩ := block
  obtain rfl : cid' = some cid := isCid
  let stored : FsRepo lib := { context.repo with
    blockstore := Function.update context.repo.blockstore (lib.crypto.base32 cid.hash) (some (blockBytes cid data))
    disk := context.repo.disk.tail }
  have put : (onRepo (blockstorePut ⟨some cid, data⟩)).attempt context =
      (.returned (some (blockBytes cid data).length), { context with repo := stored }) := by
    have puts : blockstorePut ⟨some cid, data⟩ context.repo = (.returned (blockBytes cid data).length, stored) :=
      blockstorePut_complete writes cid data sized
    rw [onRepo, Act.attempt_zoom, Act.zoom, Act.attempt_returned puts]
  obtain ⟨datastore, -, ends⟩ := datastoreHelperAddBlockToDatastore_ends cid data stored
  have added : ∃ remembered, (onRepo (datastoreHelperAddBlockToDatastore ⟨some cid, data⟩)).attempt { context with repo := stored } =
      (.returned remembered, { context with repo := { stored with datastore } }) := by
    rw [onRepo, Act.attempt_zoom, Act.zoom, Act.attempt]
    rcases ends with failed | ⟨succeeds, -⟩
    · exact ⟨none, by rw [failed]⟩
    · exact ⟨some (), by rw [succeeds]⟩
  obtain ⟨remembered, added⟩ := added
  refine ⟨{ stored with datastore }, ?_, Function.update_self ..⟩
  rw [bitswapHasBlock, Act.bind_returned put, Act.bind_returned added]
  simp only [Act.bind_apply, Act.gets, wants, wantlistQueueFind, Outcome.access_some, Outcome.returned_bind, Outcome.pure_def,
    Act.lift_apply, place]
  rfl

theorem Block.received_of_char {block : Block} (isCid : block.cid = some cid) (char : ∃ codec : Int8, cid.codec = codec.toInt32) :
    block.received = block := by
  obtain ⟨cid', data⟩ := block
  obtain rfl : cid' = some cid := isCid
  obtain ⟨version, codec, hash⟩ := cid
  obtain ⟨codec, rfl⟩ := char
  simp [Block.received]

/-- A message that only brings a block. -/
theorem networkHandleMessage_hasBlock {context context' : BitswapContext lib} (session : Session) {get : Cid → Option Block}
    {answering : PeerRequest} {block : Block} (payload : answering.payload get = [block])
    (noWants : answering.wantlist lib.pb = { entries := some [] }) (isCid : block.cid = some cid)
    (char : ∃ codec : Int8, cid.codec = codec.toInt32) (has : bitswapHasBlock block context = (.returned (), context')) :
    networkHandleMessage session
      (bitswapHeader ++ writtenMessage (peerRequestBuildMessage lib.pb get answering).1) context = (.returned (), context') := by
  have cids : ∀ block ∈ answering.payload get, block.cid.isSome := by simp [payload, isCid]
  rw [networkHandleMessage_built session get answering cids, payload, noWants, List.map_singleton,
    Block.received_of_char isCid char, handlePayload, blockCopy_returns (by rw [isCid]; rfl)]
  simp only [Act.bind_apply, Act.lift_apply, has, handlePayload, Act.pure_apply, Option.getD_some, List.isEmpty_nil, if_true]

theorem localWantlist_place {entries : List WantListEntry} {entry : WantListEntry} (isWant : entry.cid = cid)
    (fresh : WantListQueue.place entries cid = none) :
    ((entries ++ [entry]).map WantListEntry.toWantListQueueEntry).findIdx?
      (fun entry => cidCompare (some cid) (some entry.cid) = 0) = some entries.length := by
  rw [List.findIdx?_map]
  exact WantListQueue.place_append_new fresh entry isWant

/-- The look after the block has come: the wait is over, and the want goes. -/
theorem bitswapGetBlockLook_filled (compare : Peer → Peer → Int) {node : BitswapNode lib} {entries : List WantListEntry}
    {entry : WantListEntry} (wantlist : node.wantlist = ⟨some (entries ++ [entry])⟩) (isWant : entry.cid = cid)
    (fresh : WantListQueue.place entries cid = none) {block : Block} (isBlock : entry.block = some block)
    (isCid : block.cid.isSome) :
    (bitswapGetBlockLook compare cid entries.length node).1 = .returned (some block) := by
  have here : (entries ++ [entry])[entries.length]? = some entry := List.getElem?_concat_length
  have found : WantListQueue.place (entries ++ [entry]) cid = some entries.length :=
    WantListQueue.place_append_new fresh entry isWant
  rw [bitswapGetBlockLook, Act.bind_apply]
  simp only [Act.gets, wantlist, WantListQueue.entries, Option.getD_some, here, Act.lift_bind, Outcome.access_some, isBlock,
    blockCopy_returns isCid]
  rw [Act.bind_apply, wantManagerRemove, Act.bind_apply]
  simp only [Act.gets, wantlist, WantListQueue.remove, WantListQueue.find_some, found, Outcome.returned_bind, Outcome.pure_def,
    Act.lift_bind]
  rfl

theorem BitswapNode.get_of_file {node : BitswapNode lib} {block : Block} (isCid : block.cid = some cid)
    (file : node.repo.blockstore (lib.crypto.base32 cid.hash) = some (blockBytes cid block.data)) :
    node.get cid = some block := by
  obtain ⟨cid', data⟩ := block
  obtain rfl : cid' = some cid := isCid
  rw [BitswapNode.get, blockstoreGet_block file]

/-- The block arrives: it is stored, and the want has it. -/
theorem handleMessage_fills (compare : Peer → Peer → Int) {node : BitswapNode lib} {entries : List WantListEntry} {entry : WantListEntry}
    (wantlist : node.wantlist = ⟨some (entries ++ [entry])⟩) (isWant : entry.cid = cid)
    (fresh : WantListQueue.place entries cid = none) (writes : node.repo.disk.headD .complete = .complete)
    (session : Session) {get : Cid → Option Block} {answering : PeerRequest} {block : Block}
    (payload : answering.payload get = [block]) (noWants : answering.wantlist lib.pb = { entries := some [] })
    (char : ∃ codec : Int8, cid.codec = codec.toInt32) (short : cid.hash.length < 2 ^ 32) (isCid : block.cid = some cid)
    (small : block.data.length < 2 ^ 62) :
    let node' := (onContext (networkHandleMessage session
      (bitswapHeader ++ writtenMessage (peerRequestBuildMessage lib.pb get answering).1)) node).2
    (bitswapGetBlockLook compare cid entries.length node').1 = .returned (some block) ∧ node'.get cid = some block := by
  have sized : blocksBlockProtobufEncodeSize block < 2 ^ 64 := by
    rw [blocksBlockProtobufEncodeSize, isCid, cidProtobufEncodeSize]
    omega
  have wants : node.context.localWantlist = some ((entries ++ [entry]).map WantListEntry.toWantListQueueEntry) := by
    rw [BitswapNode.context, wantlist]
    rfl
  obtain ⟨repo, has, file⟩ := bitswapHasBlock_fills wants writes isCid sized (localWantlist_place isWant fresh)
  have filled : (onContext (networkHandleMessage session
      (bitswapHeader ++ writtenMessage (peerRequestBuildMessage lib.pb get answering).1)) node).2 =
        { node with repo, wantlist := ⟨some (entries ++ [{ entry with block := some block }])⟩ } := by
    rw [onContext, Act.zoom, networkHandleMessage_hasBlock session payload noWants isCid char has]
    exact BitswapNode.setContext_fills wantlist repo block
  have isWant' : ({ entry with block := some block } : WantListEntry).cid = cid := isWant
  rw [filled]
  exact ⟨bitswapGetBlockLook_filled compare rfl isWant' fresh rfl (by rw [isCid]; rfl), BitswapNode.get_of_file isCid file⟩

end

/-! ## The run -/

/-- A block, the peers as the other node knows them, and how the messages go. -/
structure Delivery where
  cid : Cid
  block : Block
  provider : Peer
  asking : SendAttempt
  ownerSession : Session
  customer : Peer
  answering : SendAttempt
  askerSession : Session

section
variable {π : Type} (delivery : Delivery) (asker owner : π) (start : π → BitswapNode lib)

def Delivery.events : List (Parties.Event π BitswapCall Session) :=
  [.act asker (.getBlock delivery.cid),
    .act asker (.wantlistProcessor (some [(delivery.provider, delivery.asking)])),
    .deliver owner delivery.ownerSession asker (start asker).sent.length,
    .act owner (.peerRequestProcessor (queueWith delivery.customer (start owner).peerRequestQueue).1 delivery.answering),
    .deliver asker delivery.askerSession owner (start owner).sent.length]

/-- The owner has the block, the asker wants nothing yet, and the two reach each other. -/
structure Delivery.Possible : Prop where
  found : (start owner).get delivery.cid = some delivery.block
  absent : blockstoreGet (start asker).repo delivery.cid = .failed
  fresh : WantListQueue.place (start asker).wantlist.entries delivery.cid = none
  idle : (start asker).wantlist.pop = none
  writes : (start asker).repo.disk.headD .complete = .complete
  ask : ∃ request, (start asker).Route delivery.provider delivery.asking request
  knows : delivery.ownerSession.remotePeerId.bind delivery.ownerSession.peerstore = some delivery.customer
  answer : ∃ request, (start owner).Route delivery.customer delivery.answering request ∧ request.cidsTheyWant = []
  char : ∃ codec : Int8, delivery.cid.codec = codec.toInt32
  hashed : delivery.cid.hash ≠ []
  short : delivery.cid.hash.length < 2 ^ 32
  small : delivery.block.data.length < 2 ^ 62

end

theorem BitswapNode.get_cid {node : BitswapNode lib} {cid : Cid} {block : Block} (found : node.get cid = some block) :
    block.cid = some cid := by
  cases stored : blockstoreGet node.repo cid with
  | failed | fault cause => simp [get, stored] at found
  | returned other =>
      obtain rfl : other = block := by simpa [get, stored] using found
      obtain ⟨file, -, stored⟩ := Outcome.bind_eq_returned.mp stored
      obtain ⟨decoded, -, stored⟩ := Outcome.bind_eq_returned.mp stored
      obtain rfl := Outcome.returned.inj stored
      rfl

def letterOwner : BitswapNode (.known letterTable) where
  repo := { FsRepo.new letterTable with
    blockstore := Function.update (fun _ => none) letterDigest.base32 (some (blockBytes letterCid letterDigest.block)) }

def letterDelivery : Delivery where
  cid := letterCid
  block := letterBlock
  provider := neighbour 1
  asking := goodConnection
  ownerSession := neighbourSession 2
  customer := neighbour 2
  answering := goodConnection
  askerSession := neighbourSession 1

end Ipfs
