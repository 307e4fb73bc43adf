import Ipfs.Bitswap.ContentAddress
import Ipfs.Bitswap.Node
import Ipfs.Bitswap.Retry
import Ipfs.Codec.CidOrder

/-!
# Where blocks come from

A node stores, sends and returns only what some node has added, under the hash that it was added with.
-/

namespace Ipfs

variable {lib : Library} {known : Bytes → Bytes → Prop}

/-- The data of the block is known under the hash of its Cid. -/
def Block.Known (known : Bytes → Bytes → Prop) (block : Block) : Prop :=
  ∃ cid, block.cid = some cid ∧ known cid.hash block.data

/-! ## The blockstore -/

/-- Every file is a block with known data, under the name of its hash. -/
structure FsRepo.HoldsKnown (known : Bytes → Bytes → Prop) (repo : FsRepo lib) : Prop where
  whole : repo.WritesWhole
  files : ∀ name file, repo.blockstore name = some file →
    ∃ cid data, name = lib.crypto.base32 cid.hash ∧ file = blockBytes cid data ∧ known cid.hash data

theorem writeFile_holds {cid : Cid} {data : Bytes} (isKnown : known cid.hash data) :
    Act.Preserves (FsRepo.HoldsKnown known)
      (writeFile (lib.crypto.base32 cid.hash) (blockBytes cid data) : Act (FsRepo lib) Nat) := by
  rintro repo ⟨whole, files⟩
  have rest : ∀ write ∈ repo.disk.tail, ∀ count, write ≠ .short count :=
    fun write mem => whole write (List.mem_of_mem_tail mem)
  rcases writeFile_ends (lib.crypto.base32 cid.hash) (blockBytes cid data) repo with ⟨_, faults⟩ | ⟨_, written⟩
  · rw [faults]
    exact ⟨rest, files⟩
  · have next : ∀ count, repo.disk.headD .complete ≠ .short count := by
      cases disk : repo.disk with
      | nil => exact fun count => DiskWrite.noConfusion
      | cons write writes => exact whole write (by rw [disk]; exact List.mem_cons_self)
    rw [written, DiskWrite.kept_of_ne next]
    refine ⟨rest, fun name file found => ?_⟩
    dsimp only at found
    by_cases own : name = lib.crypto.base32 cid.hash
    · subst own
      rw [Function.update_self, Option.some.injEq] at found
      exact ⟨cid, data, rfl, found.symm, isKnown⟩
    · rw [Function.update_of_ne own] at found
      exact files name file found

theorem blockstorePut_holds {block : Block} (isKnown : block.Known known)
    (sized : blocksBlockProtobufEncodeSize block < 2 ^ 64) :
    Act.Preserves (FsRepo.HoldsKnown known) (blockstorePut block : Act (FsRepo lib) Nat) := by
  obtain ⟨cid, data⟩ := block
  obtain ⟨cid, rfl, isKnown⟩ := isKnown
  have encode := blocksBlockProtobufEncode_size lib.pb cid data sized
  apply Act.Preserves.lift_bind
  intro cid' present
  obtain rfl := Outcome.returned.inj present
  apply Act.Preserves.lift_bind
  intro protobuf encoded
  rw [encode] at encoded
  obtain rfl := Outcome.returned.inj encoded
  refine (writeFile_holds isKnown).bind fun bytesWritten => ?_
  split
  · exact .lift _
  · exact .pure _

theorem datastoreHelper_holds (block : Block) :
    Act.Preserves (FsRepo.HoldsKnown known) (datastoreHelperAddBlockToDatastore block : Act (FsRepo lib) Unit) := by
  apply Act.Preserves.lift_bind
  intro cid _
  split
  · exact .lift _
  · rintro repo ⟨whole, files⟩
    rw [datastorePut]
    cases lib.store.put repo.datastore cid.hash (lib.crypto.base32 cid.hash) <;> exact ⟨whole, files⟩

/-- What `ipfs_merkledag_add` makes of a node. -/
def merkledagBlock (lib : Library) (node : HashtableNode) : Option Block :=
  (merkledagHash lib node).bind (merkledagConvertNodeToBlock lib)

theorem merkledagAdd_holds {node : HashtableNode}
    (blocks : ∀ block, merkledagBlock lib node = some block →
      block.Known known ∧ blocksBlockProtobufEncodeSize block < 2 ^ 64) :
    Act.Preserves (FsRepo.HoldsKnown known) (merkledagAdd node : Act (FsRepo lib) (HashtableNode × Nat)) := by
  apply Act.Preserves.lift_bind
  intro hashed isHashed
  apply Act.Preserves.lift_bind
  intro block converted
  obtain ⟨isKnown, sized⟩ := blocks block (by
    rw [merkledagBlock, Outcome.ofOption_eq_returned.mp isHashed, Option.bind_some]
    exact Outcome.ofOption_eq_returned.mp converted)
  have written : Act.Preserves (FsRepo.HoldsKnown known) (fsrepoBlockWrite block : Act (FsRepo lib) Nat) :=
    (blockstorePut_holds isKnown sized).bind fun _ => (datastoreHelper_holds block).bind fun _ => .pure _
  exact written.bind fun _ => .pure _

theorem blockstoreGet_holds {repo : FsRepo lib} (holds : repo.HoldsKnown known) {cid : Cid} {block : Block}
    (found : blockstoreGet repo cid = .returned block) : block.cid = some cid ∧ known cid.hash block.data := by
  obtain ⟨file, present, found⟩ := Outcome.bind_eq_returned.mp found
  obtain ⟨decoded, isDecoded, found⟩ := Outcome.bind_eq_returned.mp found
  obtain rfl := Outcome.returned.inj found
  obtain ⟨other, data, name, rfl, isKnown⟩ := holds.files _ _ (Outcome.ofOption_eq_returned.mp present)
  rw [blocksBlockProtobufDecode_blockBytes lib.pb data (cidProtobufDecode_cidBytes lib.pb other)] at isDecoded
  obtain rfl := Outcome.returned.inj isDecoded
  rw [lib.crypto.base32_injective name]
  exact ⟨rfl, isKnown⟩

/-! ## Incoming messages -/

theorem mem_of_mem_modify {α : Type} {items : List α} {i : Nat} {f : α → α} {item : α} (mem : item ∈ items.modify i f) :
    item ∈ items ∨ ∃ old, items[i]? = some old ∧ item = f old := by
  obtain ⟨j, here⟩ := List.mem_iff_getElem?.mp mem
  rw [List.getElem?_modify] at here
  by_cases own : i = j
  · subst own
    cases found : items[i]? with
    | none => simp [found] at here
    | some old => exact .inr ⟨old, rfl, by simpa [found, eq_comm] using here⟩
  · have same : items[j]? = some item := by simpa [own] using here
    exact .inl (List.mem_of_getElem? same)

/-- The block that came for a want is a known one, and the one that was wanted. -/
structure WantListQueueEntry.Sound (known : Bytes → Bytes → Prop) (entry : WantListQueueEntry) : Prop where
  short : entry.cid.hash.length < 2 ^ 32
  block : ∀ block, entry.block = some block →
    ∃ cid, block.cid = some cid ∧ cidCompare (some cid) (some entry.cid) = 0 ∧ known cid.hash block.data

structure BitswapContext.Sound (known : Bytes → Bytes → Prop) (context : BitswapContext lib) : Prop where
  repo : context.repo.HoldsKnown known
  wants : ∀ entry ∈ context.localWantlist.getD [], entry.Sound known
  blocks : ∀ request ∈ context.peerRequestQueue, ∀ block ∈ request.blocksWeWantToSend, block.Known known

theorem onRepo_sound {α : Type} {x : Act (FsRepo lib) α} (preserves : x.Preserves (FsRepo.HoldsKnown known)) :
    (onRepo x).Preserves (BitswapContext.Sound known) :=
  preserves.zoom (fun _ sound => sound.repo) fun _ _ sound holds => ⟨holds, sound.wants, sound.blocks⟩

theorem bitswapHasBlock_sound {block : Block} (isKnown : block.Known known)
    (sized : blocksBlockProtobufEncodeSize block < 2 ^ 64) :
    Act.Preserves (BitswapContext.Sound known) (bitswapHasBlock block : Act (BitswapContext lib) Unit) := by
  refine (onRepo_sound (blockstorePut_holds isKnown sized)).attempt.bind fun _ => ?_
  refine (onRepo_sound (datastoreHelper_holds block)).attempt.bind fun _ => ?_
  refine Act.Preserves.gets_bind fun context sound => ?_
  cases wanted : context.localWantlist with
  | none => exact sound
  | some queue =>
      have queued : ∀ entry ∈ queue, entry.Sound known := by
        have wants := sound.wants
        rwa [wanted, Option.getD_some] at wants
      simp only [wantlistQueueFind, Outcome.access_some, Outcome.returned_bind, Outcome.pure_def, Act.lift_bind]
      cases place : queue.findIdx? fun entry => cidCompare block.cid (some entry.cid) = 0 with
      | none => exact sound
      | some i =>
          refine ⟨sound.repo, fun entry mem => ?_, sound.blocks⟩
          obtain ⟨bound, same, -⟩ := List.findIdx?_eq_some_iff_getElem.mp place
          obtain ⟨cid, isCid, isKnown⟩ := isKnown
          simp only [Act.modify, wanted, Option.map_some, Option.getD_some] at mem
          rcases mem_of_mem_modify mem with old | ⟨old, here, rfl⟩
          · exact queued entry old
          · obtain rfl := Option.some.inj ((List.getElem?_eq_getElem bound).symm.trans here)
            refine ⟨(queued _ (List.getElem_mem bound)).short, fun found isFound => ?_⟩
            obtain rfl := Option.some.inj isFound
            exact ⟨cid, isCid, by rw [← isCid]; exact of_decide_eq_true same, isKnown⟩

/-- What is sent is shorter than the memory, and all blocks in it are known. -/
structure KnownMessage (lib : Library) (known : Bytes → Bytes → Prop) (bytes : Bytes) : Prop where
  short : bytes.length < 2 ^ 63
  payload : ∀ block ∈ payloadOf lib bytes, block.Known known

theorem handlePayload_sound (short : ∀ hash data, known hash data → hash.length < 2 ^ 32) (payload : List Block)
    (isKnown : ∀ block ∈ payload, block.Known known) (sized : ∀ block ∈ payload, block.data.length < 2 ^ 63) :
    Act.Preserves (BitswapContext.Sound known) (handlePayload payload : Act (BitswapContext lib) Unit) := by
  induction payload with
  | nil => exact .pure _
  | cons blk payload ih =>
      rw [handlePayload]
      apply Act.Preserves.lift_bind
      intro block copied
      obtain ⟨rfl, _⟩ := blockCopy_eq_returned copied
      have rest := ih (fun other mem => isKnown other (by simp [mem])) fun other mem => sized other (by simp [mem])
      refine (bitswapHasBlock_sound (isKnown block (by simp)) ?_).bind fun _ => rest
      obtain ⟨cid, isCid, known⟩ := isKnown block (by simp)
      have hash := short _ _ known
      have data := sized block (by simp)
      rw [blocksBlockProtobufEncodeSize, isCid, cidProtobufEncodeSize]
      omega

theorem peerRequestQueueFindPeer_sound (peer : Peer) :
    Act.Preserves (BitswapContext.Sound known) (peerRequestQueueFindPeer peer : Act (BitswapContext lib) Nat) := by
  intro context sound
  rw [peerRequestQueueFindPeer]
  split
  · exact sound
  · refine ⟨sound.repo, sound.wants, fun request mem block isBlock => ?_⟩
    rcases List.mem_append.mp mem with old | new
    · exact sound.blocks request old block isBlock
    · rw [List.mem_singleton.mp new] at isBlock
      cases isBlock

theorem handleWantlist_sound (session : Session) (entries : List (Option WantlistEntry)) :
    Act.Preserves (BitswapContext.Sound known) (handleWantlist session entries : Act (BitswapContext lib) Unit) := by
  refine (Act.Preserves.lift _).bind fun remotePeerId => (Act.Preserves.lift _).bind fun peer => ?_
  refine (peerRequestQueueFindPeer_sound peer).bind fun i context sound => ?_
  refine ⟨sound.repo, sound.wants, fun request mem block isBlock => ?_⟩
  rcases mem_of_mem_modify mem with old | ⟨old, here, rfl⟩
  · exact sound.blocks request old block isBlock
  · exact sound.blocks old (List.mem_of_getElem? here) block isBlock

theorem networkHandleMessage_sound (short : ∀ hash data, known hash data → hash.length < 2 ^ 32) (session : Session)
    {bytes : Bytes} (message : KnownMessage lib known bytes) :
    Act.Preserves (BitswapContext.Sound known)
      (networkHandleMessage session bytes : Act (BitswapContext lib) Unit) := by
  apply Act.Preserves.lift_bind
  intro body isBody
  apply Act.Preserves.lift_bind
  intro decoded isDecoded
  apply Act.Preserves.lift_bind
  intro message' isMessage
  obtain rfl := Outcome.access_eq_returned.mp isMessage
  have payload : payloadOf lib bytes = message'.payload.getD [] := by
    rw [payloadOf, isBody, Outcome.returned_bind, isDecoded]
  have isKnown := message.payload
  rw [payload] at isKnown
  have lengths := bitswapMessageProtobufDecode_payload_le lib.pb isDecoded
  have shorter := messageBody_length isBody
  refine (handlePayload_sound short _ isKnown fun block mem => ?_).bind fun _ => ?_
  · exact lt_of_le_of_lt ((lengths block mem).trans shorter) message.short
  · split
    · exact .pure _
    · exact handleWantlist_sound session _

/-! ## Outgoing messages -/

/-- The block as it arrives: the codec of a Cid is read as a `char`. -/
def Block.received (block : Block) : Block :=
  { block with cid := block.cid.map fun cid =>
      { cid with codec := (Conversion.unsignedToChar (Conversion.intToUnsigned cid.codec)).toInt32 } }

theorem Block.Known.received {block : Block} (isKnown : block.Known known) : block.received.Known known := by
  obtain ⟨cid, isCid, isKnown⟩ := isKnown
  rw [Block.received, isCid]
  exact ⟨_, rfl, isKnown⟩

theorem writtenPayload_decode (pb : Protobuf) {block : Block} (cid : block.cid.isSome) :
    blocksBlockProtobufDecode pb (writtenPayload block) = .returned block.received := by
  obtain ⟨cid', data⟩ := block
  obtain ⟨cid', rfl⟩ := Option.isSome_iff_exists.mp cid
  exact blocksBlockProtobufDecode_blockBytes pb data (cidProtobufDecode_cidBytes pb cid')

section
variable (pb : Protobuf) {message : BitswapMessage}

/-- A message with a want list comes back with its blocks as they arrive and the same wants. -/
theorem bitswapMessageProtobufDecode_writtenMessage {list : BitswapWantlist} (present : message.wantlist = some list)
    (sendable : list.Sendable) (cids : ∀ block ∈ message.payload.getD [], block.cid.isSome) :
    ∃ message', bitswapMessageProtobufDecode pb (writtenMessage message) = .returned (some message') ∧
      message'.payload.getD [] = (message.payload.getD []).map Block.received ∧
      (message'.wantlist.bind BitswapWantlist.entries).getD [] = list.entries.getD [] := by
  obtain ⟨blocks, feedBlocks, -⟩ := Feeds.vector pb (fun blocks => ({ blocks } : BitswapMessage))
    (fun block : Block => ({ data := block.data } : Block)) (message.blocks.getD []) (fun block mem vector =>
      show Feeds pb (bitswapMessageFields pb) _ (Wire.bytesField 1 .lengthDelimited block.data) _
      from .lengthDelimited (by decide) (by decide) rfl rfl) none
  obtain ⟨payload, feedPayload, samePayload⟩ := Feeds.vector pb
    (fun payload => ({ blocks, payload } : BitswapMessage)) Block.received (message.payload.getD [])
    (fun block mem vector =>
      show Feeds pb (bitswapMessageFields pb) _ (Wire.bytesField 2 .lengthDelimited (writtenPayload block)) _
      from .lengthDelimited (by decide) (by decide) rfl
        (by simp [writtenPayload_decode pb (cids block mem)])) none
  obtain ⟨list', decoded, entries, -⟩ := bitswapWantlistProtobufDecode_bitswapWantlistBytes pb sendable
  have feedWantlist : Feeds pb (bitswapMessageFields pb) { blocks, payload }
      (Wire.bytesField 3 .lengthDelimited (bitswapWantlistBytes list)) { blocks, payload, wantlist := some list' } :=
    .lengthDelimited (by decide) (by decide) rfl (by simp [decoded])
  have bytes : writtenMessage message =
      ((message.blocks.getD []).flatMap fun block => Wire.bytesField 1 .lengthDelimited block.data) ++
        ((message.payload.getD []).flatMap fun block => Wire.bytesField 2 .lengthDelimited (writtenPayload block)) ++
        Wire.bytesField 3 .lengthDelimited (bitswapWantlistBytes list) := by
    rw [writtenMessage, present, Option.toList_some, List.flatMap_singleton]
  have nonempty : writtenMessage message ≠ [] := by
    rw [bytes]
    exact List.append_ne_nil_of_right_ne_nil _
      (List.ne_nil_of_length_pos (Wire.bytesField_length_pos 3 .lengthDelimited (bitswapWantlistBytes list)))
  refine ⟨{ blocks, payload, wantlist := some list' }, ?_, by simpa using samePayload, by simp [entries]⟩
  rw [bitswapMessageProtobufDecode, if_neg nonempty, bytes,
    decodeFields_feeds ((feedBlocks.append feedPayload).append feedWantlist)]
  rfl

theorem wantlistItems_assigned (i : Nat) (cids : List CidEntry) :
    ∀ item ∈ (wantlistItems pb i cids).entries, WantlistEntry.Assigned (some item.2) := by
  induction cids generalizing i with
  | nil => exact fun item mem => absurd mem List.not_mem_nil
  | cons cidEntry cids ih =>
      rw [wantlistItems]
      split
      · exact ih (i + 1)
      · split
        · exact fun item mem => absurd mem List.not_mem_nil
        · intro item mem
          rcases List.mem_cons.mp mem with rfl | mem
          · exact ⟨_, _, _, rfl⟩
          · exact ih (i + 1) item mem

/-- What the message of a request tells of our wants. -/
def PeerRequest.wantlist (request : PeerRequest) : BitswapWantlist where
  entries := some ((wantlistItems pb 0 request.cidsWeWant).entries.map fun item => some item.2)

def PeerRequest.payload (request : PeerRequest) (get : Cid → Option Block) : List Block :=
  request.blocksWeWantToSend ++
    request.cidsTheyWant.filterMap fun entry => if entry.cancel then none else get entry.cid

theorem peerRequestBuildMessage_parts (get : Cid → Option Block) (request : PeerRequest) :
    (peerRequestBuildMessage pb get request).1.payload.getD [] = request.payload get ∧
      (peerRequestBuildMessage pb get request).1.wantlist = some (request.wantlist pb) ∧
      (peerRequestBuildMessage pb get request).1.blocks = none := by
  simp only [peerRequestBuildMessage, messageAddWantlistItems, messageAddBlocks_wantlist, Option.getD_none,
    List.nil_append]
  rw [messageAddBlocks]
  split
  · rename_i empty
    exact ⟨by simpa [peerRequestGetBlocksTheyWant, PeerRequest.payload] using empty.symm, rfl, rfl⟩
  · exact ⟨by simp [peerRequestGetBlocksTheyWant, PeerRequest.payload], rfl, rfl⟩

theorem PeerRequest.wantlist_sendable (request : PeerRequest) : (request.wantlist pb).Sendable := by
  refine ⟨_, rfl, fun entry mem => ?_⟩
  obtain ⟨item, isItem, rfl⟩ := List.mem_map.mp mem
  exact wantlistItems_assigned pb 0 _ item isItem

theorem messageBody_header (body : Bytes) : messageBody (bitswapHeader ++ body) = .returned body := by
  have newline : (bitswapHeader ++ body).findIdx? (· = 0x0a) = some 19 := by
    rw [List.findIdx?_append, show bitswapHeader.findIdx? (· = 0x0a) = some 19 by decide]
    rfl
  rw [messageBody, newline]
  rfl

/-- The stream takes the header and the message, which fits the memory. -/
theorem peerRequestSent_eq_some {exchange : Exchange} {request : PeerRequest} {bytes : Bytes}
    (isSent : peerRequestSent pb exchange request = some bytes) :
    (peerRequestProcessEntry pb exchange request).1 = .returned () ∧ bytes.length < 2 ^ 63 ∧
      bytes = bitswapHeader ++ writtenMessage (peerRequestBuildMessage pb exchange.get request).1 := by
  obtain ⟨-, wantlist, -⟩ := peerRequestBuildMessage_parts pb exchange.get request
  have sendable (list : BitswapWantlist)
      (present : (peerRequestBuildMessage pb exchange.get request).1.wantlist = some list) : list.Sendable :=
    Option.some.inj (wantlist.symm.trans present) ▸ request.wantlist_sendable pb
  rw [peerRequestSent] at isSent
  split at isSent
  · rename_i returned
    simp only [bitswapMessageProtobufEncodeSize_eq sendable] at isSent
    split at isSent
    · rename_i fits
      have encodable : (peerRequestBuildMessage pb exchange.get request).1.Encodable := ⟨sendable, by omega⟩
      have length := writtenMessage_length_le encodable
      simp only [bitswapMessageProtobufEncode_written pb encodable, Option.some.injEq] at isSent
      subst isSent
      refine ⟨returned, ?_, rfl⟩
      rw [List.length_append, show bitswapHeader.length = 20 from rfl]
      omega
    · cases isSent
  · cases isSent

end

theorem peerRequestSent_known {exchange : Exchange} {request : PeerRequest} {bytes : Bytes}
    (isKnown : ∀ block ∈ request.payload exchange.get, block.Known known)
    (isSent : peerRequestSent lib.pb exchange request = some bytes) : KnownMessage lib known bytes := by
  obtain ⟨-, short, rfl⟩ := peerRequestSent_eq_some lib.pb isSent
  obtain ⟨payload, wantlist, -⟩ := peerRequestBuildMessage_parts lib.pb exchange.get request
  have cids : ∀ block ∈ request.payload exchange.get, block.cid.isSome := by
    intro block mem
    obtain ⟨cid, isCid, -⟩ := isKnown block mem
    rw [isCid]
    rfl
  obtain ⟨message', decoded, received, -⟩ := bitswapMessageProtobufDecode_writtenMessage lib.pb wantlist
    (request.wantlist_sendable lib.pb) (by rwa [payload])
  refine ⟨short, ?_⟩
  rw [payloadOf, messageBody_header, Outcome.returned_bind, decoded]
  intro block mem
  have isPayload : block ∈ message'.payload.getD [] := mem
  rw [received, payload] at isPayload
  obtain ⟨block, isBlock, rfl⟩ := List.mem_map.mp isPayload
  exact (isKnown block isBlock).received

/-- What is left to send after a request was processed was to be sent before. -/
theorem peerRequestProcessEntry_blocks (pb : Protobuf) (exchange : Exchange) (request : PeerRequest) :
    ∀ block ∈ (peerRequestProcessEntry pb exchange request).2.blocksWeWantToSend, block ∈ request.blocksWeWantToSend := by
  by_cases reached : request.needToConnect = true ∧ ∃ peer, request.Reachable exchange peer
  · obtain ⟨need, peer, reachable⟩ := reached
    rw [peerRequestProcessEntry_reachable pb reachable need]
    intro block mem
    rw [show (peerRequestBuildMessage pb exchange.get request).2.blocksWeWantToSend = [] from
      messageAddBlocks_blocks _ _ _] at mem
    cases mem
  · have untouched : request.Untouched (peerRequestProcessEntry pb exchange request).2 := by
      apply peerRequestProcessEntry_unreachable
      by_cases need : request.needToConnect = true
      · exact .inr fun peer reachable => reached ⟨need, peer, reachable⟩
      · exact .inl (by simpa using need)
    rw [untouched.blocksWeWantToSend]
    exact fun block mem => mem

/-! ## Nodes -/

structure BitswapNode.Sound (known : Bytes → Bytes → Prop) (node : BitswapNode lib) : Prop where
  context : node.context.Sound known
  sent : ∀ bytes ∈ node.sent, KnownMessage lib known bytes

section
variable {node : BitswapNode lib}

theorem BitswapNode.Sound.setContext (sound : node.Sound known) {context : BitswapContext lib}
    (sound' : context.Sound known) : (node.setContext context).Sound known where
  context :=
    { repo := sound'.repo
      wants := by
        intro entry mem
        cases wanted : context.localWantlist with
        | none => simp [BitswapNode.setContext, BitswapNode.context, wanted] at mem
        | some queue =>
            have queued : ∀ entry ∈ queue, entry.Sound known := by
              have wants := sound'.wants
              rwa [wanted, Option.getD_some] at wants
            simp only [BitswapNode.setContext, BitswapNode.context, wanted, Option.map_some, Option.getD_some,
              List.map_zipWith, List.mem_iff_getElem?, List.getElem?_zipWith] at mem
            obtain ⟨i, here⟩ := mem
            split at here
            · rename_i current isCurrent
              exact queued entry (List.mem_of_getElem? (isCurrent.trans here))
            · cases here
      blocks := sound'.blocks }
  sent := sound.sent

theorem onContext_sound {α : Type} {x : Act (BitswapContext lib) α} (preserves : x.Preserves (BitswapContext.Sound known)) :
    (onContext x).Preserves (BitswapNode.Sound known) :=
  preserves.zoom (fun _ sound => sound.context) fun _ _ sound sound' => sound.setContext sound'

theorem BitswapNode.Sound.modifyRequest (sound : node.Sound known) (place : Nat) {f : PeerRequest → PeerRequest}
    (blocks : ∀ request, ∀ block ∈ (f request).blocksWeWantToSend,
      block ∈ request.blocksWeWantToSend ∨ block.Known known) : (node.modifyRequest place f).Sound known where
  context :=
    { repo := sound.context.repo
      wants := sound.context.wants
      blocks := by
        intro request mem block isBlock
        rcases mem_of_mem_modify mem with old | ⟨old, here, rfl⟩
        · exact sound.context.blocks request old block isBlock
        · exact (blocks old block isBlock).elim (sound.context.blocks old (List.mem_of_getElem? here) block) id }
  sent := sound.sent

theorem BitswapNode.Sound.get (sound : node.Sound known) {cid : Cid} {block : Block} (found : node.get cid = some block) :
    block.cid = some cid ∧ known cid.hash block.data := by
  rw [BitswapNode.get] at found
  split at found
  · rename_i returned
    obtain rfl := Option.some.inj found
    exact blockstoreGet_holds sound.context.repo returned
  · cases found

theorem processPeerRequest_sound (place : Nat) (sending : SendAttempt) :
    Act.Preserves (BitswapNode.Sound known) (processPeerRequest place sending : Act (BitswapNode lib) Unit) := by
  intro node sound
  rw [processPeerRequest]
  cases here : node.peerRequestQueue[place]? with
  | none => exact sound
  | some request =>
      have queued := sound.context.blocks request (List.mem_of_getElem? here)
      refine ⟨⟨sound.context.repo, sound.context.wants, fun other mem block isBlock => ?_⟩, fun bytes mem => ?_⟩
      · rcases List.mem_or_eq_of_mem_set mem with old | rfl
        · exact sound.context.blocks other old block isBlock
        · exact queued block (peerRequestProcessEntry_blocks _ _ _ block isBlock)
      · rcases List.mem_append.mp mem with old | new
        · exact sound.sent bytes old
        · refine peerRequestSent_known (fun block isBlock => ?_) (Option.mem_toList.mp new)
          rcases List.mem_append.mp isBlock with toSend | wanted
          · exact queued block toSend
          · obtain ⟨entry, -, found⟩ := List.mem_filterMap.mp wanted
            split at found
            · cases found
            · obtain ⟨isCid, isKnown⟩ := sound.get found
              exact ⟨_, isCid, isKnown⟩

/-! ### Wants -/

theorem BitswapNode.Sound.wantlist (sound : node.Sound known) {wantlist : WantListQueue}
    (wants : ∀ entry ∈ wantlist.entries, entry.toWantListQueueEntry.Sound known) :
    ({ node with wantlist } : BitswapNode lib).Sound known where
  context :=
    { repo := sound.context.repo
      wants := by
        intro entry mem
        obtain ⟨queue⟩ := wantlist
        cases queue with
        | none => simp [BitswapNode.context] at mem
        | some queue =>
            obtain ⟨entry, isEntry, rfl⟩ := List.mem_map.mp mem
            exact wants entry isEntry
      blocks := sound.context.blocks }
  sent := sound.sent

theorem BitswapNode.Sound.wants (sound : node.Sound known) :
    ∀ entry ∈ node.wantlist.entries, entry.toWantListQueueEntry.Sound known := by
  intro entry mem
  cases filled : node.wantlist.queue with
  | none => simp [WantListQueue.entries, filled] at mem
  | some queue =>
      refine sound.context.wants _ ?_
      simp only [BitswapNode.context, filled, Option.map_some, Option.getD_some]
      refine List.mem_map_of_mem ?_
      simpa [WantListQueue.entries, filled] using mem

variable {compare : Peer → Peer → Int}

/-- Whose session is taken off an entry, the wants stay as they are. -/
theorem WantListQueue.remove_wants {wantlist wantlist' : WantListQueue} {cid : Cid} {session : Option WantListSession}
    {found : Bool} (removed : wantlist.remove compare cid session = .returned (found, wantlist')) :
    wantlist'.entries.map WantListEntry.toWantListQueueEntry = wantlist.entries.map WantListEntry.toWantListQueueEntry := by
  have same (entry : WantListEntry) :
      (WantListQueue.entryDecrement compare session entry).toWantListQueueEntry = entry.toWantListQueueEntry := by
    rw [WantListQueue.entryDecrement]
    split <;> rfl
  obtain ⟨place, -, removed⟩ := Outcome.bind_eq_returned.mp removed
  cases place with
  | none =>
      obtain ⟨-, rfl⟩ := Prod.mk.inj (Outcome.returned.inj removed)
      rfl
  | some i =>
      obtain ⟨-, rfl⟩ := Prod.mk.inj (Outcome.returned.inj removed)
      obtain ⟨queue⟩ := wantlist
      cases queue with
      | none => rfl
      | some queue => exact WantListQueue.modify_map same queue i

theorem WantListQueue.giveUp_wants {item fuel i : Nat} {wantlist wantlist' : WantListQueue}
    (gaveUp : WantListQueue.giveUp compare item fuel i wantlist = .returned wantlist') :
    wantlist'.entries.map WantListEntry.toWantListQueueEntry = wantlist.entries.map WantListEntry.toWantListQueueEntry := by
  induction fuel generalizing i wantlist with
  | zero =>
      obtain rfl := Outcome.returned.inj gaveUp
      rfl
  | succ fuel ih =>
      obtain ⟨entry, -, gaveUp⟩ := Outcome.bind_eq_returned.mp gaveUp
      split at gaveUp
      · obtain rfl := Outcome.returned.inj gaveUp
        rfl
      · obtain ⟨⟨found, next⟩, removed, gaveUp⟩ := Outcome.bind_eq_returned.mp gaveUp
        exact (ih gaveUp).trans (WantListQueue.remove_wants removed)

theorem BitswapNode.Sound.sameWants (sound : node.Sound known) {wantlist : WantListQueue}
    (same : wantlist.entries.map WantListEntry.toWantListQueueEntry =
      node.wantlist.entries.map WantListEntry.toWantListQueueEntry) :
    ({ node with wantlist } : BitswapNode lib).Sound known := by
  refine sound.wantlist fun entry mem => ?_
  have old := List.mem_map_of_mem (f := WantListEntry.toWantListQueueEntry) mem
  rw [same] at old
  obtain ⟨entry', isEntry, own⟩ := List.mem_map.mp old
  exact own ▸ sound.wants entry' isEntry

theorem wantManagerRemove_sound (cid : Cid) :
    Act.Preserves (BitswapNode.Sound known) (wantManagerRemove compare cid : Act (BitswapNode lib) Unit) := by
  refine Act.Preserves.gets_bind fun node sound => ?_
  rw [Act.lift_bind]
  cases removed : node.wantlist.remove compare cid (some .localNode) with
  | failed | fault cause => exact sound
  | returned result => exact sound.sameWants (WantListQueue.remove_wants removed)

theorem bitswapGetBlock_sound {cid : Cid} (short : cid.hash.length < 2 ^ 32) :
    Act.Preserves (BitswapNode.Sound known) (bitswapGetBlock cid : Act (BitswapNode lib) (Block ⊕ Nat)) := by
  intro node sound
  rw [bitswapGetBlock]
  split
  · exact sound
  · exact sound
  · cases added : node.wantlist.add cid (some .localNode) with
    | failed | fault cause => exact sound
    | returned result =>
        obtain ⟨place, wantlist⟩ := result
        have stepped : (WantListQueue.machine fun _ _ => 0).step node.wantlist (.add cid (some .localNode)) =
            some wantlist := by
          simp only [WantListQueue.machine, added]
        refine sound.wantlist fun entry mem => ?_
        rcases WantListQueue.machine_step stepped with
          ⟨_, _, i, same, -, entries⟩ | ⟨_, _, same, -, entries⟩ | ⟨_, _, other, -⟩ | ⟨_, _, _, other, -⟩
        · rw [entries] at mem
          rcases mem_of_mem_modify mem with old | ⟨old, here, rfl⟩
          · exact sound.wants entry old
          · exact sound.wants old (List.mem_of_getElem? here)
        · cases same
          rw [entries] at mem
          rcases List.mem_append.mp mem with old | new
          · exact sound.wants entry old
          · rw [List.mem_singleton.mp new]
            exact ⟨short, fun block isBlock => by cases isBlock⟩
        · cases other
        · cases other

theorem bitswapGetBlockLook_sound (cid : Cid) (wantEntry : Nat) :
    Act.Preserves (BitswapNode.Sound known)
      (bitswapGetBlockLook compare cid wantEntry : Act (BitswapNode lib) (Option Block)) := by
  refine (Act.Preserves.gets _).bind fun wantlist => (Act.Preserves.lift _).bind fun entry => ?_
  split
  · exact .pure _
  · exact (Act.Preserves.lift _).bind fun block => (wantManagerRemove_sound cid).bind fun _ => .pure _

theorem wantlistGetBlockRemote_sound (cid : Cid) (providers : List (Peer × SendAttempt)) :
    Act.Preserves (BitswapNode.Sound known) (wantlistGetBlockRemote cid providers : Act (BitswapNode lib) Unit) := by
  induction providers with
  | nil => exact .pure _
  | cons provider providers ih =>
      refine (onContext_sound (peerRequestQueueFindPeer_sound provider.1)).bind fun queueEntry => ?_
      refine Act.Preserves.bind (fun node sound => sound.modifyRequest queueEntry fun request block mem => .inl mem) fun _ => ?_
      exact (processPeerRequest_sound queueEntry provider.2).attempt.bind fun _ => ih

theorem wantlistFill_sound {block : Block} (isKnown : block.Known known) (sessions : List (Option WantListSession)) :
    Act.Preserves (BitswapNode.Sound known) (wantlistFill block sessions : Act (BitswapNode lib) Unit) := by
  induction sessions with
  | nil => exact .pure _
  | cons session sessions ih =>
      match session with
      | none => exact .lift _
      | some .localNode => exact ih
      | some (.remote peer) =>
          refine (onContext_sound (peerRequestQueueFindPeer_sound peer)).bind fun entry => ?_
          refine Act.Preserves.bind (fun node sound => sound.modifyRequest entry fun request other mem => ?_) fun _ => ih
          rcases List.mem_append.mp mem with old | new
          · exact .inl old
          · exact .inr (List.mem_singleton.mp new ▸ isKnown)

theorem BitswapNode.Sound.processEntry (sound : node.Sound known) (providers : Option (List (Peer × SendAttempt)))
    {entry : WantListEntry} (isSound : entry.toWantListQueueEntry.Sound known) :
    (WantListQueue.processEntry (node.surroundings providers) entry).toWantListQueueEntry.Sound known := by
  rw [WantListQueue.processEntry]
  split
  · rename_i block found
    refine ⟨isSound.short, fun other isBlock => ?_⟩
    obtain rfl := Option.some.inj isBlock
    obtain ⟨isCid, isKnown⟩ := sound.get found
    exact ⟨entry.cid, isCid, cidCompare_self _, isKnown⟩
  · split
    · split
      · exact ⟨isSound.short, isSound.block⟩
      · exact ⟨isSound.short, isSound.block⟩
    · exact isSound

theorem wantlistProcessEntry_sound (providers : Option (List (Peer × SendAttempt))) (item : Nat) :
    Act.Preserves (BitswapNode.Sound known) (wantlistProcessEntry providers item : Act (BitswapNode lib) Unit) := by
  refine Act.Preserves.gets_bind fun node sound => ?_
  rw [Act.lift_bind]
  cases here : (id node).wantlist.entries[item]? with
  | none => exact sound
  | some entry =>
      have isSound := sound.processEntry providers (sound.wants entry (List.mem_of_getElem? here))
      refine ((wantlistGetBlockRemote_sound entry.cid _).bind fun _ => Act.Preserves.bind (fun node' sound' => ?_) fun _ => ?_)
        node sound
      · refine sound'.wantlist fun entry' mem => ?_
        cases filled : node'.wantlist.queue with
        | none => simp [filled, WantListQueue.entries] at mem
        | some queue =>
            simp only [filled, WantListQueue.entries, Option.map_some, Option.getD_some] at mem
            rcases List.mem_or_eq_of_mem_set mem with old | rfl
            · exact sound'.wants entry' (by simpa [WantListQueue.entries, filled] using old)
            · exact isSound
      · split
        · exact .pure _
        · rename_i block isBlock
          obtain ⟨cid, isCid, -, isKnown⟩ := isSound.block block isBlock
          exact wantlistFill_sound ⟨cid, isCid, isKnown⟩ _

theorem wantlistProcessorRound_sound (providers : Option (List (Peer × SendAttempt))) :
    Act.Preserves (BitswapNode.Sound known) (wantlistProcessorRound compare providers : Act (BitswapNode lib) Unit) := by
  refine Act.Preserves.gets_bind fun node sound => ?_
  cases node.wantlist.pop with
  | none => exact sound
  | some item =>
      simp only [Act.lift_bind]
      cases here : node.wantlist.entries[item]? with
      | none => exact sound
      | some entry =>
          simp only [Outcome.access_some]
          split
          · cases gaveUp : WantListQueue.giveUp compare item entry.sessionsRequesting.length 0 node.wantlist with
            | failed | fault cause => exact sound
            | returned wantlist => exact sound.sameWants (WantListQueue.giveUp_wants gaveUp)
          · exact wantlistProcessEntry_sound providers item node sound

end

/-! ## Runs of the network -/

/-- The block that a call adds to the node. -/
def BitswapCall.adds (lib : Library) : BitswapCall → Option Block
  | .merkledagAdd node => merkledagBlock lib node
  | .hasBlock block => some block
  | _ => none

/-- No hash has 4 GiB, and no block 2^63 bytes. -/
structure BitswapCall.Fits (lib : Library) (call : BitswapCall) : Prop where
  hash : ∀ block cid, call.adds lib = some block → block.cid = some cid → cid.hash.length < 2 ^ 32
  data : ∀ block, call.adds lib = some block → block.data.length < 2 ^ 63
  wanted : ∀ cid, call = .getBlock cid → cid.hash.length < 2 ^ 32

theorem BitswapCall.Fits.of_adds {call : BitswapCall} (adds : call.adds lib = none)
    (wanted : ∀ cid, call = .getBlock cid → cid.hash.length < 2 ^ 32) : call.Fits lib where
  hash block cid other := by cases adds.symm.trans other
  data block other := by cases adds.symm.trans other
  wanted := wanted

section
variable {π : Type}

/-- Some node added the data under the hash. -/
def AddedIn (lib : Library) (events : List (Parties.Event π BitswapCall Session)) (hash data : Bytes) : Prop :=
  ∃ party call block cid, Parties.Event.act party call ∈ events ∧ call.adds lib = some block ∧
    block.cid = some cid ∧ cid.hash = hash ∧ block.data = data

/-- A node that has nothing yet, whose disk takes each file whole. -/
structure BitswapNode.Fresh (node : BitswapNode lib) : Prop where
  whole : node.repo.WritesWhole
  files : ∀ name, node.repo.blockstore name = none
  wantlist : node.wantlist = {}
  peerRequestQueue : node.peerRequestQueue = []
  sent : node.sent = []

theorem BitswapNode.Fresh.sound {node : BitswapNode lib} (fresh : node.Fresh) : node.Sound known where
  context :=
    { repo := ⟨fresh.whole, fun name file found => by cases (fresh.files name).symm.trans found⟩
      wants := by simp [BitswapNode.context, fresh.wantlist]
      blocks := by simp [BitswapNode.context, fresh.peerRequestQueue] }
  sent := by simp [fresh.sent]

theorem bitswapHasBlock_withoutCid (data : Bytes) (context : BitswapContext lib) :
    bitswapHasBlock ⟨none, data⟩ context = (.fault .nullPointer, context) := rfl

theorem BitswapCall.perform_sound {compare : Peer → Peer → Int} {node : BitswapNode lib} (sound : node.Sound known)
    {call : BitswapCall} (fits : call.Fits lib)
    (isKnown : ∀ block cid, call.adds lib = some block → block.cid = some cid → known cid.hash block.data) :
    (call.perform compare node).Sound known := by
  have sized {block : Block} {cid : Cid} (adds : call.adds lib = some block) (isCid : block.cid = some cid) :
      blocksBlockProtobufEncodeSize block < 2 ^ 64 := by
    have hash := fits.hash block cid adds isCid
    have data := fits.data block adds
    rw [blocksBlockProtobufEncodeSize, isCid, cidProtobufEncodeSize]
    omega
  cases call with
  | merkledagAdd dagNode =>
      refine onContext_sound (onRepo_sound (merkledagAdd_holds fun block isBlock => ?_)) node sound
      obtain ⟨hashed, -, converted⟩ := Option.bind_eq_some_iff.mp isBlock
      obtain ⟨data, -, same⟩ := Option.bind_eq_some_iff.mp converted
      obtain rfl := Option.some.inj same
      exact ⟨⟨_, rfl, isKnown _ _ isBlock rfl⟩, sized isBlock rfl⟩
  | hasBlock block =>
      obtain ⟨cid, data⟩ := block
      cases cid with
      | none =>
          have same : (bitswapHasBlock ⟨none, data⟩ : Act (BitswapContext lib) Unit).Preserves (BitswapContext.Sound known) :=
            fun context sound => by rwa [bitswapHasBlock_withoutCid]
          exact onContext_sound same node sound
      | some cid => exact onContext_sound (bitswapHasBlock_sound ⟨cid, rfl, isKnown _ _ rfl rfl⟩ (sized rfl rfl)) node sound
  | getBlock cid => exact bitswapGetBlock_sound (fits.wanted cid rfl) node sound
  | look cid wantEntry => exact bitswapGetBlockLook_sound cid wantEntry node sound
  | stopWaiting cid => exact wantManagerRemove_sound cid node sound
  | wantlistProcessor providers => exact wantlistProcessorRound_sound providers node sound
  | peerRequestProcessor place sending => exact processPeerRequest_sound place sending node sound
  | link place connecting => exact sound.modifyRequest place fun request block mem => .inl mem

variable [DecidableEq π]

theorem bitswapNetwork_sound {compare : Peer → Peer → Int} {start states : π → BitswapNode lib}
    {events : List (Parties.Event π BitswapCall Session)} (fresh : ∀ party, (start party).Fresh)
    (fits : ∀ party call, .act party call ∈ events → call.Fits lib)
    (ran : (bitswapNetwork compare lib).machine.run start events = some states) :
    ∀ party, (states party).Sound (AddedIn lib events) := by
  have short : ∀ hash data, AddedIn lib events hash data → hash.length < 2 ^ 32 := by
    rintro hash data ⟨party, call, block, cid, mem, adds, isCid, rfl, rfl⟩
    exact (fits party call mem).hash block cid adds isCid
  have acts : ∀ (node : BitswapNode lib) (call : BitswapCall), node.Sound (AddedIn lib events) →
      (∃ party, .act party call ∈ events) → (call.perform compare node).Sound (AddedIn lib events) := by
    rintro node call sound ⟨party, mem⟩
    exact call.perform_sound sound (fits party call mem) fun block cid adds isCid =>
      ⟨party, call, block, cid, mem, adds, isCid, rfl, rfl⟩
  have receives : ∀ (node : BitswapNode lib) (session : Session) (bytes : Bytes), node.Sound (AddedIn lib events) →
      KnownMessage lib (AddedIn lib events) bytes → (onContext (networkHandleMessage session bytes) node).2.Sound
        (AddedIn lib events) :=
    fun node session bytes sound message => onContext_sound (networkHandleMessage_sound short session message) node sound
  refine Parties.run_keeps (fun node sound => sound.sent) acts receives (fun party => (fresh party).sound)
    (Machine.runMeets_of_forall (fun states event mem => ?_) _) ran
  cases event with
  | act party call => exact ⟨party, mem⟩
  | deliver => trivial

/-- What a look returns is in the entry for the want. -/
theorem bitswapGetBlockLook_entry {compare : Peer → Peer → Int} {node : BitswapNode lib} {cid : Cid} {wantEntry : Nat}
    {block : Block} (found : node.wantlist.find cid = .returned (some wantEntry))
    (looked : (bitswapGetBlockLook compare cid wantEntry node).1 = .returned (some block)) :
    ∃ entry ∈ node.wantlist.entries, cidCompare (some cid) (some entry.cid) = 0 ∧ entry.block = some block := by
  obtain ⟨queue, filled, place⟩ := Outcome.bind_eq_returned.mp found
  obtain ⟨bound, same, -⟩ := List.findIdx?_eq_some_iff_getElem.mp (Outcome.returned.inj place)
  obtain ⟨entries, isQueue, rfl⟩ := Option.map_eq_some_iff.mp (Outcome.access_eq_returned.mp filled)
  have isEntries : node.wantlist.entries = entries := by rw [WantListQueue.entries, isQueue, Option.getD_some]
  have inside : wantEntry < entries.length := by simpa using bound
  have mem : entries[wantEntry] ∈ node.wantlist.entries := by
    rw [isEntries]
    exact List.getElem_mem inside
  refine ⟨entries[wantEntry], mem, ?_, ?_⟩
  · simpa using same
  · have here : node.wantlist.entries[wantEntry]? = some entries[wantEntry] := by
      rw [isEntries, List.getElem?_eq_getElem inside]
    rw [bitswapGetBlockLook, Act.bind_apply] at looked
    simp only [Act.gets, Act.lift_bind, here, Outcome.access_some] at looked
    cases isBlock : entries[wantEntry].block with
    | none => simp [isBlock] at looked
    | some other =>
        simp only [isBlock, Act.lift_bind] at looked
        cases copied : blockCopy other with
        | failed | fault cause => simp [copied] at looked
        | returned copy =>
            obtain ⟨rfl, -⟩ := blockCopy_eq_returned copied
            simp only [copied, Act.bind_apply] at looked
            split at looked
            · simpa using looked
            · cases looked
            · cases looked

end

def letterCid : Cid := cidNew 0 letterDigest.sha256 cidDagProtobuf

def letterBlock : Block := ⟨some letterCid, letterDigest.block⟩

def letterNode : BitswapNode (.known letterTable) := { repo := .new letterTable }

def neighbour (id : UInt8) : Peer := { id := [id], connected := true, session := true }

def neighbourSession (id : UInt8) : Session := { remotePeerId := some [id], peerstore := fun id => some { neighbour 0 with id } }

def goodConnection : SendAttempt where
  connect := ⟨true, true, true⟩
  reconnect := ⟨true, true, true⟩
  bytesWritten := 1

/-- One node adds the block, the other one asks for it; the answer arrives twice. -/
def letterEvents : List (Parties.Event Bool BitswapCall Session) :=
  [.act true (.hasBlock letterBlock), .act false (.getBlock letterCid),
    .act false (.wantlistProcessor (some [(neighbour 1, goodConnection)])),
    .deliver true (neighbourSession 2) false 0, .act true (.peerRequestProcessor 0 goodConnection),
    .deliver false (neighbourSession 1) true 0, .deliver false (neighbourSession 1) true 0]

end Ipfs
