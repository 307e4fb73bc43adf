import Ipfs.Bitswap.ContentAddress
import Ipfs.Protobuf.Trace

/-!
# When the message handler is defined

The decoders leave absent what a message does not carry, and the handler reads it all the same. The
conditions below name, level by level, what has to be there; the handler executes nothing undefined
exactly on the messages that meet them.
-/

namespace Ipfs

/-! ## Decoders -/

section Decoders
variable (pb : Protobuf)

def cidKinds : Nat → Option PayloadKind
  | 1 | 2 => some .varint
  | 3 => some .delimited
  | _ => none

def blockKinds : Nat → Option PayloadKind
  | 1 | 2 => some .delimited
  | _ => none

def wantlistEntryKinds : Nat → Option PayloadKind
  | 1 => some .delimited
  | 2 | 3 => some .varint
  | _ => none

def wantlistKinds : Nat → Option PayloadKind
  | 1 => some .delimited
  | 2 => some .varint
  | _ => none

def messageKinds : Nat → Option PayloadKind
  | 1 | 2 | 3 => some .delimited
  | _ => none

def CidSafe (buffer : Bytes) : Prop :=
  buffer = [] ∨ ((fieldTrace pb cidKinds buffer).2 ≠ .overrun ∧
    ((fieldTrace pb cidKinds buffer).2 = .finished → ∃ hash, (3, hash) ∈ (fieldTrace pb cidKinds buffer).1))

def BlockSafe (buffer : Bytes) : Prop :=
  TraceSafe (fun fieldNo payload => fieldNo = 2 → CidSafe pb payload)
    (fun fieldNo payload => fieldNo = 2 → ∃ cid, cidProtobufDecode pb payload = .returned cid)
    (fieldTrace pb blockKinds buffer).1 (fieldTrace pb blockKinds buffer).2

def WantlistEntrySafe (buffer : Bytes) : Prop :=
  (fieldTrace pb wantlistEntryKinds buffer).2 ≠ .overrun

def WantlistSafe (buffer : Bytes) : Prop :=
  TraceSafe (fun _ payload => WantlistEntrySafe pb payload)
    (fun _ payload => ∃ entry, wantlistEntryProtobufDecode pb payload = .returned entry)
    (fieldTrace pb wantlistKinds buffer).1 (fieldTrace pb wantlistKinds buffer).2

def MessageSafe (buffer : Bytes) : Prop :=
  TraceSafe
    (fun fieldNo payload => (fieldNo = 2 → BlockSafe pb payload) ∧ (fieldNo = 3 → WantlistSafe pb payload))
    (fun fieldNo payload => (fieldNo = 2 → ∃ block, blocksBlockProtobufDecode pb payload = .returned block) ∧
      (fieldNo = 3 → ∃ wantlist, bitswapWantlistProtobufDecode pb payload = .returned wantlist))
    (fieldTrace pb messageKinds buffer).1 (fieldTrace pb messageKinds buffer).2

theorem cidFields_cases (fieldNo : Nat) :
    (fieldNo = 1 ∨ fieldNo = 2) ∨ fieldNo = 3 ∨ cidKinds fieldNo = none ∧ cidFields fieldNo = none := by
  match fieldNo with
  | 1 | 2 | 3 => simp
  | 0 | other + 4 => exact .inr (.inr ⟨rfl, rfl⟩)

theorem cidFields_loop (length fuel pos : Nat) (rest : Bytes) (s : CidDecoding) :
    match (traceLoop pb cidKinds fuel pos rest).2 with
    | .finished => ∃ s', (decodeLoop pb cidFields length fuel pos rest s).result = .returned s' ∧
        (s'.hash.isSome ↔ s.hash.isSome ∨ ∃ hash, (3, hash) ∈ (traceLoop pb cidKinds fuel pos rest).1)
    | .refused => (decodeLoop pb cidFields length fuel pos rest s).result = .failed
    | .overrun => (decodeLoop pb cidFields length fuel pos rest s).result = .fault .outOfBounds := by
  induction fuel generalizing pos rest s with
  | zero => simp [decodeLoop, traceLoop]
  | succ fuel ih =>
      by_cases empty : rest = []
      · simp [decodeLoop, traceLoop, empty]
      · simp only [decodeLoop, traceLoop, empty, if_false, decodeStep]
        cases tag : pb.decodeFieldAndType rest with
        | malformed => simp
        | truncated => by_cases first : pos = 0 <;> simp [first]
        | done fieldNo type n =>
            rcases cidFields_cases fieldNo with (rfl | rfl) | rfl | ⟨noKind, noField⟩
            · simp only [cidKinds, cidFields, Field.read, Outcome.pure_def, Scan.after]
              exact ih _ _ _
            · simp only [cidKinds, cidFields, Field.read, Outcome.pure_def, Scan.after]
              exact ih _ _ _
            · cases read : pb.decodeLengthDelimited (rest.drop n) with
              | none => simp [cidKinds, cidFields, Field.read, read]
              | some p =>
                  simp only [cidKinds, cidFields, Field.read, read, Outcome.ofOption_some, Outcome.returned_bind,
                    Outcome.pure_def, Scan.after]
                  have after := ih (pos + (n + p.2)) (rest.drop (n + p.2)) { s with hash := some p.1 }
                  cases last : (traceLoop pb cidKinds fuel (pos + (n + p.2)) (rest.drop (n + p.2))).2 with
                  | finished =>
                      simp only [last] at after ⊢
                      obtain ⟨s', done, assigned⟩ := after
                      exact ⟨s', done, by simp [assigned]⟩
                  | refused | overrun =>
                      simp only [last] at after ⊢
                      exact after
            · simp only [noKind, noField, Scan.after]
              exact ih _ _ _

theorem cidProtobufDecode_defined_iff (buffer : Bytes) :
    (cidProtobufDecode pb buffer).Defined ↔ CidSafe pb buffer := by
  by_cases empty : buffer = []
  · simp [cidProtobufDecode, CidSafe, empty]
  · have loop := cidFields_loop pb buffer.length buffer.length 0 buffer {}
    simp only [cidProtobufDecode, CidSafe, decodeFields, fieldTrace, empty, if_false, false_or]
    cases last : (traceLoop pb cidKinds buffer.length 0 buffer).2 with
    | finished =>
        simp only [last] at loop
        obtain ⟨s', done, assigned⟩ := loop
        simp [done, Outcome.defined_bind, assigned]
    | refused | overrun =>
        simp only [last] at loop
        simp [loop]

theorem blockFields_traced :
    Traced pb (blockFields pb) blockKinds (fun fieldNo payload => fieldNo = 2 → CidSafe pb payload)
      (fun fieldNo payload => fieldNo = 2 → ∃ cid, cidProtobufDecode pb payload = .returned cid) where
  unknown fieldNo kind := by
    match fieldNo, kind with
    | 0, _ | _ + 3, _ => rfl
  varint fieldNo kind := by
    match fieldNo, kind with
    | 0, kind | 1, kind | 2, kind | _ + 3, kind => simp [blockKinds] at kind
  delimited fieldNo kind := by
    match fieldNo, kind with
    | 1, _ => exact ⟨_, rfl, fun block data => by simp⟩
    | 2, _ =>
        refine ⟨_, rfl, fun block temp => ?_⟩
        simp [Outcome.defined_bind, Outcome.bind_eq_returned, cidProtobufDecode_defined_iff]

theorem blocksBlockProtobufDecode_defined_iff (buffer : Bytes) :
    (blocksBlockProtobufDecode pb buffer).Defined ↔ BlockSafe pb buffer :=
  decodeLoop_defined_iff (blockFields_traced pb) _ _ _ _ _

theorem wantlistEntryFields_traced :
    Traced pb wantlistEntryFields wantlistEntryKinds (fun _ _ => True) (fun _ _ => True) where
  unknown fieldNo kind := by
    match fieldNo, kind with
    | 0, _ | _ + 4, _ => rfl
  varint fieldNo kind := by
    match fieldNo, kind with
    | 2, _ | 3, _ => exact ⟨_, rfl⟩
  delimited fieldNo kind := by
    match fieldNo, kind with
    | 1, _ => exact ⟨_, rfl, fun entry block => by simp⟩
    | 2, kind | 3, kind | _ + 4, kind => simp [wantlistEntryKinds] at kind

theorem wantlistEntryProtobufDecode_defined_iff (buffer : Bytes) :
    (wantlistEntryProtobufDecode pb buffer).Defined ↔ WantlistEntrySafe pb buffer :=
  (decodeOptional_defined_iff (wantlistEntryFields_traced pb) buffer {}).trans (TraceSafe.always _ _)

theorem bitswapWantlistFields_traced :
    Traced pb (bitswapWantlistFields pb) wantlistKinds (fun _ payload => WantlistEntrySafe pb payload)
      (fun _ payload => ∃ entry, wantlistEntryProtobufDecode pb payload = .returned entry) where
  unknown fieldNo kind := by
    match fieldNo, kind with
    | 0, _ | _ + 3, _ => rfl
  varint fieldNo kind := by
    match fieldNo, kind with
    | 2, _ => exact ⟨_, rfl⟩
  delimited fieldNo kind := by
    match fieldNo, kind with
    | 1, _ =>
        refine ⟨_, rfl, fun list temp => ?_⟩
        simp [Outcome.defined_bind, Outcome.bind_eq_returned, wantlistEntryProtobufDecode_defined_iff]
    | 2, kind | _ + 3, kind => simp [wantlistKinds] at kind

theorem bitswapWantlistProtobufDecode_defined_iff (buffer : Bytes) :
    (bitswapWantlistProtobufDecode pb buffer).Defined ↔ WantlistSafe pb buffer :=
  decodeOptional_defined_iff (bitswapWantlistFields_traced pb) buffer {}

theorem bitswapMessageFields_traced :
    Traced pb (bitswapMessageFields pb) messageKinds
      (fun fieldNo payload => (fieldNo = 2 → BlockSafe pb payload) ∧ (fieldNo = 3 → WantlistSafe pb payload))
      (fun fieldNo payload => (fieldNo = 2 → ∃ block, blocksBlockProtobufDecode pb payload = .returned block) ∧
        (fieldNo = 3 → ∃ wantlist, bitswapWantlistProtobufDecode pb payload = .returned wantlist)) where
  unknown fieldNo kind := by
    match fieldNo, kind with
    | 0, _ | _ + 4, _ => rfl
  varint fieldNo kind := by
    match fieldNo, kind with
    | 0, kind | 1, kind | 2, kind | 3, kind | _ + 4, kind => simp [messageKinds] at kind
  delimited fieldNo kind := by
    match fieldNo, kind with
    | 1, _ => exact ⟨_, rfl, fun message data => by simp⟩
    | 2, _ =>
        refine ⟨_, rfl, fun message temp => ?_⟩
        simp [Outcome.defined_bind, Outcome.bind_eq_returned, blocksBlockProtobufDecode_defined_iff]
    | 3, _ =>
        refine ⟨_, rfl, fun message temp => ?_⟩
        simp [Outcome.defined_bind, Outcome.bind_eq_returned, bitswapWantlistProtobufDecode_defined_iff]

theorem bitswapMessageProtobufDecode_defined_iff (buffer : Bytes) :
    (bitswapMessageProtobufDecode pb buffer).Defined ↔ MessageSafe pb buffer :=
  decodeOptional_defined_iff (bitswapMessageFields_traced pb) buffer {}

end Decoders

/-! ## Payload -/

variable {lib : Library}

def Block.Writes (lib : Library) (block : Block) : Bool :=
  (blocksBlockProtobufEncode lib.pb block (blocksBlockProtobufEncodeSize block)).isSome

/-- Each block has a Cid, its file is opened, and the want list has a queue to look it up in. -/
structure PayloadSafe (context : BitswapContext lib) (payload : List Block) : Prop where
  wantlist : payload ≠ [] → context.localWantlist.isSome
  cids : ∀ block ∈ payload, block.cid.isSome
  files : .notOpened ∉ context.repo.disk.take (payload.countP (Block.Writes lib))

section
variable {block : Block} (cid : block.cid.isSome)
include cid

theorem blockstorePut_opened {repo : FsRepo lib}
    (opened : block.Writes lib → repo.disk.head? ≠ some .notOpened) :
    ∃ stored repo', (blockstorePut block).attempt repo = (.returned stored, repo') ∧
      repo'.disk = if block.Writes lib then repo.disk.tail else repo.disk := by
  obtain ⟨cid, isCid⟩ := Option.isSome_iff_exists.mp cid
  rw [Act.attempt, blockstorePut, isCid]
  cases encoded : blocksBlockProtobufEncode lib.pb block (blocksBlockProtobufEncodeSize block) with
  | none => exact ⟨none, repo, by simp, by simp [Block.Writes, encoded]⟩
  | some protobuf =>
      have writes : block.Writes lib := by simp [Block.Writes, encoded]
      obtain ⟨_, written⟩ := (writeFile_ends (lib.crypto.base32 cid.hash) protobuf repo).resolve_left
        fun refused => opened writes refused.1
      simp only [Outcome.access_some, Outcome.ofOption_some, Act.lift_bind, Act.bind_returned written, writes, if_true]
      by_cases whole : ((repo.disk.headD .complete).kept protobuf).length = protobuf.length
      · exact ⟨some protobuf.length, _, by rw [if_neg (not_not.mpr whole), whole]; rfl, rfl⟩
      · exact ⟨none, _, by rw [if_pos whole]; rfl, rfl⟩

theorem blockstorePut_notOpened {repo : FsRepo lib} (writes : block.Writes lib)
    (refused : repo.disk.head? = some .notOpened) :
    ∃ repo', (blockstorePut block).attempt repo = (.fault .nullPointer, repo') := by
  obtain ⟨cid, isCid⟩ := Option.isSome_iff_exists.mp cid
  obtain ⟨protobuf, encoded⟩ := Option.isSome_iff_exists.mp writes
  obtain ⟨_, faulted⟩ := (writeFile_ends (lib.crypto.base32 cid.hash) protobuf repo).resolve_right
    fun opened => opened.1 refused
  refine ⟨{ repo with disk := repo.disk.tail }, ?_⟩
  rw [Act.attempt, blockstorePut, isCid, encoded]
  simp only [Outcome.access_some, Outcome.ofOption_some, Act.bind_apply, Act.lift_apply, faulted]

theorem datastoreHelper_ends (repo : FsRepo lib) :
    ∃ stored repo', (datastoreHelperAddBlockToDatastore block).attempt repo = (.returned stored, repo') ∧
      repo'.disk = repo.disk := by
  obtain ⟨_, data⟩ := block
  obtain ⟨own, rfl⟩ := Option.isSome_iff_exists.mp cid
  rw [Act.attempt]
  obtain ⟨datastore, _, failed | ⟨succeeds, _⟩⟩ := datastoreHelperAddBlockToDatastore_ends own data repo
  · exact ⟨none, { repo with datastore }, by rw [failed], rfl⟩
  · exact ⟨some (), { repo with datastore }, by rw [succeeds], rfl⟩

theorem bitswapHasBlock_stored {context : BitswapContext lib}
    (opened : block.Writes lib → context.repo.disk.head? ≠ some .notOpened) :
    ∃ repo, repo.disk = (if block.Writes lib then context.repo.disk.tail else context.repo.disk) ∧
      match context.localWantlist with
      | none => bitswapHasBlock block context = (.fault .nullPointer, { context with repo })
      | some _ => ∃ queue, bitswapHasBlock block context =
          (.returned (), { context with repo, localWantlist := some queue }) := by
  obtain ⟨stored, repo, put, disk⟩ := blockstorePut_opened cid opened
  obtain ⟨remembered, repo', helped, disk'⟩ := datastoreHelper_ends cid repo
  have first : (onRepo (blockstorePut block)).attempt context = (.returned stored, { context with repo }) := by
    rw [onRepo, Act.attempt_zoom, Act.zoom, put]
  have second : (onRepo (datastoreHelperAddBlockToDatastore block)).attempt { context with repo } =
      (.returned remembered, { context with repo := repo' }) := by
    rw [onRepo, Act.attempt_zoom, Act.zoom, helped]
  refine ⟨repo', disk'.trans disk, ?_⟩
  rw [bitswapHasBlock, Act.bind_returned first, Act.bind_returned second]
  cases wantlist : context.localWantlist with
  | none => simp [Act.bind_apply, Act.gets, wantlistQueueFind]
  | some queue =>
      simp only [Act.bind_apply, Act.gets, wantlistQueueFind, Outcome.access_some, Outcome.returned_bind,
        Outcome.pure_def, Act.lift_apply]
      cases queue.findIdx? fun entry => cidCompare block.cid (some entry.cid) = 0 with
      | none => exact ⟨queue, rfl⟩
      | some i => exact ⟨_, rfl⟩

theorem bitswapHasBlock_returns {context : BitswapContext lib} (defined : (bitswapHasBlock block context).1.Defined) :
    (block.Writes lib → context.repo.disk.head? ≠ some .notOpened) ∧ context.localWantlist.isSome := by
  have opened : block.Writes lib → context.repo.disk.head? ≠ some .notOpened := by
    intro writes refused
    obtain ⟨repo, faulted⟩ := blockstorePut_notOpened cid writes refused
    have put := (Act.defined_bind.mp defined).1
    simp [onRepo, Act.attempt_zoom, Act.zoom, faulted] at put
  refine ⟨opened, ?_⟩
  obtain ⟨repo, _, ends⟩ := bitswapHasBlock_stored cid opened
  cases wantlist : context.localWantlist with
  | none =>
      simp only [wantlist] at ends
      simp [ends] at defined
  | some queue => rfl

end

theorem DiskWrite.not_mem_take_succ (disk : List DiskWrite) (n : Nat) :
    .notOpened ∉ disk.take (n + 1) ↔ disk.head? ≠ some .notOpened ∧ .notOpened ∉ disk.tail.take n := by
  cases disk with
  | nil => simp
  | cons write disk => simp [eq_comm]

theorem PayloadSafe.opened {context : BitswapContext lib} {blk : Block} {payload : List Block}
    (safe : PayloadSafe context (blk :: payload)) (writes : blk.Writes lib) :
    context.repo.disk.head? ≠ some .notOpened := by
  have files := safe.files
  rw [List.countP_cons_of_pos writes, DiskWrite.not_mem_take_succ] at files
  exact files.1

theorem PayloadSafe.cons_iff {context context' : BitswapContext lib} {blk : Block} {payload : List Block}
    (wanted' : context'.localWantlist.isSome = context.localWantlist.isSome)
    (disk' : context'.repo.disk = if blk.Writes lib then context.repo.disk.tail else context.repo.disk) :
    PayloadSafe context (blk :: payload) ↔
      blk.cid.isSome ∧ (blk.Writes lib → context.repo.disk.head? ≠ some .notOpened) ∧
        context.localWantlist.isSome ∧ PayloadSafe context' payload := by
  have files : .notOpened ∉ context.repo.disk.take ((blk :: payload).countP (Block.Writes lib)) ↔
      (blk.Writes lib → context.repo.disk.head? ≠ some .notOpened) ∧
        .notOpened ∉ context'.repo.disk.take (payload.countP (Block.Writes lib)) := by
    by_cases writes : blk.Writes lib
    · rw [List.countP_cons_of_pos writes, DiskWrite.not_mem_take_succ]
      simp [disk', writes]
    · rw [List.countP_cons_of_neg writes]
      simp [disk', writes]
  constructor
  · rintro ⟨wanted, cids, opened⟩
    obtain ⟨here, later⟩ := files.mp opened
    have queue := wanted (by simp)
    exact ⟨cids blk (by simp), here, queue, fun _ => wanted'.trans queue, fun block mem => cids block (by simp [mem]),
      later⟩
  · rintro ⟨cid, here, queue, _, cids, later⟩
    exact ⟨fun _ => queue, fun block mem => (List.mem_cons.mp mem).elim (· ▸ cid) (cids block), files.mpr ⟨here, later⟩⟩

theorem handlePayload_returns {context : BitswapContext lib} {payload : List Block}
    (safe : PayloadSafe context payload) :
    ∃ context', handlePayload payload context = (.returned (), context') ∧
      context'.peerRequestQueue = context.peerRequestQueue := by
  induction payload generalizing context with
  | nil => exact ⟨context, rfl, rfl⟩
  | cons blk payload ih =>
      have present := safe.cids blk (by simp)
      obtain ⟨queue, isQueue⟩ := Option.isSome_iff_exists.mp (safe.wantlist (by simp))
      obtain ⟨repo, disk, ends⟩ := bitswapHasBlock_stored present safe.opened
      simp only [isQueue] at ends
      obtain ⟨queue', returns⟩ := ends
      have behind : PayloadSafe { context with repo, localWantlist := some queue' } payload :=
        ((PayloadSafe.cons_iff (by simp [isQueue]) disk).mp safe).2.2.2
      obtain ⟨context', later, same⟩ := ih behind
      refine ⟨context', ?_, same⟩
      rw [handlePayload, blockCopy_returns present, Act.lift_bind]
      exact (Act.bind_returned returns _).trans later

theorem handlePayload_defined_iff (context : BitswapContext lib) (payload : List Block) :
    (handlePayload payload context).1.Defined ↔ PayloadSafe context payload := by
  constructor
  · intro defined
    induction payload generalizing context with
    | nil => exact ⟨by simp, by simp, by simp⟩
    | cons blk payload ih =>
        rw [handlePayload, Act.defined_lift_bind] at defined
        obtain ⟨copied, next⟩ := defined
        have present : blk.cid.isSome := by
          cases cid : blk.cid with
          | none => simp [blockCopy, cidCopy, cid] at copied
          | some cid => rfl
        obtain ⟨here, next⟩ := Act.defined_bind.mp (next blk (blockCopy_returns present))
        obtain ⟨opened, wanted⟩ := bitswapHasBlock_returns present here
        obtain ⟨queue, isQueue⟩ := Option.isSome_iff_exists.mp wanted
        obtain ⟨repo, disk, ends⟩ := bitswapHasBlock_stored present opened
        simp only [isQueue] at ends
        obtain ⟨queue', returns⟩ := ends
        have later := ih _ (next _ _ returns)
        exact (PayloadSafe.cons_iff (by simp [isQueue]) disk).mpr ⟨present, opened, wanted, later⟩
  · intro safe
    obtain ⟨context', returns, _⟩ := handlePayload_returns safe
    simp [returns]

/-! ## Wantlist -/

/-- Each entry up to the first one without a usable Cid has a block, a Cid that decodes and a cancel flag,
and asks for what is first in the queue. -/
def WantsSafe (pb : Protobuf) : List CidEntry → List (Option WantlistEntry) → Prop
  | _, [] => True
  | cids, entry :: entries =>
      ∃ want block, entry = some want ∧ want.block = some block ∧ block ≠ [] ∧ CidSafe pb block ∧
        ∀ cid, cidProtobufDecode pb block = .returned (some cid) → cid.hash ≠ [] →
          ∃ cancel, want.cancel = some cancel ∧
            (∀ current ∈ cids.head?, cidCompare (some current.cid) (some cid) = 0) ∧
            ∀ cids', networkAdjustCidQueue cids cid cancel = .returned cids' → WantsSafe pb cids' entries

theorem networkAdjustCidQueue_defined_iff (cids : List CidEntry) (cid : Cid) (cancel : UInt8) :
    (networkAdjustCidQueue cids cid cancel).Defined ↔
      ∀ current ∈ cids.head?, cidCompare (some current.cid) (some cid) = 0 := by
  cases cids with
  | nil => simp [networkAdjustCidQueue]
  | cons current cids => by_cases same : cidCompare (some current.cid) (some cid) = 0 <;> simp [networkAdjustCidQueue, same]

theorem cidProtobufDecode_eq_none {pb : Protobuf} {buffer : Bytes} :
    cidProtobufDecode pb buffer = .returned none ↔ buffer = [] := by
  by_cases empty : buffer = []
  · simp [cidProtobufDecode, empty]
  · simp [cidProtobufDecode, empty, Outcome.bind_eq_returned]

theorem bitswapMessageProtobufDecode_eq_none {pb : Protobuf} {buffer : Bytes} :
    bitswapMessageProtobufDecode pb buffer = .returned none ↔ buffer = [] := by
  by_cases empty : buffer = []
  · simp [bitswapMessageProtobufDecode, empty]
  · simp [bitswapMessageProtobufDecode, empty, Outcome.bind_eq_returned]

theorem wantedCid_eq_returned {pb : Protobuf} {want : WantlistEntry} {block : Bytes} {cid : Cid}
    (isBlock : want.block = some block) :
    wantedCid pb (some want) = .returned cid ↔
      cidProtobufDecode pb block = .returned (some cid) ∧ cid.hash ≠ [] := by
  simp only [wantedCid, Outcome.access_some, Outcome.returned_bind, isBlock, Outcome.bind_eq_returned,
    Outcome.access_eq_returned, Outcome.pure_def]
  constructor
  · rintro ⟨_, decoded, cid', rfl, checked⟩
    by_cases empty : cid'.hash = []
    · simp [empty] at checked
    · obtain rfl : cid' = cid := by simpa [empty] using checked
      exact ⟨decoded, empty⟩
  · rintro ⟨decoded, hash⟩
    exact ⟨_, decoded, cid, rfl, by simp [hash]⟩

theorem wantedCid_defined_iff (pb : Protobuf) (entry : Option WantlistEntry) :
    (wantedCid pb entry).Defined ↔
      ∃ want block, entry = some want ∧ want.block = some block ∧ block ≠ [] ∧ CidSafe pb block := by
  cases entry with
  | none => simp [wantedCid]
  | some want =>
      cases isBlock : want.block with
      | none => simp [wantedCid, isBlock]
      | some block =>
          have checked (decoded : Option Cid) : (do
              let cid ← .access .nullPointer decoded
              if cid.hash = [] then .failed else pure cid : Outcome Cid).Defined ↔ decoded ≠ none := by
            cases decoded with
            | none => simp
            | some cid => by_cases empty : cid.hash = [] <;> simp [empty]
          simp only [wantedCid, Outcome.access_some, Outcome.returned_bind, isBlock]
          rw [Outcome.defined_bind, cidProtobufDecode_defined_iff]
          simp only [checked]
          constructor
          · rintro ⟨safe, all⟩
            exact ⟨want, block, rfl, isBlock, fun empty => all none (cidProtobufDecode_eq_none.mpr empty) rfl, safe⟩
          · rintro ⟨want', block', same, isBlock', nonempty, safe⟩
            obtain rfl := Option.some.inj same
            obtain rfl := Option.some.inj (isBlock.symm.trans isBlock')
            refine ⟨safe, ?_⟩
            rintro _ decoded rfl
            exact nonempty (cidProtobufDecode_eq_none.mp decoded)

theorem handleWants_defined_iff (pb : Protobuf) (cids : List CidEntry) (entries : List (Option WantlistEntry)) :
    (handleWants pb entries cids).1.Defined ↔ WantsSafe pb cids entries := by
  induction entries generalizing cids with
  | nil => simp [handleWants, WantsSafe]
  | cons entry entries ih =>
      have queued (cid : Cid) (cancel : UInt8) :
          ((do
            let cids ← Act.gets id
            let cids ← .lift (networkAdjustCidQueue cids cid cancel)
            .modify fun _ => cids
            handleWants pb entries : Act (List CidEntry) Unit) cids).1.Defined ↔
            (∀ current ∈ cids.head?, cidCompare (some current.cid) (some cid) = 0) ∧
              ∀ cids', networkAdjustCidQueue cids cid cancel = .returned cids' → WantsSafe pb cids' entries := by
        rw [← networkAdjustCidQueue_defined_iff]
        cases adjusted : networkAdjustCidQueue cids cid cancel with
        | returned cids' => simp [Act.bind_apply, Act.gets, Act.modify, adjusted, ih]
        | failed => simp [Act.bind_apply, Act.gets, adjusted]
        | fault cause => simp [Act.bind_apply, Act.gets, adjusted]
      rw [handleWants, WantsSafe, Act.defined_lift_bind, wantedCid_defined_iff]
      constructor
      · rintro ⟨⟨want, block, rfl, isBlock, nonempty, safe⟩, next⟩
        refine ⟨want, block, rfl, isBlock, nonempty, safe, fun cid decoded hash => ?_⟩
        have rest := next cid ((wantedCid_eq_returned isBlock).mpr ⟨decoded, hash⟩)
        rw [Act.defined_lift_bind, Outcome.defined_access] at rest
        obtain ⟨cancel, isCancel⟩ := Option.isSome_iff_exists.mp rest.1
        refine ⟨cancel, isCancel, (queued cid cancel).mp (rest.2 cancel ?_)⟩
        rw [isCancel, Outcome.access_some]
      · rintro ⟨want, block, rfl, isBlock, nonempty, safe, next⟩
        refine ⟨⟨want, block, rfl, isBlock, nonempty, safe⟩, fun cid wanted => ?_⟩
        obtain ⟨decoded, hash⟩ := (wantedCid_eq_returned isBlock).mp wanted
        obtain ⟨cancel, isCancel, adjusts⟩ := next cid decoded hash
        rw [Act.defined_lift_bind, Option.bind_some, isCancel, Outcome.defined_access]
        refine ⟨rfl, fun cancel' same => ?_⟩
        obtain rfl := Outcome.returned.inj same
        exact (queued cid cancel).mpr adjusts

def BitswapContext.wantedBy (context : BitswapContext lib) (peer : Peer) : List CidEntry :=
  (context.peerRequestQueue.find? fun request => request.peer.map Peer.id = some peer.id).elim []
    PeerRequest.cidsTheyWant

theorem peerRequestQueueFindPeer_returns (context : BitswapContext lib) (peer : Peer) :
    ∃ i context', peerRequestQueueFindPeer peer context = (.returned i, context') ∧
      context'.cidsTheyWant i = context.wantedBy peer := by
  rw [peerRequestQueueFindPeer]
  cases place : context.peerRequestQueue.findIdx? fun request => request.peer.map Peer.id = some peer.id with
  | some i =>
      refine ⟨i, context, rfl, ?_⟩
      rw [BitswapContext.cidsTheyWant, BitswapContext.wantedBy, List.find?_eq_bind_findIdx?_getElem?, place]
      rw [Option.bind_some]
      cases context.peerRequestQueue[i]? <;> rfl
  | none =>
      refine ⟨_, _, rfl, ?_⟩
      rw [BitswapContext.wantedBy, List.find?_eq_bind_findIdx?_getElem?, place]
      simp [BitswapContext.cidsTheyWant]

theorem handleWantlist_defined_iff (session : Session) (entries : List (Option WantlistEntry))
    (context : BitswapContext lib) :
    (handleWantlist session entries context).1.Defined ↔
      ∀ peer, session.remotePeerId.bind session.peerstore = some peer →
        WantsSafe lib.pb (context.wantedBy peer) entries := by
  rw [handleWantlist]
  cases remote : session.remotePeerId with
  | none => simp [Act.lift_bind]
  | some remotePeerId =>
      cases known : session.peerstore remotePeerId with
      | none => simp [Act.lift_bind, known]
      | some peer =>
          obtain ⟨i, context', found, wants⟩ := peerRequestQueueFindPeer_returns context peer
          simp only [Act.lift_bind, Outcome.ofOption_some, known, Act.bind_returned found, Act.zoom, wants,
            handleWants_defined_iff, Option.bind_some, Option.some.injEq, forall_eq']

/-! ## Messages -/

def BodySafe (session : Session) (context : BitswapContext lib) (body : Bytes) : Prop :=
  body ≠ [] ∧ MessageSafe lib.pb body ∧
    ∀ message, bitswapMessageProtobufDecode lib.pb body = .returned (some message) →
      PayloadSafe context (message.payload.getD []) ∧
        ∀ peer, session.remotePeerId.bind session.peerstore = some peer →
          WantsSafe lib.pb (context.wantedBy peer) ((message.wantlist.bind BitswapWantlist.entries).getD [])

/-- The end of the header is found with an `int`, and what follows it is safe. -/
def HandlerSafe (session : Session) (context : BitswapContext lib) (bytes : Bytes) : Prop :=
  match bytes.findIdx? (· = 0x0a) with
  | none => bytes.length < 2 ^ 31
  | some i => i < 2 ^ 31 - 1 ∧ BodySafe session context (bytes.drop (i + 1))

theorem handleDecoded_defined_iff (session : Session) (context : BitswapContext lib) (message : BitswapMessage) :
    ((do
      handlePayload (message.payload.getD [])
      match (message.wantlist.bind BitswapWantlist.entries).getD [] with
      | [] => pure ()
      | entries => handleWantlist session entries : Act (BitswapContext lib) Unit) context).1.Defined ↔
      PayloadSafe context (message.payload.getD []) ∧
        ∀ peer, session.remotePeerId.bind session.peerstore = some peer →
          WantsSafe lib.pb (context.wantedBy peer) ((message.wantlist.bind BitswapWantlist.entries).getD []) := by
  rw [Act.defined_bind, handlePayload_defined_iff]
  refine and_congr_right fun safe => ?_
  obtain ⟨context', returns, same⟩ := handlePayload_returns safe
  have wanted (peer : Peer) : context'.wantedBy peer = context.wantedBy peer := by
    rw [BitswapContext.wantedBy, BitswapContext.wantedBy, same]
  have wants : (∀ result context'', handlePayload (message.payload.getD []) context = (.returned result, context'') →
      ((match (message.wantlist.bind BitswapWantlist.entries).getD [] with
        | [] => pure ()
        | entries => handleWantlist session entries : Act (BitswapContext lib) Unit) context'').1.Defined) ↔
      ((match (message.wantlist.bind BitswapWantlist.entries).getD [] with
        | [] => pure ()
        | entries => handleWantlist session entries : Act (BitswapContext lib) Unit) context').1.Defined := by
    simp [returns]
  rw [wants]
  cases entries : (message.wantlist.bind BitswapWantlist.entries).getD [] with
  | nil => simp [WantsSafe]
  | cons entry entries => simp [handleWantlist_defined_iff, wanted]

theorem networkHandleMessage_body (session : Session) (context : BitswapContext lib) (body : Bytes) :
    ((do
      let decoded ← .lift (bitswapMessageProtobufDecode lib.pb body)
      let message ← .lift (.access .nullPointer decoded)
      handlePayload (message.payload.getD [])
      match (message.wantlist.bind BitswapWantlist.entries).getD [] with
      | [] => pure ()
      | entries => handleWantlist session entries : Act (BitswapContext lib) Unit) context).1.Defined ↔
      BodySafe session context body := by
  rw [Act.defined_lift_bind, bitswapMessageProtobufDecode_defined_iff, BodySafe]
  constructor
  · rintro ⟨safe, next⟩
    refine ⟨?_, safe, fun message decoded => ?_⟩
    · rintro rfl
      simpa [Act.defined_lift_bind] using next none rfl
    · have rest := next _ decoded
      rw [Act.defined_lift_bind] at rest
      exact (handleDecoded_defined_iff session context message).mp (rest.2 message rfl)
  · rintro ⟨nonempty, safe, next⟩
    refine ⟨safe, fun decoded isDecoded => ?_⟩
    cases decoded with
    | none => exact absurd (bitswapMessageProtobufDecode_eq_none.mp isDecoded) nonempty
    | some message =>
        rw [Outcome.access_some, Act.defined_lift_bind]
        refine ⟨Outcome.defined_returned _, fun message' same => ?_⟩
        obtain rfl := Outcome.returned.inj same
        exact (handleDecoded_defined_iff session context message).mpr (next message isDecoded)

end Ipfs
