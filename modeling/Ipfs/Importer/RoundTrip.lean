import Ipfs.Importer.Exporter
import Ipfs.Importer.Layout
import Ipfs.Store.Known

/-!
# Import, then export

An import leaves every node of the file in the repository. Both exports read them back, as long as
the size of the root fits into the `int` that `ipfs_routing_generic_get_value` puts it in.
-/

namespace Ipfs
variable {lib : Library}

def FsRepo.HoldsAll (repo : FsRepo lib) (blocks : List Bytes) : Prop :=
  ∀ block ∈ blocks, repo.Holds (lib.crypto.sha256 block) block

def CollisionFree (lib : Library) (blocks : List Bytes) : Prop :=
  ∀ a ∈ blocks, ∀ b ∈ blocks, lib.crypto.sha256 a = lib.crypto.sha256 b → a = b

theorem CollisionFree.mono {blocks blocks' : List Bytes} (free : CollisionFree lib blocks)
    (sub : blocks' ⊆ blocks) : CollisionFree lib blocks' :=
  fun a mem b mem' => free a (sub mem) b (sub mem')

theorem FsRepo.HoldsAll.mono {repo : FsRepo lib} {blocks blocks' : List Bytes} (holds : repo.HoldsAll blocks)
    (sub : blocks' ⊆ blocks) : repo.HoldsAll blocks' :=
  fun block mem => holds block (sub mem)

theorem FsRepo.HoldsAll.add {repo : FsRepo lib} {block value : Bytes} {blocks : List Bytes}
    {datastore : lib.store.State} (holds : repo.HoldsAll blocks)
    (put : lib.store.put repo.datastore (lib.crypto.sha256 block) value = some datastore)
    (free : CollisionFree lib (block :: blocks)) :
    (repo.add (lib.crypto.sha256 block) block datastore).HoldsAll (block :: blocks) := by
  intro other mem
  rcases List.mem_cons.mp mem with rfl | old
  · exact FsRepo.holds_add _ put
  · exact (holds other old).add put fun same => free _ List.mem_cons_self _ (List.mem_cons_of_mem _ old) same

theorem FsRepo.Reliable.add {repo : FsRepo lib} (reliable : repo.Reliable) (hash bytes : Bytes)
    (datastore : lib.store.State) : (repo.add hash bytes datastore).Reliable :=
  ⟨reliable.disk, reliable.store⟩

/-! ## Import -/

def chunkBlocks (lib : Library) (chunks : List Bytes) : List Bytes :=
  chunks.map fun chunk => nodeBytes lib (chunkNode chunk)

theorem short_concat {done : List Bytes} {chunk : Bytes} (earlier : ∀ chunk ∈ done, chunk.length ≤ maxDataSize)
    (short : chunk.length ≤ maxDataSize) : ∀ other ∈ done ++ [chunk], other.length ≤ maxDataSize := by
  simp only [List.mem_append, List.mem_singleton]
  rintro other (mem | rfl)
  · exact earlier other mem
  · exact short

theorem chunkBlocks_concat (done : List Bytes) (chunk : Bytes) :
    chunkBlocks lib (done ++ [chunk]) = chunkBlocks lib done ++ [nodeBytes lib (chunkNode chunk)] := by
  simp [chunkBlocks]

theorem fileBlocks_eq (chunks : List Bytes) :
    fileBlocks lib chunks = nodeBytes lib (fileNode lib chunks) :: chunkBlocks lib chunks := rfl

theorem fileNode_of_ne {chunks : List Bytes} (many : chunks.length ≠ 1) :
    fileNode lib chunks = linkedNode lib chunks := by
  match chunks, many with
  | [], _ => rfl
  | [_], many => exact absurd rfl many
  | _ :: _ :: _, _ => rfl

theorem linkedNode_stored_links (chunks : List Bytes) (hash : Bytes) :
    ((linkedNode lib chunks).stored hash).links = chunks.map fun chunk => (chunkLink lib chunk).named :=
  List.map_map

theorem parentNode_links (done : List Bytes) : (parentNode lib done).links = done.map (chunkLink lib) := by
  by_cases first : done = []
  · simp [parentNode, first]
  · simp [parentNode, first, linkedNode]

theorem parentNode_hash (done : List Bytes) : (parentNode lib done).hash = none := by
  by_cases first : done = []
  · simp [parentNode, first]
  · simp [parentNode, first, linkedNode]

theorem importerDataSection_parentNode (done : List Bytes) :
    importerDataSection lib.pb (parentNode lib done).data = .returned (linkedUnixFS done) := by
  by_cases first : done = []
  · simp [importerDataSection, parentNode, first, linkedUnixFS]
  · simp only [importerDataSection, parentNode, first, linkedNode, unixfsBytes_ne_nil, if_false]
    exact unixfsProtobufDecoded_unixfsBytes lib.pb (linkedUnixFS done) trivial

theorem linkedUnixFS_concat (done : List Bytes) (chunk : Bytes) :
    { unixfsAddBlocksize (.ofNat chunk.length) (linkedUnixFS done) with
      fileSize := (linkedUnixFS done).fileSize + .ofNat chunk.length } = linkedUnixFS (done ++ [chunk]) := by
  simp [unixfsAddBlocksize, linkedUnixFS, UInt64.ofNat_add]

theorem importerAddFilesizeToDataSection_parentNode (done : List Bytes) (chunk : Bytes) :
    importerAddFilesizeToDataSection lib.pb
        (hashtableNodeAddLink (parentNode lib done) (chunkLink lib chunk)) chunk.length =
      .returned (linkedNode lib (done ++ [chunk])) := by
  have decode : importerDataSection lib.pb
      (hashtableNodeAddLink (parentNode lib done) (chunkLink lib chunk)).data = .returned (linkedUnixFS done) :=
    importerDataSection_parentNode done
  have sum := linkedUnixFS_concat done chunk
  have encode := unixfsProtobufEncode_eq lib.pb (linkedUnixFS (done ++ [chunk])) _
    (unixfsBytes_length_le (linkedUnixFS (done ++ [chunk])) trivial (by simp [linkedUnixFS]))
  rw [← sum] at encode
  rw [importerAddFilesizeToDataSection, decode, Outcome.returned_bind]
  refine (congrArg (· >>= _) encode).trans ?_
  rw [Outcome.returned_bind, sum]
  simp [linkedNode, hashtableNodeAddLink, parentNode_links, parentNode_hash]

section
variable {repo : FsRepo lib} {chunk : Bytes} (reliable : repo.Reliable) (short : chunk.length ≤ maxDataSize)
include reliable short

theorem importLinkedNode_returns (done : List Bytes) :
    ∃ datastore value, lib.store.put repo.datastore (nodeHash lib (chunkNode chunk)) value = some datastore ∧
      importLinkedNode (chunkNode chunk).data (parentNode lib done) chunk.length repo =
        (.returned (linkedNode lib (done ++ [chunk])),
          repo.add (nodeHash lib (chunkNode chunk)) (nodeBytes lib (chunkNode chunk)) datastore) := by
  have size := chunkNode_size_le short
  obtain ⟨datastore, put, added⟩ := merkledagAdd_returns reliable rfl (chunkNode_saveable short)
    (by rw [maxDataSize] at size; omega)
  refine ⟨datastore, _, put, ?_⟩
  refine (Act.bind_returned added _).trans ?_
  exact congrArg (·, _) (importerAddFilesizeToDataSection_parentNode done chunk)

theorem importLinkedNode_holds {done : List Bytes} (holds : repo.HoldsAll (chunkBlocks lib done))
    (free : CollisionFree lib (chunkBlocks lib (done ++ [chunk]))) :
    ∃ repo' : FsRepo lib, repo'.Reliable ∧ repo'.HoldsAll (chunkBlocks lib (done ++ [chunk])) ∧
      importLinkedNode (chunkNode chunk).data (parentNode lib done) chunk.length repo =
        (.returned (linkedNode lib (done ++ [chunk])), repo') := by
  obtain ⟨datastore, _, put, imported⟩ := importLinkedNode_returns reliable short done
  rw [chunkBlocks_concat] at free ⊢
  have free' : CollisionFree lib (nodeBytes lib (chunkNode chunk) :: chunkBlocks lib done) :=
    free.mono (by simp)
  exact ⟨_, reliable.add _ _ _, (holds.add put free').mono (by simp), imported⟩

omit short in
theorem importPersist_holds {node : HashtableNode} {blocks : List Bytes} (unhashed : node.hash = none)
    (saveable : node.Saveable) (sized : hashtableNodeProtobufEncodeSize node + 88 < 2 ^ 64)
    (holds : repo.HoldsAll blocks) (free : CollisionFree lib (nodeBytes lib node :: blocks)) :
    ∃ repo' : FsRepo lib, repo'.HoldsAll (nodeBytes lib node :: blocks) ∧
      importPersist node repo = (.returned { node with hash := some (nodeHash lib node) }, repo') := by
  obtain ⟨datastore, put, added⟩ := merkledagAdd_returns reliable unhashed saveable sized
  exact ⟨_, holds.add put free, Act.attempt_bind_returned added _⟩

omit reliable in
theorem unixfsProtobufEncode_chunk :
    unixfsProtobufEncode lib.pb (unixfsAddData lib chunk { dataType := .file, fileSize := .ofNat chunk.length })
      (unixfsProtobufEncodeSize (unixfsAddData lib chunk { dataType := .file, fileSize := .ofNat chunk.length })) =
        .returned (chunkNode chunk).data := by
  have sized : chunk.length < 2 ^ 64 := by
    rw [maxDataSize] at short
    omega
  exact unixfsProtobufEncode_eq lib.pb _ _ (unixfsBytes_length_le _ trivial sized)

omit reliable in
theorem importChunk_eq (parentNode : HashtableNode) (repo : FsRepo lib) :
    importChunk chunk parentNode repo =
      (if chunk.length = maxDataSize then importLinkedNode (chunkNode chunk).data parentNode chunk.length
        else if parentNode.links = [] then importPersist { parentNode with data := (chunkNode chunk).data }
        else importLinkedNode (chunkNode chunk).data parentNode chunk.length >>= importPersist) repo := by
  exact Act.bind_returned (congrArg (·, repo) (unixfsProtobufEncode_chunk short)) _

theorem importChunk_last {done : List Bytes} (holds : repo.HoldsAll (chunkBlocks lib done))
    (free : CollisionFree lib (fileBlocks lib (done ++ [chunk])))
    (earlier : ∀ chunk ∈ done, chunk.length ≤ maxDataSize) (bounded : (done ++ [chunk]).length ≤ 2 ^ 50)
    (last : chunk.length ≠ maxDataSize) :
    ∃ repo' : FsRepo lib, repo'.HoldsAll (fileBlocks lib (done ++ [chunk])) ∧
      importChunk chunk (parentNode lib done) repo =
        (.returned { fileNode lib (done ++ [chunk]) with
          hash := some (nodeHash lib (fileNode lib (done ++ [chunk]))) }, repo') := by
  rw [importChunk_eq short, if_neg last]
  by_cases first : done = []
  · subst first
    have size := chunkNode_size_le short
    obtain ⟨repo', holds', persisted⟩ := importPersist_holds reliable rfl (chunkNode_saveable short)
      (by rw [maxDataSize] at size; omega) holds (free.mono (by simp [fileBlocks, chunkBlocks, fileNode]))
    refine ⟨repo', holds'.mono (by simp [fileBlocks, chunkBlocks, fileNode]), ?_⟩
    rw [if_pos (by simp [parentNode])]
    exact persisted
  · have shorts := short_concat earlier short
    have many : fileNode lib (done ++ [chunk]) = linkedNode lib (done ++ [chunk]) :=
      fileNode_of_ne (by simpa using first)
    obtain ⟨repo₁, reliable₁, holds₁, linked⟩ := importLinkedNode_holds reliable short holds
      (free.mono (List.subset_cons_self _ _))
    have size := linkedNode_size lib shorts
    have data := linkedNode_data_length_le lib shorts
    obtain ⟨repo', holds', persisted⟩ := importPersist_holds reliable₁ rfl
      (linkedNode_saveable lib shorts bounded) (by omega) holds₁ (by rwa [← many])
    rw [if_neg (by simpa [parentNode_links] using first), Act.bind_returned linked, fileBlocks_eq, many]
    exact ⟨repo', holds', persisted⟩

end

theorem importChunks_returns (fuel : Nat) (file : Bytes) (enough : file.length / maxDataSize < fuel)
    (done : List Bytes) (repo : FsRepo lib) (reliable : repo.Reliable)
    (holds : repo.HoldsAll (chunkBlocks lib done))
    (earlier : ∀ chunk ∈ done, chunk.length ≤ maxDataSize)
    (bounded : (done ++ fileChunks fuel file).length ≤ 2 ^ 50)
    (free : CollisionFree lib (fileBlocks lib (done ++ fileChunks fuel file))) :
    ∃ repo' : FsRepo lib, repo'.HoldsAll (fileBlocks lib (done ++ fileChunks fuel file)) ∧
      importChunks fuel file (parentNode lib done) repo =
        (.returned { fileNode lib (done ++ fileChunks fuel file) with
          hash := some (nodeHash lib (fileNode lib (done ++ fileChunks fuel file))) }, repo') := by
  induction fuel generalizing file done repo with
  | zero => exact absurd enough (Nat.not_lt_zero _)
  | succ fuel ih =>
      have short : (file.take maxDataSize).length ≤ maxDataSize := List.length_take_le _ _
      by_cases full : (file.take maxDataSize).length = maxDataSize
      · have chunks : done ++ fileChunks (fuel + 1) file =
            (done ++ [file.take maxDataSize]) ++ fileChunks fuel (file.drop maxDataSize) := by
          rw [fileChunks, if_pos full, List.append_assoc, List.singleton_append]
        have rest : (file.drop maxDataSize).length / maxDataSize < fuel := chunks_drop_lt (long_of_full full) enough
        rw [chunks] at bounded free ⊢
        obtain ⟨repo₁, reliable₁, holds₁, linked⟩ := importLinkedNode_holds reliable short holds
          (free.mono (by simp [fileBlocks, chunkBlocks]))
        have step : importChunk (file.take maxDataSize) (parentNode lib done) repo =
            (.returned (parentNode lib (done ++ [file.take maxDataSize])), repo₁) := by
          rw [importChunk_eq short, if_pos full, linked]
          simp [parentNode]
        obtain ⟨repo', holds', imported⟩ := ih (file.drop maxDataSize) rest _ repo₁ reliable₁ holds₁
          (short_concat earlier short) bounded free
        refine ⟨repo', holds', ?_⟩
        refine (Act.attempt_bind_returned step _).trans ?_
        simp only [full, if_true, imported]
      · have chunks : fileChunks (fuel + 1) file = [file.take maxDataSize] := by
          rw [fileChunks, if_neg full]
        rw [chunks] at bounded free ⊢
        obtain ⟨repo', holds', step⟩ := importChunk_last reliable short holds free earlier bounded full
        refine ⟨repo', holds', ?_⟩
        refine (Act.attempt_bind_returned step _).trans ?_
        simp only [full, if_false, Act.pure_apply]

/-! ## Export -/

section
variable {repo : FsRepo lib} {node : HashtableNode} {hash : Bytes} (saveable : node.Saveable)
  (named : hash ≠ []) (holds : repo.Holds hash (nodeBytes lib node))
include saveable named holds

theorem routingGenericGetValue_of_holds :
    routingGenericGetValue repo hash = .ofOption
      ((intAllocation (hashtableNodeProtobufEncodeSize node)).bind fun room =>
        Wire.fit room (nodeBytes lib node)) := by
  have got := merkledagGet_of_holds saveable.nonempty saveable.hashed named holds
  simp only [routingGenericGetValue, got, Outcome.returned_bind, hashtableNodeProtobufEncodeSize_stored,
    hashtableNodeProtobufEncode_eq lib.pb lib.mh (saveable.stored hash).fits, hashtableNodeBytes_stored,
    Outcome.ofOption_bind_ofOption]
  rfl

theorem exporterGetNode_of_holds (small : hashtableNodeProtobufEncodeSize node < 2 ^ 31) :
    exporterGetNode repo hash = .returned (node.stored hash) := by
  have room : intAllocation (hashtableNodeProtobufEncodeSize node) =
      some (hashtableNodeProtobufEncodeSize node) := by
    rw [intAllocation, Nat.mod_eq_of_lt (by omega), if_pos small]
  have fits := Wire.fit_of_le (hashtableNodeBytes_length_le lib.mh saveable.fits)
  have decoded := hashtableNodeProtobufDecode_hashtableNodeBytes lib.pb lib.mh saveable.nonempty saveable.hashed
  rw [exporterGetNode, routingGenericGetValue_of_holds saveable named holds, room, Option.bind_some, nodeBytes,
    fits, Outcome.ofOption_some, Outcome.returned_bind, decoded]
  rfl

theorem exporterGetNode_of_large (large : 2 ^ 31 ≤ hashtableNodeProtobufEncodeSize node)
    (filled : 2 ^ 32 ≤ hashtableNodeProtobufEncodeSize node → 2 ^ 31 ≤ (nodeBytes lib node).length) :
    exporterGetNode repo hash = .failed := by
  have none : ((intAllocation (hashtableNodeProtobufEncodeSize node)).bind fun room =>
      Wire.fit room (nodeBytes lib node)) = none := by
    by_cases positive : hashtableNodeProtobufEncodeSize node % 2 ^ 32 < 2 ^ 31
    · have bytes := filled (by omega)
      rw [intAllocation, if_pos positive, Option.bind_some, Wire.fit_of_lt (by omega)]
    · rw [intAllocation, if_neg positive, Option.bind_none]
  rw [exporterGetNode, routingGenericGetValue_of_holds saveable named holds, none]
  rfl

end

section
variable {repo : FsRepo lib} {chunk : Bytes} (short : chunk.length ≤ maxDataSize)
  (holds : repo.Holds (nodeHash lib (chunkNode chunk)) (nodeBytes lib (chunkNode chunk)))

include short holds in
theorem exporterGetNode_chunk : exporterGetNode repo (nodeHash lib (chunkNode chunk)) =
    .returned ((chunkNode chunk).stored (nodeHash lib (chunkNode chunk))) := by
  have size := chunkNode_size_le short
  exact exporterGetNode_of_holds (chunkNode_saveable short) (nodeHash_ne_nil _) holds
    (by rw [maxDataSize] at size; omega)

omit short holds in
theorem exporterWriteNode_unixfs (obj : UnixFS) (listed : obj.dataType.Listed) {node : HashtableNode}
    (data : node.data = unixfsBytes obj) (output : Bytes) :
    exporterWriteNode lib.pb node output = (.returned (), output ++ obj.bytes) := by
  have decoded := unixfsProtobufDecoded_unixfsBytes lib.pb obj listed
  rw [exporterWriteNode, data]
  exact Act.bind_returned (congrArg (·, output) decoded) _

theorem exporterCatNode_unixfs (repo : FsRepo lib) (obj : UnixFS) (listed : obj.dataType.Listed)
    {node : HashtableNode} (data : node.data = unixfsBytes obj) (depth : Nat) (output : Bytes) :
    exporterCatNode repo (depth + 1) node output =
      exporterCatLinks repo depth node.links (output ++ obj.bytes) := by
  have decoded := unixfsProtobufDecode_unixfsBytes lib.pb obj listed
  rw [exporterCatNode, data]
  refine (Act.bind_returned (congrArg (·, output) decoded) _).trans ?_
  exact Act.bind_returned rfl _

theorem exporterCatNode_chunk (hash : Bytes) (depth : Nat) (output : Bytes) :
    exporterCatNode repo (depth + 1) ((chunkNode chunk).stored hash) output =
      (.returned (), output ++ chunk) := by
  rw [exporterCatNode_unixfs repo (chunkUnixFS chunk) trivial rfl]
  simp [HashtableNode.stored, chunkNode, exporterCatLinks, chunkUnixFS]

end

section
variable {repo : FsRepo lib} {chunks : List Bytes} (shorts : ∀ chunk ∈ chunks, chunk.length ≤ maxDataSize)
  (holds : repo.HoldsAll (chunkBlocks lib chunks))
include shorts holds

theorem exporterWriteLinks_chunks (output : Bytes) :
    exporterWriteLinks repo (chunks.map fun chunk => (chunkLink lib chunk).named) output =
      (.returned (), output ++ chunks.flatten) := by
  induction chunks generalizing output with
  | nil => simp [exporterWriteLinks]
  | cons chunk chunks ih =>
      have got := exporterGetNode_chunk (shorts chunk (by simp)) (holds _ List.mem_cons_self)
      have rest := ih (fun chunk mem => shorts chunk (by simp [mem])) (holds.mono (List.subset_cons_self _ _))
      rw [List.map_cons, exporterWriteLinks]
      refine (Act.bind_returned (congrArg (·, output) got) _).trans ?_
      refine (Act.bind_returned (exporterWriteNode_unixfs (chunkUnixFS chunk) trivial rfl output) _).trans ?_
      rw [rest, List.append_assoc, List.flatten_cons]
      rfl

theorem exporterCatLinks_chunks (depth : Nat) (output : Bytes) :
    exporterCatLinks repo (depth + 1) (chunks.map fun chunk => (chunkLink lib chunk).named) output =
      (.returned (), output ++ chunks.flatten) := by
  induction chunks generalizing output with
  | nil => simp [exporterCatLinks]
  | cons chunk chunks ih =>
      have got := exporterGetNode_chunk (shorts chunk (by simp)) (holds _ List.mem_cons_self)
      have rest := ih (fun chunk mem => shorts chunk (by simp [mem])) (holds.mono (List.subset_cons_self _ _))
      rw [List.map_cons, exporterCatLinks]
      refine (Act.bind_returned (congrArg (·, output) got) _).trans ?_
      refine (Act.attempt_bind_returned (exporterCatNode_chunk _ depth output) _).trans ?_
      rw [rest, List.append_assoc, List.flatten_cons]

end

/-! ## The root -/

theorem fileNode_saveable {chunks : List Bytes} (shorts : ∀ chunk ∈ chunks, chunk.length ≤ maxDataSize)
    (bounded : chunks.length ≤ 2 ^ 50) : (fileNode lib chunks).Saveable := by
  match chunks, shorts with
  | [], shorts => exact linkedNode_saveable lib shorts bounded
  | [chunk], shorts => exact chunkNode_saveable (shorts chunk (by simp))
  | _ :: _ :: _, shorts => exact linkedNode_saveable lib shorts bounded

def exportLimit : Nat := 26843545 * maxDataSize

theorem fileNode_size_lt_iff (lib : Library) (file : Bytes) :
    hashtableNodeProtobufEncodeSize (fileNode lib (chunksOf file)) < 2 ^ 31 ↔ file.length < exportLimit := by
  obtain ⟨full, last, split, count, lengths, short⟩ := chunksOf_shape file
  have shorts := chunksOf_length_le file
  have number := chunksOf_length file
  by_cases single : file.length / maxDataSize = 0
  · obtain rfl : full = [] := List.eq_nil_of_length_eq_zero (by rw [count, single])
    have size := chunkNode_size_le short.le
    have small : file.length < maxDataSize := (Nat.div_eq_zero_iff.mp single).resolve_left (by decide)
    rw [split]
    refine iff_of_true ?_ ?_
    · exact lt_of_le_of_lt size (by decide)
    · exact small.trans (by decide)
  · rw [fileNode_of_ne (by omega), linkedNode_size lib shorts]
    have least := linkedNode_data_length_ge lib last lengths
    have most := linkedNode_data_length_le lib shorts
    rw [← split] at least
    rw [exportLimit, ← Nat.div_lt_iff_lt_mul (by decide : 0 < maxDataSize)]
    omega

theorem fileNode_filled {chunks : List Bytes} (shorts : ∀ chunk ∈ chunks, chunk.length ≤ maxDataSize)
    (huge : 2 ^ 32 ≤ hashtableNodeProtobufEncodeSize (fileNode lib chunks)) :
    2 ^ 31 ≤ (nodeBytes lib (fileNode lib chunks)).length := by
  by_cases single : chunks.length = 1
  · obtain ⟨chunk, rfl⟩ := List.length_eq_one_iff.mp single
    have size := chunkNode_size_le (shorts chunk (by simp))
    have : hashtableNodeProtobufEncodeSize (chunkNode chunk) < 2 ^ 32 := lt_of_le_of_lt size (by decide)
    exact absurd huge (Nat.not_le.mpr this)
  · rw [fileNode_of_ne single] at huge ⊢
    have size := linkedNode_size lib shorts
    have most := linkedNode_data_length_le lib shorts
    have least := linkedNode_bytes_length_ge lib shorts
    omega

theorem cidDecodeHashFromBase58_of_form {text hash : Bytes} (form : Base58Form lib text hash)
    (digest : hash.length = 32) :
    cidDecodeHashFromBase58 lib text = .returned (cidNew 0 hash cidDagProtobuf) := by
  have drop := lib.mh.new_drop (show hash.length ≤ 127 by omega)
  have length := lib.mh.new_length (show hash.length ≤ 127 by omega)
  simp only [cidDecodeHashFromBase58, form.length, form.start, form.decodes, drop, length, digest,
    Outcome.ofOption_some, Outcome.returned_bind, and_self, if_true]
  rfl

section
variable {repo : FsRepo lib} {chunks : List Bytes} (shorts : ∀ chunk ∈ chunks, chunk.length ≤ maxDataSize)
  (bounded : chunks.length ≤ 2 ^ 50) (holds : repo.HoldsAll (fileBlocks lib chunks))
include shorts bounded holds

theorem exporterGetNode_root (small : hashtableNodeProtobufEncodeSize (fileNode lib chunks) < 2 ^ 31) :
    exporterGetNode repo (nodeHash lib (fileNode lib chunks)) =
      .returned ((fileNode lib chunks).stored (nodeHash lib (fileNode lib chunks))) :=
  exporterGetNode_of_holds (fileNode_saveable shorts bounded) (nodeHash_ne_nil _)
    (holds _ List.mem_cons_self) small

theorem exporterGetNode_largeRoot
    (large : ¬ hashtableNodeProtobufEncodeSize (fileNode lib chunks) < 2 ^ 31) :
    exporterGetNode repo (nodeHash lib (fileNode lib chunks)) = .failed :=
  exporterGetNode_of_large (fileNode_saveable shorts bounded) (nodeHash_ne_nil _)
    (holds _ List.mem_cons_self) (Nat.not_lt.mp large) (fileNode_filled shorts)

theorem exporterToFilestream_root {text : Bytes}
    (form : Base58Form lib text (nodeHash lib (fileNode lib chunks)))
    (small : hashtableNodeProtobufEncodeSize (fileNode lib chunks) < 2 ^ 31) (output : Bytes) :
    exporterToFilestream repo text output = (.returned (), output ++ chunks.flatten) := by
  have cid := cidDecodeHashFromBase58_of_form form (nodeHash_length _)
  have got := exporterGetNode_root shorts bounded holds small
  rw [exporterToFilestream]
  refine (Act.bind_returned (congrArg (·, output) cid) _).trans ?_
  refine (Act.bind_returned (congrArg (·, output) got) _).trans ?_
  match chunks with
  | [] => exact exporterWriteNode_unixfs (linkedUnixFS []) trivial rfl output
  | [chunk] =>
      rw [List.flatten_singleton]
      exact exporterWriteNode_unixfs (chunkUnixFS chunk) trivial rfl output
  | first :: second :: chunks =>
      have written := exporterWriteLinks_chunks shorts (holds.mono (List.subset_cons_self _ _)) output
      rw [fileNode_of_ne (by simp), linkedNode_stored_links]
      exact written

theorem exporterObjectCatToFile_root
    (small : hashtableNodeProtobufEncodeSize (fileNode lib chunks) < 2 ^ 31) (depth : Nat) (output : Bytes) :
    exporterObjectCatToFile repo (depth + 2) (nodeHash lib (fileNode lib chunks)) output =
      (.returned (), output ++ chunks.flatten) := by
  have got := exporterGetNode_root shorts bounded holds small
  rw [exporterObjectCatToFile]
  refine (Act.bind_returned (congrArg (·, output) got) _).trans ?_
  by_cases single : chunks.length = 1
  · obtain ⟨chunk, rfl⟩ := List.length_eq_one_iff.mp single
    rw [List.flatten_singleton]
    exact exporterCatNode_chunk _ (depth + 1) output
  · have written := exporterCatLinks_chunks shorts (holds.mono (List.subset_cons_self _ _)) depth output
    rw [fileNode_of_ne single, exporterCatNode_unixfs repo (linkedUnixFS chunks) trivial rfl,
      linkedNode_stored_links]
    simpa only [linkedUnixFS, List.append_nil] using written

end

theorem chunksOf_bounded {file : Bytes} (sized : file.length < 2 ^ 63) : (chunksOf file).length ≤ 2 ^ 50 := by
  have number := chunksOf_length file
  have bounded : file.length / maxDataSize < 2 ^ 45 := by
    rw [Nat.div_lt_iff_lt_mul (by decide)]
    exact lt_of_lt_of_le sized (by decide)
  omega

theorem importFile_returns {repo : FsRepo lib} (reliable : repo.Reliable) {file : Bytes}
    (sized : file.length < 2 ^ 63) (free : CollisionFree lib (fileBlocks lib (chunksOf file))) :
    ∃ repo' : FsRepo lib, repo'.HoldsAll (fileBlocks lib (chunksOf file)) ∧
      importFile file repo = (.returned { fileNode lib (chunksOf file) with
        hash := some (nodeHash lib (fileNode lib (chunksOf file))) }, repo') := by
  exact importChunks_returns _ file (Nat.lt_succ_self _) [] repo reliable (by simp [FsRepo.HoldsAll, chunkBlocks])
    (by simp) (chunksOf_bounded sized) (by rwa [List.nil_append])

/-- A regular file; its length is an `off_t`. -/
structure RegularFile where
  content : Bytes
  sized : content.length < 2 ^ 63

def RoundTrips (lib : Library) (repo : FsRepo lib) (file : RegularFile) : Prop :=
  ∃ root repo' hash, importFile file.content repo = (.returned root, repo') ∧ root.hash = some hash ∧
    (∀ text, Base58Form lib text hash → exporterToFilestream repo' text [] = (.returned (), file.content)) ∧
    ∀ depth, 2 ≤ depth → exporterObjectCatToFile repo' depth hash [] = (.returned (), file.content)

theorem importFile_roundTrips {repo : FsRepo lib} (reliable : repo.Reliable) (file : RegularFile)
    (free : CollisionFree lib (fileBlocks lib (chunksOf file.content)))
    (small : file.content.length < exportLimit) : RoundTrips lib repo file := by
  obtain ⟨repo', holds, imported⟩ := importFile_returns reliable file.sized free
  have shorts := chunksOf_length_le file.content
  have bounded := chunksOf_bounded file.sized
  have size := (fileNode_size_lt_iff lib file.content).mpr small
  refine ⟨_, repo', _, imported, rfl, fun text form => ?_, fun depth deep => ?_⟩
  · have exported := exporterToFilestream_root shorts bounded holds form size []
    rwa [chunksOf_flatten] at exported
  · obtain ⟨depth, rfl⟩ := Nat.exists_eq_add_of_le' deep
    have exported := exporterObjectCatToFile_root shorts bounded holds size depth []
    rwa [chunksOf_flatten] at exported

theorem not_roundTrips {repo : FsRepo lib} (reliable : repo.Reliable) (file : RegularFile)
    (free : CollisionFree lib (fileBlocks lib (chunksOf file.content)))
    (large : exportLimit ≤ file.content.length) : ¬ RoundTrips lib repo file := by
  obtain ⟨repo', holds, imported⟩ := importFile_returns reliable file.sized free
  have size := (fileNode_size_lt_iff lib file.content).not.mpr (Nat.not_lt.mpr large)
  have got := exporterGetNode_largeRoot (chunksOf_length_le file.content) (chunksOf_bounded file.sized) holds size
  rintro ⟨root, repo'', hash, imported', hashed, _, exported⟩
  rw [imported, Prod.mk.injEq, Outcome.returned.injEq] at imported'
  obtain ⟨rfl, rfl⟩ := imported'
  obtain rfl := Option.some.inj hashed
  have written := exported 2 le_rfl
  rw [exporterObjectCatToFile, Act.lift_bind, got] at written
  simp at written

theorem importFile_roundTrips_iff (lib : Library) (repo : FsRepo lib) (reliable : repo.Reliable)
    (file : RegularFile) (free : CollisionFree lib (fileBlocks lib (chunksOf file.content))) :
    RoundTrips lib repo file ↔ file.content.length < exportLimit := by
  constructor
  · intro roundTrips
    by_contra large
    exact not_roundTrips reliable file free (Nat.not_lt.mp large) roundTrips
  · exact importFile_roundTrips reliable file free

def hiFile : RegularFile := ⟨[0x68, 0x69], by decide⟩

def hiTable : Digest.Table where
  entries := [fileDigest]
  other := List.replicate 32 0
  lengths := by decide
  distinct := by decide
  written := by decide
  apart := by decide
  alphabet := by decide

theorem importFile_roundTrips_hi :
    CollisionFree (.known hiTable) (fileBlocks (.known hiTable) (chunksOf hiFile.content)) ∧
      (∃ text, Base58Form (.known hiTable) text
        (nodeHash (.known hiTable) (fileNode (.known hiTable) (chunksOf hiFile.content)))) ∧
      RoundTrips (.known hiTable) (.new hiTable) hiFile := by
  have free : CollisionFree (.known hiTable) (fileBlocks (.known hiTable) (chunksOf hiFile.content)) := by
    have blocks : fileBlocks (.known hiTable) (chunksOf hiFile.content) =
        List.replicate 2 fileDigest.block := by decide
    intro a first b second _
    rw [blocks] at first second
    rw [List.eq_of_mem_replicate first, List.eq_of_mem_replicate second]
  refine ⟨free, ⟨fileDigest.base58, by decide, by decide, by decide⟩, ?_⟩
  exact (importFile_roundTrips_iff _ _ ⟨rfl, fun _ _ _ => rfl⟩ hiFile free).mpr (by decide)

/-! ## A file that is too long -/

def zerosFile : RegularFile := ⟨List.replicate exportLimit 0, by rw [List.length_replicate]; decide⟩

def zerosChunk : Bytes := List.replicate maxDataSize 0

def zerosTable : Digest.Table where
  entries :=
    [ { block := hashtableNodeBytes .standard (chunkNode [])
        sha256 := [0x1c, 0x0d, 0x4b, 0x6c, 0x5b, 0xd0, 0x64, 0xd7, 0x36, 0x61, 0x90, 0x5f, 0xdf,
                    0x10, 0xc6, 0x74, 0xf4, 0xbc, 0x09, 0x6b, 0x3f, 0x0e, 0xc8, 0x59, 0x08, 0xc6,
                    0x64, 0xa0, 0x2a, 0xa1, 0x3d, 0xc8]
        base32 := [0x44, 0x51, 0x47, 0x55, 0x57, 0x33, 0x43, 0x33, 0x32, 0x42, 0x53, 0x4e, 0x4f,
                    0x4e, 0x54, 0x42, 0x53, 0x42, 0x50, 0x35, 0x36, 0x45, 0x47, 0x47, 0x4f, 0x54,
                    0x32, 0x4c, 0x59, 0x43, 0x4c, 0x4c, 0x48, 0x34, 0x48, 0x4d, 0x51, 0x57, 0x49,
                    0x49, 0x59, 0x5a, 0x53, 0x4b, 0x41, 0x4b, 0x56, 0x42, 0x48, 0x58, 0x45, 0x41]
        base58 := [0x51, 0x6d, 0x51, 0x45, 0x39, 0x74, 0x41, 0x4d, 0x48, 0x37, 0x76, 0x78, 0x35,
                    0x35, 0x39, 0x4d, 0x32, 0x76, 0x50, 0x72, 0x46, 0x36, 0x41, 0x61, 0x43, 0x5a,
                    0x75, 0x35, 0x58, 0x73, 0x71, 0x57, 0x66, 0x31, 0x52, 0x6d, 0x31, 0x46, 0x34,
                    0x59, 0x35, 0x45, 0x64, 0x68, 0x45, 0x37] },
      { block := hashtableNodeBytes .standard (chunkNode zerosChunk)
        sha256 := [0x32, 0x8f, 0x54, 0x99, 0x38, 0xf9, 0xca, 0x71, 0xd8, 0x55, 0xf8, 0x13, 0x35,
                    0xf3, 0x6d, 0xaf, 0xa2, 0xa8, 0xba, 0x0e, 0x8e, 0xc8, 0x59, 0x5c, 0x58, 0x3e,
                    0x08, 0xe2, 0xf7, 0x09, 0x95, 0xf8]
        base32 := [0x47, 0x4b, 0x48, 0x56, 0x4a, 0x47, 0x4a, 0x59, 0x37, 0x48, 0x46, 0x48, 0x44,
                    0x57, 0x43, 0x56, 0x37, 0x41, 0x4a, 0x54, 0x4c, 0x34, 0x33, 0x4e, 0x56, 0x36,
                    0x52, 0x4b, 0x52, 0x4f, 0x51, 0x4f, 0x52, 0x33, 0x45, 0x46, 0x53, 0x58, 0x43,
                    0x59, 0x48, 0x59, 0x45, 0x4f, 0x46, 0x35, 0x59, 0x4a, 0x53, 0x58, 0x34, 0x41]
        base58 := [0x51, 0x6d, 0x52, 0x6b, 0x31, 0x72, 0x64, 0x75, 0x4a, 0x76, 0x6f, 0x35, 0x44,
                    0x66, 0x45, 0x59, 0x41, 0x61, 0x4c, 0x6f, 0x62, 0x53, 0x32, 0x7a, 0x61, 0x39,
                    0x74, 0x44, 0x73, 0x7a, 0x6b, 0x33, 0x35, 0x68, 0x7a, 0x61, 0x4e, 0x53, 0x44,
                    0x43, 0x4a, 0x37, 0x34, 0x44, 0x41, 0x37] } ]
  -- the digest of the root
  other := [0x6a, 0x49, 0x5a, 0x84, 0xf4, 0x48, 0x21, 0x2d, 0x24, 0x88, 0x20, 0x0c, 0x54, 0xcd, 0x6d,
            0x9a, 0x84, 0x90, 0x3a, 0xf2, 0x5a, 0x97, 0x9a, 0x9e, 0x74, 0xfe, 0xe5, 0xd2, 0x94, 0x3a,
            0x0f, 0xdc]
  lengths := by decide
  distinct := by decide
  written := by decide
  apart := by decide
  alphabet := by decide

theorem mem_chunksOf_zerosFile {chunk : Bytes} (mem : chunk ∈ chunksOf zerosFile.content) :
    chunk = [] ∨ chunk = zerosChunk := by
  have zero : ∀ b ∈ chunk, b = 0 := by
    intro b inChunk
    have inFile : b ∈ (chunksOf zerosFile.content).flatten := List.mem_flatten_of_mem mem inChunk
    rw [chunksOf_flatten] at inFile
    exact List.eq_of_mem_replicate inFile
  obtain ⟨full, last, split, count, lengths, short⟩ := chunksOf_shape zerosFile.content
  rw [split, List.mem_append, List.mem_singleton] at mem
  rcases mem with inFull | rfl
  · exact .inr (List.eq_replicate_iff.mpr ⟨lengths chunk inFull, zero⟩)
  · have total := congrArg List.length (chunksOf_flatten zerosFile.content)
    have sizes : full.map List.length = List.replicate full.length maxDataSize :=
      List.map_eq_replicate_iff.mpr lengths
    have file : zerosFile.content.length = exportLimit := List.length_replicate
    rw [split, List.flatten_append, List.length_append, List.length_flatten, sizes, List.sum_replicate,
      smul_eq_mul, count, file, List.flatten_singleton] at total
    have whole : exportLimit / maxDataSize * maxDataSize = exportLimit := by decide
    exact .inl (List.eq_nil_of_length_eq_zero (by omega))

theorem zerosFile_collisionFree :
    CollisionFree (.known zerosTable) (fileBlocks (.known zerosTable) (chunksOf zerosFile.content)) := by
  have blocks : zerosTable.entries.map Digest.block =
      [nodeBytes (.known zerosTable) (chunkNode []), nodeBytes (.known zerosTable) (chunkNode zerosChunk)] := rfl
  have isRoot {block : Bytes} (mem : block ∈ fileBlocks (.known zerosTable) (chunksOf zerosFile.content))
      (other : block ∉ zerosTable.entries.map Digest.block) :
      block = nodeBytes (.known zerosTable) (fileNode (.known zerosTable) (chunksOf zerosFile.content)) := by
    rcases List.mem_cons.mp mem with root | isChunk
    · exact root
    · obtain ⟨chunk, inFile, rfl⟩ := List.mem_map.mp isChunk
      rw [blocks, List.mem_cons, List.mem_singleton, not_or] at other
      rcases mem_chunksOf_zerosFile inFile with empty | zeros
      · rw [empty] at other
        exact absurd rfl other.1
      · rw [zeros] at other
        exact absurd rfl other.2
  intro a first b second same
  rcases zerosTable.eq_or_not_mem_of_sha256_eq same with eq | ⟨other, other'⟩
  · exact eq
  · rw [isRoot first other, isRoot second other']

theorem not_importFile_roundTrips_zeros :
    ¬ ∀ (lib : Library) (repo : FsRepo lib) (file : RegularFile), repo.Reliable →
      CollisionFree lib (fileBlocks lib (chunksOf file.content)) → RoundTrips lib repo file := by
  intro claim
  have large : exportLimit ≤ zerosFile.content.length := List.length_replicate.ge
  have reliable : (FsRepo.new zerosTable).Reliable := ⟨rfl, fun _ _ _ => rfl⟩
  exact not_roundTrips reliable zerosFile zerosFile_collisionFree large
    (claim _ _ zerosFile reliable zerosFile_collisionFree)

end Ipfs
