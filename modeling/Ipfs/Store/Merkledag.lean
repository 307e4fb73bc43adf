import Ipfs.Store.FsRepo

namespace Ipfs
variable {lib : Library}

/-- The repository has the node of these bytes under the hash. -/
structure FsRepo.Holds (repo : FsRepo lib) (hash bytes : Bytes) : Prop where
  file : repo.blockstore (lib.crypto.base32 hash) =
    some (blockBytes (cidNew 1 hash cidDagProtobuf) bytes)
  present : lib.store.has repo.datastore hash

structure FsRepo.Reliable (repo : FsRepo lib) : Prop where
  disk : repo.disk = []
  store : ∀ (s : lib.store.State) (key value : Bytes), (lib.store.put s key value).isSome

structure Base58Form (lib : Library) (text hash : Bytes) : Prop where
  length : text.length = 46
  start : text.take 2 = [0x51, 0x6d]
  decodes : lib.crypto.base58Decode text = some (lib.mh.new hash)

/-- The node as it is read back. -/
def HashtableNode.stored (node : HashtableNode) (hash : Bytes) : HashtableNode :=
  { data := node.data, links := node.links.map NodeLink.named, hash := some hash }

theorem nodeLinkProtobufEncodeSize_named (link : NodeLink) :
    nodeLinkProtobufEncodeSize link.named = nodeLinkProtobufEncodeSize link := by
  cases name : link.name with
  | none => simp [nodeLinkProtobufEncodeSize, NodeLink.named, NodeLink.text, name, CString.strlen, CString.empty]
  | some text => simp [nodeLinkProtobufEncodeSize, NodeLink.named, NodeLink.text, name]

section
variable (node : HashtableNode) (hash : Bytes)

theorem hashtableNodeProtobufEncodeSize_stored :
    hashtableNodeProtobufEncodeSize (node.stored hash) = hashtableNodeProtobufEncodeSize node := by
  have links : ((node.stored hash).links.map fun link => 11 + nodeLinkProtobufEncodeSize link) =
      node.links.map fun link => 11 + nodeLinkProtobufEncodeSize link := by
    simp [HashtableNode.stored, Function.comp_def, nodeLinkProtobufEncodeSize_named]
  rw [hashtableNodeProtobufEncodeSize, links]
  rfl

theorem hashtableNodeBytes_stored (mh : Multihash) :
    hashtableNodeBytes mh (node.stored hash) = hashtableNodeBytes mh node := by
  rw [hashtableNodeBytes, HashtableNode.stored, List.flatMap_map]
  rfl

theorem HashtableNode.Saveable.stored {node : HashtableNode} (saveable : node.Saveable) (hash : Bytes) :
    (node.stored hash).Saveable where
  nonempty := by simpa [HashtableNode.stored] using saveable.nonempty
  hashed := by
    intro link linked
    obtain ⟨original, mem, rfl⟩ := List.mem_map.mp linked
    exact saveable.hashed original mem
  sized := by
    rw [hashtableNodeProtobufEncodeSize_stored]
    exact saveable.sized

end

theorem merkledagGet_of_holds {repo : FsRepo lib} {node : HashtableNode} {hash : Bytes}
    (nonempty : node.data ≠ [] ∨ node.links ≠ []) (hashed : ∀ link ∈ node.links, link.Hashed)
    (named : hash ≠ []) (holds : repo.Holds hash (hashtableNodeBytes lib.mh node)) :
    merkledagGet repo hash = .returned (node.stored hash) := by
  have block := blocksBlockProtobufDecode_blockBytes lib.pb (hashtableNodeBytes lib.mh node)
    (cidProtobufDecode_cidNew lib.pb 1 cidDagProtobuf hash)
  simp only [merkledagGet, fsrepoNodeRead, blockstoreGetNode, holds.present, holds.file, if_true,
    Outcome.access_some, Outcome.returned_bind, block,
    hashtableNodeProtobufDecode_hashtableNodeBytes lib.pb lib.mh nonempty hashed]
  simp [hashtableNodeSetHash, HashtableNode.stored, named]

def FsRepo.add (repo : FsRepo lib) (hash bytes : Bytes) (datastore : lib.store.State) : FsRepo lib :=
  { repo with
    blockstore := Function.update repo.blockstore (lib.crypto.base32 hash)
      (some (blockBytes (cidNew 1 hash cidDagProtobuf) bytes))
    datastore }

theorem FsRepo.Holds.file_update {repo : FsRepo lib} {hash bytes hash' bytes' : Bytes} (holds : repo.Holds hash' bytes')
    (same : hash = hash' → bytes = bytes') :
    Function.update repo.blockstore (lib.crypto.base32 hash) (some (blockBytes (cidNew 1 hash cidDagProtobuf) bytes))
      (lib.crypto.base32 hash') = some (blockBytes (cidNew 1 hash' cidDagProtobuf) bytes') := by
  by_cases here : hash = hash'
  · rw [← same here, ← here, Function.update_self]
  · have other : lib.crypto.base32 hash' ≠ lib.crypto.base32 hash :=
      fun names => here (lib.crypto.base32_injective names).symm
    rw [Function.update_of_ne other]
    exact holds.file

theorem FsRepo.Holds.add {repo : FsRepo lib} {hash bytes hash' bytes' value : Bytes}
    {datastore : lib.store.State} (holds : repo.Holds hash' bytes')
    (put : lib.store.put repo.datastore hash value = some datastore)
    (same : hash = hash' → bytes = bytes') : (repo.add hash bytes datastore).Holds hash' bytes' :=
  ⟨holds.file_update same, lib.store.has_mono _ _ _ _ _ put holds.present⟩

theorem FsRepo.holds_add {repo : FsRepo lib} {hash value : Bytes} {datastore : lib.store.State} (bytes : Bytes)
    (put : lib.store.put repo.datastore hash value = some datastore) :
    (repo.add hash bytes datastore).Holds hash bytes :=
  ⟨by simp [FsRepo.add], lib.store.has_put _ _ _ _ put⟩

theorem blockstorePut_returns {repo : FsRepo lib} (disk : repo.disk = []) (cid : Cid) (data : Bytes)
    (sized : blocksBlockProtobufEncodeSize ⟨some cid, data⟩ < 2 ^ 64) :
    blockstorePut ⟨some cid, data⟩ repo =
      (.returned (blockBytes cid data).length, { repo with
        blockstore := Function.update repo.blockstore (lib.crypto.base32 cid.hash)
          (some (blockBytes cid data)) }) := by
  rw [blockstorePut_complete (by rw [disk]; rfl) cid data sized, disk, List.tail_nil]

theorem datastoreHelperAddBlockToDatastore_returns {repo : FsRepo lib} {cid : Cid} (data : Bytes)
    (digest : cid.hash.length = 32) {datastore : lib.store.State}
    (put : lib.store.put repo.datastore cid.hash (lib.crypto.base32 cid.hash) = some datastore) :
    datastoreHelperAddBlockToDatastore ⟨some cid, data⟩ repo = (.returned (), { repo with datastore }) := by
  have short : ¬ 100 < lib.crypto.base32EncodeSize cid.hash.length := by
    rw [digest]
    exact Nat.not_lt.mpr lib.crypto.base32EncodeSize_digest
  simp only [datastoreHelperAddBlockToDatastore, Act.lift_bind, Outcome.access_some]
  rw [if_neg short]
  simp only [datastorePut, put]

/-! ## Adding a node -/

/-- The key that the node is added under. -/
def HashtableNode.key (lib : Library) (node : HashtableNode) : Bytes :=
  node.hash.getD (lib.crypto.sha256 (hashtableNodeBytes lib.mh node))

def HashtableNode.file (lib : Library) (node : HashtableNode) : Bytes :=
  blockBytes (cidNew 1 (node.key lib) cidDagProtobuf) (hashtableNodeBytes lib.mh node)

/-- A node with links that a multihash can describe, of sizes that do not wrap around a `size_t`. -/
structure HashtableNode.Addable (node : HashtableNode) : Prop where
  hashed : ∀ link ∈ node.links, link.Hashed
  sized : hashtableNodeProtobufEncodeSize node + (node.hash.getD []).length + 88 < 2 ^ 64

theorem HashtableNode.Addable.fits {node : HashtableNode} (addable : node.Addable) : node.Fits :=
  ⟨addable.hashed, by have := addable.sized; omega⟩

section
variable {node : HashtableNode}

theorem HashtableNode.Addable.block_sized (addable : node.Addable) :
    blocksBlockProtobufEncodeSize ⟨some (cidNew 1 (node.key lib) cidDagProtobuf), hashtableNodeBytes lib.mh node⟩ < 2 ^ 64 := by
  have sized := addable.sized
  have length := hashtableNodeBytes_length_le lib.mh addable.fits
  have key : (node.key lib).length ≤ (node.hash.getD []).length + 32 := by
    rw [key]
    cases node.hash with
    | none => simp [lib.crypto.sha256_length]
    | some hash => simp
  simp only [blocksBlockProtobufEncodeSize, cidProtobufEncodeSize, cidNew]
  omega

theorem merkledagHash_addable (addable : node.Addable) :
    merkledagHash lib node = some { node with hash := some (node.key lib) } := by
  obtain ⟨data, links, hash⟩ := node
  cases hash with
  | some hash => rfl
  | none =>
      simp only [merkledagHash, hashtableNodeProtobufEncode_size lib.pb lib.mh addable.fits, Option.bind_eq_bind,
        Option.bind_some, HashtableNode.key, Option.getD_none]

theorem merkledagConvertNodeToBlock_addable (addable : node.Addable) :
    merkledagConvertNodeToBlock lib { node with hash := some (node.key lib) } =
      some ⟨some (cidNew 1 (node.key lib) cidDagProtobuf), hashtableNodeBytes lib.mh node⟩ := by
  have encode := hashtableNodeProtobufEncode_size lib.pb lib.mh addable.fits
  -- the hash is not part of the encoding
  have encode' : hashtableNodeProtobufEncode lib.pb lib.mh { node with hash := some (node.key lib) }
      (hashtableNodeProtobufEncodeSize { node with hash := some (node.key lib) }) =
        some (hashtableNodeBytes lib.mh node) := encode
  simp only [merkledagConvertNodeToBlock, encode', Option.bind_eq_bind, Option.bind_some, Option.getD_some]

theorem merkledagAdd_eq (addable : node.Addable) (repo : FsRepo lib) :
    merkledagAdd node repo = (fsrepoBlockWrite
      ⟨some (cidNew 1 (node.key lib) cidDagProtobuf), hashtableNodeBytes lib.mh node⟩ >>= fun bytesWritten =>
        pure ({ node with hash := some (node.key lib) }, bytesWritten)) repo := by
  simp only [merkledagAdd, merkledagHash_addable addable, merkledagConvertNodeToBlock_addable addable,
    Outcome.ofOption_some, Act.lift_bind]

end

theorem merkledagAdd_returns {repo : FsRepo lib} (reliable : repo.Reliable) {node : HashtableNode}
    (unhashed : node.hash = none) (saveable : node.Saveable)
    (sized : hashtableNodeProtobufEncodeSize node + 88 < 2 ^ 64) :
    let bytes := hashtableNodeBytes lib.mh node
    let hash := lib.crypto.sha256 bytes
    ∃ datastore, lib.store.put repo.datastore hash (lib.crypto.base32 hash) = some datastore ∧
      merkledagAdd node repo =
        (.returned ({ node with hash := some hash }, (blockBytes (cidNew 1 hash cidDagProtobuf) bytes).length),
          repo.add hash bytes datastore) := by
  intro bytes hash
  obtain ⟨datastore, put⟩ := Option.isSome_iff_exists.mp
    (reliable.store repo.datastore hash (lib.crypto.base32 hash))
  refine ⟨datastore, put, ?_⟩
  have addable : node.Addable := ⟨saveable.hashed, by simpa [unhashed] using sized⟩
  have key : node.key lib = hash := by
    rw [HashtableNode.key, unhashed]
    rfl
  have block : blocksBlockProtobufEncodeSize
      ⟨some (cidNew 1 (node.key lib) cidDagProtobuf), hashtableNodeBytes lib.mh node⟩ < 2 ^ 64 := addable.block_sized
  have start := merkledagAdd_eq addable repo
  rw [key] at block start
  have write : fsrepoBlockWrite ⟨some (cidNew 1 hash cidDagProtobuf), bytes⟩ repo =
      (.returned (blockBytes (cidNew 1 hash cidDagProtobuf) bytes).length, repo.add hash bytes datastore) := by
    rw [fsrepoBlockWrite, Act.bind_returned (blockstorePut_returns reliable.disk _ bytes block),
      Act.bind_returned (datastoreHelperAddBlockToDatastore_returns bytes (lib.crypto.sha256_length bytes) put)]
    rfl
  rw [start, Act.bind_returned write]
  rfl

end Ipfs
