import Ipfs.Codec.Block
import Ipfs.Codec.Node

/-!
# The repository on disk

A block is a file of the blockstore, named by the base32 form of the hash in its Cid. The datastore
only remembers that the hash is there.
-/

namespace Ipfs

/-- What is used of libp2p's crypto library. -/
structure Crypto where
  sha256 : Bytes → Bytes
  base32 : Bytes → Bytes
  base32EncodeSize : Nat → Nat
  base58Decode : Bytes → Option Bytes
  sha256_length : ∀ data, (sha256 data).length = 32
  base32_injective : Function.Injective base32
  base32EncodeSize_digest : base32EncodeSize 32 ≤ 100
  -- a slash is not in the alphabet
  base58Decode_slash : ∀ text hash, base58Decode text = some hash → 0x2f ∉ text

/-- `struct Datastore`, of which only the presence of a key is read here. A `put` that returns 0 has
no next state. -/
structure Datastore where
  State : Type
  put : State → Bytes → Bytes → Option State
  has : State → Bytes → Bool
  has_put : ∀ s s' key value, put s key value = some s' → has s' key
  has_mono : ∀ s s' key key' value, put s key value = some s' → has s key' → has s' key'

/-- The libraries that the repository is linked against. -/
structure Library where
  pb : Protobuf
  mh : Multihash
  crypto : Crypto
  store : Datastore

/-- How `fopen` and `fwrite` of a block file end. -/
inductive DiskWrite
  | complete
  | short (count : Nat)
  | notOpened

structure FsRepo (lib : Library) where
  blockstore : Bytes → Option Bytes
  datastore : lib.store.State
  -- the writes to come; behind them all are complete
  disk : List DiskWrite

variable {lib : Library}

def FsRepo.WritesWhole (repo : FsRepo lib) : Prop := ∀ write ∈ repo.disk, ∀ count, write ≠ .short count

/-- `fopen` with "wb", `fwrite` and `fclose`; the result is the number of bytes written. -/
def writeFile (name contents : Bytes) : Act (FsRepo lib) Nat := fun repo =>
  match repo.disk with
  | [] => (.returned contents.length,
      { repo with blockstore := Function.update repo.blockstore name (some contents) })
  | .complete :: disk => (.returned contents.length,
      { repo with blockstore := Function.update repo.blockstore name (some contents), disk })
  | .short count :: disk => (.returned (contents.take count).length,
      { repo with blockstore := Function.update repo.blockstore name (some (contents.take count)), disk })
  -- the NULL file is handed to `fwrite`
  | .notOpened :: disk => (.fault .nullPointer, { repo with disk })

/-- What the write leaves of the contents. -/
def DiskWrite.kept : DiskWrite → Bytes → Bytes
  | .short count, contents => contents.take count
  | _, contents => contents

theorem DiskWrite.kept_of_length {write : DiskWrite} {contents : Bytes}
    (whole : (write.kept contents).length = contents.length) : write.kept contents = contents := by
  cases write with
  | complete | notOpened => rfl
  | short count =>
      rw [kept, List.length_take] at whole
      exact List.take_of_length_le (by omega)

theorem DiskWrite.kept_of_ne {write : DiskWrite} (whole : ∀ count, write ≠ .short count) (contents : Bytes) :
    write.kept contents = contents := by
  cases write with
  | complete | notOpened => rfl
  | short count => exact absurd rfl (whole count)

theorem writeFile_ends (name contents : Bytes) (repo : FsRepo lib) :
    repo.disk.head? = some .notOpened ∧
        writeFile name contents repo = (.fault .nullPointer, { repo with disk := repo.disk.tail }) ∨
      repo.disk.head? ≠ some .notOpened ∧
        writeFile name contents repo = (.returned ((repo.disk.headD .complete).kept contents).length,
          { repo with
            blockstore := Function.update repo.blockstore name (some ((repo.disk.headD .complete).kept contents))
            disk := repo.disk.tail }) := by
  rw [writeFile]
  cases repo.disk with
  | nil => exact .inr ⟨by simp, by simp only [List.headD_nil, List.tail_nil, DiskWrite.kept]⟩
  | cons write disk =>
      cases write with
      | complete | short count => exact .inr ⟨by simp, rfl⟩
      | notOpened => exact .inl ⟨rfl, rfl⟩

def blockstorePut (block : Block) : Act (FsRepo lib) Nat := do
  let cid ← .lift (.access .nullPointer block.cid)
  let protobuf ← .lift (.ofOption
    (blocksBlockProtobufEncode lib.pb block (blocksBlockProtobufEncodeSize block)))
  let bytesWritten ← writeFile (lib.crypto.base32 cid.hash) protobuf
  if bytesWritten ≠ protobuf.length then .lift .failed else pure bytesWritten

theorem blockstorePut_complete {repo : FsRepo lib} (writes : repo.disk.headD .complete = .complete) (cid : Cid) (data : Bytes)
    (sized : blocksBlockProtobufEncodeSize ⟨some cid, data⟩ < 2 ^ 64) :
    blockstorePut ⟨some cid, data⟩ repo =
      (.returned (blockBytes cid data).length, { repo with
        blockstore := Function.update repo.blockstore (lib.crypto.base32 cid.hash) (some (blockBytes cid data))
        disk := repo.disk.tail }) := by
  have opened : repo.disk.head? ≠ some .notOpened := by
    intro refused
    rw [List.headD_eq_head?_getD, refused] at writes
    cases writes
  have written := ((writeFile_ends (lib.crypto.base32 cid.hash) (blockBytes cid data) repo).resolve_left
    fun refused => opened refused.1).2
  rw [show (repo.disk.headD .complete).kept (blockBytes cid data) = blockBytes cid data by rw [writes]; rfl] at written
  simp only [blockstorePut, Act.lift_bind, Outcome.access_some,
    blocksBlockProtobufEncode_size lib.pb cid data sized, Outcome.ofOption_some]
  rw [Act.bind_returned written, if_neg (by simp)]
  rfl

/-- `ipfs_blockstore_get`; a file that is not there has size 0 and is not opened. -/
def blockstoreGet (repo : FsRepo lib) (cid : Cid) : Outcome Block := do
  let buffer ← .ofOption (repo.blockstore (lib.crypto.base32 cid.hash))
  let block ← blocksBlockProtobufDecode lib.pb buffer
  pure { block with cid := some cid }

theorem blockstoreGet_block {repo : FsRepo lib} {cid : Cid} {data : Bytes}
    (file : repo.blockstore (lib.crypto.base32 cid.hash) = some (blockBytes cid data)) :
    blockstoreGet repo cid = .returned ⟨some cid, data⟩ := by
  rw [blockstoreGet, file, Outcome.ofOption_some, Outcome.returned_bind,
    blocksBlockProtobufDecode_blockBytes lib.pb data (cidProtobufDecode_cidBytes lib.pb cid)]
  rfl

/-- `ipfs_blockstore_get_node`. The file is not checked, and a block that does not decode is freed
again. -/
def blockstoreGetNode (repo : FsRepo lib) (hash : Bytes) : Outcome HashtableNode := do
  let buffer ← .access .nullPointer (repo.blockstore (lib.crypto.base32 hash))
  match blocksBlockProtobufDecode lib.pb buffer with
  | .returned block => hashtableNodeProtobufDecode lib.pb block.data
  | .failed => .fault .released
  | .fault cause => .fault cause

/-- `datastore->datastore_put`. -/
def datastorePut (key value : Bytes) : Act (FsRepo lib) Unit := fun repo =>
  match lib.store.put repo.datastore key value with
  | some datastore => (.returned (), { repo with datastore })
  | none => (.failed, repo)

def datastoreHelperAddBlockToDatastore (block : Block) : Act (FsRepo lib) Unit := do
  let cid ← .lift (.access .nullPointer block.cid)
  if 100 < lib.crypto.base32EncodeSize cid.hash.length then .lift .failed
  else datastorePut cid.hash (lib.crypto.base32 cid.hash)

theorem datastoreHelperAddBlockToDatastore_ends (cid : Cid) (data : Bytes) (repo : FsRepo lib) :
    ∃ datastore, (∀ key, lib.store.has repo.datastore key → lib.store.has datastore key) ∧
      (datastoreHelperAddBlockToDatastore ⟨some cid, data⟩ repo = (.failed, { repo with datastore }) ∨
        datastoreHelperAddBlockToDatastore ⟨some cid, data⟩ repo = (.returned (), { repo with datastore }) ∧
          lib.store.has datastore cid.hash) := by
  simp only [datastoreHelperAddBlockToDatastore, Act.lift_bind, Outcome.access_some]
  split
  · exact ⟨repo.datastore, fun _ present => present, .inl rfl⟩
  · rw [datastorePut]
    cases put : lib.store.put repo.datastore cid.hash (lib.crypto.base32 cid.hash) with
    | none => exact ⟨repo.datastore, fun _ present => present, .inl rfl⟩
    | some datastore =>
        exact ⟨datastore, fun key => lib.store.has_mono _ _ _ key _ put, .inr ⟨rfl, lib.store.has_put _ _ _ _ put⟩⟩

def fsrepoBlockWrite (block : Block) : Act (FsRepo lib) Nat := do
  let bytesWritten ← blockstorePut block
  datastoreHelperAddBlockToDatastore block
  pure bytesWritten

def fsrepoNodeRead (repo : FsRepo lib) (hash : Bytes) : Outcome HashtableNode :=
  if lib.store.has repo.datastore hash then blockstoreGetNode repo hash else .failed

/-- `ipfs_blocks_block_add_data` on a new block. -/
def blocksBlockAddData (lib : Library) (data : Bytes) : Block :=
  { cid := some (cidNew 0 (lib.crypto.sha256 data) cidDagProtobuf), data }

/-! ## The merkledag -/

def merkledagConvertNodeToBlock (lib : Library) (node : HashtableNode) : Option Block := do
  let data ← hashtableNodeProtobufEncode lib.pb lib.mh node (hashtableNodeProtobufEncodeSize node)
  some { cid := some (cidNew 1 (node.hash.getD []) cidDagProtobuf), data }

/-- Compute the hash if necessary. When the node does not encode, converting it fails next. -/
def merkledagHash (lib : Library) (node : HashtableNode) : Option HashtableNode :=
  match node.hash with
  | some _ => some node
  | none => do
      let protobuf ← hashtableNodeProtobufEncode lib.pb lib.mh node (hashtableNodeProtobufEncodeSize node)
      some { node with hash := some (lib.crypto.sha256 protobuf) }

def merkledagAdd (node : HashtableNode) : Act (FsRepo lib) (HashtableNode × Nat) := do
  let node ← .lift (.ofOption (merkledagHash lib node))
  let block ← .lift (.ofOption (merkledagConvertNodeToBlock lib node))
  let bytesWritten ← fsrepoBlockWrite block
  pure (node, bytesWritten)

def hashtableNodeSetHash (node : HashtableNode) (hash : Bytes) : HashtableNode :=
  if hash.length = 0 then { node with hash := node.hash.filter (·.length = 0) } else { node with hash := some hash }

def merkledagGet (repo : FsRepo lib) (hash : Bytes) : Outcome HashtableNode :=
  if lib.store.has repo.datastore hash then do
    let node ← fsrepoNodeRead repo hash
    pure (hashtableNodeSetHash node hash)
  else .failed

def merkledagGetByMultihash (repo : FsRepo lib) (multihash : Bytes) : Outcome HashtableNode := do
  let hash ← .ofOption (lib.mh.digest multihash)
  merkledagGet repo hash

end Ipfs
