import Ipfs.Store.Known
import Ipfs.Store.Merkledag

/-!
# Getting what was added

An add writes one file, named by its key. A later add under the same key writes the file again. The
node is read back from whatever the last of them has left in it, unless that node has neither data
nor links: an empty buffer does not decode.
-/

namespace Ipfs
variable {lib : Library}

def merkledagAddAll : List HashtableNode → Act (FsRepo lib) Unit
  | [] => pure ()
  | node :: nodes => do
      let _ ← (merkledagAdd node).attempt
      merkledagAddAll nodes

def FsRepo.withFile (repo : FsRepo lib) (node : HashtableNode) (datastore : lib.store.State) : FsRepo lib :=
  { blockstore := Function.update repo.blockstore (lib.crypto.base32 (node.key lib))
      (some ((repo.disk.headD .complete).kept (node.file lib)))
    datastore
    disk := repo.disk.tail }

/-- The last node added under the key, and its write. -/
def lastWrite (lib : Library) (key : Bytes) : List DiskWrite → List HashtableNode → Option (HashtableNode × DiskWrite)
  | _, [] => none
  | disk, node :: nodes =>
      (lastWrite lib key disk.tail nodes).or
        (if node.key lib = key then some (node, disk.headD .complete) else none)

/-- The last node added under the key of the first is written whole and has the same data and links. -/
def LastWriteSame (repo : FsRepo lib) (node : HashtableNode) (others : List HashtableNode) : Prop :=
  ∃ last write, lastWrite lib (node.key lib) repo.disk (node :: others) = some (last, write) ∧ last.Same node ∧
    ∀ count, write ≠ .short count

/-! ## One add -/

section
variable {node : HashtableNode}

/-- An add that comes back has put the file of the node into the place of the key, as much as the disk took. -/
theorem merkledagAdd_ends (addable : node.Addable) (repo : FsRepo lib) :
    (∃ repo', merkledagAdd node repo = (.fault .nullPointer, repo')) ∨
      ∃ datastore result, (∀ key, lib.store.has repo.datastore key → lib.store.has datastore key) ∧
        merkledagAdd node repo = (result, repo.withFile node datastore) ∧
        (result = .failed ∨ result = .returned ({ node with hash := some (node.key lib) }, (node.file lib).length) ∧
          (repo.disk.headD .complete).kept (node.file lib) = node.file lib ∧ lib.store.has datastore (node.key lib)) := by
  have sized : blocksBlockProtobufEncodeSize
      ⟨some (cidNew 1 (node.key lib) cidDagProtobuf), hashtableNodeBytes lib.mh node⟩ < 2 ^ 64 := addable.block_sized
  have block := blocksBlockProtobufEncode_size lib.pb _ _ sized
  have put : (blockstorePut ⟨some (cidNew 1 (node.key lib) cidDagProtobuf), hashtableNodeBytes lib.mh node⟩ :
      Act (FsRepo lib) Nat) repo = (writeFile (lib.crypto.base32 (node.key lib)) (node.file lib) >>= fun bytesWritten =>
        if bytesWritten ≠ (node.file lib).length then .lift .failed else pure bytesWritten) repo := by
    simp only [blockstorePut, Act.lift_bind, Outcome.access_some, block, Outcome.ofOption_some]
    rfl
  rw [merkledagAdd_eq addable]
  rcases writeFile_ends (lib.crypto.base32 (node.key lib)) (node.file lib) repo with ⟨_, faults⟩ | ⟨_, written⟩
  · left
    rw [Act.bind_apply, faults] at put
    exact ⟨_, by rw [Act.bind_apply, fsrepoBlockWrite, Act.bind_apply, put]⟩
  · right
    rw [Act.bind_returned written] at put
    by_cases whole : ((repo.disk.headD .complete).kept (node.file lib)).length = (node.file lib).length
    · rw [if_neg (not_not.mpr whole), Act.pure_apply, whole] at put
      rw [Act.bind_apply, fsrepoBlockWrite, Act.bind_returned put]
      obtain ⟨datastore, kept, failed | ⟨succeeds, present⟩⟩ := datastoreHelperAddBlockToDatastore_ends
        (cidNew 1 (node.key lib) cidDagProtobuf) (hashtableNodeBytes lib.mh node)
        { repo with
          blockstore := Function.update repo.blockstore (lib.crypto.base32 (node.key lib))
            (some ((repo.disk.headD .complete).kept (node.file lib)))
          disk := repo.disk.tail }
      · exact ⟨datastore, .failed, kept, by rw [Act.bind_apply, failed]; rfl, .inl rfl⟩
      · exact ⟨datastore, _, kept, by rw [Act.bind_returned succeeds]; rfl, .inr ⟨rfl, DiskWrite.kept_of_length whole, present⟩⟩
    · rw [if_pos whole, Act.lift_apply] at put
      exact ⟨repo.datastore, .failed, fun _ present => present,
        by rw [Act.bind_apply, fsrepoBlockWrite, Act.bind_apply, put]; rfl, .inl rfl⟩

theorem merkledagAdd_returned (addable : node.Addable) {repo repo' : FsRepo lib} {hashed : HashtableNode} {bytesWritten : Nat}
    (added : merkledagAdd node repo = (.returned (hashed, bytesWritten), repo')) :
    hashed.hash = some (node.key lib) ∧ lib.store.has repo'.datastore (node.key lib) := by
  obtain ⟨_, faults⟩ | ⟨datastore, result, _, ends, outcome⟩ := merkledagAdd_ends addable repo
  · cases added.symm.trans faults
  · obtain ⟨rfl, rfl⟩ := Prod.mk.inj (added.symm.trans ends)
    rcases outcome with failed | ⟨returned, _, present⟩
    · cases failed
    · cases returned
      exact ⟨rfl, present⟩

theorem FsRepo.holds_withFile {repo : FsRepo lib} {datastore : lib.store.State}
    (whole : (repo.disk.headD .complete).kept (node.file lib) = node.file lib)
    (present : lib.store.has datastore (node.key lib)) :
    (repo.withFile node datastore).Holds (node.key lib) (hashtableNodeBytes lib.mh node) where
  file := by
    simp only [withFile, whole, Function.update_self]
    rfl
  present := present

theorem FsRepo.Holds.withFile {repo : FsRepo lib} {key bytes : Bytes} (holds : repo.Holds key bytes)
    {datastore : lib.store.State} (kept : lib.store.has repo.datastore key → lib.store.has datastore key)
    (whole : (repo.disk.headD .complete).kept (node.file lib) = node.file lib)
    (same : node.key lib = key → hashtableNodeBytes lib.mh node = bytes) :
    (repo.withFile node datastore).Holds key bytes := by
  refine ⟨?_, kept holds.present⟩
  simp only [FsRepo.withFile, whole]
  exact holds.file_update same

end

/-! ## Many adds -/

theorem lastWrite_eq_some {key : Bytes} {disk : List DiskWrite} {nodes : List HashtableNode} {last : HashtableNode}
    {write : DiskWrite} (found : lastWrite lib key disk nodes = some (last, write)) :
    last ∈ nodes ∧ last.key lib = key ∧ (write = .complete ∨ write ∈ disk) := by
  induction nodes generalizing disk with
  | nil => cases found
  | cons node nodes ih =>
      rcases Option.or_eq_some_iff.mp found with later | ⟨_, first⟩
      · obtain ⟨mem, named, source⟩ := ih later
        exact ⟨List.mem_cons_of_mem _ mem, named, source.imp_right List.mem_of_mem_tail⟩
      · split at first
        · rename_i named
          cases first
          refine ⟨List.mem_cons_self, named, ?_⟩
          cases disk with
          | nil => exact .inl rfl
          | cons write disk => exact .inr List.mem_cons_self
        · cases first

theorem lastWrite_cons_isSome (node : HashtableNode) (disk : List DiskWrite) (others : List HashtableNode) :
    (lastWrite lib (node.key lib) disk (node :: others)).isSome := by
  rw [lastWrite, if_pos rfl, Option.isSome_or, Option.isSome_some, Bool.or_true]

theorem merkledagAddAll_file {nodes : List HashtableNode} (addable : ∀ node ∈ nodes, node.Addable)
    {repo repo' : FsRepo lib} (ran : merkledagAddAll nodes repo = (.returned (), repo')) (key : Bytes) :
    (lib.store.has repo.datastore key → lib.store.has repo'.datastore key) ∧
      repo'.blockstore (lib.crypto.base32 key) =
        ((lastWrite lib key repo.disk nodes).map fun last => last.2.kept (last.1.file lib)).or
          (repo.blockstore (lib.crypto.base32 key)) := by
  induction nodes generalizing repo with
  | nil =>
      cases ran
      exact ⟨id, rfl⟩
  | cons node nodes ih =>
      rw [merkledagAddAll, Act.bind_apply, Act.attempt] at ran
      rcases merkledagAdd_ends (addable node (by simp)) repo with ⟨next, faults⟩ | ⟨datastore, result, kept, ends, outcome⟩
      · rw [faults] at ran
        cases ran
      · have rest : merkledagAddAll nodes (repo.withFile node datastore) = (.returned (), repo') := by
          rcases outcome with rfl | ⟨rfl, _⟩ <;> rwa [ends] at ran
        obtain ⟨present, file⟩ := ih (fun other mem => addable other (by simp [mem])) rest
        refine ⟨fun before => present (kept key before), ?_⟩
        rw [file, lastWrite, FsRepo.withFile]
        cases lastWrite lib key repo.disk.tail nodes with
        | some last => rfl
        | none =>
            by_cases same : node.key lib = key
            · simp [same]
            · have other : lib.crypto.base32 key ≠ lib.crypto.base32 (node.key lib) :=
                fun names => same (lib.crypto.base32_injective names).symm
              simp [same, Function.update_of_ne other]

theorem hashtableNodeSetHash_same (node : HashtableNode) (hash : Bytes) : (hashtableNodeSetHash node hash).Same node := by
  rw [hashtableNodeSetHash]
  split <;> exact HashtableNode.same_of_named rfl rfl

theorem merkledagGet_same_iff {repo : FsRepo lib} {node last : HashtableNode} (hashed : ∀ link ∈ last.links, link.Hashed)
    (present : lib.store.has repo.datastore (last.key lib))
    (file : repo.blockstore (lib.crypto.base32 (last.key lib)) = some (last.file lib)) :
    (∃ node', merkledagGet repo (last.key lib) = .returned node' ∧ node'.Same node) ↔
      (last.data ≠ [] ∨ last.links ≠ []) ∧ last.Same node := by
  have block := blocksBlockProtobufDecode_blockBytes lib.pb (hashtableNodeBytes lib.mh last)
    (cidProtobufDecode_cidNew lib.pb 1 cidDagProtobuf (last.key lib))
  have get : merkledagGet repo (last.key lib) =
      (hashtableNodeProtobufDecode lib.pb (hashtableNodeBytes lib.mh last) >>= fun node =>
        pure (hashtableNodeSetHash node (last.key lib))) := by
    simp only [merkledagGet, fsrepoNodeRead, blockstoreGetNode, present, file, if_true, Outcome.access_some,
      Outcome.returned_bind, HashtableNode.file, block]
  rw [get]
  by_cases nonempty : last.data ≠ [] ∨ last.links ≠ []
  · have stored : (hashtableNodeSetHash { data := last.data, links := last.links.map NodeLink.named }
        (last.key lib)).Same last := by
      refine (hashtableNodeSetHash_same _ _).trans (HashtableNode.same_of_named rfl ?_)
      rw [List.map_map]
      rfl
    rw [hashtableNodeProtobufDecode_hashtableNodeBytes lib.pb lib.mh nonempty hashed]
    constructor
    · rintro ⟨node', returned, same⟩
      obtain rfl := Outcome.returned.inj returned
      exact ⟨nonempty, stored.symm.trans same⟩
    · rintro ⟨_, same⟩
      exact ⟨_, rfl, stored.trans same⟩
  · refine iff_of_false ?_ fun both => nonempty both.1
    rw [not_or, not_not, not_not] at nonempty
    have empty : hashtableNodeBytes lib.mh last = [] := by simp [hashtableNodeBytes, nonempty]
    rw [empty, hashtableNodeProtobufDecode, if_pos rfl]
    rintro ⟨node', returned, _⟩
    cases returned

theorem merkledagGet_added_iff (node : HashtableNode) (others : List HashtableNode)
    (addable : ∀ added ∈ node :: others, added.Addable) {repo repo₁ repo₂ : FsRepo lib} {hashed : HashtableNode}
    {bytesWritten : Nat} (added : merkledagAdd node repo = (.returned (hashed, bytesWritten), repo₁))
    (ran : merkledagAddAll others repo₁ = (.returned (), repo₂)) :
    ((node.data ≠ [] ∨ node.links ≠ []) ∧ LastWriteSame repo node others →
      ∃ node', merkledagGet repo₂ (hashed.hash.getD []) = .returned node' ∧ node'.Same node) ∧
    (repo.WritesWhole → (∃ node', merkledagGet repo₂ (hashed.hash.getD []) = .returned node' ∧ node'.Same node) →
      (node.data ≠ [] ∨ node.links ≠ []) ∧ LastWriteSame repo node others) := by
  have all : merkledagAddAll (node :: others) repo = (.returned (), repo₂) := by
    rw [merkledagAddAll, Act.attempt_bind_returned added]
    exact ran
  have file := (merkledagAddAll_file addable all (node.key lib)).2
  have written : (lastWrite lib (node.key lib) repo.disk (node :: others)).isSome :=
    lastWrite_cons_isSome node repo.disk others
  obtain ⟨⟨last, write⟩, found⟩ := Option.isSome_iff_exists.mp written
  obtain ⟨mem, named, source⟩ := lastWrite_eq_some found
  rw [found, Option.map_some, Option.some_or] at file
  obtain ⟨isKey, added'⟩ := merkledagAdd_returned (addable node (by simp)) added
  have present := (merkledagAddAll_file (fun other mem => addable other (by simp [mem])) ran (node.key lib)).1 added'
  have reads (whole : ∀ count, write ≠ .short count) :
      (∃ node', merkledagGet repo₂ (last.key lib) = .returned node' ∧ node'.Same node) ↔
        (last.data ≠ [] ∨ last.links ≠ []) ∧ last.Same node := by
    rw [DiskWrite.kept_of_ne whole] at file
    exact merkledagGet_same_iff (addable last mem).hashed (named ▸ present) (named ▸ file)
  rw [isKey, Option.getD_some, ← named]
  constructor
  · rintro ⟨nonempty, last', write', found', same, whole⟩
    obtain ⟨rfl, rfl⟩ := Prod.mk.inj (Option.some.inj (found.symm.trans found'))
    exact (reads whole).mpr ⟨same.symm.nonempty nonempty, same⟩
  · intro disk read
    have whole : ∀ count, write ≠ .short count := by
      intro count
      rcases source with rfl | taken
      · exact DiskWrite.noConfusion
      · exact disk write taken count
    obtain ⟨nonempty, same⟩ := (reads whole).mp read
    exact ⟨same.nonempty nonempty, last, write, found, same, whole⟩

/-! ## The empty node -/

def emptyDigest : Digest :=
  { block := []
    sha256 := [0xe3, 0xb0, 0xc4, 0x42, 0x98, 0xfc, 0x1c, 0x14, 0x9a, 0xfb, 0xf4, 0xc8, 0x99, 0x6f,
               0xb9, 0x24, 0x27, 0xae, 0x41, 0xe4, 0x64, 0x9b, 0x93, 0x4c, 0xa4, 0x95, 0x99, 0x1b,
               0x78, 0x52, 0xb8, 0x55]
    base32 := [0x34, 0x4f, 0x59, 0x4d, 0x49, 0x51, 0x55, 0x59, 0x37, 0x51, 0x4f, 0x42, 0x4a, 0x47,
               0x58, 0x33, 0x36, 0x54, 0x45, 0x4a, 0x53, 0x33, 0x35, 0x5a, 0x45, 0x51, 0x54, 0x32,
               0x34, 0x51, 0x50, 0x45, 0x4d, 0x53, 0x4e, 0x5a, 0x47, 0x54, 0x46, 0x45, 0x53, 0x57,
               0x4d, 0x52, 0x57, 0x36, 0x43, 0x53, 0x58, 0x42, 0x4b, 0x51]
    base58 := [0x51, 0x6d, 0x64, 0x66, 0x54, 0x62, 0x42, 0x71, 0x42, 0x50, 0x51, 0x37, 0x56, 0x4e,
               0x78, 0x5a, 0x45, 0x59, 0x45, 0x6a, 0x31, 0x34, 0x56, 0x6d, 0x52, 0x75, 0x5a, 0x42,
               0x6b, 0x71, 0x46, 0x62, 0x69, 0x77, 0x52, 0x65, 0x6f, 0x67, 0x4a, 0x67, 0x53, 0x31,
               0x7a, 0x52, 0x31, 0x6e] }

def emptyTable : Digest.Table where
  entries := [fileDigest, emptyDigest]
  other := List.replicate 32 0
  lengths := by decide
  distinct := by decide
  written := by decide
  apart := by decide
  alphabet := by decide

theorem not_merkledagGet_added_empty :
    ∃ hashed bytesWritten repo, merkledagAdd {} (FsRepo.new emptyTable) = (.returned (hashed, bytesWritten), repo) ∧
      ∀ node', merkledagGet repo (hashed.hash.getD []) ≠ .returned node' := by
  refine ⟨_, _, _, rfl, fun node' returned => ?_⟩
  cases returned

def greetingNode : HashtableNode := { data := [0x08, 0x02, 0x12, 0x02, 0x68, 0x69, 0x18, 0x02] }

def greetingRepo : FsRepo (.known emptyTable) :=
  (FsRepo.new emptyTable).add fileDigest.sha256 fileDigest.block [fileDigest.sha256]

theorem merkledagGet_added_greeting :
    ∃ node', merkledagGet (greetingRepo.add emptyDigest.sha256 emptyDigest.block [emptyDigest.sha256, fileDigest.sha256])
      fileDigest.sha256 = .returned node' ∧ node'.Same greetingNode := by
  have addable : ∀ added ∈ [greetingNode, {}], added.Addable := by
    intro added mem
    rcases List.mem_pair.mp mem with rfl | rfl <;> exact ⟨by decide, by decide⟩
  have added : merkledagAdd greetingNode (FsRepo.new emptyTable) =
      (.returned ({ greetingNode with hash := some fileDigest.sha256 }, 52), greetingRepo) := rfl
  have empty : merkledagAdd {} greetingRepo = (.returned ({ hash := some emptyDigest.sha256 }, 42),
      greetingRepo.add emptyDigest.sha256 emptyDigest.block [emptyDigest.sha256, fileDigest.sha256]) := rfl
  have ran : merkledagAddAll [{}] greetingRepo = (.returned (),
      greetingRepo.add emptyDigest.sha256 emptyDigest.block [emptyDigest.sha256, fileDigest.sha256]) := by
    rw [merkledagAddAll, Act.attempt_bind_returned empty]
    rfl
  exact (merkledagGet_added_iff greetingNode [{}] addable added ran).1
    ⟨by decide, greetingNode, .complete, rfl, HashtableNode.same_of_named rfl rfl, fun _ => DiskWrite.noConfusion⟩

end Ipfs
