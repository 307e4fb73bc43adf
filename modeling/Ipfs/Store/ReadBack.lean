import Ipfs.Store.AddGet

/-!
# Reading back from the blockstore

Three kinds of object are saved under the names of their hashes. A node is written as it is, and read as a block that
holds it.
-/

namespace Ipfs
variable {lib : Library}

def blockstorePutUnixfs (unixFs : UnixFS) : Act (FsRepo lib) Nat := do
  let protobuf ← .lift (unixfsProtobufEncode lib.pb unixFs (unixfsProtobufEncodeSize unixFs))
  let bytesWritten ← writeFile (lib.crypto.base32 unixFs.hash) protobuf
  if bytesWritten ≠ protobuf.length then .lift .failed else pure bytesWritten

/-- `ipfs_blockstore_get_unixfs`. The file is not checked. -/
def blockstoreGetUnixfs (repo : FsRepo lib) (hash : Bytes) : Outcome UnixFS := do
  let buffer ← .access .nullPointer (repo.blockstore (lib.crypto.base32 hash))
  unixfsProtobufDecode lib.pb buffer

def blockstorePutNode (node : HashtableNode) : Act (FsRepo lib) Nat := do
  let protobuf ← .lift (.ofOption
    (hashtableNodeProtobufEncode lib.pb lib.mh node (hashtableNodeProtobufEncodeSize node)))
  let bytesWritten ← writeFile (lib.crypto.base32 (node.hash.getD [])) protobuf
  if bytesWritten ≠ protobuf.length then .lift .failed else pure bytesWritten

inductive StoredObject
  | node (node : HashtableNode)
  | block (block : Block)
  | unixfs (unixFs : UnixFS)

namespace StoredObject

def key : StoredObject → Bytes
  | .node saved => saved.hash.getD []
  | .block saved => (saved.cid.map Cid.hash).getD []
  | .unixfs saved => saved.hash

def put : StoredObject → Act (FsRepo lib) Nat
  | .node saved => blockstorePutNode saved
  | .block saved => blockstorePut saved
  | .unixfs saved => blockstorePutUnixfs saved

def putAll (objects : List StoredObject) (repo : FsRepo lib) : FsRepo lib :=
  objects.foldl (fun repo object => (object.put repo).2) repo

/-- The sizes do not wrap around a `size_t`, and the type of a UnixFS object is one of the enumeration. -/
def Storable : StoredObject → Prop
  | .node saved => saved.hash.isSome
  | .block saved => blocksBlockProtobufEncodeSize saved < 2 ^ 64
  | .unixfs saved => saved.dataType.Listed ∧ unixfsProtobufEncodeSize saved < 2 ^ 64

def ReadsBack (repo : FsRepo lib) : StoredObject → Prop
  | .node saved => ∃ read, blockstoreGetNode repo (saved.hash.getD []) = .returned read ∧ saved.Same read
  | .block saved => ∃ cid read, saved.cid = some cid ∧ blockstoreGet repo cid = .returned read ∧ read.data = saved.data
  | .unixfs saved => ∃ read, blockstoreGetUnixfs repo saved.hash = .returned read ∧ read.dataType = saved.dataType ∧
      read.bytes = saved.bytes ∧ read.fileSize = saved.fileSize ∧ read.blockSizes = saved.blockSizes

def IsNode : StoredObject → Prop
  | .node _ => True
  | _ => False

end StoredObject

/-! ## Files -/

theorem writeFile_file {name contents : Bytes} {repo repo' : FsRepo lib} {count : Nat}
    (written : (writeFile name contents >>= fun bytesWritten =>
      if bytesWritten ≠ contents.length then .lift .failed else pure bytesWritten) repo = (.returned count, repo')) :
    repo'.blockstore name = some contents := by
  rcases writeFile_ends name contents repo with ⟨-, ends⟩ | ⟨-, ends⟩
  · rw [Act.bind_fault ends] at written
    cases written
  · rw [Act.bind_returned ends] at written
    by_cases whole : ((repo.disk.headD .complete).kept contents).length = contents.length
    · rw [if_neg (not_not.mpr whole), Act.pure_apply, Prod.mk.injEq] at written
      obtain ⟨-, rfl⟩ := written
      rw [DiskWrite.kept_of_length whole]
      exact Function.update_self ..
    · rw [if_pos whole] at written
      cases written

theorem writeFile_preserves {name other contents : Bytes} {file : Option Bytes} (ne : name ≠ other) :
    Act.Preserves (fun repo : FsRepo lib => repo.blockstore name = file) (writeFile other contents) := by
  intro repo holds
  rcases writeFile_ends other contents repo with ⟨-, ends⟩ | ⟨-, ends⟩
  · rw [ends]
    exact holds
  · rw [ends]
    exact (Function.update_of_ne ne ..).trans holds

theorem putFile_preserves {name other contents : Bytes} {file : Option Bytes} (ne : name ≠ other) :
    Act.Preserves (fun repo : FsRepo lib => repo.blockstore name = file)
      (writeFile other contents >>= fun bytesWritten =>
        if bytesWritten ≠ contents.length then .lift .failed else pure bytesWritten) := by
  apply (writeFile_preserves ne).bind
  intro count
  split
  · exact .lift _
  · exact .pure _

namespace StoredObject

theorem put_preserves {name : Bytes} {file : Option Bytes} (object : StoredObject)
    (ne : name ≠ lib.crypto.base32 object.key) :
    Act.Preserves (fun repo : FsRepo lib => repo.blockstore name = file) object.put := by
  cases object with
  | node saved =>
      apply Act.Preserves.lift_bind
      intro protobuf _
      exact putFile_preserves ne
  | block saved =>
      apply Act.Preserves.lift_bind
      intro cid given
      apply Act.Preserves.lift_bind
      intro protobuf _
      rw [Outcome.access_eq_returned] at given
      exact putFile_preserves (by simpa [key, given] using ne)
  | unixfs saved =>
      apply Act.Preserves.lift_bind
      intro protobuf _
      exact putFile_preserves ne

theorem putAll_file {name : Bytes} {others : List StoredObject} {repo : FsRepo lib}
    (apart : ∀ other ∈ others, name ≠ lib.crypto.base32 other.key) :
    (putAll others repo).blockstore name = repo.blockstore name := by
  induction others generalizing repo with
  | nil => rfl
  | cons other others ih =>
      have rest : (putAll others (other.put repo).2).blockstore name = (other.put repo).2.blockstore name :=
        ih fun other' mem => apart other' (List.mem_cons_of_mem _ mem)
      exact rest.trans (other.put_preserves (apart other List.mem_cons_self) repo rfl)

end StoredObject

/-! ## A node read as a block -/

section
variable (pb : Protobuf) (mh : Multihash)

/-- The links are read as Cids of the block. -/
theorem blockDecode_links {tail : Bytes} {links : List NodeLink} {length start : Nat} {s block : Block}
    (done : (decodeLoop pb (blockFields pb) length
      ((links.flatMap fun link => Wire.bytesField 2 .lengthDelimited (nodeLinkBytes mh link)) ++ tail).length start
      ((links.flatMap fun link => Wire.bytesField 2 .lengthDelimited (nodeLinkBytes mh link)) ++ tail) s).result =
        .returned block) :
    ∃ start s', s'.data = s.data ∧
      (decodeLoop pb (blockFields pb) length tail.length start tail s').result = .returned block := by
  induction links generalizing start s with
  | nil => exact ⟨start, s, rfl, done⟩
  | cons link links ih =>
      rw [List.flatMap_cons, List.append_assoc] at done
      obtain ⟨s', stored, rest⟩ := decodeLoop_stored (by decide) (by decide) rfl done
      obtain ⟨cid, -, stored⟩ := Outcome.bind_eq_returned.mp stored
      obtain rfl := Outcome.returned.inj stored
      obtain ⟨start', s', same, behind⟩ := ih rest
      exact ⟨start', s', same, behind⟩

theorem blocksBlockProtobufDecode_hashtableNodeBytes {node : HashtableNode} {block : Block}
    (decoded : blocksBlockProtobufDecode pb (hashtableNodeBytes mh node) = .returned block) : block.data = node.data := by
  obtain ⟨start, s, same, rest⟩ := blockDecode_links pb mh decoded
  by_cases present : 0 < node.data.length
  · rw [if_pos present, ← List.append_nil (Wire.bytesField _ _ _)] at rest
    obtain ⟨s', stored, rest⟩ := decodeLoop_stored (by decide) (by decide) rfl rest
    obtain rfl := Outcome.returned.inj stored
    exact congrArg Block.data (Outcome.returned.inj rest).symm
  · rw [if_neg present] at rest
    obtain rfl := Outcome.returned.inj rest
    rw [same, List.eq_nil_of_length_eq_zero (Nat.eq_zero_of_not_pos present)]

theorem hashtableNodeProtobufDecode_data_lt {buffer : Bytes} {node : HashtableNode}
    (decoded : hashtableNodeProtobufDecode pb buffer = .returned node) : node.data.length < buffer.length := by
  rw [hashtableNodeProtobufDecode] at decoded
  split at decoded
  · cases decoded
  · have present := List.length_pos_iff.mpr (by assumption)
    have bound : node.data.length ≤ buffer.length - 1 := by
      refine decodeFields_invariant (fun node : HashtableNode => node.data.length ≤ buffer.length - 1) ?_ (Nat.zero_le _)
        decoded
      intro fieldNo field known
      unfold hashtableNodeFields at known
      split at known
      · cases known
        rintro node data _ _ short ⟨⟩
        exact short
      · cases known
        intro node temp node' holds _ stored
        simp only at stored
        split at stored
        · exact Outcome.returned.inj stored ▸ holds
        · exact Outcome.returned.inj stored ▸ holds
        · cases stored
      · cases known
    omega

end

/-! ## What is read back -/

section
variable {repo repo' : FsRepo lib} {count : Nat}

theorem blockstorePutNode_file {node : HashtableNode} (stored : blockstorePutNode node repo = (.returned count, repo')) :
    repo'.blockstore (lib.crypto.base32 (node.hash.getD [])) = some (hashtableNodeBytes lib.mh node) := by
  unfold blockstorePutNode at stored
  rw [Act.lift_bind] at stored
  cases encoded : hashtableNodeProtobufEncode lib.pb lib.mh node (hashtableNodeProtobufEncodeSize node) with
  | none =>
      rw [encoded] at stored
      cases stored
  | some protobuf =>
      rw [encoded, Outcome.ofOption_some] at stored
      obtain ⟨-, rfl, -⟩ := hashtableNodeProtobufEncode_eq_some lib.pb lib.mh encoded
      exact writeFile_file stored

theorem blockstorePut_file {cid : Cid} {data : Bytes} (sized : blocksBlockProtobufEncodeSize ⟨some cid, data⟩ < 2 ^ 64)
    (stored : blockstorePut ⟨some cid, data⟩ repo = (.returned count, repo')) :
    repo'.blockstore (lib.crypto.base32 cid.hash) = some (blockBytes cid data) := by
  unfold blockstorePut at stored
  simp only [Act.lift_bind, Outcome.access_some, blocksBlockProtobufEncode_size lib.pb cid data sized,
    Outcome.ofOption_some] at stored
  exact writeFile_file stored

theorem blockstorePutUnixfs_file {unixFs : UnixFS} (listed : unixFs.dataType.Listed)
    (sized : unixfsProtobufEncodeSize unixFs < 2 ^ 64)
    (stored : blockstorePutUnixfs unixFs repo = (.returned count, repo')) :
    repo'.blockstore (lib.crypto.base32 unixFs.hash) = some (unixfsBytes unixFs) := by
  unfold blockstorePutUnixfs at stored
  rw [Act.lift_bind, (unixfs_roundTrip lib.pb unixFs listed sized).1] at stored
  exact writeFile_file stored

/-- The data would be a part of itself. -/
theorem blockstoreGetNode_ne {node read : HashtableNode} {hash : Bytes}
    (file : repo.blockstore (lib.crypto.base32 hash) = some (hashtableNodeBytes lib.mh node))
    (got : blockstoreGetNode repo hash = .returned read) : node.data ≠ read.data := by
  intro same
  rw [blockstoreGetNode, file, Outcome.access_some, Outcome.returned_bind] at got
  split at got
  · have data := blocksBlockProtobufDecode_hashtableNodeBytes lib.pb lib.mh (by assumption)
    have shorter := hashtableNodeProtobufDecode_data_lt lib.pb got
    rw [data, same] at shorter
    exact lt_irrefl _ shorter
  · cases got
  · cases got

theorem blockstoreGetUnixfs_unixfs {unixFs : UnixFS} (listed : unixFs.dataType.Listed)
    (file : repo.blockstore (lib.crypto.base32 unixFs.hash) = some (unixfsBytes unixFs)) :
    blockstoreGetUnixfs repo unixFs.hash = .returned { unixFs with hash := [] } := by
  rw [blockstoreGetUnixfs, file]
  exact unixfsProtobufDecode_unixfsBytes lib.pb unixFs listed

end

def greetingUnixfs : UnixFS := { dataType := .file, bytes := [0x68, 0x69], hash := [0x01] }

end Ipfs
