import Ipfs.Lib.Run
import Ipfs.Store.AddGet

/-!
# The hash that a node carries

The hash is computed by the first add and kept from then on. Setting the data and adding or removing
a link leave it as it is.
-/

namespace Ipfs
variable {lib : Library}

inductive NodeCall
  | setData (data : Option Bytes)
  | addLink (link : NodeLink)
  | removeLinkByName (name : Option CString)
  | add
  | get (key : Bytes)

def NodeCall.edit (node : HashtableNode) : NodeCall → HashtableNode
  | .setData data => (hashtableNodeSetData node data).getD node
  | .addLink link => hashtableNodeAddLink node link
  | .removeLinkByName name => (hashtableNodeRemoveLinkByName name node).getD node
  | .add | .get _ => node

structure NodeRun (lib : Library) where
  node : HashtableNode
  repo : FsRepo lib
  -- the keys that nodes were added under, with the nodes as they were
  added : List (Bytes × HashtableNode)

def hashtableNodeWrittenLinks (pb : Protobuf) (mh : Multihash) (maxBufferLength : Nat) :
    Bytes → List NodeLink → Bytes
  | out, [] => out
  | out, link :: links =>
      match (nodeLinkProtobufEncode pb mh link (nodeLinkProtobufEncodeSize link)).bind fun temp =>
          Wire.append maxBufferLength out fun left => pb.encodeLengthDelimited 2 .lengthDelimited temp left with
      | some out => hashtableNodeWrittenLinks pb mh maxBufferLength out links
      | none => out

def hashtableNodeProtobufWritten (pb : Protobuf) (mh : Multihash) (node : HashtableNode) (maxBufferLength : Nat) :
    Bytes :=
  (hashtableNodeProtobufEncode pb mh node maxBufferLength).getD
    (hashtableNodeWrittenLinks pb mh maxBufferLength [] node.links)

def merkledagHashed (lib : Library) (node : HashtableNode) : HashtableNode :=
  { node with hash := some (node.hash.getD (lib.crypto.sha256
      (hashtableNodeProtobufWritten lib.pb lib.mh node (hashtableNodeProtobufEncodeSize node)))) }

def nodeMachine (lib : Library) : Machine (NodeRun lib) NodeCall where
  step s call := match call with
    | .add => match merkledagAdd s.node s.repo with
        | (.returned (node, _), repo) => some { node, repo, added := (node.hash.getD [], s.node) :: s.added }
        | (.failed, repo) => some { s with node := merkledagHashed lib s.node, repo }
        | (.fault _, _) => none
    | .get key => match merkledagGet s.repo key with
        | .returned node => some { s with node }
        | .failed => some s
        | .fault _ => none
    | call => some { s with node := call.edit s.node }

/-- What the repository has under the key, if anything, is the encoding of a node, and the key its hash. -/
def FsRepo.Canonical (repo : FsRepo lib) (key : Bytes) : Prop :=
  ∀ file, repo.blockstore (lib.crypto.base32 key) = some file →
    ∃ node : HashtableNode, node.Saveable ∧ key = lib.crypto.sha256 (hashtableNodeBytes lib.mh node) ∧
      file = blockBytes (cidNew 1 key cidDagProtobuf) (hashtableNodeBytes lib.mh node)

/-- A node is changed before it has a hash, and added when it is not empty, to a disk that takes it. -/
def NodeCall.Allowed (s : NodeRun lib) : NodeCall → Prop
  | .add => (s.node.data ≠ [] ∨ s.node.links ≠ []) ∧ s.node.Addable ∧
      (∀ count, s.repo.disk.headD .complete ≠ .short count) ∧
      ∀ added ∈ s.added, lib.crypto.sha256 (hashtableNodeBytes lib.mh s.node) = added.1 →
        hashtableNodeBytes lib.mh s.node = hashtableNodeBytes lib.mh added.2
  | .get key => (∃ node, (key, node) ∈ s.added) ∨ s.repo.Canonical key
  | call => s.node.hash = none ∨ call.edit s.node = s.node

/-- Every key is the hash of the node that was added under it, and leads to that node. -/
def NodeRun.Coherent (s : NodeRun lib) : Prop :=
  ∀ added ∈ s.added,
    (∃ protobuf, hashtableNodeProtobufEncode lib.pb lib.mh added.2 (hashtableNodeProtobufEncodeSize added.2) =
      some protobuf ∧ added.1 = lib.crypto.sha256 protobuf) ∧
    ∃ node, merkledagGet s.repo added.1 = .returned node ∧ node.Same added.2

/-- What carries the property along a run: the node has no hash or its own, and all that was added is there. -/
structure NodeRun.Sound (s : NodeRun lib) : Prop where
  hash : ∀ hash, s.node.hash = some hash → hash = lib.crypto.sha256 (hashtableNodeBytes lib.mh s.node)
  added : ∀ added ∈ s.added, added.2.Saveable ∧ added.1 = lib.crypto.sha256 (hashtableNodeBytes lib.mh added.2) ∧
    s.repo.Holds added.1 (hashtableNodeBytes lib.mh added.2)

theorem sha256_ne_nil (crypto : Crypto) (data : Bytes) : crypto.sha256 data ≠ [] :=
  List.ne_nil_of_length_pos (by rw [crypto.sha256_length]; exact Nat.succ_pos 31)

theorem NodeRun.Sound.coherent {s : NodeRun lib} (sound : s.Sound) : s.Coherent := by
  intro added mem
  obtain ⟨saveable, named, holds⟩ := sound.added added mem
  refine ⟨⟨_, hashtableNodeProtobufEncode_size lib.pb lib.mh saveable.fits, named⟩, ?_⟩
  have nonempty : added.1 ≠ [] := by
    rw [named]
    exact sha256_ne_nil lib.crypto _
  refine ⟨_, merkledagGet_of_holds saveable.nonempty saveable.hashed nonempty holds, HashtableNode.same_of_named rfl ?_⟩
  rw [HashtableNode.stored, List.map_map]
  rfl

/-! ## The calls -/

theorem hashtableNodeRemoveLinkByName_hash {name : Option CString} {node node' : HashtableNode}
    (removed : hashtableNodeRemoveLinkByName name node = some node') : node'.hash = node.hash := by
  rw [hashtableNodeRemoveLinkByName] at removed
  split at removed
  · cases removed
  · split at removed <;> exact (congrArg HashtableNode.hash (Option.some.inj removed)).symm
  · exact (congrArg HashtableNode.hash (Option.some.inj removed)).symm

theorem NodeCall.edit_hash (call : NodeCall) (node : HashtableNode) : (call.edit node).hash = node.hash := by
  cases call with
  | setData data => cases data <;> rfl
  | addLink link => rfl
  | removeLinkByName name =>
      cases removed : hashtableNodeRemoveLinkByName name node with
      | none => simp [edit, removed]
      | some node' => simp [edit, removed, hashtableNodeRemoveLinkByName_hash removed]
  | add | get key => rfl

section
variable {s : NodeRun lib}

theorem NodeRun.Sound.edit (sound : s.Sound) {call : NodeCall}
    (allowed : s.node.hash = none ∨ call.edit s.node = s.node) : ({ s with node := call.edit s.node } : NodeRun lib).Sound := by
  refine ⟨fun hash carried => ?_, sound.added⟩
  rcases allowed with unhashed | same
  · rw [call.edit_hash, unhashed] at carried
    cases carried
  · simp only [same] at carried ⊢
    exact sound.hash hash carried

theorem NodeRun.Sound.load (sound : s.Sound) {key : Bytes} {node loaded : HashtableNode} (saveable : node.Saveable)
    (named : key = lib.crypto.sha256 (hashtableNodeBytes lib.mh node))
    (holds : s.repo.Holds key (hashtableNodeBytes lib.mh node)) (returned : merkledagGet s.repo key = .returned loaded) :
    ({ s with node := loaded } : NodeRun lib).Sound := by
  have nonempty : key ≠ [] := by
    rw [named]
    exact sha256_ne_nil lib.crypto _
  rw [merkledagGet_of_holds saveable.nonempty saveable.hashed nonempty holds] at returned
  obtain rfl := Outcome.returned.inj returned
  refine ⟨fun hash carried => ?_, sound.added⟩
  obtain rfl := Option.some.inj carried
  rw [hashtableNodeBytes_stored, ← named]

theorem merkledagGet_stored {repo : FsRepo lib} {key : Bytes} {node : HashtableNode}
    (returned : merkledagGet repo key = .returned node) :
    lib.store.has repo.datastore key ∧ ∃ file, repo.blockstore (lib.crypto.base32 key) = some file := by
  rw [merkledagGet] at returned
  split at returned
  · rename_i present
    obtain ⟨node', read, _⟩ := Outcome.bind_eq_returned.mp returned
    rw [fsrepoNodeRead, if_pos present, blockstoreGetNode] at read
    obtain ⟨file, found, _⟩ := Outcome.bind_eq_returned.mp read
    exact ⟨present, file, Outcome.access_eq_returned.mp found⟩
  · cases returned

theorem NodeRun.Sound.get (sound : s.Sound) {key : Bytes} {loaded : HashtableNode}
    (allowed : (∃ node, (key, node) ∈ s.added) ∨ s.repo.Canonical key)
    (returned : merkledagGet s.repo key = .returned loaded) : ({ s with node := loaded } : NodeRun lib).Sound := by
  rcases allowed with ⟨node, mem⟩ | canonical
  · obtain ⟨saveable, named, holds⟩ := sound.added _ mem
    exact sound.load saveable named holds returned
  · obtain ⟨present, file, found⟩ := merkledagGet_stored returned
    obtain ⟨node, saveable, named, rfl⟩ := canonical file found
    exact sound.load saveable named ⟨found, present⟩ returned

theorem NodeRun.Sound.key (sound : s.Sound) : s.node.key lib = lib.crypto.sha256 (hashtableNodeBytes lib.mh s.node) := by
  rw [HashtableNode.key]
  cases carried : s.node.hash with
  | none => rfl
  | some hash => exact sound.hash hash carried

theorem merkledagHashed_addable {node : HashtableNode} (addable : node.Addable) :
    merkledagHashed lib node = { node with hash := some (node.key lib) } := by
  rw [merkledagHashed, hashtableNodeProtobufWritten, hashtableNodeProtobufEncode_size lib.pb lib.mh addable.fits]
  rfl

theorem NodeRun.Sound.add (sound : s.Sound) (nonempty : s.node.data ≠ [] ∨ s.node.links ≠ []) (addable : s.node.Addable)
    (whole : ∀ count, s.repo.disk.headD .complete ≠ .short count)
    (distinct : ∀ added ∈ s.added, lib.crypto.sha256 (hashtableNodeBytes lib.mh s.node) = added.1 →
      hashtableNodeBytes lib.mh s.node = hashtableNodeBytes lib.mh added.2)
    {s' : NodeRun lib} (step : (nodeMachine lib).step s .add = some s') : s'.Sound := by
  have named := sound.key
  rcases merkledagAdd_ends addable s.repo with ⟨repo', faults⟩ | ⟨datastore, result, mono, ends, outcome⟩
  · simp only [nodeMachine, faults] at step
    cases step
  · have contents := DiskWrite.kept_of_ne whole (s.node.file lib)
    have hash : ∀ hash, some (s.node.key lib) = some hash → hash = lib.crypto.sha256 (hashtableNodeBytes lib.mh s.node) := by
      rintro hash ⟨⟩
      exact named
    have earlier : ∀ added ∈ s.added, added.2.Saveable ∧ added.1 = lib.crypto.sha256 (hashtableNodeBytes lib.mh added.2) ∧
        (s.repo.withFile s.node datastore).Holds added.1 (hashtableNodeBytes lib.mh added.2) := by
      intro added mem
      obtain ⟨saveable, isHash, holds⟩ := sound.added added mem
      exact ⟨saveable, isHash, holds.withFile (mono added.1) contents fun same => distinct added mem (named ▸ same)⟩
    rcases outcome with rfl | ⟨rfl, _, present⟩
    · simp only [nodeMachine, ends, merkledagHashed_addable addable, Option.some.injEq] at step
      subst step
      exact ⟨hash, earlier⟩
    · simp only [nodeMachine, ends, Option.getD_some, Option.some.injEq] at step
      subst step
      refine ⟨hash, fun added mem => ?_⟩
      rcases List.mem_cons.mp mem with rfl | mem
      · exact ⟨⟨nonempty, addable.hashed, addable.fits.sized⟩, named, FsRepo.holds_withFile contents present⟩
      · exact earlier added mem

theorem NodeRun.Sound.step (sound : s.Sound) {call : NodeCall} (allowed : call.Allowed s) {s' : NodeRun lib}
    (step : (nodeMachine lib).step s call = some s') : s'.Sound := by
  cases call with
  | add => exact sound.add allowed.1 allowed.2.1 allowed.2.2.1 allowed.2.2.2 step
  | get key =>
      cases returned : merkledagGet s.repo key with
      | returned node =>
          simp only [nodeMachine, returned, Option.some.injEq] at step
          exact step ▸ sound.get allowed returned
      | failed =>
          simp only [nodeMachine, returned, Option.some.injEq] at step
          exact step ▸ sound
      | fault cause =>
          simp only [nodeMachine, returned] at step
          cases step
  | setData | addLink | removeLinkByName => exact Option.some.inj step ▸ sound.edit allowed

end

def changedDigest : Digest :=
  { block := [0x0a, 0x08, 0x08, 0x02, 0x12, 0x02, 0x68, 0x6f, 0x18, 0x02]
    sha256 := [0xd3, 0xc7, 0x0c, 0xd3, 0x1c, 0x64, 0x3d, 0x43, 0x8d, 0x14, 0x99, 0xe7, 0x41, 0xa0,
               0xf1, 0xce, 0xa9, 0x55, 0x6e, 0x1c, 0xce, 0x3c, 0x2e, 0x3d, 0x16, 0x0d, 0xf9, 0xce,
               0x8c, 0x0b, 0xe5, 0xfa]
    base32 := [0x32, 0x50, 0x44, 0x51, 0x5a, 0x55, 0x59, 0x34, 0x4d, 0x51, 0x36, 0x55, 0x48, 0x44,
               0x49, 0x55, 0x54, 0x48, 0x54, 0x55, 0x44, 0x49, 0x48, 0x52, 0x5a, 0x32, 0x55, 0x56,
               0x4b, 0x33, 0x51, 0x34, 0x5a, 0x59, 0x36, 0x43, 0x34, 0x50, 0x49, 0x57, 0x42, 0x58,
               0x34, 0x34, 0x35, 0x44, 0x41, 0x4c, 0x34, 0x58, 0x35, 0x41]
    base58 := [0x51, 0x6d, 0x63, 0x62, 0x4c, 0x6d, 0x74, 0x47, 0x77, 0x7a, 0x37, 0x39, 0x47, 0x56,
               0x32, 0x36, 0x43, 0x76, 0x67, 0x62, 0x70, 0x4d, 0x53, 0x4c, 0x5a, 0x37, 0x79, 0x39,
               0x35, 0x74, 0x74, 0x42, 0x6e, 0x5a, 0x61, 0x36, 0x62, 0x76, 0x61, 0x61, 0x45, 0x6e,
               0x51, 0x37, 0x70, 0x75] }

def changedTable : Digest.Table where
  entries := [fileDigest, changedDigest]
  other := List.replicate 32 0
  lengths := by decide
  distinct := by decide
  written := by decide
  apart := by decide
  alphabet := by decide

def greetingData : Bytes := [0x08, 0x02, 0x12, 0x02, 0x68, 0x69, 0x18, 0x02]

def reloadCalls : List NodeCall := [.setData (some greetingData), .add, .get fileDigest.sha256, .add]

end Ipfs
