import Ipfs.Importer.Exporter
import Ipfs.Store.Known

/-!
# The two exports of a file

One writes a file of one node, or the nodes that the root links to; the other writes a node and then
everything below it.
-/

namespace Ipfs
variable {lib : Library}

/-- What is below a node of a file, unfolded: a linked node, what is below it, and the links behind it. -/
inductive FileForest
  | nil
  | cons (hash bytes : Bytes) (children siblings : FileForest)

structure FileTree where
  hash : Bytes
  bytes : Bytes
  children : FileForest

namespace FileForest

def hashes : FileForest → List Bytes
  | .nil => []
  | .cons hash _ _ siblings => hash :: siblings.hashes

/-- The data in depth-first order. -/
def content : FileForest → Bytes
  | .nil => []
  | .cons _ bytes children siblings => bytes ++ children.content ++ siblings.content

def top : FileForest → Bytes
  | .nil => []
  | .cons _ bytes _ siblings => bytes ++ siblings.top

def beyond : FileForest → Bytes
  | .nil => []
  | .cons _ _ children siblings => children.content ++ siblings.beyond

def height : FileForest → Nat
  | .nil => 0
  | .cons _ _ children siblings => max (children.height + 1) siblings.height

theorem content_length (forest : FileForest) : forest.content.length = forest.top.length + forest.beyond.length := by
  induction forest with
  | nil => rfl
  | cons hash bytes children siblings _ ih =>
      simp only [content, top, beyond, List.length_append, ih]
      omega

theorem content_eq_top {forest : FileForest} (flat : forest.beyond = []) : forest.content = forest.top := by
  induction forest with
  | nil => rfl
  | cons hash bytes children siblings _ ih =>
      obtain ⟨below, behind⟩ := List.append_eq_nil_iff.mp flat
      rw [content, top, below, ih behind, List.append_nil]

end FileForest

def FileTree.content (tree : FileTree) : Bytes := tree.bytes ++ tree.children.content

def FsRepo.HasFile (repo : FsRepo lib) (hash bytes : Bytes) (links : List Bytes) : Prop :=
  ∃ node unixFs, exporterGetNode repo hash = .returned node ∧ unixfsProtobufDecode lib.pb node.data = .returned unixFs ∧
    unixFs.bytes = bytes ∧ node.links.map NodeLink.hash = links

def FileForest.Stored (repo : FsRepo lib) : FileForest → Prop
  | .nil => True
  | .cons hash bytes children siblings =>
      repo.HasFile hash bytes children.hashes ∧ children.Stored repo ∧ siblings.Stored repo

structure FileTree.Stored (repo : FsRepo lib) (tree : FileTree) : Prop where
  root : repo.HasFile tree.hash tree.bytes tree.children.hashes
  children : tree.children.Stored repo

/-- Whenever both exports succeed, both have written the file. -/
def ExportersAgree (repo : FsRepo lib) (text : Bytes) (tree : FileTree) : Prop :=
  ∀ depth filestream file, exporterToFilestream repo text [] = (.returned (), filestream) →
    exporterObjectCatToFile repo depth tree.hash [] = (.returned (), file) →
    filestream = tree.content ∧ file = tree.content

section
variable {repo : FsRepo lib} {forest : FileForest}

theorem unixfsProtobufDecoded_of_decode {pb : Protobuf} {data : Bytes} {unixFs : UnixFS}
    (decoded : unixfsProtobufDecode pb data = .returned unixFs) : unixfsProtobufDecoded pb data = .returned unixFs := by
  rw [unixfsProtobufDecode] at decoded
  rw [unixfsProtobufDecoded]
  split at decoded
  · cases decoded
  · rename_i nonempty
    simp only [nonempty, if_false, decoded]
    exact congrArg _ (decodeLoop_state decoded)

theorem exporterWriteNode_returns {node : HashtableNode} {unixFs : UnixFS}
    (decoded : unixfsProtobufDecode lib.pb node.data = .returned unixFs) (output : Bytes) :
    exporterWriteNode lib.pb node output = (.returned (), output ++ unixFs.bytes) := by
  rw [exporterWriteNode, unixfsProtobufDecoded_of_decode decoded, Act.lift_bind]
  rfl

theorem FileForest.Stored.writeLinks (stored : forest.Stored repo) {links : List NodeLink}
    (linked : links.map NodeLink.hash = forest.hashes) (output : Bytes) :
    exporterWriteLinks repo links output = (.returned (), output ++ forest.top) := by
  induction forest generalizing links output with
  | nil =>
      obtain rfl := List.map_eq_nil_iff.mp linked
      simp [exporterWriteLinks, top]
  | cons hash bytes children siblings _ ih =>
      obtain ⟨⟨node, unixFs, read, decoded, rfl, _⟩, _, behind⟩ := stored
      obtain ⟨link, rest, rfl, rfl, others⟩ := List.map_eq_cons_iff.mp linked
      rw [exporterWriteLinks, read, Act.lift_returned_bind, Act.bind_returned (exporterWriteNode_returns decoded output),
        ih behind others, top, List.append_assoc]

theorem FileForest.Stored.catLinks (stored : forest.Stored repo) {depth : Nat} (deep : forest.height ≤ depth)
    {links : List NodeLink} (linked : links.map NodeLink.hash = forest.hashes) (output : Bytes) :
    exporterCatLinks repo depth links output = (.returned (), output ++ forest.content) := by
  induction forest generalizing depth links output with
  | nil =>
      obtain rfl := List.map_eq_nil_iff.mp linked
      simp [exporterCatLinks, content]
  | cons hash bytes children siblings below behind =>
      obtain ⟨⟨node, unixFs, read, decoded, rfl, linked'⟩, stored, stored'⟩ := stored
      obtain ⟨link, rest, rfl, rfl, others⟩ := List.map_eq_cons_iff.mp linked
      obtain ⟨high, high'⟩ := max_le_iff.mp deep
      obtain ⟨depth, rfl⟩ := Nat.exists_eq_add_one.mpr (show 0 < depth by omega)
      have child : exporterCatNode repo (depth + 1) node output =
          (.returned (), output ++ unixFs.bytes ++ children.content) := by
        rw [exporterCatNode, decoded, Act.lift_bind]
        exact below stored (by omega) linked' (output ++ unixFs.bytes)
      rw [exporterCatLinks, read, Act.lift_returned_bind, Act.attempt_bind_returned child, behind stored' high' others,
        content]
      simp only [List.append_assoc]

theorem FileForest.Stored.catLinks_shallow (stored : forest.Stored repo) {depth : Nat} (shallow : depth < forest.height)
    {links : List NodeLink} (linked : links.map NodeLink.hash = forest.hashes) (output : Bytes) :
    ∃ cause output', exporterCatLinks repo depth links output = (.fault cause, output') := by
  induction forest generalizing depth links output with
  | nil => exact absurd shallow (Nat.not_lt_zero depth)
  | cons hash bytes children siblings below behind =>
      obtain ⟨⟨node, unixFs, read, decoded, rfl, linked'⟩, stored, stored'⟩ := stored
      obtain ⟨link, rest, rfl, rfl, others⟩ := List.map_eq_cons_iff.mp linked
      rw [exporterCatLinks, read, Act.lift_returned_bind]
      by_cases deep : children.height < depth
      · obtain ⟨depth, rfl⟩ := Nat.exists_eq_add_one.mpr (show 0 < depth by omega)
        have child : exporterCatNode repo (depth + 1) node output =
            (.returned (), output ++ unixFs.bytes ++ children.content) := by
          rw [exporterCatNode, decoded, Act.lift_bind]
          exact stored.catLinks (by omega) linked' (output ++ unixFs.bytes)
        have high : depth + 1 < siblings.height := by
          rw [height] at shallow
          omega
        rw [Act.attempt_bind_returned child]
        exact behind stored' high others _
      · have child : ∃ cause output', exporterCatNode repo depth node output = (.fault cause, output') := by
          cases depth with
          | zero => exact ⟨_, _, by rw [exporterCatNode]; rfl⟩
          | succ depth =>
              rw [exporterCatNode, decoded, Act.lift_bind]
              exact below stored (by omega) linked' (output ++ unixFs.bytes)
        obtain ⟨cause, output', faults⟩ := child
        exact ⟨cause, output', by rw [Act.bind_apply, Act.attempt, faults]⟩

section
variable {tree : FileTree}

theorem FileTree.Stored.catToFile (stored : tree.Stored repo) {depth : Nat} (deep : tree.children.height < depth) :
    exporterObjectCatToFile repo depth tree.hash [] = (.returned (), tree.content) := by
  obtain ⟨⟨node, unixFs, read, decoded, bytes, linked⟩, children⟩ := stored
  obtain ⟨depth, rfl⟩ := Nat.exists_eq_add_one.mpr (show 0 < depth by omega)
  rw [exporterObjectCatToFile, read, Act.lift_returned_bind, exporterCatNode, decoded, Act.lift_returned_bind,
    FileTree.content, ← bytes]
  exact children.catLinks (by omega) linked unixFs.bytes

theorem FileTree.Stored.catToFile_eq (stored : tree.Stored repo) {depth : Nat} {file : Bytes}
    (returned : exporterObjectCatToFile repo depth tree.hash [] = (.returned (), file)) : file = tree.content := by
  by_cases deep : tree.children.height < depth
  · rw [stored.catToFile deep] at returned
    exact (Prod.mk.inj returned).2.symm
  · obtain ⟨⟨node, unixFs, read, decoded, bytes, linked⟩, children⟩ := stored
    rw [exporterObjectCatToFile, read, Act.lift_returned_bind] at returned
    cases depth with
    | zero =>
        rw [exporterCatNode] at returned
        cases returned
    | succ depth =>
        rw [exporterCatNode, decoded, Act.lift_returned_bind] at returned
        have shallow : depth < tree.children.height := by omega
        obtain ⟨cause, output', faults⟩ := children.catLinks_shallow shallow linked unixFs.bytes
        have same : exporterCatLinks repo depth node.links unixFs.bytes = (.returned (), file) := returned
        rw [faults] at same
        cases same

theorem FileTree.Stored.toFilestream (stored : tree.Stored repo) {text : Bytes}
    (named : cidDecodeHashFromBase58 lib text = .returned (cidNew 0 tree.hash cidDagProtobuf)) :
    exporterToFilestream repo text [] =
      (.returned (), match tree.children with
        | .nil => tree.bytes
        | .cons hash bytes children siblings => (FileForest.cons hash bytes children siblings).top) := by
  obtain ⟨⟨node, unixFs, read, decoded, bytes, linked⟩, children⟩ := stored
  rw [exporterToFilestream, named, Act.lift_returned_bind]
  show (Act.lift (exporterGetNode repo tree.hash) >>= _) [] = _
  rw [read, Act.lift_returned_bind]
  cases below : tree.children with
  | nil =>
      rw [below] at linked
      rw [List.map_eq_nil_iff.mp linked, ← bytes]
      exact exporterWriteNode_returns decoded []
  | cons hash bytes' children' siblings =>
      rw [below] at linked children
      obtain ⟨link, rest, isLinks, _⟩ := List.map_eq_cons_iff.mp linked
      rw [isLinks] at linked ⊢
      exact children.writeLinks linked []

end
end

/-- The exports agree exactly on a file of one node, and on one with all its data in the first level below the
root. -/
theorem exporters_agree_iff (repo : FsRepo lib) (tree : FileTree) (stored : tree.Stored repo) (text : Bytes)
    (named : cidDecodeHashFromBase58 lib text = .returned (cidNew 0 tree.hash cidDagProtobuf)) :
    ExportersAgree repo text tree ↔ tree.children = .nil ∨ (tree.bytes = [] ∧ tree.children.beyond = []) := by
  have written := stored.toFilestream named
  have agree : ExportersAgree repo text tree ↔ (exporterToFilestream repo text []).2 = tree.content := by
    constructor
    · intro same
      exact (same _ _ _ (by rw [written]) (stored.catToFile (Nat.lt_succ_self _))).1
    · intro same depth filestream file first second
      exact ⟨by rw [← same, first], stored.catToFile_eq second⟩
  rw [agree, written, FileTree.content]
  cases tree.children with
  | nil => simp [FileForest.content]
  | cons hash bytes children siblings =>
      have length := FileForest.content_length (.cons hash bytes children siblings)
      simp only [reduceCtorEq, false_or]
      constructor
      · intro same
        have lengths := congrArg List.length same
        rw [List.length_append] at lengths
        exact ⟨List.eq_nil_of_length_eq_zero (by omega), List.eq_nil_of_length_eq_zero (by omega)⟩
      · rintro ⟨empty, flat⟩
        rw [empty, FileForest.content_eq_top flat, List.nil_append]

/-! ## A file of three levels -/

def middleDigest : Digest :=
  { block := [0x12, 0x28, 0x0a, 0x22, 0x12, 0x20, 0xe2, 0xfe, 0xcf, 0x4b, 0x8d, 0xf2, 0x82, 0xc8,
              0x84, 0x8a, 0xe9, 0xf7, 0x0a, 0xd6, 0xe9, 0x70, 0x69, 0xb4, 0x35, 0xf5, 0xb5, 0x90,
              0x7c, 0x3f, 0xff, 0xe1, 0x4a, 0x6b, 0xf5, 0xbe, 0xf0, 0xda, 0x12, 0x00, 0x18, 0x34,
              0x0a, 0x06, 0x08, 0x02, 0x18, 0x02, 0x20, 0x02]
    sha256 := [0x18, 0xbd, 0x0a, 0x15, 0x91, 0xb1, 0x2e, 0xc8, 0xac, 0xc0, 0x4c, 0x3e, 0xff, 0x08,
               0xdf, 0x30, 0xbc, 0xd1, 0x10, 0xfc, 0xab, 0x72, 0x3d, 0x5a, 0xaa, 0x99, 0x58, 0xb9,
               0x40, 0x88, 0x1b, 0x20]
    base32 := [0x44, 0x43, 0x36, 0x51, 0x55, 0x46, 0x4d, 0x52, 0x57, 0x45, 0x58, 0x4d, 0x52, 0x4c,
               0x47, 0x41, 0x4a, 0x51, 0x37, 0x50, 0x36, 0x43, 0x47, 0x37, 0x47, 0x43, 0x36, 0x4e,
               0x43, 0x45, 0x48, 0x34, 0x56, 0x4e, 0x5a, 0x44, 0x32, 0x57, 0x56, 0x4b, 0x54, 0x46,
               0x4d, 0x4c, 0x53, 0x51, 0x45, 0x49, 0x44, 0x4d, 0x51, 0x41]
    base58 := [0x51, 0x6d, 0x51, 0x31, 0x44, 0x67, 0x56, 0x52, 0x66, 0x5a, 0x68, 0x61, 0x66, 0x68,
               0x74, 0x31, 0x47, 0x67, 0x78, 0x6d, 0x67, 0x41, 0x45, 0x52, 0x72, 0x36, 0x50, 0x42,
               0x4a, 0x54, 0x50, 0x7a, 0x72, 0x5a, 0x4c, 0x68, 0x4b, 0x46, 0x52, 0x47, 0x4e, 0x75,
               0x45, 0x77, 0x32, 0x66] }

def topDigest : Digest :=
  { block := [0x12, 0x28, 0x0a, 0x22, 0x12, 0x20, 0x18, 0xbd, 0x0a, 0x15, 0x91, 0xb1, 0x2e, 0xc8,
              0xac, 0xc0, 0x4c, 0x3e, 0xff, 0x08, 0xdf, 0x30, 0xbc, 0xd1, 0x10, 0xfc, 0xab, 0x72,
              0x3d, 0x5a, 0xaa, 0x99, 0x58, 0xb9, 0x40, 0x88, 0x1b, 0x20, 0x12, 0x00, 0x18, 0x5c,
              0x0a, 0x06, 0x08, 0x02, 0x18, 0x02, 0x20, 0x02]
    sha256 := [0xd4, 0x80, 0xd7, 0xfc, 0xce, 0x18, 0x0e, 0x39, 0x77, 0xe0, 0xb2, 0x41, 0x88, 0x51,
               0x2f, 0x80, 0x90, 0x2b, 0x50, 0x62, 0x76, 0x0f, 0x60, 0x46, 0x44, 0x38, 0xae, 0x40,
               0x07, 0x9a, 0x7d, 0x58]
    base32 := [0x32, 0x53, 0x41, 0x4e, 0x50, 0x37, 0x47, 0x4f, 0x44, 0x41, 0x48, 0x44, 0x53, 0x35,
               0x37, 0x41, 0x57, 0x4a, 0x41, 0x59, 0x51, 0x55, 0x4a, 0x50, 0x51, 0x43, 0x49, 0x43,
               0x57, 0x55, 0x44, 0x43, 0x4f, 0x59, 0x48, 0x57, 0x41, 0x52, 0x53, 0x45, 0x48, 0x43,
               0x58, 0x45, 0x41, 0x42, 0x34, 0x32, 0x50, 0x56, 0x4d, 0x41]
    base58 := [0x51, 0x6d, 0x63, 0x65, 0x42, 0x36, 0x47, 0x31, 0x63, 0x68, 0x64, 0x4a, 0x35, 0x64,
               0x4a, 0x58, 0x6e, 0x52, 0x59, 0x48, 0x38, 0x76, 0x50, 0x71, 0x34, 0x4e, 0x73, 0x78,
               0x5a, 0x34, 0x4b, 0x32, 0x59, 0x54, 0x38, 0x63, 0x53, 0x67, 0x66, 0x59, 0x58, 0x78,
               0x78, 0x50, 0x34, 0x42] }

def levelsTable : Digest.Table where
  entries := [fileDigest, middleDigest, topDigest]
  other := List.replicate 32 0
  lengths := by decide
  distinct := by decide
  written := by decide
  apart := by decide
  alphabet := by decide

def levelsRepo : FsRepo (.known levelsTable) :=
  (((FsRepo.new levelsTable).add fileDigest.sha256 fileDigest.block [fileDigest.sha256]).add
    middleDigest.sha256 middleDigest.block [middleDigest.sha256, fileDigest.sha256]).add
    topDigest.sha256 topDigest.block [topDigest.sha256, middleDigest.sha256, fileDigest.sha256]

def levelsTree : FileTree where
  hash := topDigest.sha256
  bytes := []
  children := .cons middleDigest.sha256 [] (.cons fileDigest.sha256 [0x68, 0x69] .nil .nil) .nil

theorem levelsTree_stored : levelsTree.Stored levelsRepo where
  root := ⟨_, _, rfl, rfl, rfl, rfl⟩
  children := ⟨⟨_, _, rfl, rfl, rfl, rfl⟩, ⟨⟨_, _, rfl, rfl, rfl, rfl⟩, trivial, trivial⟩, trivial⟩

theorem not_exporters_agree_levels :
    levelsTree.Stored levelsRepo ∧
      cidDecodeHashFromBase58 (.known levelsTable) topDigest.base58 =
        .returned (cidNew 0 levelsTree.hash cidDagProtobuf) ∧
      ¬ ExportersAgree levelsRepo topDigest.base58 levelsTree := by
  have named : cidDecodeHashFromBase58 (.known levelsTable) topDigest.base58 =
      .returned (cidNew 0 levelsTree.hash cidDagProtobuf) := rfl
  refine ⟨levelsTree_stored, named, fun agree => ?_⟩
  have written := agree 3 _ _ (levelsTree_stored.toFilestream named) (levelsTree_stored.catToFile (by decide))
  exact absurd written.1 (by decide)

theorem exporters_agree_middle :
    ExportersAgree levelsRepo middleDigest.base58
      ⟨middleDigest.sha256, [], .cons fileDigest.sha256 [0x68, 0x69] .nil .nil⟩ :=
  (exporters_agree_iff levelsRepo _ ⟨levelsTree_stored.children.1, levelsTree_stored.children.2.1⟩ middleDigest.base58
    rfl).mpr (.inr ⟨rfl, rfl⟩)

end Ipfs
