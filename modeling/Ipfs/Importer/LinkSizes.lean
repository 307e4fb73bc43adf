import Ipfs.Importer.TreeLayout

/-!
# The sizes in a directory

The link to a child has what `bytes_written` is after the import of the child. For a directory that is
what was counted for its last entry, or nothing, and never the whole of it.
-/

namespace Ipfs
variable {lib : Library}

mutual

/-- The number of adds for the tree. -/
def LocalFile.adds : LocalFile → Nat
  | .file content => if (chunksOf (content.getD [])).length = 1 then 1 else (chunksOf (content.getD [])).length + 1
  | .directory entries => entries.adds + 1

def FileList.adds : FileList → Nat
  | .nil => 0
  | .cons _ file next => file.adds + next.adds

end

def AddCall.written (call : AddCall) : Nat :=
  match call.result with
  | .returned bytesWritten => bytesWritten
  | _ => 0

mutual

/-- In every directory node that was added for the tree, a link has the number of bytes written by the adds for its
child. -/
def LocalFile.Counted : LocalFile → List AddCall → Prop
  | .file _, _ => True
  | .directory entries, calls => ∃ own, calls.getLast? = some own ∧ entries.Counted own.node.links calls

def FileList.Counted : FileList → List NodeLink → List AddCall → Prop
  | .nil, links, _ => links = []
  | .cons _ file next, links, calls => ∃ link later, links = link :: later ∧
      link.tSize.toNat = ((calls.take file.adds).map AddCall.written).sum ∧ file.Counted (calls.take file.adds) ∧
      next.Counted later (calls.drop file.adds)

end

def FileList.Files : FileList → Prop
  | .nil => True
  | .cons _ (.file _) next => next.Files
  | .cons _ (.directory _) _ => False

/-- No directory of the tree has a directory in it. -/
def LocalFile.Flat : LocalFile → Prop
  | .file _ => True
  | .directory entries => entries.Files

/-! ## What is written -/

theorem fileNodes_length (chunks : List Bytes) :
    (fileNodes lib chunks).length = if chunks.length = 1 then 1 else chunks.length + 1 := by
  by_cases single : chunks.length = 1
  · obtain ⟨chunk, rfl⟩ := List.length_eq_one_iff.mp single
    rfl
  · rw [fileNodes, fileRoot_of_ne single, if_neg single]
    simp

mutual

theorem LocalFile.nodes_length : ∀ tree : LocalFile, (tree.nodes lib).length = tree.adds
  | .file content => fileNodes_length _
  | .directory entries => by
      rw [LocalFile.nodes, LocalFile.adds, List.length_append, entries.nodes_length]
      rfl

theorem FileList.nodes_length : ∀ entries : FileList, (entries.nodes lib).length = entries.adds
  | .nil => rfl
  | .cons _ file next => by
      rw [FileList.nodes, FileList.adds, List.length_append, file.nodes_length, next.nodes_length]

end

theorem writtenLength_append (nodes later : List HashtableNode) :
    writtenLength lib (nodes ++ later) = writtenLength lib nodes + writtenLength lib later := by
  simp [writtenLength]

mutual

theorem LocalFile.written_le : ∀ (tree : LocalFile) (bytesWritten : Nat),
    tree.written lib bytesWritten ≤ bytesWritten + writtenLength lib (tree.nodes lib)
  | .file _, bytesWritten => by
      rw [LocalFile.written, LocalFile.nodes, fileWritten]
  | .directory entries, bytesWritten => by
      rw [LocalFile.written, LocalFile.nodes, writtenLength_append]
      have := entries.written_le bytesWritten
      omega

theorem FileList.written_le : ∀ (entries : FileList) (bytesWritten : Nat),
    entries.written lib bytesWritten ≤ bytesWritten + writtenLength lib (entries.nodes lib)
  | .nil, bytesWritten => by
      rw [FileList.written]
      omega
  | .cons _ file next, bytesWritten => by
      rw [FileList.written, FileList.nodes, writtenLength_append]
      have := file.written_le 0
      have := next.written_le (file.written lib 0)
      omega

end

theorem fileWritten_lt {file : Option Bytes} (sized : (file.getD []).length < 2 ^ 63) : fileWritten lib file < 2 ^ 64 := by
  obtain ⟨content, same⟩ : ∃ content, file.getD [] = content := ⟨_, rfl⟩
  rw [same] at sized
  have shorts := chunksOf_length_le content
  have bounded : (chunksOf content).length ≤ 2 ^ 45 := by
    rw [chunksOf_length, Nat.succ_le_iff, Nat.div_lt_iff_lt_mul (by decide)]
    exact lt_of_lt_of_le sized (by decide)
  have chunks : ((chunksOf content).map fun chunk => nodeFileLength lib (chunkNode chunk)).sum ≤
      (chunksOf content).length * (maxDataSize + 123) := by
    refine (List.sum_le_card_nsmul _ (maxDataSize + 123) ?_).trans (by simp)
    intro length mem
    obtain ⟨chunk, inFile, rfl⟩ := List.mem_map.mp mem
    have size := chunkNode_size_le (shorts chunk inFile)
    have small : hashtableNodeProtobufEncodeSize (chunkNode chunk) + 88 < 2 ^ 64 := by
      rw [maxDataSize] at size
      omega
    have := nodeFileLength_le lib (chunkNode_saveable (shorts chunk inFile)) small
    omega
  have root : writtenLength lib (fileRoot lib (chunksOf content)) ≤ 80 * 2 ^ 45 + 112 := by
    by_cases single : (chunksOf content).length = 1
    · obtain ⟨chunk, one⟩ := List.length_eq_one_iff.mp single
      rw [one]
      exact Nat.zero_le _
    · have size := linkedNode_size lib shorts
      have data := linkedNode_data_length_le lib shorts
      have := nodeFileLength_le lib (linkedNode_saveable lib shorts (bounded.trans (by decide))) (by omega)
      rw [fileRoot_of_ne single]
      simp only [writtenLength, List.map_cons, List.map_nil, List.sum_cons, List.sum_nil]
      omega
  have sum : writtenLength lib ((chunksOf content).map chunkNode) =
      ((chunksOf content).map fun chunk => nodeFileLength lib (chunkNode chunk)).sum := by
    simp [writtenLength, Function.comp_def]
  have bound : (chunksOf content).length * (maxDataSize + 123) ≤ 2 ^ 45 * (maxDataSize + 123) :=
    Nat.mul_le_mul_right _ bounded
  rw [fileWritten, same, fileNodes, writtenLength_append, sum]
  rw [maxDataSize] at bound chunks
  omega

theorem writtenLength_calls (nodes : List HashtableNode) :
    ((nodes.map (addCall lib)).map AddCall.written).sum = writtenLength lib nodes := by
  rw [writtenLength, List.map_map]
  rfl

/-! ## Which links are right -/

theorem directoryNode_saveable {entries : FileList}
    (sized : hashtableNodeProtobufEncodeSize (directoryNode (entries.links lib)) + 88 < 2 ^ 64) :
    (directoryNode (entries.links lib)).Saveable :=
  ⟨.inl (unixfsBytes_ne_nil _), entries.links_hashed, by omega⟩

theorem directory_written_lt {entries : FileList} (sized : (LocalFile.directory entries).Sized lib) :
    (LocalFile.directory entries).written lib 0 < writtenLength lib ((LocalFile.directory entries).nodes lib) := by
  rw [LocalFile.Sized] at sized
  have below : entries.written lib 0 ≤ 0 + writtenLength lib (entries.nodes lib) := entries.written_le 0
  have own := (nodeFileLength_bounds lib (directoryNode_saveable sized.1) sized.1).1
  rw [LocalFile.written, LocalFile.nodes, LocalFile.node, writtenLength_append]
  simp only [writtenLength, List.map_cons, List.map_nil, List.sum_cons, List.sum_nil] at below ⊢
  omega

theorem FileList.counted_iff : ∀ (entries : FileList) (later : List HashtableNode), entries.Sized lib →
    (entries.Counted (entries.links lib) ((entries.nodes lib ++ later).map (addCall lib)) ↔ entries.Files)
  | .nil, _, _ => by
      rw [Counted, links, Files]
      exact iff_of_true rfl trivial
  | .cons fileName file next, later, sized => by
      rw [Sized] at sized
      have ih := next.counted_iff later sized.2
      have first : ((file.nodes lib ++ next.nodes lib ++ later).map (addCall lib)).take file.adds =
          (file.nodes lib).map (addCall lib) := by
        rw [List.append_assoc, List.map_append, List.take_left' (by rw [List.length_map, file.nodes_length])]
      have rest : ((file.nodes lib ++ next.nodes lib ++ later).map (addCall lib)).drop file.adds =
          (next.nodes lib ++ later).map (addCall lib) := by
        rw [List.append_assoc, List.map_append, List.drop_left' (by rw [List.length_map, file.nodes_length])]
      have tSize : (entryLink lib fileName (file.node lib) (file.written lib 0)).tSize.toNat =
          file.written lib 0 % 2 ^ 64 := UInt64.toNat_ofNat'
      rw [Counted, links, nodes, first, rest, writtenLength_calls]
      cases file with
      | file content =>
          have right : (entryLink lib fileName (LocalFile.node lib (.file content)) (LocalFile.written lib (.file content) 0)).tSize.toNat =
              writtenLength lib (LocalFile.nodes lib (.file content)) := by
            rw [LocalFile.Sized] at sized
            rw [tSize, LocalFile.written, Nat.zero_add, Nat.mod_eq_of_lt (fileWritten_lt sized.1)]
            rfl
          rw [Files, ← ih]
          constructor
          · rintro ⟨_, _, same, _, _, counted⟩
            obtain ⟨_, rfl⟩ := List.cons.inj same
            exact counted
          · exact fun counted => ⟨_, _, rfl, right, by rw [LocalFile.Counted]; trivial, counted⟩
      | directory entries =>
          rw [Files]
          refine iff_of_false ?_ not_false
          rintro ⟨_, _, same, counted, _⟩
          obtain ⟨rfl, _⟩ := List.cons.inj same
          have less := directory_written_lt sized.1
          have le := Nat.mod_le ((LocalFile.directory entries).written lib 0) (2 ^ 64)
          rw [tSize] at counted
          omega

theorem LocalFile.counted_iff (tree : LocalFile) (sized : tree.Sized lib) :
    tree.Counted ((tree.nodes lib).map (addCall lib)) ↔ tree.Flat := by
  cases tree with
  | file content =>
      rw [Counted, Flat]
  | directory entries =>
      rw [Sized] at sized
      rw [Counted, Flat, nodes, ← entries.counted_iff [(LocalFile.directory entries).node lib] sized.2]
      have own : ((entries.nodes lib ++ [(LocalFile.directory entries).node lib]).map (addCall lib)).getLast? =
          some (addCall lib ((LocalFile.directory entries).node lib)) := by
        rw [List.map_append, List.map_singleton, List.getLast?_concat]
      rw [own]
      constructor
      · rintro ⟨_, last, counted⟩
        obtain rfl := Option.some.inj last
        exact counted
      · exact fun counted => ⟨_, rfl, counted⟩

theorem importTree_counted_iff (lib : Library) (repo repo' : FsRepo lib) (tree : LocalFile) (bytesWritten : Nat)
    (sized : tree.Sized lib) (root : HashtableNode) (written : Nat) (calls : List AddCall)
    (ran : importLogged lib tree bytesWritten (repo, []) = (.returned (root, written), repo', calls))
    (succeed : ∀ call ∈ calls, call.Succeeds) : tree.Counted calls ↔ tree.Flat := by
  have opens := (importTree_ends tree bytesWritten).opens ran
  obtain ⟨_, rfl⟩ := importTree_stores tree bytesWritten sized repo [] _ repo' calls ran opens succeed
  exact tree.counted_iff sized

/-! ## A directory in a directory -/

def emptyDirectoryDigest : Digest :=
  { block := [0x0a, 0x02, 0x08, 0x01]
    sha256 := [0x59, 0x94, 0x84, 0x39, 0x06, 0x5f, 0x29, 0x61, 0x9e, 0xf4, 0x12, 0x80, 0xcb, 0xb9,
               0x32, 0xbe, 0x52, 0xc5, 0x6d, 0x99, 0xc5, 0x96, 0x6b, 0x65, 0xe0, 0x11, 0x12, 0x39,
               0xf0, 0x98, 0xbb, 0xef]
    base32 := [0x4c, 0x47, 0x4b, 0x49, 0x49, 0x4f, 0x49, 0x47, 0x4c, 0x34, 0x55, 0x57, 0x44, 0x48,
               0x58, 0x55, 0x43, 0x4b, 0x41, 0x4d, 0x58, 0x4f, 0x4a, 0x53, 0x58, 0x5a, 0x4a, 0x4d,
               0x4b, 0x33, 0x4d, 0x5a, 0x59, 0x57, 0x4c, 0x47, 0x57, 0x5a, 0x50, 0x41, 0x43, 0x45,
               0x4a, 0x44, 0x54, 0x34, 0x45, 0x59, 0x58, 0x50, 0x58, 0x51]
    base58 := [0x51, 0x6d, 0x55, 0x4e, 0x4c, 0x4c, 0x73, 0x50, 0x41, 0x43, 0x43, 0x7a, 0x31, 0x76,
               0x4c, 0x78, 0x51, 0x56, 0x6b, 0x58, 0x71, 0x71, 0x4c, 0x58, 0x35, 0x52, 0x31, 0x58,
               0x33, 0x34, 0x35, 0x71, 0x71, 0x66, 0x48, 0x62, 0x73, 0x66, 0x36, 0x37, 0x68, 0x76,
               0x41, 0x33, 0x4e, 0x6e] }

def hiDirectoryDigest : Digest :=
  { block := [0x12, 0x2a, 0x0a, 0x22, 0x12, 0x20, 0xe2, 0xfe, 0xcf, 0x4b, 0x8d, 0xf2, 0x82, 0xc8,
               0x84, 0x8a, 0xe9, 0xf7, 0x0a, 0xd6, 0xe9, 0x70, 0x69, 0xb4, 0x35, 0xf5, 0xb5, 0x90,
               0x7c, 0x3f, 0xff, 0xe1, 0x4a, 0x6b, 0xf5, 0xbe, 0xf0, 0xda, 0x12, 0x02, 0x68, 0x69,
               0x18, 0x34, 0x0a, 0x02, 0x08, 0x01]
    sha256 := [0x69, 0x37, 0xd6, 0x37, 0x3a, 0x3f, 0x7c, 0xec, 0x8a, 0x3a, 0x82, 0xa7, 0xc1, 0xa1,
               0x4d, 0xcc, 0x3b, 0xfd, 0x1c, 0x95, 0x36, 0x85, 0x1e, 0xb5, 0x63, 0x9d, 0xb2, 0x62,
               0x75, 0x9f, 0xb0, 0xe5]
    base32 := [0x4e, 0x45, 0x33, 0x35, 0x4d, 0x4e, 0x5a, 0x32, 0x48, 0x35, 0x36, 0x4f, 0x5a, 0x43,
               0x52, 0x32, 0x51, 0x4b, 0x54, 0x34, 0x44, 0x49, 0x4b, 0x4e, 0x5a, 0x51, 0x35, 0x37,
               0x32, 0x48, 0x45, 0x56, 0x47, 0x32, 0x43, 0x52, 0x35, 0x4e, 0x4c, 0x44, 0x54, 0x57,
               0x5a, 0x47, 0x45, 0x35, 0x4d, 0x37, 0x57, 0x44, 0x53, 0x51]
    base58 := [0x51, 0x6d, 0x56, 0x52, 0x4e, 0x75, 0x41, 0x4a, 0x64, 0x77, 0x55, 0x4e, 0x56, 0x71,
               0x53, 0x6a, 0x70, 0x48, 0x31, 0x33, 0x4b, 0x72, 0x31, 0x4b, 0x37, 0x61, 0x59, 0x35,
               0x36, 0x6e, 0x52, 0x41, 0x48, 0x67, 0x6a, 0x58, 0x6f, 0x69, 0x38, 0x64, 0x50, 0x42,
               0x41, 0x53, 0x59, 0x4c] }

def directoriesTable : Digest.Table where
  entries := [fileDigest, emptyDirectoryDigest, hiDirectoryDigest]
  -- the digest of a directory with an empty directory
  other := [0xd3, 0x31, 0xb4, 0x52, 0xc0, 0xaa, 0x47, 0x74, 0xd9, 0xe0, 0xb0, 0x10, 0x3c, 0xc3, 0x7a,
            0x5a, 0x27, 0x0d, 0xfd, 0xae, 0xe0, 0xfb, 0x7d, 0x4f, 0x07, 0x0c, 0x1f, 0x47, 0xad, 0x2d,
            0x94, 0xbc]
  lengths := by decide
  distinct := by decide
  written := by decide
  apart := by decide
  alphabet := by decide

def hiDirectory : LocalFile := .directory (.cons ⟨[0x68, 0x69], by decide⟩ (.file (some [0x68, 0x69])) .nil)

theorem importTree_counted_hi :
    hiDirectory.Counted ((hiDirectory.nodes (.known directoriesTable)).map (addCall (.known directoriesTable))) ↔
      hiDirectory.Flat :=
  importTree_counted_iff (.known directoriesTable) (.new directoriesTable) _ hiDirectory 0
    ⟨by decide, show 2 < 2 ^ 63 by decide, trivial⟩ _ _ _ rfl (by simp [addCall, AddCall.Succeeds])

def nestedDirectory : LocalFile := .directory (.cons ⟨[0x73, 0x75, 0x62], by decide⟩ (.directory .nil) .nil)

theorem not_importTree_counted_nested :
    ¬ ∀ (lib : Library) (repo repo' : FsRepo lib) (tree : LocalFile) (bytesWritten : Nat), tree.Sized lib →
      ∀ (root : HashtableNode) (written : Nat) (calls : List AddCall),
        importLogged lib tree bytesWritten (repo, []) = (.returned (root, written), repo', calls) →
        (∀ call ∈ calls, call.Succeeds) → tree.Counted calls := by
  intro claim
  obtain ⟨own, last, link, later, same, size, _⟩ := claim (.known directoriesTable) (.new directoriesTable) _
    nestedDirectory 0 ⟨by decide, ⟨by decide, trivial⟩, trivial⟩ _ _
    ((nestedDirectory.nodes (.known directoriesTable)).map (addCall (.known directoriesTable))) rfl
    (by simp [addCall, AddCall.Succeeds])
  obtain rfl := Option.some.inj last
  obtain ⟨rfl, _⟩ := List.cons.inj same
  exact absurd size (by decide)

end Ipfs
