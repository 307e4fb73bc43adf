import Ipfs.Importer.TreeLayout

/-!
# Adds that fail

A failed add of a chunk ends the file as a chunk that is not full does; the adds of a root and of a
directory go unseen. `ipfs_import_file` returns 0 for a file that does not open, and for nothing else.
-/

namespace Ipfs
variable {lib : Library}

/-- The node of the hash and every node below it can be had from the repository. -/
inductive FsRepo.HasDag (repo : FsRepo lib) : Bytes → Prop
  | node (hash : Bytes) (node : HashtableNode) :
      merkledagGet repo hash = .returned node → (∀ link ∈ node.links, repo.HasDag link.hash) → repo.HasDag hash

structure ReportsFailure (repo : FsRepo lib) (calls : List AddCall) (result : Outcome (HashtableNode × Nat)) : Prop where
  reported : (∃ call ∈ calls, ¬ call.Succeeds) → result = .failed
  complete : ∀ root written, result = .returned (root, written) → ∃ hash, root.hash = some hash ∧ repo.HasDag hash

/-! ## What the adds leave in the repository -/

def HashtableNode.Fresh (node : HashtableNode) : Prop := node.hash = none ∧ node.Addable

/-- When no add has failed, the repository holds every node that was added. -/
def Kept (state : FsRepo lib × List AddCall) : Prop :=
  (∀ call ∈ state.2, call.Succeeds ∧ call.node.Fresh) →
    CollisionFree lib (state.2.map fun call => nodeBytes lib call.node) →
      ∀ call ∈ state.2, state.1.Holds (nodeHash lib call.node) (nodeBytes lib call.node)

theorem addLogged_kept (node : HashtableNode) (bytesWritten : Nat) :
    Act.Preserves Kept (addLogged lib node bytesWritten) := by
  intro (repo, log) kept
  have unfinished {result : Outcome Nat} (repo' : FsRepo lib) (fails : ∀ written, result ≠ .returned written) :
      Kept (repo', log ++ [⟨node, result⟩]) := by
    intro succeed
    obtain ⟨written, returned⟩ := (succeed ⟨node, result⟩ (List.mem_append_right _ (List.mem_singleton_self _))).1
    exact absurd returned (fails written)
  rcases addLogged_run node bytesWritten repo log with
    ⟨cause, repo', ran⟩ | ⟨added, repo', ran, _⟩ | ⟨node', written, repo', added, ran⟩
  · rw [ran]
    exact unfinished repo' nofun
  · rw [ran]
    exact unfinished repo' nofun
  · rw [ran]
    intro succeed free
    have fresh := (succeed ⟨node, .returned written⟩ (List.mem_append_right _ (List.mem_singleton_self _))).2
    have key : node.key lib = nodeHash lib node := HashtableNode.key_of_unhashed fresh.1
    obtain ⟨_, faults⟩ | ⟨datastore, result, stays, ends, failed | ⟨_, whole, present⟩⟩ := merkledagAdd_ends fresh.2 repo
    · cases added.symm.trans faults
    · subst failed
      cases added.symm.trans ends
    · obtain ⟨_, rfl⟩ := Prod.mk.inj (added.symm.trans ends)
      simp only [List.map_append, List.map_cons, List.map_nil] at free
      intro call mem
      rcases List.mem_append.mp mem with earlier | last
      · have before := kept (fun call mem => succeed call (List.mem_append_left _ mem))
          (free.mono (List.subset_append_left _ _)) call earlier
        refine before.withFile (stays _) whole fun same => ?_
        rw [key] at same
        exact free _ (List.mem_append_right _ (List.mem_singleton_self _)) _
          (List.mem_append_left _ (List.mem_map_of_mem earlier)) same
      · obtain rfl := List.mem_singleton.mp last
        have holds := FsRepo.holds_withFile whole present
        rw [key] at holds
        exact holds

theorem importLogged_kept (tree : LocalFile) (bytesWritten : Nat) :
    Act.Preserves Kept (importLogged lib tree bytesWritten) :=
  @importTreeWith_related lib _ _ _ (addLogged lib) (addLogged lib) (Act.Preserves.congruence Kept) addLogged_kept true
    tree bytesWritten

/-! ## The nodes of a tree -/

theorem fileNodes_fresh {content : Bytes} (sized : content.length < 2 ^ 63) :
    ∀ node ∈ fileNodes lib (chunksOf content), node.Fresh := by
  have shorts := chunksOf_length_le content
  intro node mem
  rcases List.mem_append.mp mem with isChunk | isRoot
  · obtain ⟨chunk, inFile, rfl⟩ := List.mem_map.mp isChunk
    exact ⟨rfl, chunkNode_addable (shorts chunk inFile)⟩
  · by_cases single : (chunksOf content).length = 1
    · obtain ⟨chunk, one⟩ := List.length_eq_one_iff.mp single
      rw [one] at isRoot
      exact absurd isRoot List.not_mem_nil
    · rw [fileRoot_of_ne single] at isRoot
      obtain rfl := List.mem_singleton.mp isRoot
      exact ⟨rfl, linkedNode_addable shorts (chunksOf_bounded sized)⟩

mutual

theorem LocalFile.nodes_fresh : ∀ tree : LocalFile, tree.Sized lib → ∀ node ∈ tree.nodes lib, node.Fresh
  | .file _, sized, node, mem => fileNodes_fresh sized node mem
  | .directory entries, sized, node, mem => by
      rw [LocalFile.Sized] at sized
      rw [LocalFile.nodes, List.mem_append, List.mem_singleton] at mem
      rcases mem with below | rfl
      · exact entries.nodes_fresh sized.2 node below
      · exact ⟨rfl, directoryNode_addable sized.1⟩

theorem FileList.nodes_fresh : ∀ entries : FileList, entries.Sized lib → ∀ node ∈ entries.nodes lib, node.Fresh
  | .nil, _, _, mem => absurd mem List.not_mem_nil
  | .cons _ file next, sized, node, mem => by
      rw [FileList.Sized] at sized
      rw [FileList.nodes, List.mem_append] at mem
      rcases mem with here | later
      · exact file.nodes_fresh sized.1 node here
      · exact next.nodes_fresh sized.2 node later

end

section
variable {repo : FsRepo lib}

def FsRepo.HoldsNodes (repo : FsRepo lib) (nodes : List HashtableNode) : Prop :=
  ∀ node ∈ nodes, repo.Holds (nodeHash lib node) (nodeBytes lib node)

theorem hasDag_of_holds {node : HashtableNode} (filled : node.data ≠ []) (hashed : ∀ link ∈ node.links, link.Hashed)
    (holds : repo.Holds (nodeHash lib node) (nodeBytes lib node)) (below : ∀ link ∈ node.links, repo.HasDag link.hash) :
    repo.HasDag (nodeHash lib node) := by
  refine .node _ _ (merkledagGet_of_holds (.inl filled) hashed (nodeHash_ne_nil node) holds) fun link linked => ?_
  obtain ⟨original, mem, rfl⟩ := List.mem_map.mp linked
  exact below original mem

theorem chunkNode_hasDag {chunk : Bytes} (holds : repo.Holds (nodeHash lib (chunkNode chunk)) (nodeBytes lib (chunkNode chunk))) :
    repo.HasDag (nodeHash lib (chunkNode chunk)) :=
  hasDag_of_holds (unixfsBytes_ne_nil _) (by simp [chunkNode]) holds (by simp [chunkNode])

theorem fileNode_hasDag {chunks : List Bytes} (holds : repo.HoldsNodes (fileNodes lib chunks)) :
    repo.HasDag (nodeHash lib (fileNode lib chunks)) := by
  have below {chunk : Bytes} (mem : chunk ∈ chunks) : repo.HasDag (nodeHash lib (chunkNode chunk)) :=
    chunkNode_hasDag (holds _ (List.mem_append_left _ (List.mem_map_of_mem mem)))
  by_cases single : chunks.length = 1
  · obtain ⟨chunk, rfl⟩ := List.length_eq_one_iff.mp single
    exact below (List.mem_singleton_self chunk)
  · rw [fileNode_of_ne single]
    refine hasDag_of_holds (unixfsBytes_ne_nil _) ?_ ?_ ?_
    · intro link linked
      obtain ⟨chunk, _, rfl⟩ := List.mem_map.mp linked
      exact chunkLink_hashed chunk
    · exact holds _ (List.mem_append_right _ (by rw [fileRoot_of_ne single]; exact List.mem_singleton_self _))
    · intro link linked
      obtain ⟨chunk, mem, rfl⟩ := List.mem_map.mp linked
      exact below mem

mutual

theorem LocalFile.hasDag : ∀ tree : LocalFile, repo.HoldsNodes (tree.nodes lib) → repo.HasDag (nodeHash lib (tree.node lib))
  | .file _, holds => fileNode_hasDag holds
  | .directory entries, holds => by
      rw [LocalFile.nodes] at holds
      exact hasDag_of_holds (unixfsBytes_ne_nil _) entries.links_hashed
        (holds _ (List.mem_append_right _ (List.mem_singleton_self _)))
        (entries.hasDag fun node mem => holds node (List.mem_append_left _ mem))

theorem FileList.hasDag : ∀ entries : FileList, repo.HoldsNodes (entries.nodes lib) →
    ∀ link ∈ entries.links lib, repo.HasDag link.hash
  | .nil, _, _, mem => absurd mem List.not_mem_nil
  | .cons fileName file next, holds, link, mem => by
      rw [FileList.nodes] at holds
      rw [FileList.links, List.mem_cons] at mem
      rcases mem with rfl | later
      · exact file.hasDag fun node mem => holds node (List.mem_append_left _ mem)
      · exact next.hasDag (fun node mem => holds node (List.mem_append_right _ mem)) link later

end

end

/-! ## The report -/

theorem importTree_complete {repo repo' : FsRepo lib} {tree : LocalFile} {bytesWritten : Nat} (sized : tree.Sized lib)
    (free : CollisionFree lib ((tree.nodes lib).map (nodeBytes lib))) {result : Outcome (HashtableNode × Nat)}
    {calls : List AddCall} (ran : importLogged lib tree bytesWritten (repo, []) = (result, repo', calls))
    (opens : tree.Opens) (succeed : ∀ call ∈ calls, call.Succeeds) :
    ∃ root written hash, result = .returned (root, written) ∧ root.hash = some hash ∧ repo'.HasDag hash := by
  have kept := importLogged_kept tree bytesWritten (repo, []) nofun
  rw [ran] at kept
  obtain ⟨rfl, rfl⟩ := importTree_stores tree bytesWritten sized repo [] _ repo' calls ran opens succeed
  have blocks : ((tree.nodes lib).map (addCall lib)).map (fun call => nodeBytes lib call.node) =
      (tree.nodes lib).map (nodeBytes lib) := by
    rw [List.map_map]
    rfl
  have holds := kept (fun call mem => by
    obtain ⟨node, inTree, rfl⟩ := List.mem_map.mp mem
    exact ⟨⟨_, rfl⟩, tree.nodes_fresh sized node inTree⟩) (by rwa [blocks])
  refine ⟨_, _, _, rfl, rfl, tree.hasDag fun node mem => ?_⟩
  exact holds (addCall lib node) (List.mem_map_of_mem mem)

def hiTree : LocalFile := .file (some hiFile.content)

theorem hiTree_collisionFree : CollisionFree (.known hiTable) ((hiTree.nodes (.known hiTable)).map (nodeBytes (.known hiTable))) := by
  have blocks : (hiTree.nodes (.known hiTable)).map (nodeBytes (.known hiTable)) = [fileDigest.block] := by decide
  intro a first b second _
  rw [blocks] at first second
  rw [List.mem_singleton.mp first, List.mem_singleton.mp second]

end Ipfs
