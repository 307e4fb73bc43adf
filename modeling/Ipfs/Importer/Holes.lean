import Ipfs.Importer.Exporters

/-!
# A file with holes

`ipfs_exporter_cat_node` goes on when the walk below a node has failed, so that what is missing further down
does not show in what it returns.
-/

namespace Ipfs
variable {lib : Library}

/-- The node of the hash can be fetched and links to the other. -/
def FsRepo.Linked (repo : FsRepo lib) (hash linked : Bytes) : Prop :=
  ∃ node, exporterGetNode repo hash = .returned node ∧ linked ∈ node.links.map NodeLink.hash

/-- Below the hash no chain of links goes on for ever. -/
def FsRepo.Acyclic (repo : FsRepo lib) (hash : Bytes) : Prop := Acc (fun linked hash => repo.Linked hash linked) hash

def FsRepo.Decoded (repo : FsRepo lib) (hash : Bytes) : Prop :=
  ∃ node unixFs, exporterGetNode repo hash = .returned node ∧ unixfsProtobufDecode lib.pb node.data = .returned unixFs

/-- Every node that is reached from the hash can be fetched and decoded. -/
def FsRepo.Whole (repo : FsRepo lib) (hash : Bytes) : Prop :=
  ∀ reached, Relation.ReflTransGen repo.Linked hash reached → repo.Decoded reached

/-- Whenever the export returns 1, it has written the data of every node that is reached, in depth-first order. -/
def CatComplete (repo : FsRepo lib) (hash : Bytes) : Prop :=
  ∀ depth file, exporterObjectCatToFile repo depth hash [] = (.returned (), file) →
    ∃ tree : FileTree, tree.hash = hash ∧ tree.Stored repo ∧ file = tree.content

/-- The walk over the links comes to bytes of a node that are read beyond their end. -/
inductive FsRepo.Overread (repo : FsRepo lib) : List Bytes → Prop
  | fetch {hash cause} (rest : List Bytes) (read : exporterGetNode repo hash = .fault cause) :
      repo.Overread (hash :: rest)
  | decode {hash node cause} (rest : List Bytes) (read : exporterGetNode repo hash = .returned node)
      (decoded : unixfsProtobufDecode lib.pb node.data = .fault cause) : repo.Overread (hash :: rest)
  | inside {hash node unixFs} (rest : List Bytes) (read : exporterGetNode repo hash = .returned node)
      (decoded : unixfsProtobufDecode lib.pb node.data = .returned unixFs)
      (overread : repo.Overread (node.links.map NodeLink.hash)) : repo.Overread (hash :: rest)
  | after {hash node rest} (read : exporterGetNode repo hash = .returned node) (overread : repo.Overread rest) :
      repo.Overread (hash :: rest)

/-- Where the root is decoded and the nodes it links to can be fetched, everything below them can be fetched and
decoded, unless the walk reads beyond the end of a node. -/
def CatCompleteWhen (repo : FsRepo lib) (hash : Bytes) : Prop :=
  repo.Decoded hash → (∀ linked, repo.Linked hash linked → ∃ node, exporterGetNode repo linked = .returned node) →
    (∃ node, exporterGetNode repo hash = .returned node ∧ repo.Overread (node.links.map NodeLink.hash)) ∨
      ∀ linked, repo.Linked hash linked → repo.Whole linked

section
variable {repo : FsRepo lib}

theorem FsRepo.HasFile.linked_iff {hash bytes linked : Bytes} {links : List Bytes}
    (file : repo.HasFile hash bytes links) :
    repo.Linked hash linked ↔ linked ∈ links := by
  obtain ⟨node, unixFs, read, -, -, rfl⟩ := file
  constructor
  · rintro ⟨node', read', mem⟩
    obtain rfl := Outcome.returned.inj (read.symm.trans read')
    exact mem
  · exact fun mem => ⟨node, read, mem⟩

theorem not_overread_failed {hash : Bytes} (rest : List Bytes) (read : exporterGetNode repo hash = .failed) :
    ¬ repo.Overread (hash :: rest) := by
  intro overread
  cases overread with
  | fetch _ read' | decode _ read' _ | inside _ read' _ _ | after read' _ => cases read.symm.trans read'

theorem FsRepo.HasFile.not_overread {hash bytes : Bytes} {links rest : List Bytes} (file : repo.HasFile hash bytes links)
    (below : ¬ repo.Overread links) (behind : ¬ repo.Overread rest) : ¬ repo.Overread (hash :: rest) := by
  obtain ⟨node, unixFs, read, decoded, -, rfl⟩ := file
  intro overread
  cases overread with
  | fetch _ read' => cases read.symm.trans read'
  | decode _ read' decoded' =>
      obtain rfl := Outcome.returned.inj (read.symm.trans read')
      cases decoded.symm.trans decoded'
  | inside _ read' _ overread =>
      obtain rfl := Outcome.returned.inj (read.symm.trans read')
      exact below overread
  | after _ overread => exact behind overread

/-! ## Whole files -/

theorem FileForest.Stored.whole {forest : FileForest} (stored : forest.Stored repo) :
    ∀ hash ∈ forest.hashes, repo.Whole hash := by
  induction forest with
  | nil => simp [hashes]
  | cons hash bytes children siblings below behind =>
      obtain ⟨⟨node, unixFs, read, decoded, -, linked⟩, stored, stored'⟩ := stored
      rw [hashes, List.forall_mem_cons]
      refine ⟨fun reached path => ?_, behind stored'⟩
      rcases path.cases_head with rfl | ⟨next, ⟨node', read', mem⟩, path⟩
      · exact ⟨node, unixFs, read, decoded⟩
      · obtain rfl := Outcome.returned.inj (read.symm.trans read')
        exact below stored next (linked ▸ mem) reached path

theorem FileForest.Stored.acyclic {forest : FileForest} (stored : forest.Stored repo) :
    ∀ hash ∈ forest.hashes, repo.Acyclic hash := by
  induction forest with
  | nil => simp [hashes]
  | cons hash bytes children siblings below behind =>
      obtain ⟨⟨node, unixFs, read, -, -, linked⟩, stored, stored'⟩ := stored
      rw [hashes, List.forall_mem_cons]
      refine ⟨Acc.intro hash ?_, behind stored'⟩
      rintro next ⟨node', read', mem⟩
      obtain rfl := Outcome.returned.inj (read.symm.trans read')
      exact below stored next (linked ▸ mem)

theorem FileForest.exists_of_forall {links : List Bytes}
    (each : ∀ hash ∈ links, ∃ bytes, ∃ children : FileForest,
      repo.HasFile hash bytes children.hashes ∧ children.Stored repo) :
    ∃ forest : FileForest, forest.hashes = links ∧ forest.Stored repo := by
  induction links with
  | nil => exact ⟨.nil, rfl, trivial⟩
  | cons hash links ih =>
      obtain ⟨bytes, children, file, stored⟩ := each hash (by simp)
      obtain ⟨siblings, rfl, stored'⟩ := ih fun other mem => each other (by simp [mem])
      exact ⟨.cons hash bytes children siblings, rfl, file, stored, stored'⟩

/-- Without a cycle, what is whole unfolds to a tree. -/
theorem FsRepo.Whole.file {hash : Bytes} (whole : repo.Whole hash) (acyclic : repo.Acyclic hash) :
    ∃ bytes, ∃ children : FileForest, repo.HasFile hash bytes children.hashes ∧ children.Stored repo := by
  induction acyclic with
  | intro hash _ ih =>
      obtain ⟨node, unixFs, read, decoded⟩ := whole hash .refl
      have each : ∀ linked ∈ node.links.map NodeLink.hash,
          ∃ bytes, ∃ children : FileForest, repo.HasFile linked bytes children.hashes ∧ children.Stored repo := by
        intro linked mem
        have link : repo.Linked hash linked := ⟨node, read, mem⟩
        exact ih linked link fun reached path => whole reached (.head link path)
      obtain ⟨children, hashes, stored⟩ := FileForest.exists_of_forall each
      exact ⟨unixFs.bytes, children, ⟨node, unixFs, read, decoded, rfl, hashes.symm⟩, stored⟩

/-! ## The walk over the links -/

theorem exporterCatNode_decoded {node : HashtableNode} {unixFs : UnixFS}
    (decoded : unixfsProtobufDecode lib.pb node.data = .returned unixFs) (depth : Nat) (output : Bytes) :
    exporterCatNode repo (depth + 1) node output = exporterCatLinks repo depth node.links (output ++ unixFs.bytes) := by
  rw [exporterCatNode, decoded, Act.lift_returned_bind]
  rfl

theorem exporterCatLinks_fault {link : NodeLink} {node : HashtableNode} {links : List NodeLink} {depth : Nat}
    {output output' : Bytes} {cause : Fault} (read : exporterGetNode repo link.hash = .returned node)
    (child : exporterCatNode repo depth node output = (.fault cause, output')) :
    exporterCatLinks repo depth (link :: links) output = (.fault cause, output') := by
  rw [exporterCatLinks, read, Act.lift_returned_bind, Act.bind_apply, Act.attempt, child]

/-- Only an overread below a node, or a stack that is too small for it, keeps the walk from going on. -/
theorem exporterCatLinks_next {link : NodeLink} {node : HashtableNode} {links : List NodeLink} {depth : Nat}
    {output output' : Bytes} {result : Outcome Unit} (read : exporterGetNode repo link.hash = .returned node)
    (child : exporterCatNode repo depth node output = (result, output')) (defined : result.Defined) :
    exporterCatLinks repo depth (link :: links) output = exporterCatLinks repo depth links output' := by
  rw [exporterCatLinks, read, Act.lift_returned_bind, Act.bind_apply, Act.attempt, child]
  cases result with
  | returned _ | failed => rfl
  | fault cause => exact absurd rfl (defined cause)

theorem catLinks_overread {hashes : List Bytes} (overread : repo.Overread hashes) {links : List NodeLink}
    (linked : links.map NodeLink.hash = hashes) (depth : Nat) (output : Bytes) :
    ∃ cause output', exporterCatLinks repo depth links output = (.fault cause, output') := by
  induction overread generalizing depth links output with
  | fetch rest read =>
      obtain ⟨link, others, rfl, rfl, -⟩ := List.map_eq_cons_iff.mp linked
      rw [exporterCatLinks, read]
      exact ⟨_, _, rfl⟩
  | decode rest read decoded =>
      obtain ⟨link, others, rfl, rfl, -⟩ := List.map_eq_cons_iff.mp linked
      cases depth with
      | zero => exact ⟨_, _, exporterCatLinks_fault read (by rw [exporterCatNode]; rfl)⟩
      | succ depth => exact ⟨_, _, exporterCatLinks_fault read (by rw [exporterCatNode, decoded]; rfl)⟩
  | @inside hash node unixFs rest read decoded overread ih =>
      obtain ⟨link, others, rfl, rfl, -⟩ := List.map_eq_cons_iff.mp linked
      cases depth with
      | zero => exact ⟨_, _, exporterCatLinks_fault read (by rw [exporterCatNode]; rfl)⟩
      | succ depth =>
          obtain ⟨cause, output', faults⟩ := ih rfl depth (output ++ unixFs.bytes)
          exact ⟨cause, output', exporterCatLinks_fault read (by rw [exporterCatNode_decoded decoded, faults])⟩
  | @after hash node rest read overread ih =>
      obtain ⟨link, others, rfl, rfl, behind⟩ := List.map_eq_cons_iff.mp linked
      by_cases defined : (exporterCatNode repo depth node output).1.Defined
      · rw [exporterCatLinks_next read rfl defined]
        exact ih behind depth _
      · obtain ⟨cause, faults⟩ := not_forall_not.mp defined
        exact ⟨cause, _, exporterCatLinks_fault read (Prod.ext faults rfl)⟩

theorem catLinks_returned {links : List NodeLink} {depth : Nat} {output output' : Bytes}
    (returned : exporterCatLinks repo depth links output = (.returned (), output')) :
    ∀ link ∈ links, ∃ node, exporterGetNode repo link.hash = .returned node := by
  induction links generalizing output with
  | nil => simp
  | cons link links ih =>
      cases read : exporterGetNode repo link.hash with
      | failed | fault cause =>
          rw [exporterCatLinks, read] at returned
          cases returned
      | returned node =>
          rw [List.forall_mem_cons]
          refine ⟨⟨node, read⟩, ?_⟩
          by_cases defined : (exporterCatNode repo depth node output).1.Defined
          · rw [exporterCatLinks_next read rfl defined] at returned
            exact ih returned
          · obtain ⟨cause, faults⟩ := not_forall_not.mp defined
            rw [exporterCatLinks_fault read (Prod.ext faults rfl)] at returned
            cases returned

theorem catLinks_not_failed {links : List NodeLink}
    (fetched : ∀ link ∈ links, ∃ node, exporterGetNode repo link.hash = .returned node) (depth : Nat) (output : Bytes) :
    (exporterCatLinks repo depth links output).1 ≠ .failed := by
  induction links generalizing output with
  | nil =>
      rw [exporterCatLinks]
      rintro ⟨⟩
  | cons link links ih =>
      rw [List.forall_mem_cons] at fetched
      obtain ⟨⟨node, read⟩, fetched⟩ := fetched
      by_cases defined : (exporterCatNode repo depth node output).1.Defined
      · rw [exporterCatLinks_next read rfl defined]
        exact ih fetched _
      · obtain ⟨cause, faults⟩ := not_forall_not.mp defined
        rw [exporterCatLinks_fault read (Prod.ext faults rfl)]
        rintro ⟨⟩

def CatSafe (repo : FsRepo lib) (node : HashtableNode) : Prop :=
  (unixfsProtobufDecode lib.pb node.data).Defined ∧
    ∀ unixFs, unixfsProtobufDecode lib.pb node.data = .returned unixFs → ¬ repo.Overread (node.links.map NodeLink.hash)

def CatEnds (repo : FsRepo lib) (node : HashtableNode) : Prop :=
  ∃ least, ∀ depth ≥ least, ∀ output, (exporterCatNode repo depth node output).1.Defined

theorem catSafe_of_not_overread {hash : Bytes} {rest : List Bytes} (safe : ¬ repo.Overread (hash :: rest))
    {node : HashtableNode} (read : exporterGetNode repo hash = .returned node) : CatSafe repo node :=
  ⟨fun _ decoded => safe (.decode rest read decoded),
    fun _ decoded overread => safe (.inside rest read decoded overread)⟩

theorem catLinks_ends {links : List NodeLink} (safe : ¬ repo.Overread (links.map NodeLink.hash))
    (ends : ∀ link ∈ links, ∀ node, exporterGetNode repo link.hash = .returned node → CatSafe repo node →
      CatEnds repo node) :
    ∃ least, ∀ depth ≥ least, ∀ output, (exporterCatLinks repo depth links output).1.Defined := by
  induction links with
  | nil => exact ⟨0, fun depth _ output => by rw [exporterCatLinks]; simp⟩
  | cons link links ih =>
      rw [List.forall_mem_cons] at ends
      cases read : exporterGetNode repo link.hash with
      | fault cause => exact absurd (.fetch _ read) safe
      | failed => exact ⟨0, fun depth _ output => by rw [exporterCatLinks, read]; simp⟩
      | returned node =>
          obtain ⟨least, below⟩ := ends.1 node read (catSafe_of_not_overread safe read)
          obtain ⟨least', behind⟩ := ih (fun overread => safe (.after read overread)) ends.2
          refine ⟨max least least', fun depth deep output => ?_⟩
          have defined := below depth (le_of_max_le_left deep) output
          rw [exporterCatLinks_next read rfl defined]
          exact behind depth (le_of_max_le_right deep) _

/-- By induction over the nodes below the hash: a deep enough stack lasts for all of them. -/
theorem FsRepo.Acyclic.catEnds {hash : Bytes} (acyclic : repo.Acyclic hash) {node : HashtableNode}
    (read : exporterGetNode repo hash = .returned node) (safe : CatSafe repo node) : CatEnds repo node := by
  induction acyclic generalizing node with
  | intro hash _ ih =>
      cases decoded : unixfsProtobufDecode lib.pb node.data with
      | fault cause => exact absurd decoded (safe.1 cause)
      | failed =>
          refine ⟨1, fun depth deep output => ?_⟩
          obtain ⟨depth, rfl⟩ := Nat.exists_eq_add_one.mpr (show 0 < depth by omega)
          rw [exporterCatNode, decoded]
          simp
      | returned unixFs =>
          have each : ∀ link ∈ node.links, ∀ child, exporterGetNode repo link.hash = .returned child →
              CatSafe repo child → CatEnds repo child :=
            fun link mem child read' safe' => ih link.hash ⟨node, read, List.mem_map_of_mem mem⟩ read' safe'
          obtain ⟨least, ends⟩ := catLinks_ends (safe.2 unixFs decoded) each
          refine ⟨least + 1, fun depth deep output => ?_⟩
          obtain ⟨depth, rfl⟩ := Nat.exists_eq_add_one.mpr (show 0 < depth by omega)
          rw [exporterCatNode_decoded decoded]
          exact ends depth (by omega) (output ++ unixFs.bytes)

theorem FsRepo.Acyclic.cat_returns {hash : Bytes} (acyclic : repo.Acyclic hash) {node : HashtableNode}
    (read : exporterGetNode repo hash = .returned node) {unixFs : UnixFS}
    (decoded : unixfsProtobufDecode lib.pb node.data = .returned unixFs)
    (safe : ¬ repo.Overread (node.links.map NodeLink.hash))
    (fetched : ∀ link ∈ node.links, ∃ child, exporterGetNode repo link.hash = .returned child) :
    ∃ depth file, exporterObjectCatToFile repo depth hash [] = (.returned (), file) := by
  have safeNode : CatSafe repo node := ⟨fun cause fault => by simp [decoded] at fault, fun _ _ => safe⟩
  obtain ⟨least, ends⟩ := acyclic.catEnds read safeNode
  have defined := ends (least + 1) (Nat.le_succ least) []
  have notFailed := catLinks_not_failed fetched least ([] ++ unixFs.bytes)
  rw [exporterCatNode_decoded decoded] at defined
  match result : exporterCatLinks repo least node.links ([] ++ unixFs.bytes) with
  | (.returned _, file) =>
      refine ⟨least + 1, file, ?_⟩
      rw [exporterObjectCatToFile, read, Act.lift_returned_bind, exporterCatNode_decoded decoded, result]
  | (.failed, _) => exact absurd (congrArg Prod.fst result) notFailed
  | (.fault cause, _) => exact absurd (congrArg Prod.fst result) (defined cause)

theorem catToFile_returned {hash : Bytes} {depth : Nat} {file : Bytes}
    (returned : exporterObjectCatToFile repo depth hash [] = (.returned (), file)) :
    ∃ node unixFs, exporterGetNode repo hash = .returned node ∧ unixfsProtobufDecode lib.pb node.data = .returned unixFs ∧
      ∃ depth, exporterCatLinks repo depth node.links unixFs.bytes = (.returned (), file) := by
  cases read : exporterGetNode repo hash with
  | failed | fault cause =>
      rw [exporterObjectCatToFile, read] at returned
      cases returned
  | returned node =>
      rw [exporterObjectCatToFile, read, Act.lift_returned_bind] at returned
      cases depth with
      | zero =>
          rw [exporterCatNode] at returned
          cases returned
      | succ depth =>
          cases decoded : unixfsProtobufDecode lib.pb node.data with
          | failed | fault cause =>
              rw [exporterCatNode, decoded] at returned
              cases returned
          | returned unixFs =>
              rw [exporterCatNode_decoded decoded] at returned
              exact ⟨node, unixFs, rfl, decoded, depth, returned⟩

end

def holedRepo : FsRepo (.known levelsTable) :=
  ((FsRepo.new levelsTable).add middleDigest.sha256 middleDigest.block [middleDigest.sha256]).add
    topDigest.sha256 topDigest.block [topDigest.sha256, middleDigest.sha256]

theorem holedRepo_top : holedRepo.HasFile topDigest.sha256 [] [middleDigest.sha256] := ⟨_, _, rfl, rfl, rfl, rfl⟩

theorem holedRepo_middle : holedRepo.HasFile middleDigest.sha256 [] [fileDigest.sha256] := ⟨_, _, rfl, rfl, rfl, rfl⟩

theorem holedRepo_file : exporterGetNode holedRepo fileDigest.sha256 = .failed := rfl

theorem holedRepo_acyclic : holedRepo.Acyclic topDigest.sha256 := by
  refine Acc.intro _ fun linked link => ?_
  rw [holedRepo_top.linked_iff, List.mem_singleton] at link
  refine link ▸ Acc.intro _ fun linked link => ?_
  rw [holedRepo_middle.linked_iff, List.mem_singleton] at link
  refine link ▸ Acc.intro _ fun linked link => ?_
  obtain ⟨node, read, -⟩ := link
  cases holedRepo_file.symm.trans read

end Ipfs
