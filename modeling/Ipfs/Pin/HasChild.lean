import Ipfs.Importer.Holes

/-!
# Finding a child below a pin

`ipfs_pin_has_child` goes down the links, depth first, and gives up at the blocks that are not there.
-/

namespace Ipfs
variable {lib : Library}

/-- Browse the node links; each is compared with the child before and after the call on it. -/
def pinBrowseLinks (hasChild : Bytes → Outcome Bool) (child : Bytes) : List NodeLink → Outcome Bool
  | [] => .returned false
  | link :: links => do
      let below ← (if link.hash.length = child.length ∧ link.hash ≠ child then hasChild link.hash else .returned false)
      if below then pure true
      -- child is a child of the hash node
      else if link.hash.length = child.length ∧ link.hash = child then pure true
      else pinBrowseLinks hasChild child links

/-- `ipfs_pin_has_child`; the recursion is as deep as the stack allows. -/
def pinHasChild (repo : FsRepo lib) (child : Bytes) : Nat → Bytes → Outcome Bool
  | 0, _ => .fault .outOfBounds
  | depth + 1, hash =>
      match merkledagGet repo hash with
      | .failed => .returned false
      | .fault cause => .fault cause
      | .returned node =>
          if node.hash.getD [] = child then .returned true
          else pinBrowseLinks (pinHasChild repo child depth) child node.links

/-! ## Reachability -/

def FsRepo.DagLinked (repo : FsRepo lib) (hash linked : Bytes) : Prop :=
  ∃ node, merkledagGet repo hash = .returned node ∧ linked ∈ node.links.map NodeLink.hash

def FsRepo.DagAcyclic (repo : FsRepo lib) (hash : Bytes) : Prop :=
  Acc (fun linked hash => repo.DagLinked hash linked) hash

/-- All links that are reached from the hash are hashes of one length. -/
def FsRepo.OneLength (repo : FsRepo lib) (hash : Bytes) (length : Nat) : Prop :=
  ∀ reached linked, Relation.ReflTransGen repo.DagLinked hash reached → repo.DagLinked reached linked →
    linked.length = length

/-- The root is stored, and the child is the root or what a stored node links to that is reached from it. -/
def FsRepo.HasChild (repo : FsRepo lib) (child root : Bytes) : Prop :=
  (∃ node, merkledagGet repo root = .returned node) ∧
    (child = root ∨ ∃ reached, Relation.ReflTransGen repo.DagLinked root reached ∧ repo.DagLinked reached child)

/-- On a deep enough stack the call returns, and 1 exactly for a child. -/
def PinMeets (repo : FsRepo lib) (child root : Bytes) : Prop :=
  ∃ answer : Bool, (answer = true ↔ repo.HasChild child root) ∧
    ∃ least, ∀ depth ≥ least, pinHasChild repo child depth root = .returned answer

/-- Before the child is found, the search through the hashes comes to a block whose file is missing, does not decode
or is read beyond its end. -/
inductive FsRepo.Stumbles (repo : FsRepo lib) (child : Bytes) : List Bytes → Prop
  | read {hash cause} (rest : List Bytes) (sized : hash.length = child.length) (other : hash ≠ child)
      (read : merkledagGet repo hash = .fault cause) : repo.Stumbles child (hash :: rest)
  | inside {hash node} (rest : List Bytes) (sized : hash.length = child.length) (other : hash ≠ child)
      (read : merkledagGet repo hash = .returned node)
      (stumbles : repo.Stumbles child (node.links.map NodeLink.hash)) : repo.Stumbles child (hash :: rest)
  | after {hash rest} (other : hash ≠ child) (elsewhere : ¬ repo.HasChild child hash)
      (stumbles : repo.Stumbles child rest) : repo.Stumbles child (hash :: rest)

def FsRepo.PinStumbles (repo : FsRepo lib) (child root : Bytes) : Prop :=
  (∃ cause, merkledagGet repo root = .fault cause) ∨
    ∃ node, merkledagGet repo root = .returned node ∧ root ≠ child ∧
      repo.Stumbles child (node.links.map NodeLink.hash)

section
variable {repo : FsRepo lib} {child : Bytes}

theorem merkledagGet_hash {hash : Bytes} {node : HashtableNode} (read : merkledagGet repo hash = .returned node) :
    node.hash.getD [] = hash := by
  rw [merkledagGet] at read
  split at read
  · obtain ⟨stored, -, eq⟩ := Outcome.bind_eq_returned.mp read
    obtain rfl := Outcome.returned.inj eq
    rw [hashtableNodeSetHash]
    split
    · rename_i empty
      obtain rfl := List.eq_nil_of_length_eq_zero empty
      cases stored.hash with
      | none => rfl
      | some own => cases own <;> rfl
    · rfl
  · cases read

theorem hasChild_iff_transGen {hash : Bytes} :
    repo.HasChild child hash ↔ (∃ node, merkledagGet repo hash = .returned node) ∧
      (child = hash ∨ Relation.TransGen repo.DagLinked hash child) := by
  rw [FsRepo.HasChild, Relation.TransGen.tail'_iff]

theorem FsRepo.DagLinked.hasChild {hash linked : Bytes} (link : repo.DagLinked hash linked) :
    repo.HasChild linked hash := by
  obtain ⟨node, read, mem⟩ := link
  exact hasChild_iff_transGen.mpr ⟨⟨node, read⟩, .inr (.single ⟨node, read, mem⟩)⟩

theorem hasChild_of_path {hash : Bytes} (path : Relation.ReflTransGen repo.DagLinked hash child) :
    hash = child ∨ repo.HasChild child hash := by
  rcases path.cases_head with rfl | ⟨own, ⟨node, read, mem⟩, path⟩
  · exact .inl rfl
  · exact .inr (hasChild_iff_transGen.mpr ⟨⟨node, read⟩, .inr (.head' ⟨node, read, mem⟩ path)⟩)

/-- A child below a node is one of its links or below one of them. -/
theorem hasChild_iff {hash : Bytes} {node : HashtableNode} (read : merkledagGet repo hash = .returned node)
    (other : hash ≠ child) :
    repo.HasChild child hash ↔ ∃ link ∈ node.links, link.hash = child ∨ repo.HasChild child link.hash := by
  constructor
  · intro found
    obtain ⟨-, rfl | below⟩ := hasChild_iff_transGen.mp found
    · exact absurd rfl other
    · obtain ⟨next, ⟨node', read', mem⟩, path⟩ := Relation.TransGen.head'_iff.mp below
      obtain rfl := Outcome.returned.inj (read.symm.trans read')
      obtain ⟨link, isLink, rfl⟩ := List.mem_map.mp mem
      exact ⟨link, isLink, hasChild_of_path path⟩
  · rintro ⟨link, isLink, found⟩
    have linked : repo.DagLinked hash link.hash := ⟨node, read, List.mem_map_of_mem isLink⟩
    refine hasChild_iff_transGen.mpr ⟨⟨node, read⟩, .inr ?_⟩
    rcases found with rfl | found
    · exact .single linked
    · obtain ⟨-, rfl | below⟩ := hasChild_iff_transGen.mp found
      · exact .single linked
      · exact .head linked below

theorem pinBrowseLinks_child {hasChild : Bytes → Outcome Bool} {link : NodeLink} {links : List NodeLink}
    (same : link.hash = child) : pinBrowseLinks hasChild child (link :: links) = .returned true := by
  subst same
  simp [pinBrowseLinks]

theorem pinBrowseLinks_sized {hasChild : Bytes → Outcome Bool} {link : NodeLink} {links : List NodeLink}
    (sized : link.hash.length = child.length) (other : link.hash ≠ child) :
    pinBrowseLinks hasChild child (link :: links) =
      hasChild link.hash >>= fun below => if below then pure true else pinBrowseLinks hasChild child links := by
  simp [pinBrowseLinks, sized, other]

theorem pinBrowseLinks_unsized {hasChild : Bytes → Outcome Bool} {link : NodeLink} {links : List NodeLink}
    (unsized : link.hash.length ≠ child.length) :
    pinBrowseLinks hasChild child (link :: links) = pinBrowseLinks hasChild child links := by
  simp [pinBrowseLinks, unsized]

/-- What is found is there, on any stack. -/
theorem pinBrowseLinks_sound {hasChild : Bytes → Outcome Bool}
    (sound : ∀ hash, hasChild hash = .returned true → repo.HasChild child hash) {links : List NodeLink}
    (found : pinBrowseLinks hasChild child links = .returned true) :
    ∃ link ∈ links, link.hash = child ∨ repo.HasChild child link.hash := by
  induction links with
  | nil => cases found
  | cons link links ih =>
      have later (found : pinBrowseLinks hasChild child links = .returned true) :
          ∃ own ∈ link :: links, own.hash = child ∨ repo.HasChild child own.hash := by
        obtain ⟨own, mem, eq⟩ := ih found
        exact ⟨own, List.mem_cons_of_mem _ mem, eq⟩
      by_cases same : link.hash = child
      · exact ⟨link, List.mem_cons_self, .inl same⟩
      · by_cases sized : link.hash.length = child.length
        · rw [pinBrowseLinks_sized sized same] at found
          obtain ⟨below, called, found⟩ := Outcome.bind_eq_returned.mp found
          cases below with
          | true => exact ⟨link, List.mem_cons_self, .inr (sound _ called)⟩
          | false => exact later found
        · rw [pinBrowseLinks_unsized sized] at found
          exact later found

theorem pinHasChild_sound {depth : Nat} {hash : Bytes} (found : pinHasChild repo child depth hash = .returned true) :
    repo.HasChild child hash := by
  induction depth generalizing hash with
  | zero => cases found
  | succ depth ih =>
      rw [pinHasChild] at found
      cases read : merkledagGet repo hash with
      | failed | fault cause =>
          rw [read] at found
          cases found
      | returned node =>
          simp only [read] at found
          split at found
          · rename_i same
            rw [merkledagGet_hash read] at same
            exact ⟨⟨node, read⟩, .inl same.symm⟩
          · rename_i other
            rw [merkledagGet_hash read] at other
            exact (hasChild_iff read other).mpr (pinBrowseLinks_sound (fun _ => ih) found)

theorem FsRepo.Stumbles.not_returned {hashes : List Bytes} (stumbles : repo.Stumbles child hashes)
    {links : List NodeLink} (eq : links.map NodeLink.hash = hashes) (depth : Nat) (answer : Bool) :
    pinBrowseLinks (pinHasChild repo child depth) child links ≠ .returned answer := by
  induction stumbles generalizing links depth answer with
  | read rest sized other read =>
      obtain ⟨link, links, rfl, rfl, -⟩ := List.map_eq_cons_iff.mp eq
      rw [pinBrowseLinks_sized sized other]
      cases depth with
      | zero => simp [pinHasChild]
      | succ depth => simp [pinHasChild, read]
  | inside rest sized other read stumbles ih =>
      obtain ⟨link, links, rfl, rfl, -⟩ := List.map_eq_cons_iff.mp eq
      rw [pinBrowseLinks_sized sized other]
      intro found
      obtain ⟨below, called, -⟩ := Outcome.bind_eq_returned.mp found
      cases depth with
      | zero => cases called
      | succ depth =>
          rw [pinHasChild] at called
          simp only [read, merkledagGet_hash read, if_neg other] at called
          exact ih rfl depth below called
  | after other elsewhere stumbles ih =>
      obtain ⟨link, links, rfl, rfl, rest⟩ := List.map_eq_cons_iff.mp eq
      by_cases sized : link.hash.length = child.length
      · rw [pinBrowseLinks_sized sized other]
        intro found
        obtain ⟨below, called, found⟩ := Outcome.bind_eq_returned.mp found
        cases below with
        | true => exact elsewhere (pinHasChild_sound called)
        | false => exact ih rest depth answer found
      · rw [pinBrowseLinks_unsized sized]
        exact ih rest depth answer

theorem FsRepo.PinStumbles.not_meets {root : Bytes} (stumbles : repo.PinStumbles child root) :
    ¬ PinMeets repo child root := by
  rintro ⟨answer, -, least, returns⟩
  have called := returns (least + 1) (by omega)
  rw [pinHasChild] at called
  rcases stumbles with ⟨cause, read⟩ | ⟨node, read, other, stumbles⟩
  · rw [read] at called
    cases called
  · simp only [read, merkledagGet_hash read, if_neg other] at called
    exact stumbles.not_returned rfl least answer called

theorem pinBrowseLinks_meets {links : List NodeLink} (clear : ¬ repo.Stumbles child (links.map NodeLink.hash))
    (meets : ∀ link ∈ links, ¬ repo.PinStumbles child link.hash → PinMeets repo child link.hash)
    (unsized : ∀ link ∈ links, link.hash.length ≠ child.length → ¬ repo.HasChild child link.hash) :
    ∃ answer : Bool, (answer = true ↔ ∃ link ∈ links, link.hash = child ∨ repo.HasChild child link.hash) ∧
      ∃ least, ∀ depth ≥ least, pinBrowseLinks (pinHasChild repo child depth) child links = .returned answer := by
  induction links with
  | nil => exact ⟨false, by simp, 0, fun _ _ => rfl⟩
  | cons link links ih =>
      by_cases same : link.hash = child
      · exact ⟨true, by simp [same], 0, fun _ _ => pinBrowseLinks_child same⟩
      · have later (elsewhere : ¬ repo.HasChild child link.hash) := ih
          (fun stumbles => clear (.after same elsewhere stumbles))
          (fun own mem => meets own (List.mem_cons_of_mem _ mem))
          (fun own mem => unsized own (List.mem_cons_of_mem _ mem))
        by_cases sized : link.hash.length = child.length
        · obtain ⟨below, correct, least, returns⟩ := meets link List.mem_cons_self (by
            rintro (⟨cause, read⟩ | ⟨node, read, other, stumbles⟩)
            · exact clear (.read _ sized same read)
            · exact clear (.inside _ sized same read stumbles))
          cases below with
          | true =>
              refine ⟨true, by simp [correct.mp rfl], least, fun depth deep => ?_⟩
              rw [pinBrowseLinks_sized sized same, returns depth deep]
              rfl
          | false =>
              have elsewhere : ¬ repo.HasChild child link.hash := fun found => by simpa using correct.mpr found
              obtain ⟨answer, correct, least', returns'⟩ := later elsewhere
              refine ⟨answer, by simp [correct, same, elsewhere], max least least', fun depth deep => ?_⟩
              rw [pinBrowseLinks_sized sized same, returns depth (by omega)]
              exact returns' depth (by omega)
        · have elsewhere := unsized link List.mem_cons_self sized
          obtain ⟨answer, correct, least, returns⟩ := later elsewhere
          refine ⟨answer, by simp [correct, same, elsewhere], least, fun depth deep => ?_⟩
          rw [pinBrowseLinks_unsized sized]
          exact returns depth deep

theorem FsRepo.OneLength.linked {hash linked : Bytes} {length : Nat} (oneLength : repo.OneLength hash length)
    (link : repo.DagLinked hash linked) : repo.OneLength linked length :=
  fun reached last path => oneLength reached last (.head link path)

/-- Nothing of another length is below a hash. -/
theorem FsRepo.OneLength.not_hasChild {hash linked : Bytes} {length : Nat} (oneLength : repo.OneLength hash length)
    (link : repo.DagLinked hash linked) (unsized : linked.length ≠ child.length) : ¬ repo.HasChild child linked := by
  rintro ⟨-, rfl | ⟨reached, path, last⟩⟩
  · exact unsized rfl
  · have linkedSized := oneLength hash linked .refl link
    have childSized := oneLength reached child (.head link path) last
    exact unsized (linkedSized.trans childSized.symm)

theorem FsRepo.DagAcyclic.of_links {hash : Bytes} {node : HashtableNode}
    (read : merkledagGet repo hash = .returned node)
    (each : ∀ linked ∈ node.links.map NodeLink.hash, repo.DagAcyclic linked) : repo.DagAcyclic hash := by
  refine Acc.intro _ ?_
  rintro linked ⟨node', read', mem⟩
  obtain rfl := Outcome.returned.inj (read.symm.trans read')
  exact each linked mem

theorem FsRepo.DagAcyclic.of_leaf {hash : Bytes} (leaf : ∀ node, merkledagGet repo hash ≠ .returned node) :
    repo.DagAcyclic hash :=
  Acc.intro _ fun _ ⟨node, read, _⟩ => absurd read (leaf node)

theorem FsRepo.OneLength.of_links {hash : Bytes} {node : HashtableNode} {length : Nat}
    (read : merkledagGet repo hash = .returned node)
    (each : ∀ linked ∈ node.links.map NodeLink.hash, linked.length = length ∧ repo.OneLength linked length) :
    repo.OneLength hash length := by
  intro reached last path link
  rcases path.cases_head with rfl | ⟨next, ⟨node', read', mem⟩, path⟩
  · obtain ⟨node', read', mem⟩ := link
    obtain rfl := Outcome.returned.inj (read.symm.trans read')
    exact (each last mem).1
  · obtain rfl := Outcome.returned.inj (read.symm.trans read')
    exact (each next mem).2 reached last path link

theorem FsRepo.OneLength.of_leaf {hash : Bytes} {length : Nat}
    (leaf : ∀ node, merkledagGet repo hash ≠ .returned node) : repo.OneLength hash length := by
  intro reached last path link
  rcases path.cases_head with rfl | ⟨next, ⟨node, read, -⟩, -⟩
  · obtain ⟨node, read, -⟩ := link
    exact absurd read (leaf node)
  · exact absurd read (leaf node)

end

/-! ## Blocks that are not there -/

theorem holedRepo_file_leaf (node : HashtableNode) : merkledagGet holedRepo fileDigest.sha256 ≠ .returned node := by
  rintro ⟨⟩

theorem holedRepo_dagLinked_file : holedRepo.DagLinked middleDigest.sha256 fileDigest.sha256 :=
  ⟨_, rfl, List.mem_singleton.mpr rfl⟩

theorem holedRepo_not_stumbles : ¬ holedRepo.Stumbles fileDigest.sha256 [middleDigest.sha256] := by
  intro stumbles
  cases stumbles with
  | read _ _ _ read => cases read
  | after _ elsewhere _ => exact elsewhere holedRepo_dagLinked_file.hasChild
  | inside _ _ _ read stumbles =>
      cases read
      cases stumbles with
      | read _ _ other _ | inside _ _ other _ _ | after other _ _ => exact other rfl

/-- The block of the middle node has lost its file. -/
def lostRepo : FsRepo (.known levelsTable) :=
  { levelsRepo with blockstore := Function.update levelsRepo.blockstore middleDigest.base32 none }

theorem lostRepo_middle : merkledagGet lostRepo middleDigest.sha256 = .fault .nullPointer := rfl

end Ipfs
