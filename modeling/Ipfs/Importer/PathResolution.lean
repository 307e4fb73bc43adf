import Ipfs.Importer.Resolver
import Ipfs.Store.Known

/-!
# What a path leads to

A directory tree is followed segment by segment. The resolver agrees with that for the root and its
entries. From the second segment on it loses track: it goes on with the rest of the path behind the
slash only if there is a third segment, and then forgets everything behind the second.
-/

namespace Ipfs
variable {lib : Library}

structure Segment where
  text : CString
  nonempty : text.bytes ≠ []
  slashFree : slash ∉ text.bytes
  deriving DecidableEq

def joinPath (root : Bytes) (segments : List Segment) : Bytes :=
  root ++ segments.flatMap fun segment => slash :: segment.text.bytes

/-! ## Sections of a path -/

section
variable {word : Bytes} (nonempty : word ≠ []) (slashFree : slash ∉ word)
include nonempty slashFree

theorem dropWhile_slashes (k : Nat) (rest : Bytes) :
    (List.replicate k slash ++ (word ++ rest)).dropWhile (· = slash) = word ++ rest := by
  rw [List.dropWhile_append_of_pos fun b mem => decide_eq_true (List.eq_of_mem_replicate mem)]
  cases word with
  | nil => exact absurd rfl nonempty
  | cons first word =>
      have other : first ≠ slash := fun eq => slashFree (eq ▸ List.mem_cons_self)
      simp [other]

theorem resolverNextPath_last (k : Nat) :
    resolverNextPath (List.replicate k slash ++ word) = some (List.replicate k slash ++ word) := by
  have stripped := dropWhile_slashes nonempty slashFree k []
  rw [List.append_nil] at stripped
  rw [resolverNextPath, stripped]
  cases word with
  | nil => exact absurd rfl nonempty
  | cons first word => simp [List.not_mem_of_not_mem_cons slashFree]

theorem resolverNextPath_slash (k : Nat) (rest : Bytes) :
    resolverNextPath (List.replicate k slash ++ (word ++ slash :: rest)) = some word := by
  rw [resolverNextPath, dropWhile_slashes nonempty slashFree]
  cases word with
  | nil => exact absurd rfl nonempty
  | cons first word =>
      have later := List.not_mem_of_not_mem_cons slashFree
      have all : ∀ b ∈ word, decide (b ≠ slash) = true := fun b mem =>
        decide_eq_true fun eq => later (eq ▸ mem)
      simp only [List.cons_append, List.mem_append, List.mem_cons, true_or, or_true, if_true,
        List.takeWhile_append_of_pos all]
      simp

end

theorem exists_of_take_two {text : Bytes} {first second : UInt8} (start : text.take 2 = [first, second]) :
    ∃ rest, text = first :: second :: rest :=
  ⟨text.drop 2, by rw [← List.take_append_drop 2 text, start]; rfl⟩

/-! ## Directory trees -/

/-- A finite tree of directories. Below a leaf nothing is looked up. -/
inductive Tree
  | leaf (hash : Bytes) (node : HashtableNode)
  | directory (hash data : Bytes) (entries : List (Segment × UInt64 × Tree))

namespace Tree

def hash : Tree → Bytes
  | .leaf hash _ => hash
  | .directory hash _ _ => hash

def entryLink (entry : Segment × UInt64 × Tree) : NodeLink :=
  { hash := entry.2.2.hash, name := some entry.1.text, tSize := entry.2.1 }

def node : Tree → HashtableNode
  | .leaf _ node => node
  | .directory _ data entries => { data, links := entries.map entryLink }

def entries : Tree → List (Segment × UInt64 × Tree)
  | .leaf _ _ => []
  | .directory _ _ entries => entries

def isDirectory : Tree → Bool
  | .leaf _ _ => false
  | .directory _ _ _ => true

def child (tree : Tree) (name : Segment) : Option Tree := (tree.entries.find? (·.1 = name)).map (·.2.2)

def lookup : Tree → List Segment → Option Tree
  | tree, [] => some tree
  | tree, name :: names => (tree.child name).bind fun child => child.lookup names

def read (tree : Tree) : HashtableNode := tree.node.stored tree.hash

structure Sound (repo : FsRepo lib) (tree : Tree) : Prop where
  saveable : tree.node.Saveable
  hash_ne : tree.hash ≠ []
  hash_le : tree.hash.length ≤ 127
  kind : hashtableNodeIsDirectory lib.pb tree.node = .returned tree.isDirectory
  holds : repo.Holds tree.hash (hashtableNodeBytes lib.mh tree.node)

def Stored (repo : FsRepo lib) (tree : Tree) : Prop :=
  ∀ names descendant, tree.lookup names = some descendant → descendant.Sound repo

variable {repo : FsRepo lib} {tree : Tree}

theorem Stored.sound (stored : tree.Stored repo) : tree.Sound repo := stored [] tree rfl

theorem Stored.child (stored : tree.Stored repo) {name : Segment} {descendant : Tree}
    (found : tree.child name = some descendant) : descendant.Stored repo := by
  intro names deeper reached
  exact stored (name :: names) deeper (by rw [lookup, found, Option.bind_some, reached])

theorem Sound.merkledagGet (sound : tree.Sound repo) : merkledagGet repo tree.hash = .returned tree.read :=
  merkledagGet_of_holds sound.saveable.nonempty sound.saveable.hashed sound.hash_ne sound.holds

/-! ## One step of the resolver -/

theorem findLink_entries (name : Bytes) (entries : List (Segment × UInt64 × Tree)) :
    findLink name ((entries.map entryLink).map NodeLink.named) =
      .ofOption ((entries.find? (·.1.text.bytes = name)).map entryLink) := by
  induction entries with
  | nil => rfl
  | cons entry entries ih =>
      simp only [List.map_cons, findLink, NodeLink.named, NodeLink.text, entryLink, Option.getD_some,
        Outcome.access_some, Outcome.returned_bind]
      by_cases same : entry.1.text.bytes = name
      · rw [if_pos same, List.find?_cons_of_pos (by simpa using same)]
        rfl
      · rw [if_neg same, List.find?_cons_of_neg (by simpa using same)]
        exact ih

theorem Sound.directoryLink (sound : tree.Sound repo) (name : Bytes) :
    directoryLink lib.pb tree.read name =
      .ofOption ((tree.entries.find? (·.1.text.bytes = name)).map entryLink) := by
  have kind : hashtableNodeIsDirectory lib.pb tree.read = .returned tree.isDirectory := sound.kind
  rw [Ipfs.directoryLink, kind, Outcome.returned_bind]
  cases tree with
  | leaf hash node => rfl
  | directory hash data entries => exact findLink_entries name entries

theorem find_segment (name : Segment) (entries : List (Segment × UInt64 × Tree)) :
    entries.find? (·.1.text.bytes = name.text.bytes) = entries.find? (·.1 = name) := by
  congr 1
  funext entry
  have same : entry.1.text.bytes = name.text.bytes ↔ entry.1 = name := by
    constructor
    · intro eq
      cases name
      cases hentry : entry.1
      simp_all [CString.ext_iff]
    · exact fun eq => congrArg (·.text.bytes) eq
  simp only [same]

theorem Stored.fetch (stored : tree.Stored repo) (name : Segment) :
    (Ipfs.directoryLink lib.pb tree.read name.text.bytes >>= fun link => Ipfs.merkledagGet repo link.hash) =
      .ofOption ((tree.child name).map read) := by
  rw [stored.sound.directoryLink, find_segment, Tree.child]
  cases found : tree.entries.find? (·.1 = name) with
  | none => rfl
  | some entry =>
      have below : tree.child name = some entry.2.2 := by rw [Tree.child, found]; rfl
      exact (stored.child below).sound.merkledagGet

theorem Sound.directoryLink_slash (sound : tree.Sound repo) (rest : Bytes) :
    Ipfs.directoryLink lib.pb tree.read (slash :: rest) = .failed := by
  have absent : tree.entries.find? (·.1.text.bytes = slash :: rest) = none := by
    rw [List.find?_eq_none]
    intro entry _ same
    exact entry.1.slashFree (of_decide_eq_true same ▸ List.mem_cons_self)
  rw [sound.directoryLink, absent]
  rfl

theorem Stored.resolverStep_eq (stored : tree.Stored repo) {path : Bytes} {name : Segment}
    (next : resolverNextPath path = some name.text.bytes) :
    resolverStep repo path tree.read = (do
      let currentNode ← .ofOption ((tree.child name).map read)
      if name.text.bytes.length = path.length then pure (currentNode, none)
      else
        let rest ← .access .unassigned (resolverNextPath (path.drop name.text.bytes.length))
        pure (currentNode, some rest)) := by
  rw [← stored.fetch name, resolverStep, next, bind_assoc]
  rfl

/-! ## The resolver on a node -/

theorem lookup_singleton (tree : Tree) (name : Segment) : tree.lookup [name] = tree.child name := by
  simp [lookup]

theorem Stored.resolverGetFrom_last (stored : tree.Stored repo) (name : Segment) :
    resolverGetFrom repo name.text.bytes tree.read = .ofOption ((tree.lookup [name]).map read) := by
  have next : resolverNextPath name.text.bytes = some name.text.bytes :=
    resolverNextPath_last name.nonempty name.slashFree 0
  rw [resolverGetFrom_eq, stored.resolverStep_eq next, lookup_singleton]
  cases tree.child name <;> simp

theorem Sound.resolverGetFrom_slash (sound : tree.Sound repo) (name : Segment) :
    resolverGetFrom repo (slash :: name.text.bytes) tree.read = .failed := by
  have next : resolverNextPath (slash :: name.text.bytes) = some (slash :: name.text.bytes) :=
    resolverNextPath_last name.nonempty name.slashFree 1
  rw [resolverGetFrom_eq, resolverStep, next, Outcome.ofOption_some, Outcome.returned_bind,
    sound.directoryLink_slash]
  rfl

theorem Stored.resolverGetFrom_more (stored : tree.Stored repo) (name : Segment) (rest : Bytes) :
    resolverGetFrom repo (name.text.bytes ++ slash :: rest) tree.read =
      (do
        let currentNode ← .ofOption ((tree.child name).map read)
        let next ← .access .unassigned (resolverNextPath (slash :: rest))
        resolverGetFrom repo next currentNode) := by
  have next : resolverNextPath (name.text.bytes ++ slash :: rest) = some name.text.bytes :=
    resolverNextPath_slash name.nonempty name.slashFree 0 rest
  have longer : name.text.bytes.length ≠ (name.text.bytes ++ slash :: rest).length := by simp
  rw [resolverGetFrom_eq, stored.resolverStep_eq next]
  simp only [if_neg longer, List.drop_left, bind_assoc, pure_bind]

theorem Stored.resolverGetFrom_two (stored : tree.Stored repo) (first second : Segment) :
    resolverGetFrom repo (joinPath first.text.bytes [second]) tree.read = .failed := by
  have path : joinPath first.text.bytes [second] = first.text.bytes ++ slash :: second.text.bytes := by
    simp [joinPath]
  have next : resolverNextPath (slash :: second.text.bytes) = some (slash :: second.text.bytes) :=
    resolverNextPath_last second.nonempty second.slashFree 1
  rw [path, stored.resolverGetFrom_more, next]
  cases found : tree.child first with
  | none => rfl
  | some descendant => exact (stored.child found).sound.resolverGetFrom_slash second

theorem Stored.resolverGetFrom_three (stored : tree.Stored repo) (first second third : Segment)
    (names : List Segment) :
    resolverGetFrom repo (joinPath first.text.bytes (second :: third :: names)) tree.read =
      .ofOption ((tree.lookup [first, second]).map read) := by
  have path : joinPath first.text.bytes (second :: third :: names) =
      first.text.bytes ++ slash :: (second.text.bytes ++ slash :: joinPath third.text.bytes names) := by
    simp [joinPath]
  have next : resolverNextPath (slash :: (second.text.bytes ++ slash :: joinPath third.text.bytes names)) =
      some second.text.bytes :=
    resolverNextPath_slash second.nonempty second.slashFree 1 _
  rw [path, stored.resolverGetFrom_more, next, lookup]
  cases found : tree.child first with
  | none => rfl
  | some descendant => exact (stored.child found).resolverGetFrom_last second

/-! ## The resolver on a path -/

section
variable {text peerId : Bytes} {names : List Segment} {remoteGet : Bytes → Outcome HashtableNode}

theorem resolverIsRemote_hash (start : text.take 2 = [0x51, 0x6d]) :
    resolverIsRemote peerId (joinPath text names) = false := by
  obtain ⟨rest, rfl⟩ := exists_of_take_two start
  simp [resolverIsRemote, joinPath, schemes, slash]

theorem resolverRemovePathPrefix_hash (start : text.take 2 = [0x51, 0x6d])
    (foreign : ¬ peerId <+: joinPath text names) :
    resolverRemovePathPrefix peerId (joinPath text names) = .returned (joinPath text names) := by
  obtain ⟨rest, rfl⟩ := exists_of_take_two start
  rw [joinPath, List.cons_append] at foreign ⊢
  rw [resolverRemovePathPrefix, removePathPrefix, if_neg (by decide), if_neg (by simp [schemes]), if_neg foreign]

theorem Stored.resolverGet_eq (stored : tree.Stored repo) (form : Base58Form lib text tree.hash)
    (foreign : ¬ peerId <+: joinPath text names) :
    resolverGet repo peerId remoteGet (joinPath text names) =
      match names with
      | [] => .returned tree.read
      | name :: names => resolverGetFrom repo (joinPath name.text.bytes names) tree.read := by
  have slashFree : slash ∉ text := lib.crypto.base58Decode_slash text _ form.decodes
  have nonempty : text ≠ [] := List.ne_nil_of_length_pos (by rw [form.length]; decide)
  have root : merkledagGetByMultihash repo (lib.mh.new tree.hash) = .returned tree.read := by
    rw [merkledagGetByMultihash, lib.mh.digest_new _ stored.sound.hash_le]
    exact stored.sound.merkledagGet
  rw [resolverGet, resolverIsRemote_hash form.start, if_neg (by decide),
    resolverRemovePathPrefix_hash form.start foreign, Outcome.returned_bind]
  cases names with
  | nil =>
      have next : resolverNextPath text = some text := resolverNextPath_last nonempty slashFree 0
      have path : joinPath text [] = text := by simp [joinPath]
      simp only [path, next, form.start, form.decodes, root, Outcome.ofOption_some, Outcome.returned_bind, if_true]
      rfl
  | cons name names =>
      have path : joinPath text (name :: names) = text ++ slash :: joinPath name.text.bytes names := by
        simp [joinPath]
      have next : resolverNextPath (text ++ slash :: joinPath name.text.bytes names) = some text :=
        resolverNextPath_slash nonempty slashFree 0 _
      have longer : text.length ≠ (text ++ slash :: joinPath name.text.bytes names).length := by simp
      simp only [path, next, form.start, form.decodes, root, Outcome.ofOption_some, Outcome.returned_bind, if_true,
        if_neg longer]
      rw [← List.drop_drop, List.drop_left]
      rfl

end

/-! ## No node below itself -/

theorem child_sizeOf {name : Segment} {descendant : Tree} (found : tree.child name = some descendant) :
    sizeOf descendant < sizeOf tree := by
  obtain ⟨entry, isEntry, rfl⟩ := Option.map_eq_some_iff.mp found
  have mem := List.mem_of_find?_eq_some isEntry
  cases tree with
  | leaf hash node => simp [entries] at mem
  | directory hash data entries =>
      have entry_lt := List.sizeOf_lt_of_mem mem
      obtain ⟨name', tSize, child⟩ := entry
      simp only [Tree.entries, Prod.mk.sizeOf_spec, directory.sizeOf_spec] at entry_lt ⊢
      omega

theorem lookup_sizeOf_le (names : List Segment) {descendant : Tree} (found : tree.lookup names = some descendant) :
    sizeOf descendant ≤ sizeOf tree := by
  induction names generalizing tree with
  | nil =>
      obtain rfl := Option.some.inj found
      exact le_rfl
  | cons name names ih =>
      obtain ⟨next, step, rest⟩ := Option.bind_eq_some_iff.mp found
      exact (ih rest).trans (child_sizeOf step).le

theorem lookup_append (tree : Tree) (names names' : List Segment) :
    tree.lookup (names ++ names') = (tree.lookup names).bind fun descendant => descendant.lookup names' := by
  induction names generalizing tree with
  | nil => rfl
  | cons name names ih =>
      simp only [List.cons_append, lookup, Option.bind_assoc]
      congr 1
      funext descendant
      exact ih descendant

section
variable {tree' : Tree} (same : tree.hash = tree'.hash)
include same

theorem Sound.child_of_hash_eq (sound : tree.Sound repo) (sound' : tree'.Sound repo) {name : Segment}
    {descendant : Tree} (found : tree.child name = some descendant) :
    ∃ descendant', tree'.child name = some descendant' ∧ descendant.hash = descendant'.hash := by
  have nodes : tree.read = tree'.read := by
    have get := sound.merkledagGet
    rw [same, sound'.merkledagGet] at get
    exact (Outcome.returned.inj get).symm
  obtain ⟨entry, isEntry, rfl⟩ := Option.map_eq_some_iff.mp found
  have link := sound'.directoryLink name.text.bytes
  rw [← nodes, sound.directoryLink, find_segment, find_segment, isEntry, Option.map_some, Outcome.ofOption_some,
    eq_comm, Outcome.ofOption_eq_returned] at link
  obtain ⟨entry', isEntry', link⟩ := Option.map_eq_some_iff.mp link
  exact ⟨entry'.2.2, by rw [Tree.child, isEntry']; rfl, congrArg NodeLink.hash link.symm⟩

theorem Stored.lookup_of_hash_eq (stored : tree.Stored repo) (stored' : tree'.Stored repo)
    (names : List Segment) {descendant : Tree} (found : tree.lookup names = some descendant) :
    ∃ descendant', tree'.lookup names = some descendant' ∧ descendant.hash = descendant'.hash := by
  induction names generalizing tree tree' with
  | nil =>
      obtain rfl := Option.some.inj found
      exact ⟨tree', rfl, same⟩
  | cons name names ih =>
      obtain ⟨next, step, rest⟩ := Option.bind_eq_some_iff.mp found
      obtain ⟨next', step', same'⟩ := Sound.child_of_hash_eq same stored.sound stored'.sound step
      obtain ⟨descendant', rest', hash⟩ := ih same' (stored.child step) (stored'.child step') rest
      exact ⟨descendant', by rw [lookup, step', Option.bind_some, rest'], hash⟩

end

theorem Stored.descendant (stored : tree.Stored repo) {names : List Segment} {descendant : Tree}
    (found : tree.lookup names = some descendant) : descendant.Stored repo := by
  intro names' deeper reached
  exact stored (names ++ names') deeper (by rw [lookup_append, found, Option.bind_some, reached])

theorem Stored.hash_ne (stored : tree.Stored repo) (name : Segment) (names : List Segment) {descendant : Tree}
    (found : tree.lookup (name :: names) = some descendant) : descendant.hash ≠ tree.hash := by
  intro same
  induction size : sizeOf tree using Nat.strong_induction_on generalizing tree descendant with
  | _ n ih =>
      obtain ⟨next, step, rest⟩ := Option.bind_eq_some_iff.mp found
      have smaller : sizeOf descendant < n :=
        lt_of_le_of_lt (lookup_sizeOf_le names rest) (size ▸ child_sizeOf step)
      obtain ⟨again, found', same'⟩ :=
        Stored.lookup_of_hash_eq same.symm stored (stored.descendant found) (name :: names) found
      exact ih _ smaller (stored.descendant found) found' same'.symm rfl

end Tree

theorem resolverGet_lookup_iff (repo : FsRepo lib) (peerId : Bytes) (remoteGet : Bytes → Outcome HashtableNode)
    (tree : Tree) (stored : tree.Stored repo) (text : Bytes) (form : Base58Form lib text tree.hash)
    (names : List Segment) (foreign : ¬ peerId <+: joinPath text names) :
    resolverGet repo peerId remoteGet (joinPath text names) = .ofOption ((tree.lookup names).map Tree.read) ↔
      names.length ≤ 1 ∨ tree.lookup (names.take 2) = none := by
  rw [stored.resolverGet_eq form foreign]
  match names with
  | [] => exact iff_of_true rfl (.inl (Nat.zero_le 1))
  | [name] =>
      have path : joinPath name.text.bytes [] = name.text.bytes := by simp [joinPath]
      refine iff_of_true ?_ (.inl le_rfl)
      simp only [path, stored.resolverGetFrom_last]
  | [first, second] =>
      simp only [stored.resolverGetFrom_two, List.take_succ_cons, List.take_zero, List.length_cons]
      cases tree.lookup [first, second] <;> simp
  | first :: second :: third :: names =>
      have split : tree.lookup (first :: second :: third :: names) =
          (tree.lookup [first, second]).bind fun descendant => descendant.lookup (third :: names) :=
        Tree.lookup_append tree [first, second] (third :: names)
      simp only [stored.resolverGetFrom_three, split, List.take_succ_cons, List.take_zero, List.length_cons]
      cases found : tree.lookup [first, second] with
      | none => simp
      | some descendant =>
          refine iff_of_false ?_ (by simp)
          cases deeper : descendant.lookup (third :: names) with
          | none => simp [deeper]
          | some last =>
              have ne := (stored.descendant found).hash_ne third names deeper
              simp only [Option.bind_some, deeper, Option.map_some, Outcome.ofOption_some, Outcome.returned.injEq]
              intro same
              exact ne (Option.some.inj (congrArg HashtableNode.hash same)).symm

/-! ## A path of two names -/

def directoryDigest : Digest :=
  { block := [0x12, 0x29, 0x0a, 0x22, 0x12, 0x20, 0xe2, 0xfe, 0xcf, 0x4b, 0x8d, 0xf2, 0x82, 0xc8,
              0x84, 0x8a, 0xe9, 0xf7, 0x0a, 0xd6, 0xe9, 0x70, 0x69, 0xb4, 0x35, 0xf5, 0xb5, 0x90,
              0x7c, 0x3f, 0xff, 0xe1, 0x4a, 0x6b, 0xf5, 0xbe, 0xf0, 0xda, 0x12, 0x01, 0x66, 0x18,
              0x34, 0x0a, 0x02, 0x08, 0x01]
    sha256 := [0x99, 0x7d, 0x38, 0x89, 0x9b, 0xb7, 0xe3, 0x6b, 0xe4, 0x44, 0xdf, 0x69, 0xea, 0xb1,
               0xc0, 0xc0, 0x6b, 0x77, 0xca, 0x43, 0xce, 0x70, 0x8d, 0x1d, 0x9b, 0x78, 0x46, 0x30,
               0x07, 0xa2, 0xf0, 0xd2]
    base32 := [0x54, 0x46, 0x36, 0x54, 0x52, 0x43, 0x4d, 0x33, 0x57, 0x37, 0x52, 0x57, 0x58, 0x5a,
               0x43, 0x45, 0x33, 0x35, 0x55, 0x36, 0x56, 0x4d, 0x4f, 0x41, 0x59, 0x42, 0x56, 0x58,
               0x50, 0x53, 0x53, 0x44, 0x5a, 0x5a, 0x59, 0x49, 0x32, 0x48, 0x4d, 0x33, 0x50, 0x42,
               0x44, 0x44, 0x41, 0x42, 0x35, 0x43, 0x36, 0x44, 0x4a, 0x41]
    base58 := [0x51, 0x6d, 0x59, 0x66, 0x6f, 0x71, 0x48, 0x4a, 0x65, 0x46, 0x6e, 0x79, 0x34, 0x68,
               0x51, 0x50, 0x53, 0x4c, 0x64, 0x57, 0x59, 0x4c, 0x4c, 0x75, 0x58, 0x55, 0x57, 0x75,
               0x75, 0x4a, 0x73, 0x56, 0x6d, 0x4d, 0x42, 0x34, 0x5a, 0x54, 0x59, 0x46, 0x67, 0x6a,
               0x33, 0x48, 0x5a, 0x33] }

def rootDigest : Digest :=
  { block := [0x12, 0x29, 0x0a, 0x22, 0x12, 0x20, 0x99, 0x7d, 0x38, 0x89, 0x9b, 0xb7, 0xe3, 0x6b,
              0xe4, 0x44, 0xdf, 0x69, 0xea, 0xb1, 0xc0, 0xc0, 0x6b, 0x77, 0xca, 0x43, 0xce, 0x70,
              0x8d, 0x1d, 0x9b, 0x78, 0x46, 0x30, 0x07, 0xa2, 0xf0, 0xd2, 0x12, 0x01, 0x64, 0x18,
              0x59, 0x0a, 0x02, 0x08, 0x01]
    sha256 := [0xb1, 0x6b, 0x6c, 0xae, 0x5c, 0xc5, 0x1f, 0x7d, 0x39, 0xfa, 0x26, 0x47, 0x86, 0xca,
               0x7e, 0xb9, 0xb0, 0xb7, 0xf1, 0x3e, 0x1a, 0x00, 0x47, 0xd7, 0x98, 0x98, 0x4f, 0x9b,
               0x0d, 0xba, 0x54, 0x92]
    base32 := [0x57, 0x46, 0x56, 0x57, 0x5a, 0x4c, 0x53, 0x34, 0x59, 0x55, 0x50, 0x58, 0x32, 0x4f,
               0x50, 0x32, 0x45, 0x5a, 0x44, 0x59, 0x4e, 0x53, 0x54, 0x36, 0x58, 0x47, 0x59, 0x4c,
               0x50, 0x34, 0x4a, 0x36, 0x44, 0x49, 0x41, 0x45, 0x50, 0x56, 0x34, 0x59, 0x54, 0x42,
               0x48, 0x5a, 0x57, 0x44, 0x4e, 0x32, 0x4b, 0x53, 0x4a, 0x41]
    base58 := [0x51, 0x6d, 0x61, 0x48, 0x44, 0x73, 0x76, 0x67, 0x76, 0x74, 0x74, 0x77, 0x78, 0x4a,
               0x64, 0x54, 0x73, 0x77, 0x77, 0x4d, 0x79, 0x43, 0x33, 0x57, 0x6a, 0x6d, 0x6f, 0x38,
               0x46, 0x64, 0x78, 0x51, 0x6a, 0x64, 0x4d, 0x45, 0x72, 0x41, 0x37, 0x77, 0x57, 0x37,
               0x75, 0x4e, 0x61, 0x35] }

def treeTable : Digest.Table where
  entries := [fileDigest, directoryDigest, rootDigest]
  other := List.replicate 32 0
  lengths := by decide
  distinct := by decide
  written := by decide
  apart := by decide
  alphabet := by decide

def fName : Segment := ⟨⟨[0x66], by decide⟩, by decide, by decide⟩

def dName : Segment := ⟨⟨[0x64], by decide⟩, by decide, by decide⟩

def fileTree : Tree := .leaf fileDigest.sha256 { data := [0x08, 0x02, 0x12, 0x02, 0x68, 0x69, 0x18, 0x02] }

def directoryTree : Tree := .directory directoryDigest.sha256 [0x08, 0x01] [(fName, 52, fileTree)]

def rootTree : Tree := .directory rootDigest.sha256 [0x08, 0x01] [(dName, 89, directoryTree)]

theorem Tree.stored_of_entries {repo : FsRepo lib} {tree : Tree} (sound : tree.Sound repo)
    (below : ∀ entry ∈ tree.entries, entry.2.2.Stored repo) : tree.Stored repo := by
  intro names descendant found
  cases names with
  | nil =>
      obtain rfl := Option.some.inj found
      exact sound
  | cons name names =>
      obtain ⟨next, step, rest⟩ := Option.bind_eq_some_iff.mp found
      obtain ⟨entry, isEntry, rfl⟩ := Option.map_eq_some_iff.mp step
      exact below entry (List.mem_of_find?_eq_some isEntry) names descendant rest

def treeRepo : FsRepo (.known treeTable) :=
  (((FsRepo.new treeTable).add fileDigest.sha256 fileDigest.block [fileDigest.sha256]).add
    directoryDigest.sha256 directoryDigest.block [directoryDigest.sha256, fileDigest.sha256]).add
    rootDigest.sha256 rootDigest.block [rootDigest.sha256, directoryDigest.sha256, fileDigest.sha256]

theorem rootTree_stored : rootTree.Stored treeRepo := by
  have file : fileTree.Sound treeRepo :=
    ⟨⟨by decide, by decide, by decide⟩, by decide, by decide, by decide, ⟨by decide, by decide⟩⟩
  have directory : directoryTree.Sound treeRepo :=
    ⟨⟨by decide, by decide, by decide⟩, by decide, by decide, by decide, ⟨by decide, by decide⟩⟩
  have root : rootTree.Sound treeRepo :=
    ⟨⟨by decide, by decide, by decide⟩, by decide, by decide, by decide, ⟨by decide, by decide⟩⟩
  have fileStored := Tree.stored_of_entries file (by simp [fileTree, Tree.entries])
  have directoryStored := Tree.stored_of_entries directory (by simpa [directoryTree, Tree.entries] using fileStored)
  exact Tree.stored_of_entries root (by simpa [rootTree, Tree.entries] using directoryStored)

def samplePeerId : Bytes := 0x51 :: 0x6d :: List.replicate 44 0x61

theorem resolverGet_lookup_entry :
    resolverGet treeRepo samplePeerId (fun _ => .failed) (joinPath rootDigest.base58 [dName]) =
      .returned directoryTree.read :=
  (resolverGet_lookup_iff treeRepo samplePeerId (fun _ => .failed) rootTree rootTree_stored rootDigest.base58
    ⟨by decide, by decide, by decide⟩ [dName] (by decide)).mpr (.inl (by decide))

theorem not_resolverGet_lookup_file :
    rootTree.Stored treeRepo ∧ Base58Form (.known treeTable) rootDigest.base58 rootTree.hash ∧
      rootTree.lookup [dName, fName] = some fileTree ∧
      resolverGet treeRepo samplePeerId (fun _ => .failed) (joinPath rootDigest.base58 [dName, fName]) ≠
        .returned fileTree.read := by
  have form : Base58Form (.known treeTable) rootDigest.base58 rootTree.hash :=
    ⟨by decide, by decide, by decide⟩
  refine ⟨rootTree_stored, form, rfl, ?_⟩
  rw [rootTree_stored.resolverGet_eq form (by decide)]
  simp [rootTree_stored.resolverGetFrom_two]

end Ipfs
