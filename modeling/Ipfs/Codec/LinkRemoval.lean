import Ipfs.Codec.Node
import Ipfs.Lib.Heap

/-!
# Links and block sizes that are removed

The links of a node, and the block sizes of a UnixFS object, are singly linked lists on the heap. A call does not
come back when it dereferences or frees a cell that was freed. The hash and the name of a link are freed with its
cell.
-/

namespace Ipfs

/-- `struct NodeLink` with its `next`. -/
structure LinkCell where
  link : NodeLink
  next : Option Nat
  deriving DecidableEq

/-- `struct UnixFSBlockSizeNode`. -/
structure BlockSizeCell where
  blockSize : UInt64
  next : Option Nat
  deriving DecidableEq

/-! ## Links -/

/-- What the search of `ipfs_hashtable_node_remove_link_by_name` goes on for. -/
def linkNameDiffers : Option CString → Option CString → Bool
  | none, none => false
  | none, some _ => true
  | some _, none => true
  | some name, some other => name.bytes ≠ other.bytes

/-- It returns whether a link was found, `head_link` and the heap. -/
def nodeRemoveLinkByName (heap : Heap LinkCell) (name : Option CString) (headLink : Option Nat) :
    Option (Bool × Option Nat × Heap LinkCell) := do
  let (previous, current) ← heap.seek LinkCell.next (fun _ cell => !linkNameDiffers name cell.link.name)
    heap.cells.length none headLink
  match current with
  | none => return (false, headLink, heap)
  | some current =>
      let here ← heap.load current
      match previous with
      | none =>
          -- we're first, use the next one (if there is one)
          if here.next ≠ none then return (true, here.next, heap)
          else return (true, headLink, heap)
      | some previous =>
          let before ← heap.load previous
          let heap ← heap.store previous { before with next := here.next }
          let heap ← heap.free current
          return (true, headLink, heap)

def nodeRemoveLink (heap : Heap LinkCell) (headLink toRemove : Option Nat) :
    Option (Bool × Option Nat × Heap LinkCell) := do
  let (previous, current) ← heap.seek LinkCell.next (fun address _ => some address = toRemove)
    heap.cells.length none headLink
  match current with
  | none => return (false, headLink, heap)
  | some current =>
      let here ← heap.load current
      match previous with
      | none =>
          -- we're trying to delete the head
          let previous := here.next
          let heap ← heap.free current
          return (true, previous, heap)
      | some _ =>
          -- the next link is kept in the local variable only
          let _previous := here.next
          let heap ← heap.free current
          return (true, headLink, heap)

/-- The loop of `ipfs_hashtable_node_free`. -/
def hashtableNodeFreeLinks : Nat → Option Nat → Option Nat → Heap LinkCell → Option (Option Nat × Heap LinkCell)
  | _, headLink, none, heap => some (headLink, heap)
  | 0, _, some _, _ => none
  | fuel + 1, headLink, some toDelete, heap => do
      let here ← heap.load toDelete
      let current := here.next
      let (_, headLink, heap) ← nodeRemoveLink heap headLink (some toDelete)
      hashtableNodeFreeLinks fuel headLink current heap

/-- `ipfs_hashtable_node_free`, of the links; what else the node has is freed behind them. -/
def hashtableNodeFree (heap : Heap LinkCell) (headLink : Option Nat) : Option (Option Nat × Heap LinkCell) :=
  hashtableNodeFreeLinks heap.cells.length headLink headLink heap

/-! ## Block sizes -/

/-- It returns `block_size_head` and the heap. -/
def unixfsRemoveBlocksize (heap : Heap BlockSizeCell) (blockSizeHead toDelete : Option Nat) :
    Option (Option Nat × Heap BlockSizeCell) := do
  let (previous, current) ← heap.seek BlockSizeCell.next (fun address _ => some address = toDelete)
    heap.cells.length none blockSizeHead
  match previous with
  | none =>
      let heap ← heap.release blockSizeHead
      return (none, heap)
  | some previous =>
      -- NULL at the end of the list, and when nothing was found
      let holder ← match current with
        | none => some none
        | some current => (heap.load current).map BlockSizeCell.next
      let before ← heap.load previous
      let heap ← heap.release before.next
      let heap ← heap.store previous { before with next := holder }
      return (blockSizeHead, heap)

def unixfsGetLastBlockSize (heap : Heap BlockSizeCell) : Nat → Option Nat → Option (Option Nat)
  | _, none => some none
  | 0, some _ => none
  | fuel + 1, some current => do
      let here ← heap.load current
      if here.next ≠ none then unixfsGetLastBlockSize heap fuel here.next
      else return some current

/-- The loop of `ipfs_unixfs_free`, as long as there is a last block size. -/
def unixfsFreeLoop : Nat → Option Nat → Option Nat → Heap BlockSizeCell → Option (Option Nat × Heap BlockSizeCell)
  | _, blockSizeHead, none, heap => some (blockSizeHead, heap)
  | 0, _, some _, _ => none
  | fuel + 1, blockSizeHead, some current, heap => do
      let (blockSizeHead, heap) ← unixfsRemoveBlocksize heap blockSizeHead (some current)
      let current ← unixfsGetLastBlockSize heap heap.cells.length blockSizeHead
      unixfsFreeLoop fuel blockSizeHead current heap

/-- `ipfs_unixfs_free`, of the block sizes. -/
def unixfsFree (heap : Heap BlockSizeCell) (blockSizeHead : Option Nat) :
    Option (Option Nat × Heap BlockSizeCell) := do
  let current ← unixfsGetLastBlockSize heap heap.cells.length blockSizeHead
  unixfsFreeLoop heap.cells.length blockSizeHead current heap

/-! ## What is promised -/

def LinksOf (heap : Heap LinkCell) (headLink : Option Nat) (links : List (Nat × NodeLink)) : Prop :=
  heap.Listed LinkCell.mk headLink links

def BlockSizesOf (heap : Heap BlockSizeCell) (blockSizeHead : Option Nat) (sizes : List (Nat × UInt64)) : Prop :=
  heap.Listed BlockSizeCell.mk blockSizeHead sizes

/-- The first link of the name is gone, and 1 is returned; without one nothing is changed. -/
def RemovesByName (heap : Heap LinkCell) (headLink : Option Nat) (links : List (Nat × NodeLink))
    (name : Option CString) : Prop :=
  ∃ found headLink' heap', nodeRemoveLinkByName heap name headLink = some (found, headLink', heap') ∧
    (found = true ↔ ∃ entry ∈ links, entry.2.name = name) ∧
    LinksOf heap' headLink' (if found then links.eraseP (·.2.name = name) else links)

def RemovesLink (heap : Heap LinkCell) (headLink : Option Nat) (links : List (Nat × NodeLink)) (toRemove : Nat) : Prop :=
  ∃ headLink' heap', nodeRemoveLink heap headLink (some toRemove) = some (true, headLink', heap') ∧
    LinksOf heap' headLink' (links.eraseP (·.1 = toRemove))

def RemovesBlocksize (heap : Heap BlockSizeCell) (blockSizeHead : Option Nat) (sizes : List (Nat × UInt64))
    (toDelete : Option Nat) : Prop :=
  ∃ blockSizeHead' heap', unixfsRemoveBlocksize heap blockSizeHead toDelete = some (blockSizeHead', heap') ∧
    BlockSizesOf heap' blockSizeHead' (sizes.eraseP (some ·.1 = toDelete))

/-! ## Removal by name -/

theorem linkNameDiffers_eq_false {name other : Option CString} : linkNameDiffers name other = false ↔ other = name := by
  cases name with
  | none => cases other <;> simp [linkNameDiffers]
  | some name =>
      cases other with
      | none => simp [linkNameDiffers]
      | some other =>
          rw [linkNameDiffers, decide_eq_false_iff_not, not_not, Option.some.injEq, CString.ext_iff]
          exact eq_comm

theorem linkNameDiffers_eq_true {name other : Option CString} : linkNameDiffers name other = true ↔ other ≠ name := by
  rw [← Bool.not_eq_false, linkNameDiffers_eq_false]

theorem hashtableNodeRemoveLinkByName_isSome (name : Option CString) (node : HashtableNode) :
    (hashtableNodeRemoveLinkByName name node).isSome = decide (∃ link ∈ node.links, link.name = name) := by
  have located : (node.links.findIdx? fun link => decide (link.name = name)).isSome =
      node.links.any fun link => decide (link.name = name) := List.findIdx?_isSome
  rw [hashtableNodeRemoveLinkByName]
  cases position : node.links.findIdx? fun link => link.name = name with
  | none =>
      rw [position] at located
      simpa [List.any_eq] using located
  | some i =>
      rw [position] at located
      cases i <;> simpa [List.any_eq] using located

theorem hashtableNodeRemoveLinkByName_links (name : Option CString) (node : HashtableNode) :
    ((hashtableNodeRemoveLinkByName name node).getD node).links =
      if node.links.length = 1 then node.links else node.links.eraseP (·.name = name) := by
  rw [hashtableNodeRemoveLinkByName, List.eraseP_eq_eraseIdx]
  cases position : node.links.findIdx? fun link => link.name = name with
  | none => simp
  | some i =>
      obtain ⟨data, links, hash⟩ := node
      obtain ⟨bound, -⟩ := List.findIdx?_eq_some_iff_getElem.mp position
      cases i with
      | zero =>
          match links with
          | [] => simp at bound
          | [link] => rfl
          | link :: next :: links => rfl
      | succ i =>
          have more : i + 1 < links.length := bound
          have several : links.length ≠ 1 := by omega
          exact (if_neg several).symm

section
variable {heap : Heap LinkCell} {headLink : Option Nat} {links before after : List (Nat × NodeLink)}
  {entry last : Nat × NodeLink} {name : Option CString}

theorem LinksOf.seekName (holds : LinksOf heap headLink (before ++ links))
    (others : ∀ other ∈ before, other.2.name ≠ name) (stops : ∀ first ∈ links.head?, first.2.name = name) :
    heap.seek LinkCell.next (fun _ cell => !linkNameDiffers name cell.link.name) heap.cells.length none headLink =
      some (before.getLast?.map Prod.fst, Heap.entrance none links) := by
  rw [← holds.head, Heap.seek_eq (fun _ _ => rfl) holds.chain _ _ holds.length_le, Option.or_none]
  · intro other mem _
    rw [Bool.not_eq_false', linkNameDiffers_eq_true]
    exact others other mem
  · intro first mem _
    rw [Bool.not_eq_true', linkNameDiffers_eq_false]
    exact stops first mem

theorem nodeRemoveLinkByName_absent (holds : LinksOf heap headLink links)
    (others : ∀ other ∈ links, other.2.name ≠ name) :
    nodeRemoveLinkByName heap name headLink = some (false, headLink, heap) := by
  have whole : LinksOf heap headLink (links ++ []) := by rwa [List.append_nil]
  have sought := LinksOf.seekName whole others (by simp)
  rw [nodeRemoveLinkByName, sought]
  rfl

theorem nodeRemoveLinkByName_first (holds : LinksOf heap headLink (entry :: after)) (same : entry.2.name = name) :
    nodeRemoveLinkByName heap name headLink =
      some (true, if after = [] then headLink else Heap.entrance none after, heap) := by
  have whole : LinksOf heap headLink ([] ++ entry :: after) := holds
  have sought := LinksOf.seekName whole (by simp) (by simpa using same)
  have present := holds.chain.1
  rw [nodeRemoveLinkByName, sought]
  cases after with
  | nil => simp [present]
  | cons second after => simp [present]

theorem nodeRemoveLinkByName_later (holds : LinksOf heap headLink (before ++ last :: entry :: after))
    (others : ∀ other ∈ before ++ [last], other.2.name ≠ name) (same : entry.2.name = name) :
    nodeRemoveLinkByName heap name headLink = some (true, headLink,
      (heap.put last.1 (some ⟨last.2, Heap.entrance none after⟩)).put entry.1 none) := by
  have holds' : LinksOf heap headLink ((before ++ [last]) ++ entry :: after) := Heap.Listed.onward holds
  have sought := holds'.seekName others (by simpa using same)
  have presentLast := Heap.Listed.load_mid holds
  have present := Heap.Listed.load_mid holds'
  have freed : ((heap.put last.1 (some ⟨last.2, Heap.entrance none after⟩)).free entry.1) =
      some ((heap.put last.1 (some ⟨last.2, Heap.entrance none after⟩)).put entry.1 none) :=
    Heap.free_eq ((Heap.load_put_ne heap (Heap.Listed.apart holds) _).trans present)
  rw [nodeRemoveLinkByName, sought]
  simp [present, presentLast, Heap.store_eq presentLast, freed]

/-- The only link stays, the first link of the name otherwise goes; it is reported in both cases. -/
theorem nodeRemoveLinkByName_eq (holds : LinksOf heap headLink links) (name : Option CString) :
    ∃ headLink' heap', nodeRemoveLinkByName heap name headLink =
      some (decide (∃ entry ∈ links, entry.2.name = name), headLink', heap') ∧
        LinksOf heap' headLink' (if links.length = 1 then links else links.eraseP (·.2.name = name)) := by
  by_cases named : ∃ entry ∈ links, entry.2.name = name
  · rw [decide_eq_true named]
    obtain ⟨found, mem, sameFound⟩ := named
    obtain ⟨entry, before, after, others, same, rfl, erased⟩ :=
      List.exists_of_eraseP (p := fun other : Nat × NodeLink => other.2.name = name) mem (by simpa using sameFound)
    simp only [decide_eq_true_eq] at others same
    rcases List.eq_nil_or_concat before with rfl | ⟨before, last, rfl⟩
    · refine ⟨_, _, nodeRemoveLinkByName_first holds same, ?_⟩
      cases after with
      | nil => exact holds
      | cons second after =>
          rw [if_neg (List.cons_ne_nil _ _), if_neg (by simp), erased]
          exact Heap.Listed.behind holds fun _ _ => rfl
    · rw [List.concat_eq_append] at *
      have holds' : LinksOf heap headLink (before ++ last :: entry :: after) := by simpa using holds
      refine ⟨_, _, nodeRemoveLinkByName_later holds' others same, ?_⟩
      have several : (before ++ [last] ++ entry :: after).length ≠ 1 := by
        simp only [List.length_append, List.length_cons]
        omega
      rw [if_neg several, erased, List.append_assoc, List.singleton_append]
      apply Heap.Listed.unlink holds'
      · rw [Heap.load_put_ne _ (Heap.Listed.apart holds').symm, Heap.load_put_self (Heap.Listed.load_mid holds')]
      · intro address notLast notEntry
        rw [Heap.load_put_ne _ notEntry.symm, Heap.load_put_ne _ notLast.symm]
  · have absent : ∀ other ∈ links, other.2.name ≠ name := fun other mem same => named ⟨other, mem, same⟩
    rw [decide_eq_false named]
    refine ⟨_, _, nodeRemoveLinkByName_absent holds absent, ?_⟩
    rw [List.eraseP_of_forall_not (by simpa using absent), ite_self]
    exact holds

/-- What becomes of the list of links is what the node without its cells says. -/
theorem nodeRemoveLinkByName_refines (holds : LinksOf heap headLink links) (name : Option CString)
    {node : HashtableNode} (represents : node.links = links.map Prod.snd) :
    ∃ headLink' heap' links', nodeRemoveLinkByName heap name headLink =
      some ((hashtableNodeRemoveLinkByName name node).isSome, headLink', heap') ∧ LinksOf heap' headLink' links' ∧
        ((hashtableNodeRemoveLinkByName name node).getD node).links = links'.map Prod.snd := by
  obtain ⟨headLink', heap', removed, left⟩ := nodeRemoveLinkByName_eq holds name
  refine ⟨headLink', heap', _, removed.trans ?_, left, ?_⟩
  · rw [hashtableNodeRemoveLinkByName_isSome, represents]
    simp only [List.mem_map, exists_exists_and_eq_and]
  · rw [hashtableNodeRemoveLinkByName_links, represents, List.length_map, List.eraseP_map, apply_ite (List.map _)]
    rfl

theorem not_removesByName_only (holds : LinksOf heap headLink [entry]) (same : entry.2.name = name) :
    ¬ RemovesByName heap headLink [entry] name := by
  rintro ⟨found, headLink', heap', result, reported, left⟩
  obtain rfl : found = true := reported.mpr ⟨entry, List.mem_cons_self, same⟩
  rw [nodeRemoveLinkByName_first holds same, Option.some.injEq, Prod.mk.injEq, Prod.mk.injEq, if_pos rfl] at result
  obtain ⟨-, rfl, -⟩ := result
  have emptied : none = headLink := by simpa [same] using left.head
  cases emptied.trans holds.head.symm

/-- One link whose name is the one to be removed stays, and its removal is reported. -/
theorem removesByName_iff (holds : LinksOf heap headLink links) (name : Option CString) :
    RemovesByName heap headLink links name ↔ ¬ ∃ entry, links = [entry] ∧ entry.2.name = name := by
  constructor
  · rintro removes ⟨entry, rfl, same⟩
    exact not_removesByName_only holds same removes
  · intro several
    obtain ⟨headLink', heap', removed, left⟩ := nodeRemoveLinkByName_eq holds name
    refine ⟨_, _, _, removed, decide_eq_true_iff, ?_⟩
    by_cases named : ∃ entry ∈ links, entry.2.name = name
    · have notOne : links.length ≠ 1 := by
        intro one
        obtain ⟨entry, rfl⟩ := List.length_eq_one_iff.mp one
        obtain ⟨other, mem, same⟩ := named
        exact several ⟨entry, rfl, List.mem_singleton.mp mem ▸ same⟩
      rw [if_neg notOne] at left
      rw [if_pos (decide_eq_true named)]
      exact left
    · have absent : ∀ other ∈ links, other.2.name ≠ name := fun other mem same => named ⟨other, mem, same⟩
      rw [List.eraseP_of_forall_not (by simpa using absent), ite_self] at left
      rw [if_neg (by simpa using named)]
      exact left

end

def linkA : NodeLink := { name := some (.ofBytes [97]) }

def linkB : NodeLink := { name := some (.ofBytes [98]) }

def oneLink : Heap LinkCell := ⟨[some ⟨linkA, none⟩]⟩

def twoLinks : Heap LinkCell := ⟨[some ⟨linkA, some 1⟩, some ⟨linkB, none⟩]⟩

theorem linksOf_twoLinks : LinksOf twoLinks (some 0) [(0, linkA), (1, linkB)] :=
  ⟨by decide, ⟨rfl, rfl, trivial⟩, rfl⟩

theorem removesByName_twoLinks : RemovesByName twoLinks (some 0) [(0, linkA), (1, linkB)] (some (.ofBytes [97])) :=
  (removesByName_iff linksOf_twoLinks _).mpr (by simp)

/-- Its only link stays in the node. -/
theorem not_removesByName_oneLink : ¬ RemovesByName oneLink (some 0) [(0, linkA)] (some (.ofBytes [97])) :=
  not_removesByName_only ⟨by decide, ⟨rfl, trivial⟩, rfl⟩ rfl

section
variable {heap : Heap LinkCell} {headLink : Option Nat} {links before after : List (Nat × NodeLink)}
  {entry last : Nat × NodeLink}

/-! ## Removal of a link -/

theorem nodeRemoveLink_first (holds : LinksOf heap headLink (entry :: after)) :
    nodeRemoveLink heap headLink (some entry.1) =
      some (true, Heap.entrance none after, heap.put entry.1 none) := by
  have whole : LinksOf heap headLink ([] ++ entry :: after) := holds
  have sought := Heap.Listed.seek_found LinkCell.next (fun _ _ => rfl) whole
  have present := holds.chain.1
  rw [nodeRemoveLink, sought]
  simp [present, Heap.free_eq present]

theorem nodeRemoveLink_later (holds : LinksOf heap headLink (before ++ last :: entry :: after)) :
    nodeRemoveLink heap headLink (some entry.1) = some (true, headLink, heap.put entry.1 none) := by
  have holds' : LinksOf heap headLink ((before ++ [last]) ++ entry :: after) := Heap.Listed.onward holds
  have sought := Heap.Listed.seek_found LinkCell.next (fun _ _ => rfl) holds'
  have present := Heap.Listed.load_mid holds'
  rw [nodeRemoveLink, sought]
  simp [present, Heap.free_eq present]

/-- The link before the one that was removed still points to it. -/
theorem not_removesLink_later (holds : LinksOf heap headLink (before ++ last :: entry :: after)) :
    ¬ RemovesLink heap headLink (before ++ last :: entry :: after) entry.1 := by
  have holds' : LinksOf heap headLink ((before ++ [last]) ++ entry :: after) := Heap.Listed.onward holds
  have erased := Heap.Listed.eraseP holds'
  rw [List.append_assoc, List.append_assoc, List.singleton_append, List.singleton_append] at erased
  have present := Heap.Listed.load_mid holds
  rintro ⟨headLink', heap', result, left⟩
  rw [nodeRemoveLink_later holds, Option.some.injEq, Prod.mk.injEq, Prod.mk.injEq] at result
  obtain ⟨-, rfl, rfl⟩ := result
  rw [erased] at left
  have dangling := Heap.Listed.load_mid left
  rw [Heap.load_put_ne heap (Heap.Listed.apart holds).symm, present, Option.some.injEq, LinkCell.mk.injEq] at dangling
  cases after with
  | nil => cases dangling.2
  | cons next after =>
      exact Heap.Listed.apart holds' (Option.some.inj dangling.2)

theorem removesLink_first (holds : LinksOf heap headLink (entry :: after)) :
    RemovesLink heap headLink (entry :: after) entry.1 := by
  refine ⟨_, _, nodeRemoveLink_first holds, ?_⟩
  rw [List.eraseP_cons_of_pos (by simp)]
  exact Heap.Listed.behind holds fun _ other => Heap.load_put_ne heap other.symm _

theorem removesLink_iff_head (holds : LinksOf heap headLink links) (mem : entry ∈ links) :
    RemovesLink heap headLink links entry.1 ↔ headLink = some entry.1 := by
  obtain ⟨before, after, rfl⟩ := List.append_of_mem mem
  rcases List.eq_nil_or_concat before with rfl | ⟨before, last, rfl⟩
  · exact iff_of_true (removesLink_first holds) holds.head.symm
  · rw [List.concat_eq_append, List.append_assoc, List.singleton_append] at *
    exact iff_of_false (not_removesLink_later holds) (Heap.Listed.head_ne holds)

/-- The destructor always removes the first link, and so frees each once. -/
theorem hashtableNodeFreeLinks_releases {fuel : Nat} (enough : links.length ≤ fuel)
    (holds : LinksOf heap headLink links) :
    ∃ heap', hashtableNodeFreeLinks fuel headLink headLink heap = some (none, heap') ∧
      Heap.Released heap heap' links := by
  induction links generalizing fuel heap headLink with
  | nil =>
      obtain rfl : none = headLink := holds.head
      exact ⟨heap, by cases fuel <;> rfl, by simp, fun _ _ => rfl⟩
  | cons link links ih =>
      obtain ⟨fuel, rfl⟩ := Nat.exists_eq_add_of_lt (Nat.lt_of_lt_of_le (Nat.succ_pos _) enough)
      rw [List.length_cons] at enough
      have others (address : Nat) (other : address ≠ link.1) :
          (heap.put link.1 none).load address = heap.load address := Heap.load_put_ne heap other.symm none
      have fewer : links.length ≤ 0 + fuel := by omega
      obtain ⟨heap', freed, released⟩ := ih fewer (Heap.Listed.behind holds others)
      have present := holds.chain.1
      obtain rfl : some link.1 = headLink := holds.head
      refine ⟨heap', ?_, released.step (by simp) (Heap.load_put_self present none) ?_⟩
      · rw [hashtableNodeFreeLinks, present]
        simp only [Option.bind_eq_bind, Option.bind_some, nodeRemoveLink_first holds]
        exact freed
      · intro address outside
        exact others address fun own => outside (own ▸ List.mem_cons_self)

end

/-! ## Removal of a block size -/

section
variable {heap : Heap BlockSizeCell} {blockSizeHead : Option Nat} {sizes before after : List (Nat × UInt64)}
  {entry last : Nat × UInt64}

theorem unixfsRemoveBlocksize_first (holds : BlockSizesOf heap blockSizeHead (entry :: after)) :
    unixfsRemoveBlocksize heap blockSizeHead (some entry.1) = some (none, heap.put entry.1 none) := by
  have whole : BlockSizesOf heap blockSizeHead ([] ++ entry :: after) := holds
  have sought := Heap.Listed.seek_found BlockSizeCell.next (fun _ _ => rfl) whole
  rw [unixfsRemoveBlocksize, sought]
  obtain rfl : some entry.1 = blockSizeHead := holds.head
  simp [Heap.release, Heap.free_eq holds.chain.1]

theorem unixfsRemoveBlocksize_later (holds : BlockSizesOf heap blockSizeHead (before ++ last :: entry :: after)) :
    unixfsRemoveBlocksize heap blockSizeHead (some entry.1) = some (blockSizeHead,
      (heap.put entry.1 none).put last.1 (some ⟨last.2, Heap.entrance none after⟩)) := by
  have holds' : BlockSizesOf heap blockSizeHead ((before ++ [last]) ++ entry :: after) := Heap.Listed.onward holds
  have sought := Heap.Listed.seek_found BlockSizeCell.next (fun _ _ => rfl) holds'
  have presentLast := Heap.Listed.load_mid holds
  have present := Heap.Listed.load_mid holds'
  have kept : (heap.put entry.1 none).load last.1 = some ⟨last.2, some entry.1⟩ :=
    (Heap.load_put_ne heap (Heap.Listed.apart holds).symm none).trans presentLast
  rw [unixfsRemoveBlocksize, sought]
  simp [present, presentLast, Heap.release, Heap.free_eq present, Heap.store_eq kept]

theorem unixfsRemoveBlocksize_absent (holds : BlockSizesOf heap blockSizeHead sizes) {toDelete : Option Nat}
    (absent : ∀ other ∈ sizes, some other.1 ≠ toDelete) :
    ∃ heap', unixfsRemoveBlocksize heap blockSizeHead toDelete = some (blockSizeHead, heap') ∧
      BlockSizesOf heap' blockSizeHead sizes := by
  have sought := Heap.Listed.seek_absent BlockSizeCell.next (fun _ _ => rfl) holds absent
  rcases List.eq_nil_or_concat sizes with rfl | ⟨before, last, rfl⟩
  · refine ⟨heap, ?_, holds⟩
    rw [unixfsRemoveBlocksize, sought]
    obtain rfl : none = blockSizeHead := holds.head
    rfl
  · rw [List.concat_eq_append] at *
    have present := Heap.Listed.load_mid holds
    refine ⟨heap.put last.1 (some ⟨last.2, none⟩), ?_, holds.distinct, holds.chain.congr ?_, holds.head⟩
    · rw [unixfsRemoveBlocksize, sought]
      simp [present, Heap.release, Heap.store_eq present]
    · intro address _ cell loaded
      by_cases own : last.1 = address
      · rw [← own, Heap.load_put_self present, ← loaded, ← own, present]
        rfl
      · rw [Heap.load_put_ne heap own, loaded]

theorem blockSizes_unlink (holds : BlockSizesOf heap blockSizeHead (before ++ last :: entry :: after)) :
    BlockSizesOf ((heap.put entry.1 none).put last.1 (some ⟨last.2, Heap.entrance none after⟩)) blockSizeHead
      (before ++ last :: after) := by
  have kept := (Heap.load_put_ne heap (Heap.Listed.apart holds).symm none).trans (Heap.Listed.load_mid holds)
  apply Heap.Listed.unlink holds (Heap.load_put_self kept _)
  intro address notLast notEntry
  rw [Heap.load_put_ne _ notLast.symm, Heap.load_put_ne _ notEntry.symm]

/-- With the first of several block sizes the others are lost. -/
theorem not_removesBlocksize_first {next : Nat × UInt64} (holds : BlockSizesOf heap blockSizeHead (entry :: next :: after)) :
    ¬ RemovesBlocksize heap blockSizeHead (entry :: next :: after) (some entry.1) := by
  rintro ⟨blockSizeHead', heap', result, left⟩
  rw [unixfsRemoveBlocksize_first holds, Option.some.injEq, Prod.mk.injEq] at result
  rw [List.eraseP_cons_of_pos (by simp)] at left
  cases result.1.trans left.head.symm

theorem removesBlocksize_later (holds : BlockSizesOf heap blockSizeHead (before ++ last :: entry :: after)) :
    RemovesBlocksize heap blockSizeHead (before ++ last :: entry :: after) (some entry.1) := by
  have erased := Heap.Listed.eraseP (Heap.Listed.onward holds)
  refine ⟨_, _, unixfsRemoveBlocksize_later holds, ?_⟩
  simp only [Option.some.injEq]
  rw [List.append_assoc, List.append_assoc, List.singleton_append, List.singleton_append] at erased
  rw [erased]
  exact blockSizes_unlink holds

theorem removesBlocksize_iff (holds : BlockSizesOf heap blockSizeHead sizes) (toDelete : Option Nat) :
    RemovesBlocksize heap blockSizeHead sizes toDelete ↔ ¬ (toDelete = blockSizeHead ∧ 2 ≤ sizes.length) := by
  by_cases listed : ∃ entry ∈ sizes, some entry.1 = toDelete
  · obtain ⟨entry, mem, rfl⟩ := listed
    obtain ⟨before, after, rfl⟩ := List.append_of_mem mem
    rcases List.eq_nil_or_concat before with rfl | ⟨before, last, rfl⟩
    · cases after with
      | nil =>
          refine iff_of_true ⟨_, _, unixfsRemoveBlocksize_first holds, ?_⟩ (by simp)
          rw [List.nil_append, List.eraseP_cons_of_pos (by simp)]
          exact ⟨List.nodup_nil, trivial, rfl⟩
      | cons next after =>
          exact iff_of_false (not_removesBlocksize_first holds) (not_not.mpr ⟨holds.head, by simp⟩)
    · rw [List.concat_eq_append, List.append_assoc, List.singleton_append] at *
      exact iff_of_true (removesBlocksize_later holds) fun both => Heap.Listed.head_ne holds both.1.symm
  · have absent : ∀ other ∈ sizes, some other.1 ≠ toDelete := fun other mem same => listed ⟨other, mem, same⟩
    obtain ⟨heap', removed, left⟩ := unixfsRemoveBlocksize_absent holds absent
    refine iff_of_true ⟨_, _, removed, ?_⟩ ?_
    · rw [List.eraseP_of_forall_not (by simpa using absent)]
      exact left
    · rintro ⟨rfl, several⟩
      cases sizes with
      | nil => simp at several
      | cons entry sizes => exact absent entry List.mem_cons_self holds.head

/-! ## The destructor of a UnixFS object -/

theorem unixfsGetLastBlockSize_eq (chain : heap.Chain BlockSizeCell.mk none (before ++ [last])) {fuel : Nat}
    (enough : before.length < fuel) :
    unixfsGetLastBlockSize heap fuel (Heap.entrance none (before ++ [last])) = some (some last.1) := by
  induction before generalizing fuel with
  | nil =>
      obtain ⟨fuel, rfl⟩ := Nat.exists_eq_add_of_lt enough
      rw [List.nil_append, Heap.entrance_cons, unixfsGetLastBlockSize, chain.1]
      rfl
  | cons first before ih =>
      obtain ⟨fuel, rfl⟩ := Nat.exists_eq_add_of_lt enough
      rw [List.length_cons] at enough ⊢
      have more : Heap.entrance none (before ++ [last]) ≠ none := by cases before <;> simp
      have present : heap.load first.1 = some ⟨first.2, Heap.entrance none (before ++ [last])⟩ := chain.1
      rw [List.cons_append, Heap.entrance_cons, unixfsGetLastBlockSize, present]
      simp only [Option.bind_eq_bind, Option.bind_some]
      rw [if_pos more]
      exact ih chain.2 (by omega)

theorem unixfsGetLastBlockSize_of (holds : BlockSizesOf heap blockSizeHead sizes) :
    unixfsGetLastBlockSize heap heap.cells.length blockSizeHead = some (sizes.getLast?.map Prod.fst) := by
  have fits := Heap.Listed.length_le holds
  rcases List.eq_nil_or_concat sizes with rfl | ⟨before, last, rfl⟩
  · obtain rfl : none = blockSizeHead := holds.head
    cases heap.cells.length <;> rfl
  · rw [List.concat_eq_append] at *
    rw [List.length_append, List.length_singleton] at fits
    rw [← holds.head, unixfsGetLastBlockSize_eq holds.chain fits, List.getLast?_concat]
    rfl

/-- The last block size is always out of the list when it was removed. -/
theorem unixfsRemoveBlocksize_last (holds : BlockSizesOf heap blockSizeHead (before ++ [last])) :
    ∃ blockSizeHead' heap', unixfsRemoveBlocksize heap blockSizeHead (some last.1) = some (blockSizeHead', heap') ∧
      BlockSizesOf heap' blockSizeHead' before ∧ heap'.load last.1 = none ∧
      ∀ address ∉ (before ++ [last]).map Prod.fst, heap'.load address = heap.load address := by
  rcases List.eq_nil_or_concat before with rfl | ⟨before, previous, rfl⟩
  · refine ⟨_, _, unixfsRemoveBlocksize_first holds, ⟨List.nodup_nil, trivial, rfl⟩, ?_, ?_⟩
    · exact Heap.load_put_self holds.chain.1 none
    · intro address outside
      rw [Heap.load_put_ne heap fun same => outside (by simp [same])]
  · rw [List.concat_eq_append, List.append_assoc, List.singleton_append] at *
    refine ⟨_, _, unixfsRemoveBlocksize_later holds, blockSizes_unlink holds, ?_, ?_⟩
    · rw [Heap.load_put_ne _ (Heap.Listed.apart holds)]
      exact Heap.load_put_self (Heap.Listed.load_mid (Heap.Listed.onward holds)) none
    · intro address outside
      rw [Heap.load_put_ne _ fun same => outside (by simp [same]), Heap.load_put_ne heap fun same => outside (by simp [same])]

theorem unixfsFreeLoop_releases {fuel : Nat} (enough : sizes.length ≤ fuel)
    (holds : BlockSizesOf heap blockSizeHead sizes) :
    ∃ heap', unixfsFreeLoop fuel blockSizeHead (sizes.getLast?.map Prod.fst) heap = some (none, heap') ∧
      Heap.Released heap heap' sizes := by
  induction sizes using List.reverseRecOn generalizing fuel heap blockSizeHead with
  | nil =>
      obtain rfl : none = blockSizeHead := holds.head
      exact ⟨heap, by cases fuel <;> rfl, by simp, fun _ _ => rfl⟩
  | append_singleton before last ih =>
      rw [List.length_append, List.length_singleton] at enough
      obtain ⟨fuel, rfl⟩ := Nat.exists_eq_add_of_lt enough
      obtain ⟨blockSizeHead', middle, removed, left, freed, same⟩ := unixfsRemoveBlocksize_last holds
      obtain ⟨heap', loop, released⟩ := ih (Nat.le_add_right before.length fuel) left
      refine ⟨heap', ?_, released.step (by simp [or_comm]) freed same⟩
      rw [List.getLast?_concat, Option.map_some, unixfsFreeLoop, removed]
      simp only [Option.bind_eq_bind, Option.bind_some, unixfsGetLastBlockSize_of left]
      exact loop

theorem unixfsFree_releases (holds : BlockSizesOf heap blockSizeHead sizes) :
    ∃ heap', unixfsFree heap blockSizeHead = some (none, heap') ∧ Heap.Released heap heap' sizes := by
  rw [unixfsFree, unixfsGetLastBlockSize_of holds]
  exact unixfsFreeLoop_releases (Heap.Listed.length_le holds) holds

end

/-! ## Both lists -/

def twoSizes : Heap BlockSizeCell := ⟨[some ⟨1, some 1⟩, some ⟨2, none⟩]⟩

theorem blockSizesOf_twoSizes : BlockSizesOf twoSizes (some 0) [(0, 1), (1, 2)] :=
  ⟨by decide, ⟨rfl, rfl, trivial⟩, rfl⟩

/-- A link is removed rightly at the head only, a block size elsewhere only. The destructors remove where it is
right, and free every element once. -/
theorem list_removal_iff {links : List (Nat × NodeLink)} {sizes : List (Nat × UInt64)} {nodes : Heap LinkCell}
    {blocks : Heap BlockSizeCell} {headLink blockSizeHead : Option Nat} (holds : LinksOf nodes headLink links)
    (holdsSizes : BlockSizesOf blocks blockSizeHead sizes) :
    (∀ entry ∈ links, RemovesLink nodes headLink links entry.1 ↔ headLink = some entry.1) ∧
      (∀ toDelete, RemovesBlocksize blocks blockSizeHead sizes toDelete ↔
        ¬ (toDelete = blockSizeHead ∧ 2 ≤ sizes.length)) ∧
      (∃ nodes', hashtableNodeFree nodes headLink = some (none, nodes') ∧ nodes.Released nodes' links) ∧
      ∃ blocks', unixfsFree blocks blockSizeHead = some (none, blocks') ∧ blocks.Released blocks' sizes := by
  refine ⟨fun entry mem => removesLink_iff_head holds mem, removesBlocksize_iff holdsSizes, ?_, ?_⟩
  · exact hashtableNodeFreeLinks_releases (Heap.Listed.length_le holds) holds
  · exact unixfsFree_releases holdsSizes

theorem list_removal_two :
    RemovesLink twoLinks (some 0) [(0, linkA), (1, linkB)] 0 ∧
      RemovesBlocksize twoSizes (some 0) [(0, 1), (1, 2)] (some 1) := by
  have both := list_removal_iff linksOf_twoLinks blockSizesOf_twoSizes
  exact ⟨(both.1 (0, linkA) (by simp)).mpr rfl, (both.2.1 (some 1)).mpr (by decide)⟩

theorem not_list_removal_two :
    ¬ RemovesLink twoLinks (some 0) [(0, linkA), (1, linkB)] 1 ∧
      ¬ RemovesBlocksize twoSizes (some 0) [(0, 1), (1, 2)] (some 0) := by
  constructor
  · have holds : LinksOf twoLinks (some 0) ([] ++ [(0, linkA), (1, linkB)]) := linksOf_twoLinks
    exact not_removesLink_later holds
  · exact not_removesBlocksize_first blockSizesOf_twoSizes

end Ipfs
