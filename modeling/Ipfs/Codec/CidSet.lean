import Ipfs.Codec.Cid
import Ipfs.Lib.Heap
import Ipfs.Lib.Run

/-!
# The set of Cids

A singly linked list on the heap, whose first element is in the head itself. A call does not come back when it
dereferences NULL or a cell that was freed, when a list goes round for ever, or when an `int` overflows; memory
can always be allocated.
-/

namespace Ipfs

structure CidSet where
  cid : Option Cid := none
  next : Option Nat := none
  deriving DecidableEq

def errInvalidParam : Int := 19

def cidSetNew (heap : Heap CidSet) : Nat × Heap CidSet := heap.alloc {}

/-- Where the loop over the set stops, and what was before it. -/
structure CidSetStop where
  prev : Nat
  set : Nat
  element : CidSet
  matched : Bool

/-- The loop that add, has and remove share: on to the element of the hash, or to the last one. -/
def cidSetSeek (heap : Heap CidSet) (hash : Bytes) : Nat → Nat → Nat → Option CidSetStop
  | 0, _, _ => none
  | fuel + 1, prev, set => do
      let element ← heap.load set
      let cid ← element.cid
      if cid.hash = hash then some ⟨prev, set, element, true⟩
      else match element.next with
        | none => some ⟨prev, set, element, false⟩
        | some next => cidSetSeek heap hash fuel set next

def cidSetAdd (heap : Heap CidSet) (set : Option Nat) (cid : Option Cid) (visit : Int) : Option (Int × Heap CidSet) :=
  match set, cid with
  | some set, some cid => do
      let head ← heap.load set
      if head.cid = none then
        -- first item
        let heap ← heap.store set { head with cid := some cid }
        return (0, heap)
      let stop ← cidSetSeek heap cid.hash heap.cells.length set set
      if stop.matched then
        -- already added; update with new cid
        if visit = 0 then
          let heap ← heap.store stop.set { stop.element with cid := some cid }
          return (0, heap)
        return (0, heap)
      let (next, heap) := cidSetNew heap
      let heap ← heap.store stop.set { stop.element with next := some next }
      let heap ← heap.store next { cid := some cid }
      return (0, heap)
  | _, _ => some (errInvalidParam, heap)

def cidSetHas (heap : Heap CidSet) (set : Option Nat) (cid : Option Cid) : Option Bool :=
  match set, cid with
  | some set, some cid => do
      let head ← heap.load set
      if head.cid = none then return false
      let stop ← cidSetSeek heap cid.hash heap.cells.length set set
      return stop.matched
  | _, _ => some false

/-- The end of `ipfs_cid_set_remove`, at the element to be removed. -/
def cidSetUnlink (heap : Heap CidSet) (stop : CidSetStop) : Option (Bool × Heap CidSet) := do
  if stop.prev = stop.set then
    -- first item
    match stop.element.next with
    | none =>
        let heap ← heap.store stop.prev { stop.element with cid := none }
        return (true, heap)
    | some next =>
        let neighbour ← heap.load next
        let heap ← heap.store stop.prev { stop.element with cid := neighbour.cid }
        let heap ← heap.free next
        return (true, heap)
  else
    let prev ← heap.load stop.prev
    let heap ← heap.store stop.prev { prev with next := stop.element.next }
    let heap ← heap.free stop.set
    return (true, heap)

def cidSetRemove (heap : Heap CidSet) (set : Option Nat) (cid : Option Cid) : Option (Bool × Heap CidSet) :=
  match set, cid with
  | some set, some cid => do
      let head ← heap.load set
      if head.cid = none then return (false, heap)
      let stop ← cidSetSeek heap cid.hash heap.cells.length set set
      if stop.matched then cidSetUnlink heap stop else return (false, heap)
  | _, _ => some (false, heap)

def cidSetCount (heap : Heap CidSet) : Nat → Option Nat → Nat → Option Nat
  | _, none, len => some len
  | 0, some _, _ => none
  | fuel + 1, some set, len => do
      let element ← heap.load set
      if len + 1 < 2 ^ 31 then cidSetCount heap fuel element.next (len + 1) else none

def cidSetLen (heap : Heap CidSet) (set : Option Nat) : Option Nat :=
  match set with
  | none => some 0
  | some set => do
      let head ← heap.load set
      if head.cid = none then return 0
      cidSetCount heap heap.cells.length (some set) 0

/-- The loop of `ipfs_cid_set_keys`, which counts `len` up and not `i`. -/
def cidSetKeysLoop (heap : Heap CidSet) :
    Nat → Option Nat → Nat → Nat → List (Option Bytes) → Option (List (Option Bytes))
  | 0, _, _, _, _ => none
  | fuel + 1, set, i, len, ret =>
      if i < len then do
        -- a NULL set is passed over, and dereferenced behind that
        let element ← set.bind heap.load
        let ret := match element.cid with
          | some cid => ret.set i (some cid.hash)
          | none => ret
        if len + 1 < 2 ^ 31 then cidSetKeysLoop heap fuel element.next i (len + 1) ret else none
      else some ret

def cidSetKeys (heap : Heap CidSet) (set : Option Nat) : Option (List (Option Bytes)) := do
  let len ← cidSetLen heap set
  if len + 1 < 2 ^ 31 then
    cidSetKeysLoop heap (heap.cells.length + 1) set 0 len (List.replicate (len + 1) none)
  else none

/-- The loop of `ipfs_cid_set_foreach`, with the calls of the function so far; what it returns may depend on them. -/
def cidSetForeachLoop (heap : Heap CidSet) (func : List Cid → Cid → Int) :
    Nat → Option Nat → Int → List Cid → Option (Int × List Cid)
  | _, none, err, calls => some (err, calls)
  | 0, some _, _, _ => none
  | fuel + 1, some set, err, calls => do
      let element ← heap.load set
      match element.cid with
      | none => cidSetForeachLoop heap func fuel element.next err calls
      | some cid =>
          let err := func calls cid
          if err ≠ 0 then return (err, calls ++ [cid])
          cidSetForeachLoop heap func fuel element.next err (calls ++ [cid])

def cidSetForeach (heap : Heap CidSet) (set : Option Nat) (func : List Cid → Cid → Int) : Option (Int × List Cid) :=
  cidSetForeachLoop heap func heap.cells.length set 0 []

/-! ## Runs -/

inductive CidSetCall
  | add (cid : Cid) (visit : Int)
  | remove (cid : Cid)

def CidSetCall.hash : CidSetCall → Bytes
  | .add cid _ | .remove cid => cid.hash

/-- The calls on one set, whose head is the cell 0. -/
def cidSetMachine : Machine (Heap CidSet) CidSetCall where
  step
    | heap, .add cid visit => (cidSetAdd heap (some 0) (some cid) visit).map Prod.snd
    | heap, .remove cid => (cidSetRemove heap (some 0) (some cid)).map Prod.snd

def LastAdded (calls : List CidSetCall) (hash : Bytes) : Prop :=
  ∃ cid visit, calls.reverse.find? (fun call => call.hash = hash) = some (.add cid visit)

def visitAll (func : List Cid → Cid → Int) : Int → List Cid → List Cid → Int × List Cid
  | err, calls, [] => (err, calls)
  | _, calls, cid :: cids =>
      if func calls cid ≠ 0 then (func calls cid, calls ++ [cid]) else visitAll func 0 (calls ++ [cid]) cids

/-- What has, len and foreach tell of the set. -/
structure ReadsAsSet (heap : Heap CidSet) (calls : List CidSetCall) : Prop where
  has : ∀ cid, ∃ found, cidSetHas heap (some 0) (some cid) = some found ∧ (found = true ↔ LastAdded calls cid.hash)
  len : cidSetLen heap (some 0) = some (Set.ncard {hash | LastAdded calls hash})
  foreach : ∃ cids : List Cid, (cids.map Cid.hash).Nodup ∧
    (∀ hash, hash ∈ cids.map Cid.hash ↔ LastAdded calls hash) ∧
    ∀ func, cidSetForeach heap (some 0) func = some (visitAll func 0 [] cids)

/-- The keys are each hash once, and NULL behind them. -/
def KeysOfSet (heap : Heap CidSet) (calls : List CidSetCall) : Prop :=
  ∃ keys : List Bytes, cidSetKeys heap (some 0) = some (keys.map some ++ [none]) ∧ keys.Nodup ∧
    ∀ hash, hash ∈ keys ↔ LastAdded calls hash

/-- In every state of the run from the empty set. -/
def IsCidSet (calls : List CidSetCall) : Prop :=
  ∀ before, before <+: calls →
    ∃ heap, cidSetMachine.run (cidSetNew {}).2 before = some heap ∧ ReadsAsSet heap before

def CidSetCall.apply (hashes : List Bytes) : CidSetCall → List Bytes
  | .add cid _ => if hashes.contains cid.hash then hashes else hashes ++ [cid.hash]
  | .remove cid => hashes.erase cid.hash

/-- The hashes of the set, in the order in which they came. -/
def members (calls : List CidSetCall) : List Bytes := calls.foldl CidSetCall.apply []

/-- The oldest hash is only removed when it is the last one, and an `int` counts the hashes. -/
def CidSetAllowed (before : List CidSetCall) : CidSetCall → Prop
  | .add cid _ => cid.hash ∈ members before ∨ (members before).length + 1 < 2 ^ 31
  | .remove cid => (members before).head? = some cid.hash → (members before).length = 1

/-! ## The hashes of a set -/

theorem CidSetCall.apply_add (cid : Cid) (visit : Int) (hashes : List Bytes) :
    (CidSetCall.add cid visit).apply hashes = if cid.hash ∈ hashes then hashes else hashes ++ [cid.hash] := by
  simp only [apply, List.contains_iff_mem]

theorem members_concat (calls : List CidSetCall) (call : CidSetCall) :
    members (calls ++ [call]) = call.apply (members calls) := by
  rw [members, List.foldl_append]
  rfl

theorem CidSetCall.nodup_apply (call : CidSetCall) {hashes : List Bytes} (distinct : hashes.Nodup) :
    (call.apply hashes).Nodup := by
  cases call with
  | remove cid => exact distinct.erase _
  | add cid visit =>
      rw [apply_add]
      split
      · exact distinct
      · rename_i fresh
        exact List.nodup_append'.mpr ⟨distinct, List.nodup_singleton _, by simpa using fresh⟩

theorem nodup_members (calls : List CidSetCall) : (members calls).Nodup := by
  induction calls using List.reverseRecOn with
  | nil => exact List.nodup_nil
  | append_singleton calls call ih =>
      rw [members_concat]
      exact call.nodup_apply ih

theorem lastAdded_concat (calls : List CidSetCall) (call : CidSetCall) (hash : Bytes) :
    LastAdded (calls ++ [call]) hash ↔
      if call.hash = hash then ∃ cid visit, call = .add cid visit else LastAdded calls hash := by
  simp only [LastAdded, List.reverse_append, List.reverse_singleton, List.singleton_append, List.find?_cons]
  by_cases same : call.hash = hash <;> simp [same]

theorem CidSetCall.mem_apply (call : CidSetCall) {hashes : List Bytes} (distinct : hashes.Nodup) (hash : Bytes) :
    hash ∈ call.apply hashes ↔ if call.hash = hash then ∃ cid visit, call = .add cid visit else hash ∈ hashes := by
  cases call with
  | remove cid =>
      simp only [apply, distinct.mem_erase_iff, CidSetCall.hash]
      by_cases same : cid.hash = hash
      · simp [same]
      · have other : hash ≠ cid.hash := fun eq => same eq.symm
        simp [same, other]
  | add cid visit =>
      simp only [apply_add, CidSetCall.hash]
      by_cases same : cid.hash = hash
      · subst same
        split <;> simp [*]
      · have other : hash ≠ cid.hash := fun eq => same eq.symm
        split <;> simp [same, other]

theorem mem_members_iff (calls : List CidSetCall) (hash : Bytes) : hash ∈ members calls ↔ LastAdded calls hash := by
  induction calls using List.reverseRecOn with
  | nil => simp [members, LastAdded]
  | append_singleton calls call ih =>
      rw [members_concat, call.mem_apply (nodup_members calls), lastAdded_concat, ih]

theorem ncard_lastAdded (calls : List CidSetCall) :
    Set.ncard {hash | LastAdded calls hash} = (members calls).length := by
  have asFinset : {hash | LastAdded calls hash} = ((members calls).toFinset : Set Bytes) := by
    ext hash
    simp [mem_members_iff]
  rw [asFinset, Set.ncard_coe_finset, List.toFinset_card_of_nodup (nodup_members calls)]

/-! ## The list on the heap -/

def CidSet.holding (cid : Cid) (next : Option Nat) : CidSet := ⟨some cid, next⟩

/-- The head is empty, or the elements are linked from it on. -/
structure HoldsCids (heap : Heap CidSet) (elements : List (Nat × Cid)) : Prop where
  distinct : (elements.map Prod.fst).Nodup
  chain : heap.Chain CidSet.holding none elements
  head : elements = [] ∧ heap.load 0 = some {} ∨ Heap.entrance none elements = some 0

section
variable {heap : Heap CidSet} {elements before after : List (Nat × Cid)} {element : Nat × Cid} {hash : Bytes}

theorem cidSetSeek_stops (chain : heap.Chain CidSet.holding none (before ++ element :: after))
    (others : ∀ other ∈ before, other.2.hash ≠ hash) (stops : element.2.hash = hash ∨ after = [])
    {fuel prev start : Nat} (enough : before.length < fuel) (entered : Heap.entrance none (before ++ element :: after) = some start) :
    cidSetSeek heap hash fuel prev start =
      some ⟨(before.getLast?.map Prod.fst).getD prev, element.1, .holding element.2 (Heap.entrance none after),
        decide (element.2.hash = hash)⟩ := by
  induction before generalizing fuel prev start with
  | nil =>
      obtain ⟨fuel, rfl⟩ := Nat.exists_eq_add_of_lt enough
      obtain rfl := Option.some.inj entered
      rw [cidSetSeek, chain.1]
      rcases stops with same | rfl
      · simp [CidSet.holding, same]
      · by_cases same : element.2.hash = hash <;> simp [CidSet.holding, Heap.entrance, same]
  | cons other before ih =>
      obtain ⟨fuel, rfl⟩ := Nat.exists_eq_add_of_lt enough
      obtain rfl := Option.some.inj entered
      rw [List.forall_mem_cons] at others
      obtain ⟨next, more⟩ : ∃ next, Heap.entrance none (before ++ element :: after) = some next := by
        cases before <;> exact ⟨_, rfl⟩
      have first : heap.load other.1 = some (.holding other.2 (Heap.entrance none (before ++ element :: after))) :=
        chain.1
      rw [cidSetSeek, first, more]
      simp only [CidSet.holding, Option.bind_eq_bind, Option.bind_some, if_neg others.1]
      rw [ih chain.2 others.2 (by simp only [List.length_cons]; omega) more, List.getLast?_cons]
      cases before.getLast? <;> rfl

def hashesOf (elements : List (Nat × Cid)) : List Bytes := elements.map fun element => element.2.hash

theorem matched_iff (others : ∀ other ∈ before, other.2.hash ≠ hash) (stops : element.2.hash = hash ∨ after = []) :
    element.2.hash = hash ↔ hash ∈ hashesOf (before ++ element :: after) := by
  constructor
  · rintro rfl
    exact List.mem_map.mpr ⟨element, by simp, rfl⟩
  · intro mem
    rcases stops with same | rfl
    · exact same
    · obtain ⟨own, mem, same⟩ := List.mem_map.mp mem
      rcases List.mem_append.mp mem with earlier | last
      · exact absurd same (others own earlier)
      · exact List.mem_singleton.mp last ▸ same

theorem HoldsCids.load_first (holds : HoldsCids heap (element :: after)) :
    element.1 = 0 ∧ heap.load 0 = some (.holding element.2 (Heap.entrance none after)) := by
  obtain ⟨⟨⟩, -⟩ | entered := holds.head
  have isHead : element.1 = 0 := Option.some.inj entered
  exact ⟨isHead, isHead ▸ holds.chain.1⟩

theorem HoldsCids.load_head (holds : HoldsCids heap elements) :
    ∃ head, heap.load 0 = some head ∧ (head.cid = none ↔ elements = []) := by
  obtain ⟨rfl, empty⟩ | entered := holds.head
  · exact ⟨{}, empty, by simp⟩
  · cases elements with
    | nil => cases entered
    | cons element elements => exact ⟨_, holds.load_first.2, by simp [CidSet.holding]⟩

theorem HoldsCids.seek (holds : HoldsCids heap elements) (nonempty : elements ≠ []) (hash : Bytes) :
    ∃ before element after, elements = before ++ element :: after ∧ (∀ other ∈ before, other.2.hash ≠ hash) ∧
      (element.2.hash = hash ∨ after = []) ∧
      cidSetSeek heap hash heap.cells.length 0 0 =
        some ⟨(before.getLast?.map Prod.fst).getD 0, element.1, .holding element.2 (Heap.entrance none after),
          decide (element.2.hash = hash)⟩ := by
  obtain ⟨before, element, after, rfl, others, stops⟩ :=
    Heap.exists_stop (fun element => element.2.hash = hash) nonempty
  refine ⟨before, element, after, rfl, others, stops, ?_⟩
  have fits := holds.chain.length_le holds.distinct
  rw [List.length_append, List.length_cons] at fits
  obtain ⟨empty, -⟩ | entered := holds.head
  · exact absurd empty nonempty
  · exact cidSetSeek_stops holds.chain others stops (by omega) entered

theorem HoldsCids.seek_present (holds : HoldsCids heap elements) (mem : hash ∈ hashesOf elements) :
    ∃ head before element after, heap.load 0 = some head ∧ head.cid ≠ none ∧
      elements = before ++ element :: after ∧ element.2.hash = hash ∧
      cidSetSeek heap hash heap.cells.length 0 0 =
        some ⟨(before.getLast?.map Prod.fst).getD 0, element.1, .holding element.2 (Heap.entrance none after), true⟩ := by
  have nonempty : elements ≠ [] := by
    rintro rfl
    cases mem
  obtain ⟨head, present, empty⟩ := holds.load_head
  obtain ⟨before, element, after, rfl, others, stops, seek⟩ := holds.seek nonempty hash
  have same := (matched_iff others stops).mpr mem
  rw [decide_eq_true same] at seek
  exact ⟨head, before, element, after, present, mt empty.mp nonempty, rfl, same, seek⟩

theorem HoldsCids.seek_absent (holds : HoldsCids heap elements) (nonempty : elements ≠ [])
    (fresh : hash ∉ hashesOf elements) :
    ∃ head before element, heap.load 0 = some head ∧ head.cid ≠ none ∧ elements = before ++ [element] ∧
      cidSetSeek heap hash heap.cells.length 0 0 =
        some ⟨(before.getLast?.map Prod.fst).getD 0, element.1, .holding element.2 none, false⟩ := by
  obtain ⟨head, present, empty⟩ := holds.load_head
  obtain ⟨before, element, after, rfl, others, stops, seek⟩ := holds.seek nonempty hash
  have other := mt (matched_iff others stops).mp fresh
  obtain rfl := stops.resolve_left other
  rw [decide_eq_false other] at seek
  exact ⟨head, before, element, present, mt empty.mp nonempty, rfl, seek⟩

theorem HoldsCids.has (holds : HoldsCids heap elements) (cid : Cid) :
    cidSetHas heap (some 0) (some cid) = some (decide (cid.hash ∈ hashesOf elements)) := by
  by_cases mem : cid.hash ∈ hashesOf elements
  · obtain ⟨head, _, _, _, present, filled, -, -, seek⟩ := holds.seek_present mem
    simp [cidSetHas, present, filled, seek, mem]
  · by_cases nonempty : elements = []
    · obtain ⟨head, present, empty⟩ := holds.load_head
      simp [cidSetHas, present, empty.mpr nonempty, mem]
    · obtain ⟨head, _, _, present, -, -, seek⟩ := holds.seek_absent nonempty mem
      simp [cidSetHas, present, seek, mem]

theorem cidSetCount_chain (chain : heap.Chain CidSet.holding none elements) {fuel : Nat}
    (enough : elements.length ≤ fuel) (len : Nat) :
    cidSetCount heap fuel (Heap.entrance none elements) len =
      if elements = [] ∨ len + elements.length < 2 ^ 31 then some (len + elements.length) else none := by
  induction elements generalizing fuel len with
  | nil => cases fuel <;> rfl
  | cons element elements ih =>
      obtain ⟨fuel, rfl⟩ := Nat.exists_eq_add_of_lt enough
      rw [Heap.entrance, cidSetCount, chain.1]
      simp only [CidSet.holding, Option.bind_eq_bind, Option.bind_some]
      rw [ih chain.2 (by omega), List.length_cons]
      by_cases fits : len + 1 + elements.length < 2 ^ 31
      · rw [if_pos (by omega), if_pos (.inr fits), if_pos (.inr (by omega)), Nat.add_right_comm, Nat.add_assoc]
      · have tooMany : ¬ (element :: elements = [] ∨ len + (elements.length + 1) < 2 ^ 31) := by
          rintro (⟨⟨⟩⟩ | fits')
          omega
        rw [if_neg tooMany]
        by_cases more : len + 1 < 2 ^ 31
        · have nonempty : elements ≠ [] := by
            rintro rfl
            exact fits more
          rw [if_pos more, if_neg (not_or.mpr ⟨nonempty, fits⟩)]
        · rw [if_neg more]

theorem HoldsCids.len (holds : HoldsCids heap elements) :
    cidSetLen heap (some 0) = if elements.length < 2 ^ 31 then some elements.length else none := by
  obtain ⟨head, present, empty⟩ := holds.load_head
  rw [cidSetLen, present, Option.bind_eq_bind, Option.bind_some]
  by_cases nonempty : elements = []
  · simp [empty.mpr nonempty, nonempty]
  · obtain ⟨isEmpty, -⟩ | entered := holds.head
    · exact absurd isEmpty nonempty
    · rw [if_neg (mt empty.mp nonempty), ← entered,
        cidSetCount_chain holds.chain (holds.chain.length_le holds.distinct)]
      simp [nonempty]

theorem cidSetForeachLoop_chain (func : List Cid → Cid → Int) (chain : heap.Chain CidSet.holding none elements)
    {fuel : Nat} (enough : elements.length ≤ fuel) (calls : List Cid) :
    cidSetForeachLoop heap func fuel (Heap.entrance none elements) 0 calls =
      some (visitAll func 0 calls (elements.map Prod.snd)) := by
  induction elements generalizing fuel calls with
  | nil => cases fuel <;> rfl
  | cons element elements ih =>
      obtain ⟨fuel, rfl⟩ := Nat.exists_eq_add_of_lt enough
      rw [Heap.entrance, cidSetForeachLoop, chain.1, List.map_cons, visitAll]
      simp only [CidSet.holding, Option.bind_eq_bind, Option.bind_some]
      by_cases error : func calls element.2 = 0
      · rw [if_neg (not_not.mpr error), if_neg (not_not.mpr error), error]
        exact ih chain.2 (by omega) _
      · rw [if_pos error, if_pos error]
        rfl

theorem HoldsCids.foreach (holds : HoldsCids heap elements) (func : List Cid → Cid → Int) :
    cidSetForeach heap (some 0) func = some (visitAll func 0 [] (elements.map Prod.snd)) := by
  obtain ⟨rfl, empty⟩ | entered := holds.head
  · rw [cidSetForeach]
    obtain ⟨fuel, cells⟩ := Nat.exists_eq_add_of_lt (Heap.lt_of_load empty)
    rw [cells, cidSetForeachLoop, empty]
    cases fuel <;> rfl
  · rw [cidSetForeach, ← entered, cidSetForeachLoop_chain func holds.chain (holds.chain.length_le holds.distinct)]

/-! ## Add and remove -/

theorem HoldsCids.add_first (holds : HoldsCids heap []) (cid : Cid) (visit : Int) :
    ∃ heap', cidSetAdd heap (some 0) (some cid) visit = some (0, heap') ∧ HoldsCids heap' [(0, cid)] := by
  obtain ⟨-, empty⟩ | entered := holds.head
  · refine ⟨heap.put 0 (some (.holding cid none)), ?_, by simp, ⟨Heap.load_put_self empty _, trivial⟩, .inr rfl⟩
    rw [cidSetAdd, empty]
    simp [Heap.store_eq empty, CidSet.holding]
  · cases entered

theorem HoldsCids.apart (holds : HoldsCids heap (before ++ element :: after)) :
    element.1 ∉ (before ++ after).map Prod.fst ∧ ((before ++ after).map Prod.fst).Nodup := by
  have distinct := holds.distinct
  rw [List.map_append, List.map_cons, List.nodup_middle, ← List.map_append] at distinct
  exact List.nodup_cons.mp distinct

theorem HoldsCids.load (holds : HoldsCids heap (before ++ element :: after)) :
    heap.load element.1 = some (.holding element.2 (Heap.entrance none after)) :=
  (Heap.chain_append.mp holds.chain).2.1

theorem HoldsCids.entered (holds : HoldsCids heap (before ++ element :: after)) :
    Heap.entrance none (before ++ element :: after) = some 0 := by
  obtain ⟨empty, -⟩ | entered := holds.head
  · simp at empty
  · exact entered

theorem HoldsCids.replace (holds : HoldsCids heap (before ++ element :: after)) (cid : Cid) :
    HoldsCids (heap.put element.1 (some (.holding cid (Heap.entrance none after))))
      (before ++ (element.1, cid) :: after) := by
  obtain ⟨chain, present, behind⟩ := Heap.chain_append.mp holds.chain
  refine ⟨?_, chain.relink present behind holds.apart.1 cid, .inr ?_⟩
  · simpa using holds.distinct
  · rw [← holds.entered, Heap.entrance_append, Heap.entrance_append]
    rfl

theorem HoldsCids.append (holds : HoldsCids heap (before ++ [element])) (cid : Cid) :
    ∃ linked filled, (heap.alloc {}).2.store element.1 (.holding element.2 (some heap.cells.length)) = some linked ∧
      linked.store heap.cells.length (.holding cid none) = some filled ∧
      HoldsCids filled (before ++ [element] ++ [(heap.cells.length, cid)]) := by
  obtain ⟨chain, present, -⟩ := Heap.chain_append.mp holds.chain
  have fresh : heap.cells.length ∉ (before ++ [element]).map Prod.fst := fun mem =>
    lt_irrefl _ (holds.chain.lt _ mem)
  have old : element.1 ≠ heap.cells.length := fun same => fresh (by simp [← same])
  have noMore (stop : Option Nat) (heap : Heap CidSet) : heap.Chain CidSet.holding stop [] := trivial
  have linked := (chain.alloc {}).relink (Heap.load_alloc present {}) (noMore (some heap.cells.length) _) holds.apart.1
    element.2
  have room := (Heap.load_put_ne (heap.alloc {}).2 old
    (some (.holding element.2 (some heap.cells.length)))).trans (heap.load_alloc_self {})
  refine ⟨_, _, Heap.store_eq (Heap.load_alloc present {}) _, Heap.store_eq room _, ?_,
    linked.relink room (noMore none _) (by simpa using fresh) cid, .inr ?_⟩
  · rw [List.map_append]
    refine List.nodup_append'.mpr ⟨holds.distinct, List.nodup_singleton _, by simpa using fresh⟩
  · rw [List.append_assoc, ← holds.entered, Heap.entrance_append, Heap.entrance_append none before]
    rfl

theorem HoldsCids.add_present (holds : HoldsCids heap elements) {cid : Cid} (mem : cid.hash ∈ hashesOf elements)
    (visit : Int) :
    ∃ heap' elements', cidSetAdd heap (some 0) (some cid) visit = some (0, heap') ∧ HoldsCids heap' elements' ∧
      hashesOf elements' = hashesOf elements := by
  obtain ⟨head, before, element, after, present, filled, rfl, same, seek⟩ := holds.seek_present mem
  simp only [cidSetAdd, present, Option.bind_eq_bind, Option.bind_some, if_neg filled, seek, if_true]
  by_cases update : visit = 0
  · refine ⟨_, _, ?_, holds.replace cid, by simp [hashesOf, same]⟩
    rw [if_pos update, Heap.store_eq holds.load]
    rfl
  · exact ⟨heap, _, by rw [if_neg update]; rfl, holds, rfl⟩

theorem HoldsCids.add_absent (holds : HoldsCids heap elements) {cid : Cid} (fresh : cid.hash ∉ hashesOf elements)
    (visit : Int) :
    ∃ heap' elements', cidSetAdd heap (some 0) (some cid) visit = some (0, heap') ∧ HoldsCids heap' elements' ∧
      hashesOf elements' = hashesOf elements ++ [cid.hash] := by
  by_cases nonempty : elements = []
  · subst nonempty
    obtain ⟨heap', added, holds'⟩ := holds.add_first cid visit
    exact ⟨heap', _, added, holds', rfl⟩
  · obtain ⟨head, before, element, present, occupied, rfl, seek⟩ := holds.seek_absent nonempty fresh
    obtain ⟨linked, filled, link, fill, holds'⟩ := holds.append cid
    refine ⟨filled, _, ?_, holds', by simp [hashesOf]⟩
    simp only [cidSetAdd, present, Option.bind_eq_bind, Option.bind_some, if_neg occupied, seek, Bool.false_eq_true,
      if_false, cidSetNew]
    exact Option.bind_eq_some_iff.mpr ⟨linked, link, Option.bind_eq_some_iff.mpr ⟨filled, fill, rfl⟩⟩

theorem HoldsCids.remove_absent (holds : HoldsCids heap elements) {cid : Cid} (fresh : cid.hash ∉ hashesOf elements) :
    cidSetRemove heap (some 0) (some cid) = some (false, heap) := by
  by_cases nonempty : elements = []
  · obtain ⟨head, present, empty⟩ := holds.load_head
    simp [cidSetRemove, present, empty.mpr nonempty]
  · obtain ⟨head, _, _, present, -, -, seek⟩ := holds.seek_absent nonempty fresh
    simp [cidSetRemove, present, seek]

theorem HoldsCids.remove_present (holds : HoldsCids heap elements) {cid : Cid} (mem : cid.hash ∈ hashesOf elements) :
    ∃ before element after, elements = before ++ element :: after ∧ element.2.hash = cid.hash ∧
      cidSetRemove heap (some 0) (some cid) = cidSetUnlink heap
        ⟨(before.getLast?.map Prod.fst).getD 0, element.1, .holding element.2 (Heap.entrance none after), true⟩ := by
  obtain ⟨head, before, element, after, present, filled, rfl, same, seek⟩ := holds.seek_present mem
  refine ⟨before, element, after, rfl, same, ?_⟩
  simp only [cidSetRemove, present, Option.bind_eq_bind, Option.bind_some, if_neg filled, seek, if_true]

theorem HoldsCids.unlink_only (holds : HoldsCids heap [element]) :
    ∃ heap', cidSetUnlink heap ⟨0, element.1, .holding element.2 none, true⟩ = some (true, heap') ∧
      HoldsCids heap' [] := by
  obtain ⟨isHead, present⟩ := holds.load_first
  refine ⟨heap.put 0 (some {}), ?_, by simp, trivial, .inl ⟨rfl, Heap.load_put_self present _⟩⟩
  simp [cidSetUnlink, isHead, CidSet.holding, Heap.store_eq present]

theorem HoldsCids.unlink_behind {prev : Nat × Cid} (holds : HoldsCids heap (before ++ prev :: element :: after)) :
    ∃ heap', cidSetUnlink heap ⟨prev.1, element.1, .holding element.2 (Heap.entrance none after), true⟩ =
        some (true, heap') ∧ HoldsCids heap' (before ++ prev :: after) := by
  obtain ⟨chain, present, -, behind⟩ := Heap.chain_append.mp holds.chain
  have asElement : before ++ prev :: element :: after = (before ++ [prev]) ++ element :: after := by simp
  have holds' := asElement ▸ holds
  have fresh : element.1 ∉ (before ++ prev :: after).map Prod.fst := by simpa using holds'.apart.1
  have distinct : ((before ++ prev :: after).map Prod.fst).Nodup := by simpa using holds'.apart.2
  have other : prev.1 ≠ element.1 := fun same => fresh (by simp [← same])
  have apart : prev.1 ∉ (before ++ after).map Prod.fst := fun mem => holds.apart.1 (by
    rw [List.map_append, List.mem_append] at mem ⊢
    exact mem.imp_right (List.mem_cons_of_mem _))
  have freed := (Heap.load_put_ne heap other (some (.holding prev.2 (Heap.entrance none after)))).trans holds'.load
  refine ⟨_, ?_, distinct, (chain.relink present behind apart prev.2).put fresh none, .inr ?_⟩
  · simp only [cidSetUnlink, if_neg other, holds.load, Option.bind_eq_bind, Option.bind_some, CidSet.holding]
    rw [Heap.store_eq holds.load, Option.bind_some]
    exact Option.bind_eq_some_iff.mpr ⟨_, Heap.free_eq freed, rfl⟩
  · rw [← holds.entered, Heap.entrance_append, Heap.entrance_append none before]
    rfl

theorem cidSetLen_dangling {cid : Cid} {next : Nat} (present : heap.load 0 = some (.holding cid (some next)))
    (freed : heap.load next = none) : cidSetLen heap (some 0) = none := by
  have count (fuel : Nat) : cidSetCount heap fuel (some 0) 0 = none := by
    cases fuel with
    | zero => rfl
    | succ fuel =>
        rw [cidSetCount, present]
        cases fuel with
        | zero => rfl
        | succ fuel => simp [CidSet.holding, cidSetCount, freed]
  simp [cidSetLen, present, CidSet.holding, count]

/-- In the head, the neighbour's Cid is moved, and the head goes on pointing to the neighbour, which is freed. -/
theorem HoldsCids.unlink_head {neighbour : Nat × Cid} (holds : HoldsCids heap (element :: neighbour :: after)) :
    ∃ heap', cidSetUnlink heap ⟨0, element.1, .holding element.2 (some neighbour.1), true⟩ = some (true, heap') ∧
      cidSetLen heap' (some 0) = none := by
  obtain ⟨isHead, present⟩ := holds.load_first
  have behind := holds.chain.2.1
  have other : 0 ≠ neighbour.1 := fun same => by simpa [isHead, ← same] using holds.distinct
  have freed := (Heap.load_put_ne heap other (some (.holding neighbour.2 (some neighbour.1)))).trans behind
  refine ⟨(heap.put 0 (some (.holding neighbour.2 (some neighbour.1)))).put neighbour.1 none, ?_, ?_⟩
  · simp only [cidSetUnlink, isHead, if_true, CidSet.holding, behind, Option.bind_eq_bind, Option.bind_some]
    rw [Heap.store_eq present, Option.bind_some]
    exact Option.bind_eq_some_iff.mpr ⟨_, Heap.free_eq freed, rfl⟩
  · have moved := Heap.load_put_self present (some (.holding neighbour.2 (some neighbour.1)))
    exact cidSetLen_dangling ((Heap.load_put_ne _ other.symm none).trans moved) (Heap.load_put_self freed none)

end

/-! ## What the set keeps -/

def HoldsMembers (calls : List CidSetCall) (heap : Heap CidSet) : Prop :=
  ∃ elements, HoldsCids heap elements ∧ hashesOf elements = members calls

section
variable {before calls : List CidSetCall} {heap : Heap CidSet}

/-- Only `len` may count too many. -/
theorem HoldsMembers.readsAsSet_iff (holds : HoldsMembers calls heap) :
    ReadsAsSet heap calls ↔ (members calls).length < 2 ^ 31 := by
  obtain ⟨elements, holds, same⟩ := holds
  rw [← same, hashesOf, List.length_map]
  constructor
  · intro reads
    have len := reads.len
    rw [holds.len] at len
    split at len
    · assumption
    · cases len
  · intro few
    have distinct : (hashesOf elements).Nodup := same ▸ nodup_members calls
    refine ⟨fun cid => ⟨_, holds.has cid, ?_⟩, ?_, elements.map Prod.snd, ?_, fun hash => ?_, holds.foreach⟩
    · rw [decide_eq_true_iff, same, mem_members_iff]
    · rw [holds.len, if_pos few, ncard_lastAdded, ← same, hashesOf, List.length_map]
    · rw [List.map_map]
      exact distinct
    · rw [List.map_map, ← mem_members_iff, ← same]
      rfl

theorem HoldsMembers.add (holds : HoldsMembers before heap) (cid : Cid) (visit : Int) :
    ∃ heap', cidSetMachine.step heap (.add cid visit) = some heap' ∧
      HoldsMembers (before ++ [.add cid visit]) heap' := by
  obtain ⟨elements, holds, same⟩ := holds
  by_cases mem : cid.hash ∈ hashesOf elements
  · obtain ⟨heap', elements', added, holds', kept⟩ := holds.add_present mem visit
    refine ⟨heap', by simp [cidSetMachine, added], elements', holds', ?_⟩
    rw [members_concat, CidSetCall.apply_add, if_pos (same ▸ mem), kept, same]
  · obtain ⟨heap', elements', added, holds', longer⟩ := holds.add_absent mem visit
    refine ⟨heap', by simp [cidSetMachine, added], elements', holds', ?_⟩
    rw [members_concat, CidSetCall.apply_add, if_neg (same ▸ mem), longer, same]

theorem not_mem_hashesOf {first rest : List (Nat × Cid)} {element : Nat × Cid}
    (distinct : (hashesOf (first ++ element :: rest)).Nodup) : element.2.hash ∉ hashesOf first := by
  rw [hashesOf, List.map_append, List.map_cons, List.nodup_middle, List.nodup_cons, List.mem_append, not_or] at distinct
  exact distinct.1.1

theorem hashesOf_erase {first rest : List (Nat × Cid)} {element : Nat × Cid}
    (distinct : (hashesOf (first ++ element :: rest)).Nodup) :
    (hashesOf (first ++ element :: rest)).erase element.2.hash = hashesOf (first ++ rest) := by
  have fresh := not_mem_hashesOf distinct
  simp only [hashesOf, List.map_append, List.map_cons] at fresh ⊢
  rw [List.erase_append_right _ fresh, List.erase_cons_head]

theorem HoldsMembers.remove (holds : HoldsMembers before heap) (cid : Cid) :
    ∃ heap', cidSetMachine.step heap (.remove cid) = some heap' ∧
      (CidSetAllowed before (.remove cid) → HoldsMembers (before ++ [.remove cid]) heap') ∧
      (¬ CidSetAllowed before (.remove cid) → cidSetLen heap' (some 0) = none) := by
  obtain ⟨elements, holds, same⟩ := holds
  simp only [CidSetAllowed, HoldsMembers, members_concat, CidSetCall.apply, ← same]
  have distinct : (hashesOf elements).Nodup := same ▸ nodup_members before
  by_cases mem : cid.hash ∈ hashesOf elements
  · obtain ⟨first, element, rest, rfl, isHash, removed⟩ := holds.remove_present mem
    rw [← isHash, hashesOf_erase distinct]
    rcases List.eq_nil_or_concat' first with rfl | ⟨first, prev, rfl⟩
    · cases rest with
      | nil =>
          obtain ⟨heap', unlinked, holds'⟩ := holds.unlink_only
          refine ⟨heap', by simp [cidSetMachine, removed, Heap.entrance, unlinked], fun _ => ⟨[], holds', rfl⟩, ?_⟩
          intro several
          exact absurd (fun _ => rfl) several
      | cons neighbour rest =>
          obtain ⟨heap', unlinked, dangling⟩ := holds.unlink_head
          refine ⟨heap', by simp [cidSetMachine, removed, Heap.entrance, unlinked], fun alone => ?_, fun _ => dangling⟩
          have one := alone rfl
          simp [hashesOf] at one
    · have asPrev : first ++ [prev] ++ element :: rest = first ++ prev :: element :: rest := by simp
      obtain ⟨heap', unlinked, holds'⟩ := (asPrev ▸ holds).unlink_behind
      refine ⟨heap', by simp [cidSetMachine, removed, unlinked], fun _ => ⟨_, holds', by simp [hashesOf]⟩, ?_⟩
      intro oldest
      refine absurd (fun isHead => ?_) oldest
      rw [hashesOf, List.map_append, List.head?_append_of_ne_nil _ (by simp)] at isHead
      exact absurd (List.mem_of_mem_head? isHead) (not_mem_hashesOf distinct)
  · refine ⟨heap, by simp [cidSetMachine, holds.remove_absent mem], fun _ => ⟨elements, holds, ?_⟩, fun oldest => ?_⟩
    · rw [List.erase_of_not_mem mem]
    · refine absurd (fun isHead => ?_) oldest
      exact absurd (List.mem_of_mem_head? isHead) mem

theorem cidSetKeysLoop_none {fuel len i : Nat} (more : i < len) (set : Option Nat) (ret : List (Option Bytes)) :
    cidSetKeysLoop heap fuel set i len ret = none := by
  induction fuel generalizing set len ret with
  | zero => rfl
  | succ fuel ih =>
      rw [cidSetKeysLoop, if_pos more]
      cases set.bind heap.load with
      | none => rfl
      | some element =>
          simp only [Option.bind_eq_bind, Option.bind_some]
          rw [ih (Nat.lt_succ_of_lt more), ite_self]

/-- Only of the empty set the keys are returned. -/
theorem HoldsMembers.keysOfSet_iff (holds : HoldsMembers calls heap) :
    KeysOfSet heap calls ↔ ∀ hash, ¬ LastAdded calls hash := by
  obtain ⟨elements, holds, same⟩ := holds
  simp only [← mem_members_iff, ← same, ← List.eq_nil_iff_forall_not_mem]
  constructor
  · rintro ⟨keys, returned, -⟩
    obtain ⟨len, counted, returned⟩ := Option.bind_eq_some_iff.mp returned
    rw [holds.len] at counted
    by_contra nonempty
    have more : 0 < elements.length := List.length_pos_iff.mpr (mt (congrArg hashesOf) nonempty)
    split at counted
    · obtain rfl := Option.some.inj counted
      rw [cidSetKeysLoop_none more, ite_self] at returned
      cases returned
    · cases counted
  · intro empty
    obtain rfl := List.map_eq_nil_iff.mp empty
    refine ⟨[], ?_, List.nodup_nil, fun hash => ?_⟩
    · rw [cidSetKeys, holds.len]
      rfl
    · rw [← mem_members_iff, ← same, empty]

structure CidSetInv (calls : List CidSetCall) (heap : Heap CidSet) : Prop where
  holds : HoldsMembers calls heap
  few : (members calls).length < 2 ^ 31

theorem CidSetInv.start : CidSetInv [] (cidSetNew {}).2 where
  holds := ⟨[], ⟨List.nodup_nil, trivial, .inl ⟨rfl, rfl⟩⟩, rfl⟩
  few := by simp [members]

theorem CidSetInv.step (inv : CidSetInv before heap) {call : CidSetCall} (allowed : CidSetAllowed before call) :
    ∃ heap', cidSetMachine.step heap call = some heap' ∧ CidSetInv (before ++ [call]) heap' := by
  have few := inv.few
  cases call with
  | add cid visit =>
      obtain ⟨heap', step, holds⟩ := inv.holds.add cid visit
      refine ⟨heap', step, holds, ?_⟩
      rw [members_concat, CidSetCall.apply_add]
      split
      · exact few
      · rename_i fresh
        rw [List.length_append]
        exact allowed.resolve_left fresh
  | remove cid =>
      obtain ⟨heap', step, holds, -⟩ := inv.holds.remove cid
      refine ⟨heap', step, holds allowed, ?_⟩
      rw [members_concat, CidSetCall.apply]
      exact lt_of_le_of_lt List.length_erase_le few

/-- A call that is not allowed leaves something that does not read as a set. -/
theorem CidSetInv.allowed (inv : CidSetInv before heap) {call : CidSetCall} {heap' : Heap CidSet}
    (step : cidSetMachine.step heap call = some heap') (reads : ReadsAsSet heap' (before ++ [call])) :
    CidSetAllowed before call := by
  cases call with
  | add cid visit =>
      obtain ⟨heap'', step', holds⟩ := inv.holds.add cid visit
      obtain rfl := Option.some.inj (step.symm.trans step')
      have few := holds.readsAsSet_iff.mp reads
      rw [members_concat, CidSetCall.apply_add] at few
      split at few
      · rename_i mem
        exact .inl mem
      · rw [List.length_append] at few
        exact .inr few
  | remove cid =>
      obtain ⟨heap'', step', -, dangling⟩ := inv.holds.remove cid
      obtain rfl := Option.some.inj (step.symm.trans step')
      by_contra oldest
      cases reads.len.symm.trans (dangling oldest)

end

/-- In every state of a run has, len and foreach tell of a set, as long as the oldest of several hashes is not removed
and an `int` counts them; the keys are returned of the empty set only. -/
theorem isCidSet_iff (calls : List CidSetCall) :
    (IsCidSet calls ↔ Machine.HistoryMeets CidSetAllowed calls) ∧
      (IsCidSet calls → ∀ heap, cidSetMachine.run (cidSetNew {}).2 calls = some heap →
        (KeysOfSet heap calls ↔ ∀ hash, ¬ LastAdded calls hash)) := by
  have exact : IsCidSet calls ↔ Machine.HistoryMeets CidSetAllowed calls :=
    Machine.historyMeets_iff CidSetInv.start (fun _ _ _ inv allowed => inv.step allowed)
      (fun _ _ inv => inv.holds.readsAsSet_iff.mpr inv.few) (fun _ _ _ _ inv step reads => inv.allowed step reads)
  refine ⟨exact, fun isSet heap ran => ?_⟩
  obtain ⟨heap', ran', inv⟩ :=
    Machine.run_history CidSetInv.start (fun _ _ _ inv allowed => inv.step allowed) (exact.mp isSet)
  obtain rfl := Option.some.inj (ran.symm.trans ran')
  exact inv.holds.keysOfSet_iff

/-- Two hashes are added and the first is removed: `len` goes on to the element that was freed. With one hash `keys`
runs off the end of the list. -/
theorem not_isCidSet_firstRemoved :
    ¬ IsCidSet [.add ⟨1, 0x70, [1]⟩ 0, .add ⟨1, 0x70, [2]⟩ 0, .remove ⟨1, 0x70, [1]⟩] ∧
      ∃ heap, cidSetMachine.run (cidSetNew {}).2 [.add ⟨1, 0x70, [1]⟩ 0] = some heap ∧
        ¬ KeysOfSet heap [.add ⟨1, 0x70, [1]⟩ 0] := by
  refine ⟨fun isSet => ?_, _, rfl, ?_⟩
  · obtain ⟨heap, ran, reads⟩ := isSet _ List.prefix_rfl
    obtain rfl := Option.some.inj ran
    cases reads.len
  · rintro ⟨keys, returned, -⟩
    cases returned

end Ipfs
