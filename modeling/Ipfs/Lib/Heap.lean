import Mathlib.Tactic

/-!
# Cells on the heap

Cells in memory that are allocated and freed, and lists of cells that each point to the next. An address is not
handed out twice.
-/

structure Heap (α : Type) where
  -- a cell that was freed is none
  cells : List (Option α) := []
  deriving DecidableEq

namespace Heap
variable {α β : Type}

def load (heap : Heap α) (address : Nat) : Option α := heap.cells[address]?.join

def put (heap : Heap α) (address : Nat) (cell : Option α) : Heap α := ⟨heap.cells.set address cell⟩

def store (heap : Heap α) (address : Nat) (cell : α) : Option (Heap α) :=
  (heap.load address).map fun _ => heap.put address (some cell)

def free (heap : Heap α) (address : Nat) : Option (Heap α) :=
  (heap.load address).map fun _ => heap.put address none

def alloc (heap : Heap α) (cell : α) : Nat × Heap α := (heap.cells.length, ⟨heap.cells ++ [some cell]⟩)

theorem lt_of_load {heap : Heap α} {address : Nat} {cell : α} (present : heap.load address = some cell) :
    address < heap.cells.length := by
  rw [load, Option.join_eq_some_iff] at present
  exact (List.getElem?_eq_some_iff.mp present).1

theorem load_put_self {heap : Heap α} {address : Nat} {cell : α} (present : heap.load address = some cell)
    (cell' : Option α) : (heap.put address cell').load address = cell' := by
  rw [load, put, List.getElem?_set_self (lt_of_load present)]
  rfl

theorem load_put_ne (heap : Heap α) {address address' : Nat} (other : address ≠ address') (cell : Option α) :
    (heap.put address cell).load address' = heap.load address' := by
  rw [load, put, List.getElem?_set_ne other, load]

theorem store_eq {heap : Heap α} {address : Nat} {cell : α} (present : heap.load address = some cell) (cell' : α) :
    heap.store address cell' = some (heap.put address (some cell')) := by
  rw [store, present]
  rfl

theorem free_eq {heap : Heap α} {address : Nat} {cell : α} (present : heap.load address = some cell) :
    heap.free address = some (heap.put address none) := by
  rw [free, present]
  rfl

theorem load_alloc_self (heap : Heap α) (cell : α) : (heap.alloc cell).2.load heap.cells.length = some cell := by
  simp [load, alloc]

theorem load_alloc {heap : Heap α} {address : Nat} {cell : α} (present : heap.load address = some cell) (cell' : α) :
    (heap.alloc cell').2.load address = some cell := by
  rw [load, alloc, List.getElem?_append_left (lt_of_load present)]
  exact present

/-! ## Lists of cells -/

/-- Where a list of cells is entered; an empty one is left at once. -/
def entrance (stop : Option Nat) : List (Nat × β) → Option Nat
  | [] => stop
  | entry :: _ => some entry.1

@[simp] theorem entrance_nil (stop : Option Nat) : entrance stop ([] : List (Nat × β)) = stop := rfl

@[simp] theorem entrance_cons (stop : Option Nat) (entry : Nat × β) (rest : List (Nat × β)) :
    entrance stop (entry :: rest) = some entry.1 := rfl

theorem entrance_append (stop : Option Nat) (before after : List (Nat × β)) :
    entrance stop (before ++ after) = entrance (entrance stop after) before := by
  cases before <;> rfl

variable {cell : β → Option Nat → α} {heap heap' : Heap α} {stop : Option Nat}

/-- The cells at the addresses hold the values, and each points to the next, the last one to `stop`. -/
def Chain (cell : β → Option Nat → α) (heap : Heap α) (stop : Option Nat) : List (Nat × β) → Prop
  | [] => True
  | (address, value) :: rest =>
      heap.load address = some (cell value (entrance stop rest)) ∧ Chain cell heap stop rest

theorem chain_append {before after : List (Nat × β)} :
    Chain cell heap stop (before ++ after) ↔
      Chain cell heap (entrance stop after) before ∧ Chain cell heap stop after := by
  induction before with
  | nil => simp [Chain]
  | cons entry before ih => simp only [List.cons_append, Chain, ih, entrance_append, and_assoc]

theorem Chain.congr {entries : List (Nat × β)} (chain : Chain cell heap stop entries)
    (same : ∀ address ∈ entries.map Prod.fst, ∀ cell, heap.load address = some cell → heap'.load address = some cell) :
    Chain cell heap' stop entries := by
  induction entries with
  | nil => trivial
  | cons entry entries ih =>
      rw [List.map_cons, List.forall_mem_cons] at same
      exact ⟨same.1 _ chain.1, ih chain.2 same.2⟩

theorem Chain.put {entries : List (Nat × β)} (chain : Chain cell heap stop entries) {address : Nat}
    (other : address ∉ entries.map Prod.fst) (cell' : Option α) : Chain cell (heap.put address cell') stop entries := by
  refine chain.congr fun address' mem cell present => ?_
  have apart : address ≠ address' := fun same => other (same ▸ mem)
  rw [load_put_ne heap apart, present]

theorem Chain.alloc {entries : List (Nat × β)} (chain : Chain cell heap stop entries) (cell' : α) :
    Chain cell (heap.alloc cell').2 stop entries :=
  chain.congr fun _ _ _ present => load_alloc present cell'

/-- A cell of its own, pointed to from before, is pointed to what is behind. -/
theorem Chain.relink {before after : List (Nat × β)} {address : Nat} {old : α}
    (chain : Chain cell heap (some address) before) (present : heap.load address = some old)
    (behind : Chain cell heap stop after) (apart : address ∉ (before ++ after).map Prod.fst) (value : β) :
    Chain cell (heap.put address (some (cell value (entrance stop after)))) stop (before ++ (address, value) :: after) := by
  rw [List.map_append, List.mem_append, not_or] at apart
  exact chain_append.mpr ⟨chain.put apart.1 _, load_put_self present _, behind.put apart.2 _⟩

theorem Chain.lt {entries : List (Nat × β)} (chain : Chain cell heap stop entries) :
    ∀ address ∈ entries.map Prod.fst, address < heap.cells.length := by
  induction entries with
  | nil => simp
  | cons entry entries ih =>
      rw [List.map_cons, List.forall_mem_cons]
      exact ⟨lt_of_load chain.1, ih chain.2⟩

theorem Chain.length_le {entries : List (Nat × β)} (chain : Chain cell heap stop entries)
    (distinct : (entries.map Prod.fst).Nodup) : entries.length ≤ heap.cells.length := by
  have inRange : entries.map Prod.fst ⊆ List.range heap.cells.length := fun address mem =>
    List.mem_range.mpr (chain.lt address mem)
  simpa using (List.subperm_of_subset distinct inRange).length_le

/-! ## Searches with a pointer to the cell before, and removal -/

/-- `free`, which takes NULL. -/
def release (heap : Heap α) : Option Nat → Option (Heap α)
  | none => some heap
  | some address => heap.free address

/-- On from cell to cell until one is found, with the cell before it; NULL when there is none. A list that goes
round does not come back. -/
def seek (next : α → Option Nat) (found : Nat → α → Bool) (heap : Heap α) :
    Nat → Option Nat → Option Nat → Option (Option Nat × Option Nat)
  | _, previous, none => some (previous, none)
  | 0, _, some _ => none
  | fuel + 1, previous, some current => do
      let here ← heap.load current
      if found current here then some (previous, some current)
      else seek next found heap fuel (some current) (next here)

/-- A list of cells that ends with NULL. -/
structure Listed (cell : β → Option Nat → α) (heap : Heap α) (head : Option Nat) (entries : List (Nat × β)) : Prop where
  distinct : (entries.map Prod.fst).Nodup
  chain : Chain cell heap none entries
  head : entrance none entries = head

/-- The cells of the list were freed, and no others. -/
structure Released (heap heap' : Heap α) (entries : List (Nat × β)) : Prop where
  gone : ∀ entry ∈ entries, heap'.load entry.1 = none
  kept : ∀ address ∉ entries.map Prod.fst, heap'.load address = heap.load address

theorem seek_eq {next : α → Option Nat} {found : Nat → α → Bool} (linked : ∀ value link, next (cell value link) = link)
    {before rest : List (Nat × β)} (chain : Chain cell heap none (before ++ rest))
    (passes : ∀ entry ∈ before, ∀ link, found entry.1 (cell entry.2 link) = false)
    (stops : ∀ entry ∈ rest.head?, ∀ link, found entry.1 (cell entry.2 link) = true)
    {fuel : Nat} (enough : (before ++ rest).length ≤ fuel) (previous : Option Nat) :
    heap.seek next found fuel previous (entrance none (before ++ rest)) =
      some ((before.getLast?.map Prod.fst).or previous, entrance none rest) := by
  induction before generalizing fuel previous with
  | nil =>
      cases rest with
      | nil =>
          rw [List.nil_append, entrance, seek]
          rfl
      | cons entry rest =>
          obtain ⟨fuel, rfl⟩ := Nat.exists_eq_add_of_lt (show 0 < fuel from Nat.lt_of_lt_of_le (Nat.succ_pos _) enough)
          rw [List.nil_append, entrance, Nat.zero_add, seek, chain.1]
          simp only [Option.bind_eq_bind, Option.bind_some, stops entry rfl, if_true]
          rfl
  | cons entry before ih =>
      obtain ⟨fuel, rfl⟩ := Nat.exists_eq_add_of_lt (show 0 < fuel from Nat.lt_of_lt_of_le (Nat.succ_pos _) enough)
      rw [List.forall_mem_cons] at passes
      rw [List.cons_append, List.length_cons] at enough
      have first : heap.load entry.1 = some (cell entry.2 (entrance none (before ++ rest))) := chain.1
      rw [List.cons_append, entrance, Nat.zero_add, seek, first]
      simp only [Option.bind_eq_bind, Option.bind_some, passes.1, linked, Bool.false_eq_true, if_false]
      rw [ih chain.2 passes.2 (by omega), List.getLast?_cons]
      cases before.getLast? <;> rfl

section
variable {head : Option Nat} {before after entries : List (Nat × β)} {entry last : Nat × β}

theorem Listed.length_le (listed : Listed cell heap head entries) : entries.length ≤ heap.cells.length :=
  listed.chain.length_le listed.distinct

/-- The cells from the second one on, whatever becomes of the first. -/
theorem Listed.behind (listed : Listed cell heap head (entry :: entries))
    (same : ∀ address ≠ entry.1, heap'.load address = heap.load address) :
    Listed cell heap' (entrance none entries) entries := by
  obtain ⟨fresh, distinct⟩ := List.nodup_cons.mp listed.distinct
  refine ⟨distinct, listed.chain.2.congr ?_, rfl⟩
  intro address mem cell present
  rw [same address fun eq => fresh (eq ▸ mem), present]

theorem Listed.seek_found (next : α → Option Nat) (linked : ∀ value link, next (cell value link) = link)
    (listed : Listed cell heap head (before ++ entry :: after)) :
    heap.seek next (fun address _ => some address = some entry.1) heap.cells.length none head =
      some (before.getLast?.map Prod.fst, some entry.1) := by
  have distinct := listed.distinct
  rw [List.map_append, List.map_cons] at distinct
  rw [← listed.head, seek_eq linked listed.chain _ _ listed.length_le, Option.or_none, entrance_cons]
  · intro other mem _
    apply decide_eq_false
    intro same
    have same : other.1 = entry.1 := Option.some.inj same
    exact (List.nodup_append'.mp distinct).2.2 (List.mem_map_of_mem mem) (same ▸ List.mem_cons_self)
  · rintro first ⟨⟩ _
    exact decide_eq_true rfl

theorem Listed.seek_absent (next : α → Option Nat) (linked : ∀ value link, next (cell value link) = link)
    (listed : Listed cell heap head entries) {pointer : Option Nat} (absent : ∀ other ∈ entries, some other.1 ≠ pointer) :
    heap.seek next (fun address _ => some address = pointer) heap.cells.length none head =
      some (entries.getLast?.map Prod.fst, none) := by
  have chain : Chain cell heap none (entries ++ []) := by
    rw [List.append_nil]
    exact listed.chain
  have sought : heap.seek next (fun address _ => some address = pointer) heap.cells.length none
      (entrance none (entries ++ [])) = some ((entries.getLast?.map Prod.fst).or none, entrance none []) :=
    seek_eq linked chain (fun other mem _ => decide_eq_false (absent other mem)) (by simp)
      (by simpa using listed.length_le) none
  rwa [List.append_nil, listed.head, Option.or_none] at sought

theorem Listed.load_mid (listed : Listed cell heap head (before ++ entry :: after)) :
    heap.load entry.1 = some (cell entry.2 (entrance none after)) :=
  (chain_append.mp listed.chain).2.1

theorem Listed.apart (listed : Listed cell heap head (before ++ last :: entry :: after)) : last.1 ≠ entry.1 := by
  have distinct := listed.distinct
  rw [List.map_append, List.map_cons, List.map_cons] at distinct
  intro same
  exact (List.nodup_cons.mp (List.nodup_append'.mp distinct).2.1).1 (same ▸ List.mem_cons_self)

theorem Listed.onward (listed : Listed cell heap head (before ++ last :: entry :: after)) :
    Listed cell heap head ((before ++ [last]) ++ entry :: after) := by
  rwa [List.append_assoc, List.singleton_append]

theorem Listed.eraseP (listed : Listed cell heap head (before ++ entry :: after)) :
    (before ++ entry :: after).eraseP (·.1 = entry.1) = before ++ after := by
  have distinct := listed.distinct
  rw [List.map_append, List.map_cons, List.nodup_append'] at distinct
  have others : ∀ other ∈ before, other.1 ≠ entry.1 := fun other mem same =>
    distinct.2.2 (List.mem_map_of_mem mem) (same ▸ List.mem_cons_self)
  rw [List.eraseP_append_right _ (by simpa using others), List.eraseP_cons_of_pos (by simp)]

theorem Listed.head_ne (listed : Listed cell heap head (before ++ last :: entry :: after)) : head ≠ some entry.1 := by
  have distinct := listed.distinct
  rw [List.map_append, List.map_cons, List.map_cons, List.nodup_append'] at distinct
  intro first
  have first := listed.head.trans first
  cases before with
  | nil => exact listed.apart (Option.some.inj first)
  | cons other before =>
      have same : other.1 = entry.1 := Option.some.inj first
      exact distinct.2.2 List.mem_cons_self (same ▸ List.mem_cons_of_mem _ List.mem_cons_self)

/-- A cell of its own is put behind the last. -/
theorem Listed.snoc {rear address : Nat} {value value' : β} (listed : Listed cell heap head (before ++ [(rear, value)]))
    (present : heap.load address = some (cell value' none)) (fresh : address ∉ (before ++ [(rear, value)]).map Prod.fst) :
    Listed cell (heap.put rear (some (cell value (some address)))) head
      ((before ++ [(rear, value)]) ++ [(address, value')]) := by
  have distinct := listed.distinct
  simp only [List.map_append, List.map_singleton, List.mem_append, List.mem_singleton, not_or] at fresh
  simp only [List.map_append, List.map_singleton, List.nodup_append', List.disjoint_singleton] at distinct
  obtain ⟨chain, loaded, -⟩ := chain_append.mp listed.chain
  have apart : rear ∉ (before ++ [(address, value')]).map Prod.fst := by
    simp only [List.map_append, List.map_singleton, List.mem_append, List.mem_singleton, not_or]
    exact ⟨distinct.2.2, Ne.symm fresh.2⟩
  have linked := chain.relink loaded (show Chain cell heap none [(address, value')] from ⟨present, trivial⟩) apart value
  refine ⟨?_, by rwa [List.append_assoc], ?_⟩
  · simp only [List.map_append, List.map_singleton, List.nodup_append', List.disjoint_singleton, List.mem_append,
      List.mem_singleton, not_or]
    exact ⟨distinct, List.nodup_singleton _, fresh⟩
  · rw [← listed.head]
    cases before <;> rfl

/-- One cell of the list is freed before the rest of it. -/
theorem Released.step {middle : Heap α} {rest : List (Nat × β)} (released : Released middle heap' rest)
    (members : ∀ other, other ∈ entries ↔ other = entry ∨ other ∈ rest) (freed : middle.load entry.1 = none)
    (same : ∀ address ∉ entries.map Prod.fst, middle.load address = heap.load address) :
    Released heap heap' entries := by
  constructor
  · intro other mem
    rcases (members other).mp mem with rfl | mem
    · by_cases again : other.1 ∈ rest.map Prod.fst
      · obtain ⟨twin, mem, eq⟩ := List.mem_map.mp again
        rw [← eq]
        exact released.gone twin mem
      · rw [released.kept other.1 again, freed]
    · exact released.gone other mem
  · intro address outside
    have beside : address ∉ rest.map Prod.fst := by
      intro inside
      obtain ⟨other, mem, same⟩ := List.mem_map.mp inside
      exact outside (same ▸ List.mem_map_of_mem ((members other).mpr (Or.inr mem)))
    rw [released.kept address beside, same address outside]

/-- A cell is out of the list when the one before it points to what is behind it. -/
theorem Listed.unlink (listed : Listed cell heap head (before ++ last :: entry :: after))
    (relinked : heap'.load last.1 = some (cell last.2 (entrance none after)))
    (same : ∀ address, address ≠ last.1 → address ≠ entry.1 → heap'.load address = heap.load address) :
    Listed cell heap' head (before ++ last :: after) := by
  have distinct := listed.distinct
  rw [List.map_append, List.map_cons, List.map_cons, List.nodup_append', List.nodup_cons, List.nodup_cons] at distinct
  obtain ⟨ownBefore, ⟨lastFresh, entryFresh, ownAfter⟩, apart⟩ := distinct
  rw [List.mem_cons, not_or] at lastFresh
  obtain ⟨chainBefore, chainRest⟩ := chain_append.mp listed.chain
  have kept : ∀ rest : List (Nat × β), ∀ stop, Chain cell heap stop rest → last.1 ∉ rest.map Prod.fst →
      entry.1 ∉ rest.map Prod.fst → Chain cell heap' stop rest := by
    intro rest stop chain notLast notEntry
    apply chain.congr
    intro address mem cell present
    rw [same address (fun eq => notLast (eq ▸ mem)) (fun eq => notEntry (eq ▸ mem)), present]
  refine ⟨?_, chain_append.mpr ⟨kept before _ chainBefore ?_ ?_, relinked, kept after _ chainRest.2.2 lastFresh.2 entryFresh⟩, ?_⟩
  · rw [List.map_append, List.map_cons, List.nodup_append', List.nodup_cons]
    refine ⟨ownBefore, ⟨lastFresh.2, ownAfter⟩, ?_⟩
    intro address mem mem'
    apply apart mem
    rcases List.mem_cons.mp mem' with rfl | mem'
    · exact List.mem_cons_self
    · exact List.mem_cons_of_mem _ (List.mem_cons_of_mem _ mem')
  · exact fun mem => apart mem List.mem_cons_self
  · exact fun mem => apart mem (List.mem_cons_of_mem _ List.mem_cons_self)
  · rw [← listed.head]
    cases before <;> rfl

end

/-- The element at which a search stops: the first of which the test holds, or the last. -/
theorem exists_stop (test : β → Prop) [DecidablePred test] {items : List β} (nonempty : items ≠ []) :
    ∃ before item after, items = before ++ item :: after ∧ (∀ other ∈ before, ¬ test other) ∧
      (test item ∨ after = []) := by
  induction items with
  | nil => exact absurd rfl nonempty
  | cons item items ih =>
      by_cases stops : test item ∨ items = []
      · exact ⟨[], item, items, rfl, by simp, stops⟩
      · obtain ⟨goesOn, more⟩ := not_or.mp stops
        obtain ⟨before, last, after, rfl, others, stops⟩ := ih more
        exact ⟨item :: before, last, after, rfl, List.forall_mem_cons.mpr ⟨goesOn, others⟩, stops⟩

end Heap
