import Mathlib.Tactic

/-!
# Doubly linked lists

Cells in memory, told apart by their addresses. New cells are allocated behind the others.
-/

structure Cell (α : Type) where
  prior : Option Nat := none
  current : α
  next : Option Nat := none
  deriving DecidableEq

structure LinkedList (α : Type) where
  cells : List (Cell α) := []
  first : Option Nat := none
  last : Option Nat := none
  deriving DecidableEq

namespace LinkedList
variable {α : Type}

/-- Go from cell to cell until one passes the test. There is no result when a pointer leads nowhere, when the
test has none, or when the fuel is used up. -/
def find (list : LinkedList α) (test : α → Option Bool) : Nat → Option Nat → Option (Option Nat)
  | _, none => some none
  | 0, some _ => none
  | fuel + 1, some address => do
      let cell ← list.cells[address]?
      if ← test cell.current then some (some address) else list.find test fuel cell.next

/-- Look from the first cell on. Longer than there are cells, the walk goes round for ever. -/
def findFirst (list : LinkedList α) (test : α → Option Bool) : Option (Option Nat) :=
  list.find test list.cells.length list.first

def pushBack (list : LinkedList α) (current : α) : Option (LinkedList α) :=
  let entry := list.cells.length
  match list.first with
  | none => some { cells := list.cells ++ [{ current }], first := some entry, last := some entry }
  | some _ => do
      let last ← list.last
      let cell ← list.cells[last]?
      some { list with
        cells := list.cells.set last { cell with next := some entry } ++ [{ current, prior := some last }]
        last := some entry }

/-- The values from an address on, along one of the pointers. There are none when a pointer leads nowhere, or when
the fuel is used up. -/
def walk (list : LinkedList α) (pointer : Cell α → Option Nat) : Nat → Option Nat → Option (List α)
  | _, none => some []
  | 0, some _ => none
  | fuel + 1, some address => do
      let cell ← list.cells[address]?
      let rest ← list.walk pointer fuel (pointer cell)
      some (cell.current :: rest)

/-- The values read forward from the first cell. -/
def forward (list : LinkedList α) : Option (List α) := list.walk Cell.next list.cells.length list.first

/-- The values read backward from the last cell. -/
def backward (list : LinkedList α) : Option (List α) := list.walk Cell.prior list.cells.length list.last

/-! ## Well-formed lists -/

/-- The cells at the addresses hold the values and point to their neighbours. -/
def Chain (cells : List (Cell α)) : Option Nat → List (Nat × α) → Prop
  | _, [] => True
  | prior, (address, current) :: rest =>
      cells[address]? = some ⟨prior, current, rest.head?.map Prod.fst⟩ ∧ Chain cells (some address) rest

/-- The list is these cells, from first to last. -/
structure Represents (list : LinkedList α) (entries : List (Nat × α)) : Prop where
  distinct : (entries.map Prod.fst).Nodup
  first : list.first = entries.head?.map Prod.fst
  last : list.last = entries.getLast?.map Prod.fst
  chain : Chain list.cells none entries

/-- Among the addresses, the first has no prior and the last has no next, next and prior are inverse to each
other, and following next from the first reaches every address. -/
structure DoublyLinked (list : LinkedList α) (addresses : List Nat) : Prop where
  ends : list.first = addresses.head? ∧ list.last = addresses.getLast?
  first_prior : ∀ address, list.first = some address → ∃ cell, list.cells[address]? = some cell ∧ cell.prior = none
  last_next : ∀ address, list.last = some address → ∃ cell, list.cells[address]? = some cell ∧ cell.next = none
  inverse : ∀ a ∈ addresses, ∀ b ∈ addresses, ∃ cell cell', list.cells[a]? = some cell ∧ list.cells[b]? = some cell' ∧
    (cell.next = some b ↔ cell'.prior = some a)
  reached : addresses.IsChain fun a b => ∃ cell, list.cells[a]? = some cell ∧ cell.next = some b

theorem represents_empty : ({} : LinkedList α).Represents [] where
  distinct := .nil
  first := rfl
  last := rfl
  chain := trivial

section
variable {cells : List (Cell α)} {prior : Option Nat} {entries : List (Nat × α)} {list : LinkedList α}

theorem Chain.cell (chain : Chain cells prior entries) {entry : Nat × α} (mem : entry ∈ entries) :
    ∃ cell, cells[entry.1]? = some cell ∧ cell.current = entry.2 := by
  induction entries generalizing prior with
  | nil => cases mem
  | cons first rest ih =>
      obtain ⟨head, tail⟩ := chain
      rcases List.mem_cons.mp mem with rfl | later
      · exact ⟨_, head, rfl⟩
      · exact ih tail later

theorem Chain.getElem (chain : Chain cells prior entries) {i : Nat} {entry : Nat × α}
    (here : entries[i]? = some entry) :
    cells[entry.1]? = some
      ⟨if i = 0 then prior else entries[i - 1]?.map Prod.fst, entry.2, entries[i + 1]?.map Prod.fst⟩ := by
  induction entries generalizing prior i with
  | nil => simp at here
  | cons first rest ih =>
      obtain ⟨head, tail⟩ := chain
      cases i with
      | zero =>
          obtain rfl := Option.some.inj here
          simpa [List.head?_eq_getElem?] using head
      | succ i =>
          rw [ih tail here]
          cases i <;> simp

theorem Chain.reached (chain : Chain cells prior entries) :
    (entries.map Prod.fst).IsChain fun a b => ∃ cell, cells[a]? = some cell ∧ cell.next = some b := by
  induction entries generalizing prior with
  | nil => exact .nil
  | cons first rest ih =>
      obtain ⟨head, tail⟩ := chain
      cases rest with
      | nil => exact .singleton _
      | cons second rest => exact List.IsChain.cons_cons ⟨_, head, rfl⟩ (ih tail)

theorem Represents.doublyLinked (represents : list.Represents entries) :
    list.DoublyLinked (entries.map Prod.fst) where
  ends := ⟨by simp [represents.first], by simp [represents.last]⟩
  first_prior := by
    intro address isFirst
    rw [represents.first, Option.map_eq_some_iff] at isFirst
    obtain ⟨entry, head, rfl⟩ := isFirst
    exact ⟨_, represents.chain.getElem (List.head?_eq_getElem? ▸ head), rfl⟩
  last_next := by
    intro address isLast
    rw [represents.last, Option.map_eq_some_iff] at isLast
    obtain ⟨entry, tail, rfl⟩ := isLast
    rw [List.getLast?_eq_getElem?] at tail
    refine ⟨_, represents.chain.getElem tail, ?_⟩
    have := (List.getElem?_eq_some_iff.mp tail).1
    simp only [Option.map_eq_none_iff, List.getElem?_eq_none_iff]
    omega
  inverse := by
    intro a isA b isB
    obtain ⟨entry, memA, rfl⟩ := List.mem_map.mp isA
    obtain ⟨entry', memB, rfl⟩ := List.mem_map.mp isB
    obtain ⟨i, here⟩ := List.mem_iff_getElem?.mp memA
    obtain ⟨j, there⟩ := List.mem_iff_getElem?.mp memB
    refine ⟨_, _, represents.chain.getElem here, represents.chain.getElem there, ?_⟩
    have place (k k' : Nat) (e : Nat × α) (at' : entries[k']? = some e) :
        entries[k]?.map Prod.fst = some e.1 ↔ k = k' := by
      have inside : k' < (entries.map Prod.fst).length := by simpa using (List.getElem?_eq_some_iff.mp at').1
      rw [← List.getElem?_map, eq_comm (a := k), ← List.getElem?_inj inside represents.distinct,
        List.getElem?_map (i := k'), at', Option.map_some]
      exact eq_comm
    simp only [place _ j entry' there]
    split
    · simp only [reduceCtorEq, iff_false]
      omega
    · rw [place _ i entry here]
      omega
  reached := represents.chain.reached

theorem Represents.length_le (represents : list.Represents entries) : entries.length ≤ list.cells.length := by
  have bounded : entries.map Prod.fst ⊆ List.range list.cells.length := by
    intro address mem
    obtain ⟨entry, isEntry, rfl⟩ := List.mem_map.mp mem
    obtain ⟨cell, found, _⟩ := represents.chain.cell isEntry
    exact List.mem_range.mpr (List.getElem?_eq_some_iff.mp found).1
  simpa using (represents.distinct.subperm bounded).length_le

theorem Chain.find (chain : Chain list.cells prior entries) {test : α → Option Bool} {holds : α → Bool}
    (tested : ∀ entry ∈ entries, test entry.2 = some (holds entry.2)) {fuel : Nat} (enough : entries.length ≤ fuel) :
    list.find test fuel (entries.head?.map Prod.fst) =
      some ((entries.find? fun entry => holds entry.2).map Prod.fst) := by
  induction entries generalizing prior fuel with
  | nil => simp [LinkedList.find]
  | cons entry rest ih =>
      obtain ⟨address, current⟩ := entry
      obtain ⟨head, tail⟩ := chain
      obtain ⟨fuel, rfl⟩ := Nat.exists_eq_add_one.mpr (Nat.zero_lt_of_lt enough)
      have first := tested (address, current) (by simp)
      simp only [List.head?_cons, Option.map_some, LinkedList.find, head, Option.bind_eq_bind, Option.bind_some, first,
        List.find?_cons]
      cases passed : holds current with
      | true => rfl
      | false =>
          simp only [Bool.false_eq_true, if_false]
          exact ih tail (fun entry mem => tested entry (by simp [mem])) (by simpa using enough)

theorem Represents.findFirst (represents : list.Represents entries) (test : α → Option Bool) (holds : α → Bool)
    (tested : ∀ entry ∈ entries, test entry.2 = some (holds entry.2)) :
    list.findFirst test = some ((entries.find? fun entry => holds entry.2).map Prod.fst) := by
  rw [LinkedList.findFirst, represents.first]
  exact represents.chain.find tested represents.length_le

theorem Chain.walk_next (chain : Chain list.cells prior entries) {fuel : Nat} (enough : entries.length ≤ fuel) :
    list.walk Cell.next fuel (entries.head?.map Prod.fst) = some (entries.map Prod.snd) := by
  induction entries generalizing prior fuel with
  | nil => simp [LinkedList.walk]
  | cons entry rest ih =>
      obtain ⟨head, tail⟩ := chain
      obtain ⟨fuel, rfl⟩ := Nat.exists_eq_add_one.mpr (Nat.zero_lt_of_lt enough)
      have later := ih tail (by simpa using enough)
      simp [LinkedList.walk, head, later]

theorem Chain.walk_prior (chain : Chain list.cells none entries) (i fuel : Nat) (inside : i < entries.length)
    (enough : i < fuel) :
    list.walk Cell.prior fuel (entries[i]?.map Prod.fst) = some ((entries.take (i + 1)).map Prod.snd).reverse := by
  induction i generalizing fuel with
  | zero =>
      have here := List.getElem?_eq_getElem inside
      obtain ⟨fuel, rfl⟩ := Nat.exists_eq_add_one.mpr (show 0 < fuel by omega)
      simp [here, LinkedList.walk, chain.getElem here, List.take_add_one]
  | succ i ih =>
      have here := List.getElem?_eq_getElem inside
      obtain ⟨fuel, rfl⟩ := Nat.exists_eq_add_one.mpr (show 0 < fuel by omega)
      have earlier := ih fuel (by omega) (by omega)
      rw [here, Option.map_some, LinkedList.walk, chain.getElem here]
      simp only [Option.bind_eq_bind, Option.bind_some, Nat.add_eq_zero_iff, Nat.one_ne_zero, and_false, if_false,
        Nat.add_sub_cancel, earlier]
      rw [List.take_add_one (i := i + 1), here, List.map_append, List.reverse_append]
      rfl

theorem Represents.forward (represents : list.Represents entries) : list.forward = some (entries.map Prod.snd) := by
  rw [LinkedList.forward, represents.first]
  exact represents.chain.walk_next represents.length_le

theorem Represents.backward (represents : list.Represents entries) :
    list.backward = some (entries.map Prod.snd).reverse := by
  rw [LinkedList.backward, represents.last, List.getLast?_eq_getElem?]
  rcases Nat.eq_zero_or_pos entries.length with empty | present
  · obtain rfl := List.eq_nil_of_length_eq_zero empty
    simp [LinkedList.walk]
  · have le := represents.length_le
    have whole : entries.take (entries.length - 1 + 1) = entries := List.take_of_length_le (by omega)
    have walked := represents.chain.walk_prior (entries.length - 1) list.cells.length (by omega) (by omega)
    rwa [whole] at walked

theorem Chain.snoc {last : Nat} {current value : α} (chain : Chain cells prior (entries ++ [(last, current)]))
    (fresh : last ∉ entries.map Prod.fst) {cell : Cell α} (isLast : cells[last]? = some cell) :
    Chain (cells.set last { cell with next := some cells.length } ++ [{ current := value, prior := some last }]) prior
      (entries ++ [(last, current), (cells.length, value)]) := by
  have inside := (List.getElem?_eq_some_iff.mp isLast).1
  induction entries generalizing prior with
  | nil =>
      obtain ⟨head, _⟩ := chain
      obtain rfl := Option.some.inj (isLast.symm.trans head)
      exact ⟨by simp [List.getElem?_append_left, inside], by simp, trivial⟩
  | cons entry rest ih =>
      obtain ⟨address, other⟩ := entry
      obtain ⟨head, tail⟩ := chain
      rw [List.map_cons, List.mem_cons, not_or] at fresh
      have bound := (List.getElem?_eq_some_iff.mp head).1
      refine ⟨?_, ih tail fresh.2⟩
      rw [List.getElem?_append_left (by simpa using bound), List.getElem?_set_ne fresh.1, head]
      cases rest <;> rfl

theorem Represents.pushBack (represents : list.Represents entries) (value : α) :
    ∃ list', list.pushBack value = some list' ∧ list'.Represents (entries ++ [(list.cells.length, value)]) := by
  have unused : list.cells.length ∉ entries.map Prod.fst := by
    intro mem
    obtain ⟨entry, isEntry, same⟩ := List.mem_map.mp mem
    obtain ⟨cell, found, _⟩ := represents.chain.cell isEntry
    have := (List.getElem?_eq_some_iff.mp found).1
    omega
  have distinct : ((entries ++ [(list.cells.length, value)]).map Prod.fst).Nodup := by
    rw [List.map_append, List.nodup_append]
    refine ⟨represents.distinct, by simp, fun address mem other new same => ?_⟩
    obtain rfl := List.mem_singleton.mp new
    exact unused ((show address = list.cells.length from same) ▸ mem)
  rcases List.eq_nil_or_concat' entries with rfl | ⟨before, ⟨last, current⟩, rfl⟩
  · have empty : list.first = none := represents.first
    refine ⟨_, by rw [LinkedList.pushBack, empty], distinct, rfl, rfl, ?_⟩
    exact ⟨by simp, trivial⟩
  · obtain ⟨cell, isLast, _⟩ := represents.chain.cell (List.mem_append_right before (List.mem_singleton.mpr rfl))
    have isLast' : list.last = some last := by simp [represents.last]
    obtain ⟨first, isFirst⟩ : ∃ first, list.first = some first := by
      rw [represents.first]
      cases before <;> simp
    have fresh : last ∉ before.map Prod.fst := by
      have nodup := represents.distinct
      rw [List.map_append, List.nodup_append] at nodup
      exact fun mem => nodup.2.2 _ mem last (by simp) rfl
    refine ⟨_, by simp only [LinkedList.pushBack, isFirst, isLast', isLast, Option.bind_eq_bind, Option.bind_some]; rfl,
      distinct, ?_, by simp, ?_⟩
    · cases before <;> simpa [isFirst] using represents.first
    · rw [List.append_assoc]
      exact represents.chain.snoc fresh isLast

end
end LinkedList
