import Mathlib.Data.List.Lex
import Mathlib.Data.List.Sort
import Mathlib.Data.Prod.Lex
import Mathlib.Tactic

/-!
# Databases with sorted duplicates

A key may have several data. Every distinct pair is kept, ordered by key and then by data, and a
lookup finds the smallest data of the key.
-/

/-- The order in which `memcmp` compares bytes. -/
instance memcmpOrder : LinearOrder UInt8 where
  le_refl := UInt8.le_refl
  le_trans _ _ _ := UInt8.le_trans
  le_antisymm _ _ := UInt8.le_antisymm
  le_total := UInt8.le_total
  lt_iff_le_not_ge a b := by rw [UInt8.not_le]; exact ⟨fun h => ⟨UInt8.le_of_lt h, h⟩, And.right⟩
  toDecidableLE := inferInstance

structure DupSort (κ δ : Type) [LinearOrder κ] [LinearOrder δ] where
  pairs : List (κ ×ₗ δ)
  sorted : pairs.Pairwise (· ≤ ·)

namespace DupSort
variable {κ δ : Type} [LinearOrder κ] [LinearOrder δ]

def empty : DupSort κ δ := ⟨[], .nil⟩

def get (db : DupSort κ δ) (key : κ) : Option δ :=
  (db.pairs.find? fun pair => (ofLex pair).1 = key).map fun pair => (ofLex pair).2

def Mem (db : DupSort κ δ) (key : κ) (data : δ) : Prop := toLex (key, data) ∈ db.pairs

instance (db : DupSort κ δ) (key : κ) (data : δ) : Decidable (db.Mem key data) :=
  inferInstanceAs (Decidable (_ ∈ _))

def insert (db : DupSort κ δ) (key : κ) (data : δ) : DupSort κ δ :=
  ⟨db.pairs.orderedInsert (· ≤ ·) (toLex (key, data)), db.sorted.orderedInsert _ _⟩

/-- Write a pair; one that is there already is left alone. -/
def put (db : DupSort κ δ) (key : κ) (data : δ) : DupSort κ δ :=
  if db.Mem key data then db else db.insert key data

theorem insert_pairs_perm (db : DupSort κ δ) (key : κ) (data : δ) :
    (db.insert key data).pairs.Perm (toLex (key, data) :: db.pairs) :=
  List.perm_orderedInsert _ _ _

theorem mem_insert {db : DupSort κ δ} {key key' : κ} {data data' : δ} :
    (db.insert key data).Mem key' data' ↔ (key' = key ∧ data' = data) ∨ db.Mem key' data' := by
  simp [Mem, insert, List.mem_orderedInsert]

theorem get_eq_none_iff {db : DupSort κ δ} {key : κ} : db.get key = none ↔ ∀ data, ¬ db.Mem key data := by
  simp only [get, Option.map_eq_none_iff, List.find?_eq_none, decide_eq_true_eq, Mem]
  constructor
  · exact fun absent data mem => absent _ mem rfl
  · rintro absent pair mem rfl
    exact absent (ofLex pair).2 mem

theorem get_smallest {db : DupSort κ δ} {key : κ} {data : δ} (found : db.get key = some data) :
    db.Mem key data ∧ ∀ data', db.Mem key data' → data ≤ data' := by
  simp only [get, Option.map_eq_some_iff, List.find?_eq_some_iff_append, decide_eq_true_eq,
    Bool.not_eq_true', decide_eq_false_iff_not] at found
  obtain ⟨pair, ⟨rfl, before, after, split, others⟩, rfl⟩ := found
  have sorted := db.sorted
  rw [split, List.pairwise_append, List.pairwise_cons] at sorted
  refine ⟨by simp [Mem, split], fun data' mem => ?_⟩
  rw [Mem, split, List.mem_append, List.mem_cons] at mem
  -- nothing before the pair that was found has its key
  rcases mem with earlier | here | later
  · exact (others _ earlier rfl).elim
  · rw [← here]
    rfl
  · have le := sorted.2.1.1 _ later
    rw [Prod.Lex.le_iff] at le
    rcases le with lt | ⟨_, le⟩
    · exact absurd lt (lt_irrefl _)
    · exact le

theorem get_eq_some_iff {db : DupSort κ δ} {key : κ} {data : δ} :
    db.get key = some data ↔ db.Mem key data ∧ ∀ data', db.Mem key data' → data ≤ data' := by
  refine ⟨get_smallest, fun ⟨mem, least⟩ => ?_⟩
  cases found : db.get key with
  | none => exact absurd mem (get_eq_none_iff.mp found data)
  | some other =>
      obtain ⟨mem', least'⟩ := get_smallest found
      rw [le_antisymm (least' data mem) (least other mem')]

@[simp] theorem pairs_empty : (empty : DupSort κ δ).pairs = [] := rfl

@[simp] theorem get_empty (key : κ) : (empty : DupSort κ δ).get key = none := rfl

theorem get_insert_of_ne (db : DupSort κ δ) {key key' : κ} (data : δ) (ne : key' ≠ key) :
    (db.insert key data).get key' = db.get key' := by
  apply Option.ext
  intro data'
  simp [get_eq_some_iff, mem_insert, ne]

theorem get_insert_of_none {db : DupSort κ δ} {key : κ} (data : δ) (absent : db.get key = none) :
    (db.insert key data).get key = some data := by
  rw [get_eq_none_iff] at absent
  simp [get_eq_some_iff, mem_insert, absent]

theorem get_insert_of_some {db : DupSort κ δ} {key : κ} {stored : δ} (data : δ)
    (found : db.get key = some stored) : (db.insert key data).get key = some (min stored data) := by
  obtain ⟨mem, least⟩ := get_smallest found
  rw [get_eq_some_iff]
  constructor
  · rcases min_choice stored data with eq | eq <;> rw [eq, mem_insert]
    · exact .inr mem
    · exact .inl ⟨rfl, rfl⟩
  · intro data' mem'
    rcases mem_insert.mp mem' with ⟨_, rfl⟩ | old
    · exact min_le_right stored data'
    · exact (min_le_left stored data).trans (least data' old)

theorem mem_put {db : DupSort κ δ} {key key' : κ} {data data' : δ} :
    (db.put key data).Mem key' data' ↔ (key' = key ∧ data' = data) ∨ db.Mem key' data' := by
  unfold put
  split
  · constructor
    · exact .inr
    · rintro (⟨rfl, rfl⟩ | old) <;> assumption
  · exact mem_insert

theorem get_put_of_ne (db : DupSort κ δ) {key key' : κ} (data : δ) (ne : key' ≠ key) :
    (db.put key data).get key' = db.get key' := by
  unfold put
  split
  · rfl
  · exact get_insert_of_ne db data ne

theorem get_put_of_none {db : DupSort κ δ} {key : κ} (data : δ) (absent : db.get key = none) :
    (db.put key data).get key = some data := by
  rw [put, if_neg (get_eq_none_iff.mp absent data), get_insert_of_none data absent]

theorem get_put_of_some {db : DupSort κ δ} {key : κ} {stored : δ} (data : δ)
    (found : db.get key = some stored) : (db.put key data).get key = some (min stored data) := by
  unfold put
  split
  · rename_i mem
    rw [found, min_eq_left ((get_smallest found).2 data mem)]
  · exact get_insert_of_some data found

end DupSort
