import Mathlib.Tactic

/-!
# Comparison by differences that go round

Keys are compared field by field, and the first difference is kept in 32 bits. The sign of it orders two numbers
as long as they are near; three numbers can go round the circle.
-/

namespace SerialOrder

/-- The first difference of two keys, or 0. -/
def firstDifference : List Int → List Int → Int
  | x :: xs, y :: ys => if x = y then firstDifference xs ys else y - x
  | [], _ => 0
  | _ :: _, [] => 0

def compare (xs ys : List Int) : Int := (firstDifference xs ys).bmod (2 ^ 32)

/-- `y` is less than half the circle ahead of `x`. -/
def Ahead (x y : Int) : Prop := 0 < (y - x) % 2 ^ 32 ∧ (y - x) % 2 ^ 32 < 2 ^ 31

instance (x y : Int) : Decidable (Ahead x y) := inferInstanceAs (Decidable (_ ∧ _))

/-- In the first field in which the three keys are not all the same, each is ahead of the one before. -/
def Round : List Int → List Int → List Int → Prop
  | x :: xs, y :: ys, z :: zs =>
      if x = y ∧ y = z then Round xs ys zs else Ahead x y ∧ Ahead y z ∧ Ahead z x
  | _, _, _ => False

/-- The first difference of two keys is none, or neither half a circle nor a whole one. -/
def Apart (xs ys : List Int) : Prop := firstDifference xs ys = 0 ∨ ¬ (2 ^ 31 : Int) ∣ firstDifference xs ys

theorem bmod_pos_iff (d : Int) : 0 < d.bmod (2 ^ 32) ↔ 0 < d % 2 ^ 32 ∧ d % 2 ^ 32 < 2 ^ 31 := by
  rw [Int.bmod_def]
  split <;> omega

theorem ahead_iff {x y : Int} : Ahead x y ↔ 0 < (y - x).bmod (2 ^ 32) := (bmod_pos_iff _).symm

theorem Ahead.ne {x y : Int} (ahead : Ahead x y) : x ≠ y := by
  rintro rfl
  simp [Ahead] at ahead

theorem Ahead.asymm {x y : Int} (ahead : Ahead x y) : ¬ Ahead y x := by
  unfold Ahead at *
  omega

@[simp] theorem firstDifference_self (xs : List Int) : firstDifference xs xs = 0 := by
  induction xs with
  | nil => rfl
  | cons x xs ih => rw [firstDifference, if_pos rfl, ih]

theorem firstDifference_swap (xs ys : List Int) : firstDifference ys xs = -firstDifference xs ys := by
  induction xs generalizing ys with
  | nil => cases ys <;> rfl
  | cons x xs ih =>
      cases ys with
      | nil => rfl
      | cons y ys =>
          rw [firstDifference, firstDifference]
          by_cases same : x = y
          · rw [if_pos same, if_pos same.symm, ih]
          · rw [if_neg same, if_neg (Ne.symm same), Int.neg_sub]

theorem firstDifference_cons_eq_zero_iff {x y : Int} {xs ys : List Int} :
    firstDifference (x :: xs) (y :: ys) = 0 ↔ x = y ∧ firstDifference xs ys = 0 := by
  rw [firstDifference]
  by_cases same : x = y
  · rw [if_pos same, and_iff_right same]
  · rw [if_neg same]
    exact iff_of_false (by omega) fun both => same both.1

theorem firstDifference_eq_zero_iff {xs ys : List Int} (length : xs.length = ys.length) :
    firstDifference xs ys = 0 ↔ xs = ys := by
  induction xs generalizing ys with
  | nil => simp [firstDifference, List.length_eq_zero_iff.mp length.symm]
  | cons x xs ih =>
      cases ys with
      | nil => cases length
      | cons y ys => rw [firstDifference_cons_eq_zero_iff, List.cons.injEq, ih (by simpa using length)]

theorem compare_pos_cons (x y : Int) (xs ys : List Int) :
    0 < compare (x :: xs) (y :: ys) ↔ if x = y then 0 < compare xs ys else Ahead x y := by
  rw [compare, firstDifference]
  by_cases same : x = y
  · rw [if_pos same, if_pos same, compare]
  · rw [if_neg same, if_neg same, ahead_iff]

theorem round_iff (xs ys zs : List Int) :
    Round xs ys zs ↔ 0 < compare xs ys ∧ 0 < compare ys zs ∧ 0 < compare zs xs := by
  induction xs generalizing ys zs with
  | nil => simp [Round, compare, firstDifference]
  | cons x xs ih =>
      cases ys with
      | nil => simp [Round, compare, firstDifference]
      | cons y ys =>
          cases zs with
          | nil => simp [Round, compare, firstDifference]
          | cons z zs =>
              rw [Round, compare_pos_cons, compare_pos_cons, compare_pos_cons]
              by_cases all : x = y ∧ y = z
              · obtain ⟨rfl, rfl⟩ := all
                simp only [and_self, if_true]
                exact ih ys zs
              · rw [if_neg all]
                constructor
                · rintro ⟨first, second, third⟩
                  rw [if_neg first.ne, if_neg second.ne, if_neg third.ne]
                  exact ⟨first, second, third⟩
                · -- two of the three fields cannot be the same: the third would be on both sides of them
                  intro turns
                  by_cases first : x = y
                  · subst first
                    have second : x ≠ z := fun same => all ⟨rfl, same⟩
                    rw [if_neg second, if_neg second.symm] at turns
                    exact absurd turns.2.2 turns.2.1.asymm
                  · by_cases second : y = z
                    · subst second
                      rw [if_neg first, if_neg (Ne.symm first)] at turns
                      exact absurd turns.2.2 turns.1.asymm
                    · by_cases third : z = x
                      · subst third
                        rw [if_neg first, if_neg second] at turns
                        exact absurd turns.2.1 turns.1.asymm
                      · rwa [if_neg first, if_neg second, if_neg third] at turns

theorem sign_eq_neg_sign_iff {a b : Int} : a.sign = -b.sign ↔ (0 < a ↔ b < 0) ∧ (a < 0 ↔ 0 < b) := by
  rcases lt_trichotomy a 0 with negA | rfl | posA <;> rcases lt_trichotomy b 0 with negB | rfl | posB
  all_goals simp_all [Int.sign_eq_neg_one_of_neg, Int.sign_eq_one_of_pos]
  all_goals omega

theorem apart_iff (xs ys : List Int) :
    Apart xs ys ↔
      (compare xs ys = 0 ↔ firstDifference xs ys = 0) ∧ (compare xs ys).sign = -(compare ys xs).sign := by
  rw [sign_eq_neg_sign_iff, Apart, compare, compare, firstDifference_swap xs ys]
  generalize firstDifference xs ys = d
  rw [Int.bmod_def, Int.bmod_def]
  split <;> split <;> omega

/-! ## Total orders -/

/-- A comparison that answers below 0, 0 or above 0 is a total order of a set. -/
structure Total {α : Type*} (cmp : α → α → Int) (S : Set α) : Prop where
  eq_zero_iff : ∀ a ∈ S, ∀ b ∈ S, cmp a b = 0 ↔ a = b
  opposite : ∀ a ∈ S, ∀ b ∈ S, (cmp a b).sign = -(cmp b a).sign
  trans : ∀ a ∈ S, ∀ b ∈ S, ∀ c ∈ S, cmp a b ≤ 0 → cmp b c ≤ 0 → cmp a c ≤ 0

section
variable {α : Type*} {cmp : α → α → Int} {S : Set α}

theorem Total.pos_iff (total : Total cmp S) {a b : α} (memA : a ∈ S) (memB : b ∈ S) : 0 < cmp a b ↔ cmp b a < 0 :=
  (sign_eq_neg_sign_iff.mp (total.opposite a memA b memB)).1

theorem total_iff_not_round (cmp : α → α → Int) (S : Set α) :
    Total cmp S ↔ (∀ a ∈ S, ∀ b ∈ S, (cmp a b = 0 ↔ a = b) ∧ (cmp a b).sign = -(cmp b a).sign) ∧
      ∀ a ∈ S, ∀ b ∈ S, ∀ c ∈ S, ¬ (0 < cmp a b ∧ 0 < cmp b c ∧ 0 < cmp c a) := by
  constructor
  · intro total
    refine ⟨fun a memA b memB => ⟨total.eq_zero_iff a memA b memB, total.opposite a memA b memB⟩, ?_⟩
    rintro a memA b memB c memC ⟨first, second, third⟩
    have back := total.trans c memC b memB a memA ((total.pos_iff memB memC).mp second).le
      ((total.pos_iff memA memB).mp first).le
    exact absurd back (not_le.mpr third)
  · rintro ⟨pairs, turns⟩
    refine ⟨fun a memA b memB => (pairs a memA b memB).1, fun a memA b memB => (pairs a memA b memB).2, ?_⟩
    intro a memA b memB c memC first second
    by_contra third
    have below {x y : α} (memX : x ∈ S) (memY : y ∈ S) (ne : x ≠ y) (le : cmp x y ≤ 0) : 0 < cmp y x :=
      (sign_eq_neg_sign_iff.mp (pairs y memY x memX).2).1.mpr (lt_of_le_of_ne le (mt (pairs x memX y memY).1.mp ne))
    by_cases same : a = b
    · exact third (same ▸ second)
    · by_cases same' : b = c
      · exact third (same' ▸ first)
      · exact turns c memC b memB a memA
          ⟨below memB memC same' second, below memA memB same first, not_le.mp third⟩

/-- Comparison by the first difference of the keys is a total order of the sets in which any two keys are apart
and no three go round. -/
theorem total_iff {key : α → List Int} (compared : ∀ a b, cmp a b = compare (key a) (key b))
    (faithful : ∀ a b, firstDifference (key a) (key b) = 0 ↔ a = b) :
    Total cmp S ↔ (∀ a ∈ S, ∀ b ∈ S, Apart (key a) (key b)) ∧
      ∀ a ∈ S, ∀ b ∈ S, ∀ c ∈ S, ¬ Round (key a) (key b) (key c) := by
  rw [total_iff_not_round]
  simp only [apart_iff, round_iff, compared, faithful]

/-- Differences that are kept whole do not go round. -/
theorem not_round_firstDifference (xs ys zs : List Int) :
    ¬ (0 < firstDifference xs ys ∧ 0 < firstDifference ys zs ∧ 0 < firstDifference zs xs) := by
  induction xs generalizing ys zs with
  | nil => simp [firstDifference]
  | cons x xs ih =>
      cases ys with
      | nil => simp [firstDifference]
      | cons y ys =>
          cases zs with
          | nil => simp [firstDifference]
          | cons z zs =>
              unfold firstDifference
              have shorter := ih ys zs
              split <;> split <;> split <;> omega

theorem total_firstDifference {key : α → List Int}
    (faithful : ∀ a b, firstDifference (key a) (key b) = 0 ↔ a = b) :
    Total (fun a b => firstDifference (key a) (key b)) S := by
  apply (total_iff_not_round _ _).mpr
  constructor
  · intro a _ b _
    refine ⟨faithful a b, ?_⟩
    rw [firstDifference_swap (key b) (key a), Int.sign_neg]
  · intro a _ b _ c _
    exact not_round_firstDifference (key a) (key b) (key c)

/-- Only the signs of the answers matter. -/
theorem Total.of_sign {cmp' : α → α → Int} (total : Total cmp S) (signs : ∀ a b, (cmp' a b).sign = (cmp a b).sign) :
    Total cmp' S := by
  have nonpos (a b : α) : cmp' a b ≤ 0 ↔ cmp a b ≤ 0 := by
    rw [← Int.sign_nonpos_iff, signs, Int.sign_nonpos_iff]
  constructor
  · intro a memA b memB
    rw [← Int.sign_eq_zero_iff_zero, signs, Int.sign_eq_zero_iff_zero]
    exact total.eq_zero_iff a memA b memB
  · intro a memA b memB
    rw [signs, signs]
    exact total.opposite a memA b memB
  · intro a memA b memB c memC
    rw [nonpos, nonpos, nonpos]
    exact total.trans a memA b memB c memC

end

end SerialOrder
