import Mathlib.Tactic

/-!
# Runs

A machine takes one input at a time; a step that does not come back has no next state. A condition
on steps is read in the state each step starts from.
-/

structure Machine (σ ι : Type) where
  step : σ → ι → Option σ

namespace Machine
variable {σ ι : Type} (machine : Machine σ ι)

def run : σ → List ι → Option σ
  | s, [] => some s
  | s, input :: inputs => (machine.step s input).bind fun s' => run s' inputs

/-- Every step of the run meets the condition. -/
def RunMeets (Allowed : σ → ι → Prop) : σ → List ι → Prop
  | _, [] => True
  | s, input :: inputs =>
      Allowed s input ∧ ∀ s', machine.step s input = some s' → RunMeets Allowed s' inputs

def tally (weight : σ → ι → Nat) : σ → List ι → Nat
  | _, [] => 0
  | s, input :: inputs => weight s input + ((machine.step s input).map fun s' => tally weight s' inputs).getD 0

/-- The condition on each input, in view of those before it. -/
def HistoryMeets (Allowed : List ι → ι → Prop) (inputs : List ι) : Prop :=
  ∀ before input, before ++ [input] <+: inputs → Allowed before input

variable {machine}

theorem tally_cons {weight : σ → ι → Nat} {s s' : σ} {input : ι} (step : machine.step s input = some s') (inputs : List ι) :
    machine.tally weight s (input :: inputs) = weight s input + machine.tally weight s' inputs := by
  rw [tally, step]
  rfl

theorem runMeets_cons {Allowed : σ → ι → Prop} {s s' : σ} {input : ι} (step : machine.step s input = some s')
    {inputs : List ι} :
    machine.RunMeets Allowed s (input :: inputs) ↔ Allowed s input ∧ machine.RunMeets Allowed s' inputs := by
  simp [RunMeets, step]

theorem runMeets_append {Allowed : σ → ι → Prop} {s : σ} {before later : List ι} :
    machine.RunMeets Allowed s (before ++ later) ↔
      machine.RunMeets Allowed s before ∧
        ∀ s', machine.run s before = some s' → machine.RunMeets Allowed s' later := by
  induction before generalizing s with
  | nil => simp [RunMeets, run]
  | cons input before ih =>
      simp only [List.cons_append, RunMeets, run, ih, Option.bind_eq_some_iff]
      constructor
      · rintro ⟨allowed, rest⟩
        exact ⟨⟨allowed, fun next step => (rest next step).1⟩,
          fun s' ⟨next, step, ran⟩ => (rest next step).2 s' ran⟩
      · rintro ⟨⟨allowed, first⟩, second⟩
        exact ⟨allowed, fun next step => ⟨first next step, fun s' ran => second s' ⟨next, step, ran⟩⟩⟩

theorem runMeets_of_forall {Allowed : σ → ι → Prop} {inputs : List ι} (allowed : ∀ s, ∀ input ∈ inputs, Allowed s input)
    (s : σ) : machine.RunMeets Allowed s inputs := by
  induction inputs generalizing s with
  | nil => trivial
  | cons input inputs ih =>
      exact ⟨allowed s input List.mem_cons_self, fun s' _ =>
        ih (fun s input mem => allowed s input (List.mem_cons_of_mem _ mem)) s'⟩

theorem run_invariant {Allowed : σ → ι → Prop} (Inv : σ → Prop)
    (preserved : ∀ s input s', Inv s → Allowed s input → machine.step s input = some s' → Inv s')
    {s s' : σ} {inputs : List ι} (holds : Inv s) (meets : machine.RunMeets Allowed s inputs)
    (ran : machine.run s inputs = some s') : Inv s' := by
  induction inputs generalizing s with
  | nil =>
      simp only [run, Option.some.injEq] at ran
      exact ran ▸ holds
  | cons input inputs ih =>
      obtain ⟨next, step, rest⟩ := Option.bind_eq_some_iff.mp ran
      exact ih (preserved s input next holds meets.1 step) (meets.2 next step) rest

/-- What every step keeps. -/
theorem run_keeps {Inv : σ → Prop} (preserved : ∀ s input s', Inv s → machine.step s input = some s' → Inv s')
    {s s' : σ} {inputs : List ι} (holds : Inv s) (ran : machine.run s inputs = some s') : Inv s' := by
  induction inputs generalizing s with
  | nil => exact Option.some.inj ran ▸ holds
  | cons input inputs ih =>
      obtain ⟨next, step, rest⟩ := Option.bind_eq_some_iff.mp ran
      exact ih (preserved s input next holds step) rest

theorem run_returns {Allowed : σ → ι → Prop} {Inv : σ → Prop}
    (returns : ∀ s input, Inv s → Allowed s input → ∃ s', machine.step s input = some s' ∧ Inv s')
    {s : σ} {inputs : List ι} (holds : Inv s) (meets : machine.RunMeets Allowed s inputs) :
    ∃ s', machine.run s inputs = some s' ∧ Inv s' := by
  induction inputs generalizing s with
  | nil => exact ⟨s, rfl, holds⟩
  | cons input inputs ih =>
      obtain ⟨next, step, holds'⟩ := returns s input holds meets.1
      obtain ⟨s', rest, last⟩ := ih holds' (meets.2 next step)
      exact ⟨s', by rw [run, step, Option.bind_some, rest], last⟩

/-- The condition on steps is exact when each step that breaks it breaks what is wanted of states or steps. -/
theorem runMeets_iff {Allowed Safe : σ → ι → Prop} {Inv Good : σ → Prop} (good : ∀ s, Inv s → Good s)
    (each : ∀ s input, Inv s → (Allowed s input ↔ Safe s input ∧ ∃ s', machine.step s input = some s' ∧ Good s'))
    (preserved : ∀ s input s', Inv s → Allowed s input → machine.step s input = some s' → Inv s')
    {s : σ} {inputs : List ι} (holds : Inv s) :
    machine.RunMeets Allowed s inputs ↔
      machine.RunMeets (fun s input => Good s ∧ Safe s input) s inputs ∧
        ∃ s', machine.run s inputs = some s' ∧ Good s' := by
  induction inputs generalizing s with
  | nil => simp [RunMeets, run, good s holds]
  | cons input inputs ih =>
      constructor
      · rintro ⟨allowed, rest⟩
        obtain ⟨safe, next, step, -⟩ := (each s input holds).mp allowed
        obtain ⟨meets, last, ran, ends⟩ := (ih (preserved s input next holds allowed step)).mp (rest next step)
        refine ⟨⟨⟨good s holds, safe⟩, fun s' stepped => ?_⟩, last, by rw [run, step, Option.bind_some, ran], ends⟩
        rw [step, Option.some.injEq] at stepped
        exact stepped ▸ meets
      · rintro ⟨⟨⟨-, safe⟩, rest⟩, last, ran, ends⟩
        obtain ⟨next, step, ran⟩ := Option.bind_eq_some_iff.mp ran
        have meets := rest next step
        have wanted : Good next := by
          cases inputs with
          | nil => simpa [run] using (Option.some.inj ran ▸ ends : Good next)
          | cons later inputs => exact meets.1.1
        have allowed := (each s input holds).mpr ⟨safe, next, step, wanted⟩
        refine ⟨allowed, fun s' stepped => ?_⟩
        rw [step, Option.some.injEq] at stepped
        exact stepped ▸ (ih (preserved s input next holds allowed step)).mpr ⟨meets, last, ran, ends⟩

/-! ### Histories -/

theorem run_concat (s : σ) (before : List ι) (input : ι) :
    machine.run s (before ++ [input]) = (machine.run s before).bind fun s' => machine.step s' input := by
  induction before generalizing s with
  | nil => simp [run]
  | cons first before ih => simp only [List.cons_append, run, ih, Option.bind_assoc]

section
variable {Inv Good : List ι → σ → Prop} {Allowed : List ι → ι → Prop} {start : σ}

theorem run_history (first : Inv [] start)
    (returns : ∀ before s input, Inv before s → Allowed before input →
      ∃ s', machine.step s input = some s' ∧ Inv (before ++ [input]) s')
    {inputs : List ι} (meets : HistoryMeets Allowed inputs) :
    ∃ s', machine.run start inputs = some s' ∧ Inv inputs s' := by
  induction inputs using List.reverseRecOn with
  | nil => exact ⟨start, rfl, first⟩
  | append_singleton inputs input ih =>
      obtain ⟨s, ran, holds⟩ := ih fun before earlier isPrefix =>
        meets before earlier (isPrefix.trans (List.prefix_append _ _))
      obtain ⟨s', step, holds'⟩ := returns inputs s input holds (meets inputs input List.prefix_rfl)
      exact ⟨s', by rw [run_concat, ran, Option.bind_some, step], holds'⟩

/-- A condition on the inputs so far is exact when each input that breaks it breaks what is wanted of the state. -/
theorem historyMeets_iff (first : Inv [] start)
    (returns : ∀ before s input, Inv before s → Allowed before input →
      ∃ s', machine.step s input = some s' ∧ Inv (before ++ [input]) s')
    (good : ∀ before s, Inv before s → Good before s)
    (needed : ∀ before s input s', Inv before s → machine.step s input = some s' → Good (before ++ [input]) s' →
      Allowed before input)
    {inputs : List ι} :
    (∀ before, before <+: inputs → ∃ s, machine.run start before = some s ∧ Good before s) ↔
      HistoryMeets Allowed inputs := by
  constructor
  · intro runs
    induction inputs using List.reverseRecOn with
    | nil => intro before input isPrefix; simp at isPrefix
    | append_singleton inputs last ih =>
        have meets := ih fun before isPrefix => runs before (isPrefix.trans (List.prefix_append _ _))
        intro before input isPrefix
        rcases List.prefix_concat_iff.mp isPrefix with same | earlier
        · obtain ⟨rfl, rfl⟩ := List.append_singleton_inj.mp same
          obtain ⟨s, ran, holds⟩ := run_history first returns meets
          obtain ⟨s', ran', wanted⟩ := runs _ List.prefix_rfl
          rw [run_concat, ran, Option.bind_some] at ran'
          exact needed before s input s' holds ran' wanted
        · exact meets before input earlier
  · intro meets before isPrefix
    obtain ⟨s, ran, holds⟩ := run_history first returns (fun earlier input isPrefix' =>
      meets earlier input (isPrefix'.trans isPrefix))
    exact ⟨s, ran, good before s holds⟩

end

end Machine

/-! ## Loops with a result -/

/-- A step comes to a result or goes on. -/
structure Loop (σ ρ : Type) where
  step : σ → ρ ⊕ σ

namespace Loop
variable {σ ρ : Type} (loop : Loop σ ρ)

inductive Ends : σ → ρ → Prop
  | result {s : σ} {r : ρ} (step : loop.step s = .inl r) : Ends s r
  | next {s s' : σ} {r : ρ} (step : loop.step s = .inr s') (ends : Ends s' r) : Ends s r

def run : Nat → σ → Option ρ
  | 0, _ => none
  | fuel + 1, s => match loop.step s with
      | .inl r => some r
      | .inr s' => run fuel s'

variable {loop}

theorem ends_of_result {s : σ} {r r' : ρ} (step : loop.step s = .inl r) : loop.Ends s r' ↔ r' = r := by
  constructor
  · intro ends
    cases ends with
    | result other => exact Sum.inl.inj (other.symm.trans step)
    | next other _ => cases other.symm.trans step
  · rintro rfl
    exact .result step

theorem ends_of_next {s s' : σ} {r : ρ} (step : loop.step s = .inr s') : loop.Ends s r ↔ loop.Ends s' r := by
  constructor
  · intro ends
    cases ends with
    | result other => cases other.symm.trans step
    | next other ends => exact Sum.inr.inj (other.symm.trans step) ▸ ends
  · exact .next step

theorem ends_of_run {fuel : Nat} {s : σ} {r r' : ρ} (ran : loop.run fuel s = some r) : loop.Ends s r' ↔ r' = r := by
  induction fuel generalizing s with
  | zero => cases ran
  | succ fuel ih =>
      rw [run] at ran
      cases step : loop.step s with
      | inl result =>
          simp only [step, Option.some.injEq] at ran
          rw [ends_of_result step, ran]
      | inr s' =>
          simp only [step] at ran
          rw [ends_of_next step, ih ran]

theorem run_of_measure {Inv : σ → Prop} {measure : σ → Nat}
    (next : ∀ s s', Inv s → loop.step s = .inr s' → Inv s' ∧ measure s' < measure s)
    {fuel : Nat} {s : σ} (holds : Inv s) (enough : measure s < fuel) : ∃ r, loop.run fuel s = some r := by
  induction fuel generalizing s with
  | zero => omega
  | succ fuel ih =>
      rw [run]
      cases step : loop.step s with
      | inl r => exact ⟨r, rfl⟩
      | inr s' =>
          obtain ⟨holds', less⟩ := next s s' holds step
          exact ih holds' (by omega)

theorem ends_run {fuel : Nat} {s : σ} {r : ρ} (ran : loop.run fuel s = some r) : loop.Ends s r :=
  (ends_of_run ran).mpr rfl

/-- What the steps keep, and what a result has after them. -/
theorem Ends.invariant {Inv : σ → Prop} {Post : ρ → Prop} (next : ∀ s s', Inv s → loop.step s = .inr s' → Inv s')
    (result : ∀ s r, Inv s → loop.step s = .inl r → Post r) {s : σ} {r : ρ} (ends : loop.Ends s r) (holds : Inv s) :
    Post r := by
  induction ends with
  | result step => exact result _ _ holds step
  | next step _ ih => exact ih (next _ _ holds step)

/-- Another loop goes along step by step, until one of the two comes to its result. -/
theorem Ends.along {τ ρ' : Type} {loop' : Loop τ ρ'} {Along : σ → τ → Prop} {Results : ρ → ρ' → Prop}
    (each : ∀ s t, Along s t → (∀ r, loop.step s = .inl r → ∀ r', loop'.Ends t r' → Results r r') ∧
      ∀ s', loop.step s = .inr s' → (∃ t', loop'.step t = .inr t' ∧ Along s' t') ∨
        ∀ r, loop.Ends s' r → ∀ r', loop'.Ends t r' → Results r r')
    {s : σ} {t : τ} {r : ρ} {r' : ρ'} (ends : loop.Ends s r) (along : Along s t) (ends' : loop'.Ends t r') :
    Results r r' := by
  induction ends generalizing t with
  | result step => exact (each _ _ along).1 _ step _ ends'
  | next step ends ih =>
      rcases (each _ _ along).2 _ step with ⟨t', step', along'⟩ | apart
      · exact ih along' ((ends_of_next step').mp ends')
      · exact apart _ ends _ ends'

/-- A step that changes nothing. -/
theorem not_ends_of_fixed {s : σ} {r : ρ} (step : loop.step s = .inr s) : ¬ loop.Ends s r := by
  intro ends
  generalize same : s = start at ends
  induction ends with
  | result other =>
      rw [← same, step] at other
      cases other
  | next other _ ih =>
      rw [← same, step] at other
      exact ih (Sum.inr.inj other)

end Loop
