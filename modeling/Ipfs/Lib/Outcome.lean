import Mathlib.Tactic

/-!
# Outcomes of C calls

A C function that reports success by its return value comes to one of three ends: it returns with
a value, it returns 0, or it executes something undefined. `Outcome` has one constructor for each,
and `Act` threads a state through, which is kept also when the call fails or faults.
-/

universe u

/-- What an undefined step of a C program was. -/
inductive Fault
  | nullPointer
  | unassigned
  | outOfBounds
  | overflow
  | released
  deriving DecidableEq, Repr

inductive Outcome (α : Type u)
  | returned (value : α)
  | failed
  | fault (cause : Fault)
  deriving DecidableEq, Repr

namespace Outcome
variable {α β γ : Type u}

protected def bind (x : Outcome α) (f : α → Outcome β) : Outcome β :=
  match x with
  | .returned value => f value
  | .failed => .failed
  | .fault cause => .fault cause

instance : Monad Outcome where
  pure := .returned
  bind := Outcome.bind

@[simp] theorem pure_def (a : α) : (pure a : Outcome α) = .returned a := rfl

@[simp] theorem returned_bind (a : α) (f : α → Outcome β) : (returned a >>= f) = f a := rfl

@[simp] theorem failed_bind (f : α → Outcome β) : (failed >>= f) = failed := rfl

@[simp] theorem fault_bind (cause : Fault) (f : α → Outcome β) : (fault cause >>= f) = fault cause := rfl

instance : LawfulMonad Outcome := LawfulMonad.mk' Outcome
  (by intro _ x; cases x <;> rfl)
  (by intros; rfl)
  (by intro _ _ _ x _ _; cases x <;> rfl)

theorem mapM_eq_returned {f : α → Outcome β} {g : α → β} (items : List α)
    (each : ∀ item ∈ items, f item = .returned (g item)) : items.mapM f = .returned (items.map g) := by
  induction items with
  | nil => rfl
  | cons item items ih =>
      rw [List.mapM_cons, each item (by simp), ih fun item' mem => each item' (by simp [mem])]
      rfl

theorem mapM_returns {f : α → Outcome β} {items : List α} (each : ∀ item ∈ items, ∃ b, f item = .returned b) :
    ∃ bs, items.mapM f = .returned bs := by
  induction items with
  | nil => exact ⟨[], rfl⟩
  | cons item items ih =>
      obtain ⟨b, first⟩ := each item List.mem_cons_self
      obtain ⟨bs, rest⟩ := ih fun item' mem => each item' (List.mem_cons_of_mem _ mem)
      rw [List.mapM_cons, first, returned_bind, rest]
      exact ⟨b :: bs, rfl⟩

theorem bind_eq_returned {x : Outcome α} {f : α → Outcome β} {b : β} :
    (x >>= f) = .returned b ↔ ∃ a, x = .returned a ∧ f a = .returned b := by
  cases x <;> simp

/-- A callee's report, 0 or a value, as an outcome. -/
def ofOption : Option α → Outcome α
  | none => .failed
  | some a => .returned a

@[simp] theorem ofOption_some (a : α) : ofOption (some a) = .returned a := rfl

@[simp] theorem ofOption_none : ofOption (none : Option α) = .failed := rfl

theorem ofOption_eq_returned {x : Option α} {a : α} : ofOption x = .returned a ↔ x = some a := by
  cases x <;> simp

theorem ofOption_bind_ofOption (x : Option α) (f : α → Option β) :
    (ofOption x >>= fun a => ofOption (f a)) = ofOption (x.bind f) := by
  cases x <;> rfl

/-- Read through a pointer, or from storage, that may not be there. -/
def access (cause : Fault) : Option α → Outcome α
  | none => .fault cause
  | some a => .returned a

@[simp] theorem access_some (cause : Fault) (a : α) : access cause (some a) = .returned a := rfl

@[simp] theorem access_none (cause : Fault) : access cause (none : Option α) = .fault cause := rfl

theorem access_eq_returned {cause : Fault} {x : Option α} {a : α} :
    access cause x = .returned a ↔ x = some a := by
  cases x <;> simp

/-- The call executes nothing undefined. -/
def Defined (x : Outcome α) : Prop := ∀ cause, x ≠ .fault cause

@[simp] theorem defined_returned (a : α) : Defined (.returned a) := by simp [Defined]

@[simp] theorem defined_failed : Defined (.failed : Outcome α) := by simp [Defined]

@[simp] theorem not_defined_fault (cause : Fault) : ¬ Defined (.fault cause : Outcome α) := by
  simp [Defined]

theorem defined_bind {x : Outcome α} {f : α → Outcome β} :
    Defined (x >>= f) ↔ Defined x ∧ ∀ a, x = .returned a → Defined (f a) := by
  cases x <;> simp

@[simp] theorem defined_access (cause : Fault) (x : Option α) : Defined (access cause x) ↔ x.isSome := by
  cases x <;> simp

end Outcome

/-- A call on a state. -/
def Act (σ α : Type) := σ → Outcome α × σ

namespace Act
variable {σ α β : Type}

protected def bind (x : Act σ α) (f : α → Act σ β) : Act σ β := fun s =>
  match x s with
  | (.returned a, s') => f a s'
  | (.failed, s') => (.failed, s')
  | (.fault cause, s') => (.fault cause, s')

instance : Monad (Act σ) where
  pure a := fun s => (.returned a, s)
  bind := Act.bind

def lift (x : Outcome α) : Act σ α := fun s => (x, s)

/-- A caller that goes on when the call returned 0. -/
def attempt (x : Act σ α) : Act σ (Option α) := fun s =>
  match x s with
  | (.returned a, s') => (.returned (some a), s')
  | (.failed, s') => (.returned none, s')
  | (.fault cause, s') => (.fault cause, s')

def zoom {τ : Type} (get : σ → τ) (set : σ → τ → σ) (x : Act τ α) : Act σ α := fun s =>
  match x (get s) with
  | (result, t) => (result, set s t)

def gets (f : σ → α) : Act σ α := fun s => (.returned (f s), s)

def modify (f : σ → σ) : Act σ Unit := fun s => (.returned (), f s)

@[simp] theorem pure_apply (a : α) (s : σ) : (pure a : Act σ α) s = (.returned a, s) := rfl

@[simp] theorem lift_apply (x : Outcome α) (s : σ) : lift x s = (x, s) := rfl

theorem bind_apply (x : Act σ α) (f : α → Act σ β) (s : σ) :
    (x >>= f) s = match x s with
      | (.returned a, s') => f a s'
      | (.failed, s') => (.failed, s')
      | (.fault cause, s') => (.fault cause, s') := rfl

theorem bind_returned {x : Act σ α} {s s' : σ} {a : α} (h : x s = (.returned a, s')) (f : α → Act σ β) :
    (x >>= f) s = f a s' := by
  rw [bind_apply, h]

theorem bind_failed {x : Act σ α} {s s' : σ} (h : x s = (.failed, s')) (f : α → Act σ β) :
    (x >>= f) s = (.failed, s') := by
  rw [bind_apply, h]

theorem bind_fault {x : Act σ α} {s s' : σ} {cause : Fault} (h : x s = (.fault cause, s')) (f : α → Act σ β) :
    (x >>= f) s = (.fault cause, s') := by
  rw [bind_apply, h]

theorem attempt_returned {x : Act σ α} {s s' : σ} {a : α} (h : x s = (.returned a, s')) :
    x.attempt s = (.returned (some a), s') := by
  rw [attempt, h]

theorem attempt_bind_returned {x : Act σ α} {s s' : σ} {a : α} (h : x s = (.returned a, s'))
    (f : Option α → Act σ β) : (x.attempt >>= f) s = f (some a) s' :=
  bind_returned (attempt_returned h) f

theorem attempt_zoom {τ : Type} (get : σ → τ) (set : σ → τ → σ) (x : Act τ α) :
    (zoom get set x).attempt = zoom get set x.attempt := by
  funext s
  simp only [attempt, zoom]
  match x (get s) with
  | (.returned a, t) => rfl
  | (.failed, t) => rfl
  | (.fault cause, t) => rfl

@[simp] theorem lift_bind (x : Outcome α) (f : α → Act σ β) (s : σ) :
    (lift x >>= f) s = match x with
      | .returned a => f a s
      | .failed => (.failed, s)
      | .fault cause => (.fault cause, s) := by
  cases x <;> rfl

theorem lift_returned_bind (a : α) (f : α → Act σ β) (s : σ) : (lift (.returned a) >>= f) s = f a s := rfl

theorem defined_bind {x : Act σ α} {f : α → Act σ β} {s : σ} :
    ((x >>= f) s).1.Defined ↔ (x s).1.Defined ∧ ∀ a s', x s = (.returned a, s') → (f a s').1.Defined := by
  rw [bind_apply]
  match x s with
  | (.returned a, s') => simp
  | (.failed, s') => simp
  | (.fault cause, s') => simp

theorem defined_lift_bind {x : Outcome α} {f : α → Act σ β} {s : σ} :
    ((lift x >>= f) s).1.Defined ↔ x.Defined ∧ ∀ a, x = .returned a → (f a s).1.Defined := by
  cases x <;> simp

/-! ## What a call preserves, however it ends -/

def Preserves (Inv : σ → Prop) (x : Act σ α) : Prop := ∀ s, Inv s → Inv (x s).2

section
variable {Inv : σ → Prop}

theorem Preserves.pure (a : α) : Preserves Inv (Pure.pure a) := fun _ holds => holds

theorem Preserves.lift (x : Outcome α) : Preserves Inv (Act.lift x) := fun _ holds => holds

theorem Preserves.gets (f : σ → α) : Preserves Inv (Act.gets f) := fun _ holds => holds

theorem Preserves.gets_bind {f : σ → α} {next : α → Act σ β} (second : ∀ s, Inv s → Inv (next (f s) s).2) :
    Preserves Inv (Act.gets f >>= next) := second

theorem Preserves.bind {x : Act σ α} {f : α → Act σ β} (first : Preserves Inv x)
    (second : ∀ a, Preserves Inv (f a)) : Preserves Inv (x >>= f) := by
  intro s holds
  have after := first s holds
  rw [bind_apply]
  match result : x s with
  | (.returned a, s') => exact second a s' (by simpa [result] using after)
  | (.failed, s') => simpa [result] using after
  | (.fault cause, s') => simpa [result] using after

theorem Preserves.lift_bind {x : Outcome α} {f : α → Act σ β}
    (second : ∀ a, x = .returned a → Preserves Inv (f a)) : Preserves Inv (Act.lift x >>= f) := by
  intro s holds
  rw [Act.lift_bind]
  cases x with
  | returned a => exact second a rfl s holds
  | failed => exact holds
  | fault cause => exact holds

theorem Preserves.attempt {x : Act σ α} (preserves : Preserves Inv x) : Preserves Inv x.attempt := by
  intro s holds
  have after := preserves s holds
  rw [Act.attempt]
  match result : x s with
  | (.returned a, s') => simpa [result] using after
  | (.failed, s') => simpa [result] using after
  | (.fault cause, s') => simpa [result] using after

theorem Preserves.zoom {τ : Type} {get : σ → τ} {set : σ → τ → σ} {x : Act τ α} {Inv' : τ → Prop}
    (preserves : Preserves Inv' x) (part : ∀ s, Inv s → Inv' (get s))
    (whole : ∀ s t, Inv s → Inv' t → Inv (set s t)) : Preserves Inv (Act.zoom get set x) :=
  fun s holds => whole s _ holds (preserves (get s) (part s holds))

end

/-! ## Relations between calls -/

/-- A relation that goes through the steps a call is made of. -/
structure Congruence {τ : Type} (R : ∀ {α : Type}, Act σ α → Act τ α → Prop) : Prop where
  pure : ∀ {α : Type} (a : α), R (Pure.pure a) (Pure.pure a)
  lift : ∀ {α : Type} (x : Outcome α), R (Act.lift x) (Act.lift x)
  bind : ∀ {α β : Type} {x : Act σ α} {y : Act τ α} {f : α → Act σ β} {g : α → Act τ β},
    R x y → (∀ a, R (f a) (g a)) → R (x >>= f) (y >>= g)
  attempt : ∀ {α : Type} {x : Act σ α} {y : Act τ α}, R x y → R x.attempt y.attempt

/-- The call does the same on a state that has something else beside it. -/
def Erases {τ : Type} (x : Act (σ × τ) α) (y : Act σ α) : Prop :=
  ∀ s t, (x (s, t)).1 = (y s).1 ∧ (x (s, t)).2.1 = (y s).2

theorem Erases.congruence (σ τ : Type) : Congruence (fun {α} (x : Act (σ × τ) α) (y : Act σ α) => Erases x y) where
  pure _ := fun _ _ => ⟨rfl, rfl⟩
  lift _ := fun _ _ => ⟨rfl, rfl⟩
  bind {_ _ x y f g} first second := by
    intro s t
    obtain ⟨result, state⟩ := first s t
    rw [bind_apply, bind_apply]
    match left : x (s, t), right : y s with
    | (outcome, s', t'), (outcome', s'') =>
        simp only [left, right] at result state
        subst result state
        cases outcome with
        | returned a => exact second a s' t'
        | failed | fault cause => exact ⟨rfl, rfl⟩
  attempt {_ x y} erases := by
    intro s t
    obtain ⟨result, state⟩ := erases s t
    rw [Act.attempt, Act.attempt]
    match left : x (s, t), right : y s with
    | (outcome, s', t'), (outcome', s'') =>
        simp only [left, right] at result state
        subst result state
        cases outcome <;> exact ⟨rfl, rfl⟩

theorem Preserves.congruence (Inv : σ → Prop) : Congruence (fun {α} (x _ : Act σ α) => Preserves Inv x) where
  pure := Preserves.pure
  lift := Preserves.lift
  bind := Preserves.bind
  attempt := Preserves.attempt

end Act
