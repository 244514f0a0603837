import Mathlib.Logic.Function.Basic
import Mathlib.Tactic.Common

/-!
# Checked computations

A program that may abort is modelled in `Except (Fault κ)`.  Some faults abort
every build: an index past the end of an array, an unwrap of nothing, a
division by zero.  Others depend on how the program is built or observed.  For
these the program is given a *build*, the set of the kinds of checks in `κ`
that abort; `probe` is one check of one kind.

A build with fewer checks has the same result wherever the stricter one has
one.  So a theorem that a strict build has a result also says that the events
its checks look for do not happen in any build.

An array whose length is a constant of the program is a function on indices,
and every access names the length.
-/

namespace LmaxEngine
namespace Checked

/-- Why a computation ends without a result. -/
inductive Fault (κ : Type) where
  | indexOutOfBounds
  | unwrapNone
  | divisionByZero
  | outOfFuel
  | check (k : κ)
deriving DecidableEq, Repr

/-- A computation that may abort. -/
abbrev Res (κ : Type) (α : Type) :=
  Except (Fault κ) α

section Results

variable {κ α γ : Type}

@[simp] theorem ok_bind
    (a : α) (f : α → Res κ γ) :
    (Except.ok a >>= f : Res κ γ) = f a := rfl

@[simp] theorem error_bind
    (e : Fault κ) (f : α → Res κ γ) :
    (Except.error e >>= f : Res κ γ) = .error e := rfl

/-- A bind has a result exactly when its first part has one that the second
part takes to it. -/
theorem bind_eq_ok
    {x : Res κ α} {f : α → Res κ γ} {c : γ} :
    (x >>= f) = .ok c ↔ ∃ a, x = .ok a ∧ f a = .ok c := by
  cases x with
  | error e => simp
  | ok a => simp

/-- A computation without a fault has a result. -/
theorem exists_of_isOk
    {x : Res κ α} (h : x.isOk = true) :
    ∃ a, x = .ok a := by
  cases x with
  | error e => exact absurd h (by simp [Except.isOk, Except.toBool])
  | ok a => exact ⟨a, rfl⟩

/-- Does the computation have a result with a property? -/
def yields (x : Res κ α) (p : α → Bool) : Bool :=
  match x with
  | .ok a => p a
  | .error _ => false

theorem exists_of_yields
    {x : Res κ α} {p : α → Bool} (h : yields x p = true) :
    ∃ a, x = .ok a ∧ p a = true := by
  cases x with
  | error e => exact absurd h (by simp [yields])
  | ok a => exact ⟨a, rfl, h⟩

/-- The fault that a computation ends with. -/
def fault? : Res κ α → Option (Fault κ)
  | .ok _ => none
  | .error f => some f

theorem eq_error_of_fault?
    {x : Res κ α} {f : Fault κ} (h : fault? x = some f) :
    x = .error f := by
  cases x with
  | ok a => exact absurd h (by simp [fault?])
  | error g => rw [Option.some.inj h]

end Results

section Probes

variable {κ α : Type} (β : κ → Bool)

/-- Return `a`, unless `bad` holds and the build aborts on checks of kind `k`. -/
def probe (k : κ) (bad : Prop) [Decidable bad] (a : α) : Res κ α :=
  if β k = true ∧ bad then .error (.check k) else .ok a

variable {β}

/-- A check that finds nothing returns its value in every build. -/
theorem probe_pass
    {k : κ} {bad : Prop} [Decidable bad] {a : α}
    (h : ¬ bad) :
    probe β k bad a = .ok a := by
  simp [probe, h]

/-- A check the build does not make returns its value whatever it would find. -/
theorem probe_off
    {k : κ} {bad : Prop} [Decidable bad] {a : α}
    (h : β k = false) :
    probe β k bad a = .ok a := by
  simp [probe, h]

/-- What follows a check gets its value. -/
theorem probe_bind
    {γ : Type} {k : κ} {bad : Prop} [Decidable bad] {a : α} {f : α → Res κ γ} :
    (probe β k bad a >>= f) = (probe β k bad a >>= fun _ => f a) := by
  rw [probe]
  split_ifs
  · rfl
  · rfl

/-- The first computation ends with a check, or as the second one does. -/
def Guards (x y : Res κ α) : Prop :=
  x = y ∨ ∃ k, x = .error (.check k)

section Guarding

variable {γ : Type} {β' : κ → Bool} {x y : Res κ α} {f g : α → Res κ γ}

theorem Guards.refl
    (x : Res κ α) :
    Guards x x :=
  Or.inl rfl

theorem Guards.bind
    (h : Guards x y) (hf : ∀ a, Guards (f a) (g a)) :
    Guards (x >>= f) (y >>= g) := by
  rcases h with rfl | ⟨k, rfl⟩
  · cases x with
    | error e => exact Guards.refl _
    | ok a => exact hf a
  · exact Or.inr ⟨k, rfl⟩

theorem Guards.ite
    {p : Prop} [Decidable p] {x' y' : Res κ α}
    (h : Guards x y) (h' : Guards x' y') :
    Guards (if p then x else x') (if p then y else y') := by
  split_ifs
  · exact h
  · exact h'

/-- A build that checks more guards one that checks less. -/
theorem Guards.probe
    (hβ : ∀ k, β' k = true → β k = true)
    (k : κ) (bad : Prop) [Decidable bad] (a : α) :
    Guards (probe β k bad a) (probe β' k bad a) := by
  by_cases h : β' k = true ∧ bad
  · rw [Checked.probe, Checked.probe, if_pos h, if_pos ⟨hβ k h.1, h.2⟩]
    exact Guards.refl _
  · rw [Checked.probe, Checked.probe, if_neg h]
    split_ifs
    · exact Or.inr ⟨k, rfl⟩
    · exact Guards.refl _

/-- Without a check that aborts the two computations are the same. -/
theorem Guards.eq
    (h : Guards x y) (hno : ∀ k, x ≠ .error (.check k)) :
    x = y := by
  rcases h with h | ⟨k, hk⟩
  · exact h
  · exact absurd hk (hno k)

end Guarding

end Probes

section Unwrap

variable {κ α : Type}

/-- The value of an option that the program takes to be present. -/
def unwrap : Option α → Res κ α
  | some a => .ok a
  | none => .error .unwrapNone

@[simp] theorem unwrap_some (a : α) :
    (unwrap (some a) : Res κ α) = .ok a := rfl

theorem unwrap_eq_ok
    {a? : Option α} {a : α} :
    (unwrap a? : Res κ α) = .ok a ↔ a? = some a := by
  cases a? with
  | none => simp [unwrap]
  | some b => simp

end Unwrap

section Arrays

variable {κ α : Type}

/-- Read entry `i`. -/
def ix (xs : Array α) (i : Nat) : Res κ α :=
  match xs[i]? with
  | some a => .ok a
  | none => .error .indexOutOfBounds

/-- Overwrite entry `i`. -/
def put (xs : Array α) (i : Nat) (a : α) : Res κ (Array α) :=
  if i < xs.size then .ok (xs.setIfInBounds i a) else .error .indexOutOfBounds

theorem ix_eq
    {xs : Array α} {i : Nat} {a : α}
    (h : xs[i]? = some a) :
    (ix xs i : Res κ α) = .ok a := by
  simp [ix, h]

theorem ix_eq_ok
    {xs : Array α} {i : Nat} {a : α} :
    (ix xs i : Res κ α) = .ok a ↔ xs[i]? = some a := by
  rw [ix]
  cases xs[i]? with
  | none => simp
  | some b => simp

theorem put_eq
    {xs : Array α} {i : Nat} {a b : α}
    (h : xs[i]? = some b) :
    (put xs i a : Res κ (Array α)) = .ok (xs.setIfInBounds i a) := by
  have hi : i < xs.size := by
    obtain ⟨hi, -⟩ := Array.getElem?_eq_some_iff.mp h
    exact hi
  simp [put, hi]

/-- Read entry `i` of an array of the constant length `n`. -/
def cell (n : Nat) (f : Nat → α) (i : Nat) : Res κ α :=
  if i < n then .ok (f i) else .error .indexOutOfBounds

/-- Overwrite entry `i` of an array of the constant length `n`. -/
def setCell (n : Nat) (f : Nat → α) (i : Nat) (a : α) : Res κ (Nat → α) :=
  if i < n then .ok (Function.update f i a) else .error .indexOutOfBounds

theorem cell_eq
    {n : Nat} {f : Nat → α} {i : Nat}
    (h : i < n) :
    (cell n f i : Res κ α) = .ok (f i) := by
  simp [cell, h]

theorem setCell_eq
    {n : Nat} {f : Nat → α} {i : Nat} {a : α}
    (h : i < n) :
    (setCell n f i a : Res κ (Nat → α)) = .ok (Function.update f i a) := by
  simp [setCell, h]

theorem cell_eq_ok
    {n : Nat} {f : Nat → α} {i : Nat} {a : α} :
    (cell n f i : Res κ α) = .ok a ↔ i < n ∧ f i = a := by
  rw [cell]
  split_ifs with hi
  · simp [hi]
  · simp [hi]

theorem setCell_eq_ok
    {n : Nat} {f g : Nat → α} {i : Nat} {a : α} :
    (setCell n f i a : Res κ (Nat → α)) = .ok g ↔ i < n ∧ Function.update f i a = g := by
  rw [setCell]
  split_ifs with hi
  · simp [hi]
  · simp [hi]

end Arrays

end Checked
end LmaxEngine
