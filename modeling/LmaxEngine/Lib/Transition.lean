import Mathlib.Tactic.Common

/-!
# Transition systems with output

A step relates a state, the outputs of the step and the next state.  A trail is
a finite sequence of steps with the outputs of all of them in order.  The rule
of invariants is stated for properties of the outputs so far and the state, so
that a property may relate the history of a trail to the state it ends in.
-/

namespace LmaxEngine
namespace Transition

universe u v

section Trails

variable {σ : Type u} {ε : Type v}

/-- A finite sequence of steps. -/
inductive Trail (step : σ → List ε → σ → Prop) : σ → List ε → σ → Prop
  | refl (s : σ) :
      Trail step s [] s
  | tail {s t u : σ} {es fs : List ε} :
      Trail step s es t →
      step t fs u →
      Trail step s (es ++ fs) u

variable {step : σ → List ε → σ → Prop} {s t u : σ} {es fs : List ε}

theorem Trail.single
    (h : step s es t) :
    Trail step s es t :=
  Trail.tail (Trail.refl s) h

theorem Trail.trans
    (h : Trail step s es t) (h' : Trail step t fs u) :
    Trail step s (es ++ fs) u := by
  induction h' with
  | refl => rwa [List.append_nil]
  | tail _ hstep ih =>
      rw [← List.append_assoc]
      exact ih.tail hstep

theorem Trail.head
    (h : step s es t) (h' : Trail step t fs u) :
    Trail step s (es ++ fs) u :=
  (Trail.single h).trans h'

/-- A trail of steps of one kind is a trail of steps of a wider kind. -/
theorem Trail.mono
    {step' : σ → List ε → σ → Prop}
    (hsub : ∀ {s es t}, step s es t → step' s es t)
    (h : Trail step s es t) :
    Trail step' s es t := by
  induction h with
  | refl => exact Trail.refl s
  | tail _ hstep ih => exact ih.tail (hsub hstep)

/-- What every step preserves holds along a trail, with the outputs of the trail
appended to the history. -/
theorem Trail.invariant
    {P : List ε → σ → Prop}
    (hstep : ∀ {hist s es t}, P hist s → step s es t → P (hist ++ es) t)
    (hist : List ε)
    (h : Trail step s es t) (hs : P hist s) :
    P (hist ++ es) t := by
  induction h with
  | refl => rwa [List.append_nil]
  | tail _ ht ih =>
      rw [← List.append_assoc]
      exact hstep ih ht

/-- An invariant that does not look at the history. -/
theorem Trail.preserves
    {P : σ → Prop}
    (hstep : ∀ {s es t}, P s → step s es t → P t)
    (h : Trail step s es t) (hs : P s) :
    P t :=
  h.invariant (P := fun _ => P) hstep [] hs

/-- Where every state that is not final has a step to a state with less work, a final
state is within reach.  What the steps preserve need not hold beyond it. -/
theorem Trail.attains
    {P Q : σ → Prop} (work : σ → Nat)
    (hstep : ∀ {s es t}, P s → ¬ Q s → step s es t → P t)
    (hwork : ∀ {s}, P s → ¬ Q s → ∃ es t, step s es t ∧ work t < work s)
    {s : σ} (hs : P s) :
    ∃ es t, Trail step s es t ∧ Q t := by
  induction hn : work s using Nat.strongRecOn generalizing s with
  | ind n ih =>
      subst hn
      by_cases hQ : Q s
      · exact ⟨[], s, Trail.refl s, hQ⟩
      · obtain ⟨es, t, hst, hlt⟩ := hwork hs hQ
        obtain ⟨fs, u, htu, hu⟩ := ih (work t) hlt (hstep hs hQ hst) rfl
        exact ⟨es ++ fs, u, Trail.head hst htu, hu⟩

/-- The same with an invariant that looks at the history. -/
theorem Trail.reaches
    {P : List ε → σ → Prop} {Q : σ → Prop} (work : σ → Nat)
    (hstep : ∀ {hist s es t}, P hist s → ¬ Q s → step s es t → P (hist ++ es) t)
    (hwork : ∀ {hist s}, P hist s → ¬ Q s → ∃ es t, step s es t ∧ work t < work s)
    {hist : List ε} {s : σ} (hs : P hist s) :
    ∃ es t, Trail step s es t ∧ Q t :=
  Trail.attains (P := fun s => ∃ hist, P hist s) work
    (fun ⟨_, h⟩ hQ hst => ⟨_, hstep h hQ hst⟩) (fun ⟨_, h⟩ => hwork h) ⟨hist, hs⟩

end Trails

section Histories

/-- A split of a history with one more output. -/
theorem split_append_singleton
    {ε : Type v} {hist pre post : List ε} {x y : ε}
    (h : hist ++ [x] = pre ++ y :: post) :
    (post = [] ∧ pre = hist ∧ y = x) ∨
      ∃ post', post = post' ++ [x] ∧ hist = pre ++ y :: post' := by
  rcases List.eq_nil_or_concat post with rfl | ⟨post', z, rfl⟩
  · left
    obtain ⟨h1, h2⟩ := List.append_inj' h (by simp)
    exact ⟨rfl, h1.symm, by simpa using h2.symm⟩
  · right
    rw [List.concat_eq_append, ← List.cons_append, ← List.append_assoc] at h
    obtain ⟨h1, h2⟩ := List.append_inj' h (by simp)
    obtain rfl : x = z := by simpa using h2
    exact ⟨post', List.concat_eq_append, h1⟩

end Histories

end Transition
end LmaxEngine
