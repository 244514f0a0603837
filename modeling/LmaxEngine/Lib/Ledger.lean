import LmaxEngine.Lib.Transition

/-!
# Ledgers

A history is a list of notes about ids: a quantity is announced for an id,
some of it is spent, the id is closed, or it is only mentioned.  The tally of
an id is what was announced for it last and what was spent since then.

The state of a ledger says which ids rest, with what is left of them, and which
ids are pending: those that may still be announced.  A ledger whose steps keep
to the rules below is balanced after every history: what is left of a resting
id and what was spent add up to what was announced, no more is ever spent than
announced, and an id is not noted again once it is closed or used up.
-/

namespace LmaxEngine
namespace Ledger

open Transition

universe u

variable {ι : Type u}

inductive Note (ι : Type u) where
  | announce (i : ι) (q : Nat)
  | spend (i : ι) (q : Nat)
  | close (i : ι)
  | mention (i : ι)

/-- The id that a note is about. -/
def Note.id : Note ι → ι
  | .announce i _ => i
  | .spend i _ => i
  | .close i => i
  | .mention i => i

structure Tally where
  announced : Option Nat
  spent : Nat

/-- The quantity `r` is what is left. -/
def Tally.Owes (t : Tally) (r : Nat) : Prop :=
  ∃ q, t.announced = some q ∧ r + t.spent = q

section Tallies

variable [DecidableEq ι]

def Tally.post (i : ι) (t : Tally) : Note ι → Tally
  | .announce j q => if j = i then { announced := some q, spent := 0 } else t
  | .spend j q => if j = i then { t with spent := t.spent + q } else t
  | _ => t

def tally (i : ι) (hist : List (Note ι)) : Tally :=
  hist.foldl (Tally.post i) { announced := none, spent := 0 }

/-- The note closes the id, or spends all that was left of it. -/
def Closes (i : ι) (hist : List (Note ι)) : Note ι → Prop
  | .close j => j = i
  | .spend j q => j = i ∧ (tally i (hist ++ [.spend j q])).Owes 0
  | _ => False

/-- A note of the history has closed the id. -/
def Closed (i : ι) (hist : List (Note ι)) : Prop :=
  ∃ pre n post, hist = pre ++ n :: post ∧ Closes i pre n

variable {i j : ι} {hist : List (Note ι)} {n : Note ι}

@[simp] theorem tally_append_singleton :
    tally i (hist ++ [n]) = (tally i hist).post i n := by
  simp [tally]

/-- A note about another id leaves a tally alone. -/
theorem post_of_ne
    {t : Tally} (h : n.id ≠ i) :
    t.post i n = t := by
  cases n <;> simp_all [Tally.post, Note.id]

theorem closed_append_singleton :
    Closed i (hist ++ [n]) ↔ Closed i hist ∨ Closes i hist n := by
  constructor
  · rintro ⟨pre, n', post, hsplit, hcloses⟩
    rcases split_append_singleton hsplit with ⟨-, rfl, rfl⟩ | ⟨post', -, hhist⟩
    · exact Or.inr hcloses
    · exact Or.inl ⟨pre, n', post', hhist, hcloses⟩
  · rintro (⟨pre, n', post, rfl, hcloses⟩ | hcloses)
    · exact ⟨pre, n', post ++ [n], by simp, hcloses⟩
    · exact ⟨hist, n, [], rfl, hcloses⟩

end Tallies

/-- Which ids rest, with what is left of them, and which may still be
announced. -/
structure View (ι : Type u) where
  rests : ι → Nat → Prop
  pending : ι → Prop

/-- The rules that the steps of a ledger keep to. -/
inductive Rule : View ι → List (Note ι) → View ι → Prop
  | quiet {v v' : View ι}
      (hrests : ∀ i r, v'.rests i r → v.rests i r)
      (hpending : ∀ i, v'.pending i → v.pending i) :
      Rule v [] v'
  | announce {v v' : View ι} {i : ι} {q : Nat}
      (hi : v.pending i ∨ ∃ r, v.rests i r)
      (hrests : ∀ j r, v'.rests j r → (j ≠ i ∧ v.rests j r) ∨ (j = i ∧ r = q))
      (hpending : ∀ j, v'.pending j → v.pending j) :
      Rule v [.announce i q] v'
  | spend {v v' : View ι} {i : ι} {q r : Nat}
      (hi : v.rests i r)
      (hle : q ≤ r)
      (hrests : ∀ j r', v'.rests j r' →
        (j ≠ i ∧ v.rests j r') ∨ (j = i ∧ q < r ∧ r' = r - q))
      (hpending : ∀ j, v'.pending j → v.pending j ∧ j ≠ i) :
      Rule v [.spend i q] v'
  | close {v v' : View ι} {i : ι}
      (hi : v.pending i ∨ ∃ r, v.rests i r)
      (hrests : ∀ j r, v'.rests j r → j ≠ i ∧ v.rests j r)
      (hpending : ∀ j, v'.pending j → v.pending j ∧ j ≠ i) :
      Rule v [.close i] v'
  | mention {v : View ι} {i : ι}
      (hi : v.pending i) :
      Rule v [.mention i] v

section Balance

variable [DecidableEq ι]

/-- What holds of a ledger after a history. -/
structure Balanced (hist : List (Note ι)) (v : View ι) : Prop where
  owes : ∀ i r, v.rests i r → (tally i hist).Owes r
  spent : ∀ i pre post, hist = pre ++ post →
    (tally i pre).spent ≤ (tally i pre).announced.getD 0
  silent : ∀ i pre n post, hist = pre ++ n :: post → Closes i pre n →
    ∀ n', n' ∈ post → n'.id ≠ i
  gone : ∀ i, Closed i hist → ¬ v.pending i ∧ ∀ r, ¬ v.rests i r

variable {hist : List (Note ι)} {v v' : View ι} {n : Note ι} {i : ι}

theorem Balanced.empty
    (h : ∀ i r, ¬ v.rests i r) :
    Balanced [] v where
  owes i r hr := absurd hr (h i r)
  spent i pre post hsplit := by
    obtain ⟨rfl, -⟩ := List.append_eq_nil_iff.mp hsplit.symm
    exact Nat.le_refl 0
  silent i pre n post hsplit := by simp at hsplit
  gone i hc := by
    obtain ⟨pre, n, post, hsplit, -⟩ := hc
    simp at hsplit

/-- An id that is pending or rests is not closed. -/
theorem Balanced.not_closed
    (h : Balanced hist v) (hi : v.pending i ∨ ∃ r, v.rests i r) :
    ¬ Closed i hist := by
  intro hc
  obtain ⟨hp, hr⟩ := h.gone i hc
  rcases hi with hi | ⟨r, hi⟩
  · exact hp hi
  · exact hr r hi

/-- One more note, about an id that is not closed. -/
theorem Balanced.append
    (h : Balanced hist v) (hid : ¬ Closed n.id hist)
    (howes : ∀ i r, v'.rests i r → ((tally i hist).post i n).Owes r)
    (hspent : ((tally n.id hist).post n.id n).spent ≤
      ((tally n.id hist).post n.id n).announced.getD 0)
    (hpending : ∀ i, v'.pending i → v.pending i)
    (hrests : ∀ i r, v'.rests i r → i = n.id ∨ v.rests i r)
    (hcloses : ∀ i, Closes i hist n → ¬ v'.pending i ∧ ∀ r, ¬ v'.rests i r) :
    Balanced (hist ++ [n]) v' where
  owes i r hr := by
    rw [tally_append_singleton]
    exact howes i r hr
  spent i pre post hsplit := by
    rcases List.eq_nil_or_concat post with rfl | ⟨post', n', rfl⟩
    · rw [List.append_nil] at hsplit
      rw [← hsplit, tally_append_singleton]
      by_cases hi : n.id = i
      · subst hi
        exact hspent
      · rw [post_of_ne hi]
        exact h.spent i hist [] (List.append_nil hist).symm
    · rw [List.concat_eq_append, ← List.append_assoc] at hsplit
      obtain ⟨hhist, -⟩ := List.append_inj' hsplit (by simp)
      exact h.spent i pre post' hhist
  silent i pre n' post hsplit hn' m hm := by
    rcases split_append_singleton hsplit with ⟨rfl, -, -⟩ | ⟨post', rfl, hhist⟩
    · simp at hm
    · rcases List.mem_append.mp hm with hm | hm
      · exact h.silent i pre n' post' hhist hn' m hm
      · obtain rfl := List.mem_singleton.mp hm
        rintro rfl
        exact hid ⟨pre, n', post', hhist, hn'⟩
  gone i hc := by
    rcases closed_append_singleton.mp hc with hc | hc
    · obtain ⟨hp, hr⟩ := h.gone i hc
      refine ⟨fun hi => hp (hpending i hi), fun r hi => ?_⟩
      rcases hrests i r hi with rfl | hi
      · exact hid hc
      · exact hr r hi
    · exact hcloses i hc

/-- **Every rule keeps a ledger balanced.** -/
theorem Balanced.step
    {ns : List (Note ι)}
    (h : Balanced hist v) (hrule : Rule v ns v') :
    Balanced (hist ++ ns) v' := by
  cases hrule with
  | quiet hrests hpending =>
      rw [List.append_nil]
      exact
        { owes := fun i r hr => h.owes i r (hrests i r hr)
          spent := h.spent
          silent := h.silent
          gone := fun i hc => ⟨fun hp => (h.gone i hc).1 (hpending i hp),
            fun r hr => (h.gone i hc).2 r (hrests i r hr)⟩ }
  | @announce _ i q hi hrests hpending =>
      refine h.append (h.not_closed hi) ?_ ?_ hpending ?_ (fun j hc => hc.elim)
      · intro j r hr
        rcases hrests j r hr with ⟨hne, hr⟩ | ⟨rfl, rfl⟩
        · rw [post_of_ne (Ne.symm hne)]
          exact h.owes j r hr
        · exact ⟨r, by simp [Tally.post], by simp [Tally.post]⟩
      · simp [Tally.post, Note.id]
      · intro j r hr
        rcases hrests j r hr with ⟨-, hr⟩ | ⟨rfl, -⟩
        · exact Or.inr hr
        · exact Or.inl rfl
  | @spend _ i q r hi hle hrests hpending =>
      obtain ⟨a, ha, hsum⟩ := h.owes i r hi
      refine h.append (h.not_closed (Or.inr ⟨r, hi⟩)) ?_ ?_ (fun j hj => (hpending j hj).1) ?_ ?_
      · intro j r' hr
        rcases hrests j r' hr with ⟨hne, hr⟩ | ⟨rfl, hlt, rfl⟩
        · rw [post_of_ne (Ne.symm hne)]
          exact h.owes j r' hr
        · refine ⟨a, by simp [Tally.post, ha], ?_⟩
          simp only [Tally.post, if_true]
          omega
      · simp only [Note.id, Tally.post, if_true, ha, Option.getD_some]
        omega
      · intro j r' hr
        rcases hrests j r' hr with ⟨-, hr⟩ | ⟨rfl, -, -⟩
        · exact Or.inr hr
        · exact Or.inl rfl
      · rintro j ⟨rfl, a', ha', hzero⟩
        rw [tally_append_singleton] at ha' hzero
        simp only [Tally.post, if_true, ha, Option.some.injEq] at ha' hzero
        refine ⟨fun hp => (hpending i hp).2 rfl, fun r' hr => ?_⟩
        rcases hrests i r' hr with ⟨hne, -⟩ | ⟨-, hlt, -⟩
        · exact hne rfl
        · omega
  | @close _ i hi hrests hpending =>
      refine h.append (h.not_closed hi) ?_ (h.spent i hist [] (by simp))
        (fun j hj => (hpending j hj).1) ?_ ?_
      · intro j r hr
        exact h.owes j r (hrests j r hr).2
      · exact fun j r hr => Or.inr (hrests j r hr).2
      · rintro j rfl
        exact ⟨fun hp => (hpending i hp).2 rfl, fun r hr => (hrests i r hr).1 rfl⟩
  | @mention i hi =>
      exact h.append (h.not_closed (Or.inl hi)) h.owes (h.spent i hist [] (by simp))
        (fun _ hp => hp) (fun _ _ hr => Or.inr hr) (fun j hc => hc.elim)

end Balance

end Ledger
end LmaxEngine
