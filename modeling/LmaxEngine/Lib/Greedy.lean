import Mathlib.Algebra.BigOperators.Group.List.Basic
import Mathlib.Algebra.GroupWithZero.Nat
import Mathlib.Data.List.Infix
import Mathlib.Tactic.Common

/-!
# Greedy walks

A quantity is taken from the elements of a list, in order: from each as much as it
holds, until the quantity is used up or an element is met from which nothing may be
taken.  The last element may hold more than is taken from it.  Then it stays, with
that much less.
-/

namespace LmaxEngine
namespace Greedy

universe u v

variable {α : Type u} {β : Type v}

section Walks

variable (size : α → Nat) (meets : α → Bool) (shrink : Nat → α → α)

/-- What is taken, with the elements from which it is taken. -/
def takes : Nat → List α → List (α × Nat)
  | _, [] => []
  | n, x :: xs =>
      if n = 0 ∨ meets x = false then []
      else (x, min n (size x)) :: takes (n - size x) xs

/-- The elements that stay. -/
def stays : Nat → List α → List α
  | _, [] => []
  | n, x :: xs =>
      if n = 0 ∨ meets x = false then x :: xs
      else if size x ≤ n then stays (n - size x) xs
      else shrink n x :: xs

/-- What is taken in all. -/
def taken (n : Nat) (xs : List α) : Nat :=
  ((takes size meets n xs).map Prod.snd).sum

end Walks

section Steps

variable {size : α → Nat} {meets : α → Bool} {shrink : Nat → α → α} {n : Nat} {x : α}
variable {xs : List α}

@[simp] theorem takes_nil :
    takes size meets n [] = [] := by
  rw [takes]

@[simp] theorem stays_nil :
    stays size meets shrink n [] = [] := by
  rw [stays]

theorem takes_of_stop
    (h : n = 0 ∨ meets x = false) :
    takes size meets n (x :: xs) = [] := by
  rw [takes, if_pos h]

theorem stays_of_stop
    (h : n = 0 ∨ meets x = false) :
    stays size meets shrink n (x :: xs) = x :: xs := by
  rw [stays, if_pos h]

theorem takes_of_meets
    (h0 : n ≠ 0) (h : meets x = true) :
    takes size meets n (x :: xs) =
      (x, min n (size x)) :: takes size meets (n - size x) xs := by
  rw [takes, if_neg]
  simp [h0, h]

theorem stays_of_le
    (h0 : n ≠ 0) (h : meets x = true) (hle : size x ≤ n) :
    stays size meets shrink n (x :: xs) = stays size meets shrink (n - size x) xs := by
  rw [stays, if_neg (by simp [h0, h]), if_pos hle]

theorem stays_of_lt
    (h0 : n ≠ 0) (h : meets x = true) (hlt : n < size x) :
    stays size meets shrink n (x :: xs) = shrink n x :: xs := by
  rw [stays, if_neg (by simp [h0, h]), if_neg (Nat.not_le.mpr hlt)]

/-- Nothing is taken of nothing. -/
@[simp] theorem takes_zero
    (xs : List α) :
    takes size meets 0 xs = [] := by
  cases xs with
  | nil => exact takes_nil
  | cons x xs => exact takes_of_stop (Or.inl rfl)

end Steps

section Results

variable {size : α → Nat} {meets : α → Bool} {shrink : Nat → α → α} {n : Nat} {x : α}
variable {xs : List α}

/-- What is taken is taken from the elements. -/
theorem mem_of_takes
    {f : α × Nat} (hf : f ∈ takes size meets n xs) :
    f.1 ∈ xs := by
  induction xs generalizing n with
  | nil => simp at hf
  | cons x xs ih =>
      by_cases hstop : n = 0 ∨ meets x = false
      · rw [takes_of_stop hstop] at hf
        simp at hf
      · obtain ⟨h0, hx⟩ := not_or.mp hstop
        rw [takes_of_meets h0 (by simpa using hx), List.mem_cons] at hf
        rcases hf with rfl | hf
        · exact List.mem_cons_self
        · exact List.mem_cons_of_mem _ (ih hf)

/-- **In turn:** before anything is taken from an element, those in front of it are
taken in whole. -/
theorem takes_before
    {y : α} {m : Nat} {fs gs : List (α × Nat)}
    (hnd : xs.Nodup) (hxy : [x, y].Sublist xs)
    (htakes : takes size meets n xs = fs ++ (y, m) :: gs) :
    (x, size x) ∈ fs := by
  induction xs generalizing n fs with
  | nil => simp at hxy
  | cons z xs ih =>
      obtain ⟨hz, hnd⟩ := List.nodup_cons.mp hnd
      by_cases hstop : n = 0 ∨ meets z = false
      · rw [takes_of_stop hstop] at htakes
        simp at htakes
      · obtain ⟨h0, hmeets⟩ := not_or.mp hstop
        rw [takes_of_meets h0 (by simpa using hmeets)] at htakes
        cases fs with
        | nil =>
            -- the first element has none in front of it
            obtain ⟨hhead, -⟩ := List.cons.inj htakes
            obtain rfl : z = y := congrArg Prod.fst hhead
            cases hxy with
            | cons _ hxy => exact absurd (hxy.subset (by simp)) hz
            | cons_cons _ hy => exact absurd (List.singleton_sublist.mp hy) hz
        | cons f fs =>
            obtain ⟨rfl, htail⟩ := List.cons.inj htakes
            cases hxy with
            | cons _ hxy => exact List.mem_cons_of_mem _ (ih hnd hxy htail)
            | cons_cons _ _ =>
                -- something is left for the next element
                have hlt : size x < n := by
                  by_contra hge
                  rw [Nat.sub_eq_zero_of_le (Nat.le_of_not_lt hge), takes_zero] at htail
                  simp at htail
                rw [Nat.min_eq_right hlt.le]
                exact List.mem_cons_self

end Results

section Images

variable {size : α → Nat} {meets : α → Bool} {shrink : Nat → α → α} {n : Nat}
variable {size' : β → Nat} {meets' : β → Bool} {shrink' : Nat → β → β} {f : α → β} {xs : List α}

end Images

end Greedy
end LmaxEngine
