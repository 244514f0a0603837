import LmaxEngine.Lib.Queues

/-!
# One list for a family of queues

A tape has the elements of all queues in the order in which they were pushed.
Every element has a key, and the queue of a key is the part of the tape that has
it.  To push, to discard and to revise an element is the same on the tape as in
the queues, so whoever writes the tape knows the queues.
-/

namespace LmaxEngine
namespace Queues

universe u v w

variable {κ : Type u} {α : Type v} {τ : Type w} [DecidableEq κ]

/-- The queues are the parts of the tape by key; no tag occurs twice on it. -/
structure Sorts (tag : α → τ) (key : α → Option κ) (tape : List α) (q : Family κ α) : Prop where
  nodup : (tape.map tag).Nodup
  keyed : ∀ x, x ∈ tape → (key x).isSome = true
  part : ∀ k, q k = tape.filter (fun x => decide (key x = some k))

section Tapes

variable {tag : α → τ} {key : α → Option κ} {tape : List α} {q : Family κ α}
variable {k : κ} {x y : α}

theorem Sorts.mem_iff
    (h : Sorts tag key tape q) :
    x ∈ q k ↔ x ∈ tape ∧ key x = some k := by
  rw [h.part, List.mem_filter, decide_eq_true_iff]

theorem Sorts.eq
    (h : Sorts tag key tape q) (hx : x ∈ tape) (hy : y ∈ tape) (htag : tag x = tag y) :
    x = y :=
  List.inj_on_of_nodup_map h.nodup hx hy htag

/-- Everything on the tape is in a queue. -/
theorem Sorts.exists_mem
    (h : Sorts tag key tape q) (hx : x ∈ tape) :
    ∃ k, x ∈ q k := by
  obtain ⟨k, hk⟩ := Option.isSome_iff_exists.mp (h.keyed x hx)
  exact ⟨k, h.mem_iff.mpr ⟨hx, hk⟩⟩

theorem Sorts.empty :
    Sorts tag key [] (fun _ => [] : Family κ α) where
  nodup := List.nodup_nil
  keyed _ hx := absurd hx List.not_mem_nil
  part _ := rfl

variable [DecidableEq τ]

theorem Sorts.find
    (h : Sorts tag key tape q) (hx : x ∈ q k) :
    tape.find? (fun y => decide (tag y = tag x)) = some x := by
  obtain ⟨hx, -⟩ := h.mem_iff.mp hx
  cases hfind : tape.find? (fun y => decide (tag y = tag x)) with
  | none =>
      have := List.find?_eq_none.mp hfind x hx
      simp at this
  | some y =>
      have htag := List.find?_some hfind
      rw [decide_eq_true_iff] at htag
      rw [h.eq (List.mem_of_find?_eq_some hfind) hx htag]

omit [DecidableEq τ] in
theorem Sorts.push
    (h : Sorts tag key tape q) (hk : key x = some k)
    (hfresh : ∀ y, y ∈ tape → tag y ≠ tag x) :
    Sorts tag key (tape ++ [x]) (push q k x) where
  nodup := by
    rw [List.map_append, List.map_singleton]
    refine List.nodup_append.mpr ⟨h.nodup, List.nodup_singleton _, ?_⟩
    rintro t ht t' ht'
    obtain ⟨y, hy, rfl⟩ := List.mem_map.mp ht
    rw [List.mem_singleton.mp ht']
    exact hfresh y hy
  keyed y hy := by
    rcases List.mem_append.mp hy with hy | hy
    · exact h.keyed y hy
    · rw [List.mem_singleton.mp hy, hk]
      rfl
  part k' := by
    rw [List.filter_append, ← h.part]
    by_cases hkk : k' = k
    · subst hkk
      simp [hk]
    · rw [push_of_ne hkk, List.filter_singleton]
      simp [hk, Ne.symm hkk]

theorem Sorts.discard
    (h : Sorts tag key tape q) (hx : x ∈ q k) :
    Sorts tag key (tape.filter fun y => decide (tag y ≠ tag x)) (discard tag q k (tag x)) where
  nodup := h.nodup.sublist (List.filter_sublist.map tag)
  keyed y hy := h.keyed y (List.mem_filter.mp hy).1
  part k' := by
    obtain ⟨hmem, hkey⟩ := h.mem_iff.mp hx
    by_cases hkk : k' = k
    · subst hkk
      rw [discard_self, h.part, List.filter_comm]
    · -- The element is not in the part of another key.
      rw [discard_of_ne hkk, h.part, List.filter_filter]
      refine List.filter_congr fun y hy => ?_
      by_cases htag : tag y = tag x
      · obtain rfl := h.eq hy hmem htag
        simp [hkey, Ne.symm hkk]
      · simp [htag]

theorem Sorts.revise
    {f : α → α}
    (h : Sorts tag key tape q) (hx : x ∈ q k)
    (htag : tag (f x) = tag x) (hkey : key (f x) = key x) :
    Sorts tag key (tape.map fun y => if tag y = tag x then f y else y)
      (revise tag q k (tag x) f) := by
  obtain ⟨hmem, hk⟩ := h.mem_iff.mp hx
  have hsame : ∀ y, y ∈ tape →
      tag (if tag y = tag x then f y else y) = tag y ∧
        key (if tag y = tag x then f y else y) = key y := by
    intro y hy
    by_cases hy' : tag y = tag x
    · obtain rfl := h.eq hy hmem hy'
      rw [if_pos rfl]
      exact ⟨htag, hkey⟩
    · rw [if_neg hy']
      exact ⟨rfl, rfl⟩
  have hpart : ∀ k', (tape.map fun y => if tag y = tag x then f y else y).filter
        (fun y => decide (key y = some k')) =
      (q k').map fun y => if tag y = tag x then f y else y := by
    intro k'
    rw [List.filter_map, h.part]
    congr 1
    refine List.filter_congr fun y hy => ?_
    rw [Function.comp_apply, (hsame y hy).2]
  exact {
    nodup := by
      have hmap : (tape.map fun y => if tag y = tag x then f y else y).map tag = tape.map tag := by
        rw [List.map_map]
        exact List.map_congr_left fun y hy => (hsame y hy).1
      rw [hmap]
      exact h.nodup
    keyed := by
      intro y hy
      obtain ⟨z, hz, rfl⟩ := List.mem_map.mp hy
      rw [(hsame z hz).2]
      exact h.keyed z hz
    part := by
      intro k'
      rw [hpart]
      by_cases hkk : k' = k
      · subst hkk
        exact revise_self
      · rw [revise_of_ne hkk]
        conv_lhs => rw [← List.map_id (q k')]
        refine List.map_congr_left fun y hy => ?_
        obtain ⟨hy, hky⟩ := h.mem_iff.mp hy
        rw [if_neg, id]
        intro hy'
        obtain rfl := h.eq hy hmem hy'
        exact hkk (Option.some.inj (hky.symm.trans hk)) }

end Tapes

end Queues
end LmaxEngine
