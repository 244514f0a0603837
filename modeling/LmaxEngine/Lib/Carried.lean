import LmaxEngine.Lib.Queues

/-!
# Families of queues under other names

A family is *carried* along a map of the keys when the queue of a key stands under
the image of the key, element by element, and there is nothing else.  The operations
on an element keep this, and the families weigh the same.

A family is *thinned* when some elements are dropped from the queues and the others
stand in their order under other names.  Operations on dropped elements are not seen.
-/

namespace LmaxEngine
namespace Queues

universe u v w z

section Carried

variable {κ : Type u} {κ' : Type v} {α : Type w} {γ : Type z}

/-- The second family is the first one with its keys renamed by `r` and its elements
by `h`.  The keys of a domain are all that have elements. -/
structure Carried
    (dom : Set κ) (r : κ → κ') (h : α → γ) (q : Family κ α) (q' : Family κ' γ) : Prop where
  along : ∀ {k}, k ∈ dom → q' (r k) = (q k).map h
  within : ∀ {k}, q k ≠ [] → k ∈ dom
  beyond : ∀ {k'}, q' k' ≠ [] → k' ∈ r '' dom

variable {dom : Set κ} {r : κ → κ'} {h : α → γ} {q : Family κ α} {q' : Family κ' γ}
variable {k : κ} {x : α}

theorem carried_empty :
    Carried dom r h (fun _ => []) (fun _ => []) where
  along _ := rfl
  within hne := absurd rfl hne
  beyond hne := absurd rfl hne

theorem Carried.dom_of_mem
    (hq : Carried dom r h q q') (hx : x ∈ q k) :
    k ∈ dom :=
  hq.within (List.ne_nil_of_mem hx)

/-- Queues of the domain are empty together. -/
theorem Carried.ne_nil_iff
    (hq : Carried dom r h q q') (hk : k ∈ dom) :
    q' (r k) ≠ [] ↔ q k ≠ [] := by
  rw [hq.along hk, ne_eq, List.map_eq_nil_iff]

/-- The weights of the elements are those of their images. -/
theorem Carried.weigh
    {K : Finset κ} {K' : Finset κ'} {g : α → Nat} {g' : γ → Nat}
    (hq : Carried dom r h q q') (hr : Set.InjOn r dom)
    (hK : ∀ k, k ∈ dom → k ∈ K) (hK' : ∀ k, k ∈ dom → r k ∈ K')
    (hg : ∀ x, g' (h x) = g x) :
    Queues.weigh K' q' g' = Queues.weigh K q g := by
  classical
  have hdrop : Queues.weigh K q g = ∑ k ∈ K with k ∈ dom, ((q k).map g).sum := by
    rw [Queues.weigh, Finset.sum_filter]
    refine Finset.sum_congr rfl fun k _ => ?_
    split_ifs with hk
    · rfl
    · rw [not_not.mp (mt hq.within hk), List.map_nil, List.sum_nil]
  rw [hdrop, Queues.weigh]
  symm
  refine Finset.sum_of_injOn r ?_ ?_ ?_ ?_
  · intro k hk k' hk' heq
    rw [Finset.coe_filter] at hk hk'
    exact hr hk.2 hk'.2 heq
  · intro k hk
    rw [Finset.coe_filter] at hk
    exact hK' k hk.2
  · intro k' _ hk'
    by_cases hne : q' k' = []
    · rw [hne, List.map_nil, List.sum_nil]
    · obtain ⟨k, hk, rfl⟩ := hq.beyond hne
      refine absurd ⟨k, ?_, rfl⟩ hk'
      rw [Finset.coe_filter]
      exact ⟨hK k hk, hk⟩
  · intro k hk
    rw [hq.along (Finset.mem_filter.mp hk).2, List.map_map]
    refine congrArg List.sum (List.map_congr_left fun x _ => ?_)
    exact (hg x).symm

variable [DecidableEq κ] [DecidableEq κ']

/-- The queues of a key and of its image change together. -/
theorem Carried.update
    {xs : List α} {ys : List γ}
    (hq : Carried dom r h q q') (hr : Set.InjOn r dom) (hk : k ∈ dom) (hys : ys = xs.map h) :
    Carried dom r h (Function.update q k xs) (Function.update q' (r k) ys) where
  along {k'} hk' := by
    by_cases heq : k' = k
    · rw [heq, Function.update_self, Function.update_self, hys]
    · have hne : r k' ≠ r k := fun he => heq (hr hk' hk he)
      rw [Function.update_of_ne heq, Function.update_of_ne hne]
      exact hq.along hk'
  within {k'} hne := by
    by_cases heq : k' = k
    · rw [heq]
      exact hk
    · rw [Function.update_of_ne heq] at hne
      exact hq.within hne
  beyond {k'} hne := by
    by_cases heq : k' = r k
    · rw [heq]
      exact Set.mem_image_of_mem r hk
    · rw [Function.update_of_ne heq] at hne
      exact hq.beyond hne

theorem Carried.push
    {y : γ}
    (hq : Carried dom r h q q') (hr : Set.InjOn r dom) (hk : k ∈ dom) (hy : y = h x) :
    Carried dom r h (Queues.push q k x) (Queues.push q' (r k) y) := by
  refine hq.update hr hk ?_
  rw [hq.along hk, List.map_append, List.map_singleton, hy]

variable {τ σ : Type} [DecidableEq τ] [DecidableEq σ]
variable {tag : α → τ} {tag' : γ → σ} {i : τ} {j : σ}

theorem Carried.discard
    (hq : Carried dom r h q q') (hr : Set.InjOn r dom) (hk : k ∈ dom)
    (htag : ∀ y, tag y = i ↔ tag' (h y) = j) :
    Carried dom r h (Queues.discard tag q k i) (Queues.discard tag' q' (r k) j) := by
  refine hq.update hr hk ?_
  rw [hq.along hk, List.filter_map]
  refine congrArg (List.map h) (List.filter_congr fun y _ => ?_)
  exact decide_eq_decide.mpr (not_congr (htag y).symm)

theorem Carried.revise
    {f : α → α} {f' : γ → γ}
    (hq : Carried dom r h q q') (hr : Set.InjOn r dom) (hk : k ∈ dom)
    (htag : ∀ y, tag y = i ↔ tag' (h y) = j) (hf : ∀ y, f' (h y) = h (f y)) :
    Carried dom r h (Queues.revise tag q k i f) (Queues.revise tag' q' (r k) j f') := by
  refine hq.update hr hk ?_
  rw [hq.along hk, List.map_map, List.map_map]
  refine List.map_congr_left fun y _ => ?_
  rw [Function.comp_apply, Function.comp_apply]
  by_cases hy : tag y = i
  · rw [if_pos hy, if_pos ((htag y).mp hy), hf]
  · rw [if_neg hy, if_neg (mt (htag y).mpr hy)]

end Carried

section Thinned

variable {κ : Type u} {α : Type v} {γ : Type w}

/-- The second family has some elements of the first one, under other names. -/
def Thinned (keep : α → Bool) (h : α → γ) (q : Family κ α) (q' : Family κ γ) : Prop :=
  ∀ k, q' k = ((q k).filter keep).map h

variable {keep : α → Bool} {h : α → γ} {q : Family κ α} {q' : Family κ γ} {k k' : κ} {x : α}

theorem Thinned.mem
    (hq : Thinned keep h q q') (hx : x ∈ q k) (hkeep : keep x = true) :
    h x ∈ q' k := by
  rw [hq]
  exact List.mem_map_of_mem (List.mem_filter.mpr ⟨hx, hkeep⟩)

theorem Thinned.exists_mem
    {y : γ}
    (hq : Thinned keep h q q') (hy : y ∈ q' k) :
    ∃ x, x ∈ q k ∧ keep x = true ∧ h x = y := by
  rw [hq] at hy
  obtain ⟨x, hx, rfl⟩ := List.mem_map.mp hy
  obtain ⟨hx, hkeep⟩ := List.mem_filter.mp hx
  exact ⟨x, hx, hkeep, rfl⟩

/-- There are no more elements than before. -/
theorem Thinned.weigh_le
    {K : Finset κ}
    (hq : Thinned keep h q q') :
    weigh K q' (fun _ => 1) ≤ weigh K q (fun _ => 1) := by
  refine Finset.sum_le_sum fun k _ => ?_
  have hone : ((fun _ => 1) ∘ h : α → Nat) = fun _ => 1 := rfl
  rw [hq, List.map_map, hone]
  simpa using List.length_filter_le keep (q k)

variable [DecidableEq κ]

theorem Thinned.push
    {y : γ}
    (hq : Thinned keep h q q') (hkeep : keep x = true) (hy : y = h x) :
    Thinned keep h (Queues.push q k x) (Queues.push q' k y) := by
  intro k'
  by_cases hk : k' = k
  · rw [hk, push_self, push_self, hq, List.filter_append, List.map_append,
      List.filter_singleton, hkeep, hy]
    rfl
  · rw [push_of_ne hk, push_of_ne hk, hq]

theorem Thinned.push_dropped
    (hq : Thinned keep h q q') (hkeep : keep x = false) :
    Thinned keep h (Queues.push q k x) q' := by
  intro k'
  by_cases hk : k' = k
  · rw [hk, push_self, hq, List.filter_append, List.filter_singleton, hkeep]
    simp
  · rw [push_of_ne hk, hq]

variable {τ σ : Type} [DecidableEq τ] [DecidableEq σ]
variable {tag : α → τ} {tag' : γ → σ} {i : τ} {j : σ}

theorem Thinned.discard
    (hq : Thinned keep h q q')
    (htag : ∀ y, y ∈ q k → keep y = true → (tag y = i ↔ tag' (h y) = j)) :
    Thinned keep h (Queues.discard tag q k i) (Queues.discard tag' q' k j) := by
  intro k'
  by_cases hk : k' = k
  · rw [hk, discard_self, discard_self, hq, List.filter_map, List.filter_filter,
      List.filter_filter]
    refine congrArg (List.map h) (List.filter_congr fun y hy => ?_)
    cases hkeep : keep y with
    | false => rw [Bool.and_false, Bool.false_and]
    | true =>
        rw [Bool.and_true, Bool.true_and]
        exact decide_eq_decide.mpr (not_congr (htag y hy hkeep).symm)
  · rw [discard_of_ne hk, discard_of_ne hk, hq]

theorem Thinned.discard_dropped
    (hq : Thinned keep h q q') (hdrop : ∀ y, y ∈ q k → tag y = i → keep y = false) :
    Thinned keep h (Queues.discard tag q k i) q' := by
  intro k'
  by_cases hk : k' = k
  · rw [hk, discard_self, hq, List.filter_filter]
    refine congrArg (List.map h) (List.filter_congr fun y hy => ?_)
    by_cases hi : tag y = i
    · rw [hdrop y hy hi, Bool.false_and]
    · rw [decide_eq_true hi, Bool.and_true]
  · rw [discard_of_ne hk, hq]

omit [DecidableEq κ] [DecidableEq σ] in
/-- What is revised stays kept or dropped. -/
theorem keep_revised
    {f : α → α} (hkeep : ∀ y, keep (f y) = keep y) :
    (keep ∘ fun y => if tag y = i then f y else y) = keep := by
  funext y
  rw [Function.comp_apply]
  split_ifs
  · exact hkeep y
  · rfl

theorem Thinned.revise
    {f : α → α} {f' : γ → γ}
    (hq : Thinned keep h q q')
    (htag : ∀ y, y ∈ q k → keep y = true → (tag y = i ↔ tag' (h y) = j))
    (hkeep : ∀ y, keep (f y) = keep y) (hf : ∀ y, f' (h y) = h (f y)) :
    Thinned keep h (Queues.revise tag q k i f) (Queues.revise tag' q' k j f') := by
  intro k'
  by_cases hk : k' = k
  · rw [hk, revise_self, revise_self, hq, List.filter_map, List.map_map, List.map_map,
      keep_revised hkeep]
    refine List.map_congr_left fun y hy => ?_
    obtain ⟨hy, hky⟩ := List.mem_filter.mp hy
    rw [Function.comp_apply, Function.comp_apply]
    by_cases hi : tag y = i
    · rw [if_pos hi, if_pos ((htag y hy hky).mp hi), hf]
    · rw [if_neg hi, if_neg (mt (htag y hy hky).mpr hi)]
  · rw [revise_of_ne hk, revise_of_ne hk, hq]

theorem Thinned.revise_dropped
    {f : α → α}
    (hq : Thinned keep h q q') (hkeep : ∀ y, keep (f y) = keep y)
    (hdrop : ∀ y, y ∈ q k → tag y = i → keep y = false) :
    Thinned keep h (Queues.revise tag q k i f) q' := by
  intro k'
  by_cases hk : k' = k
  · rw [hk, revise_self, hq, List.filter_map, List.map_map, keep_revised hkeep]
    refine List.map_congr_left fun y hy => ?_
    obtain ⟨hy, hky⟩ := List.mem_filter.mp hy
    rw [Function.comp_apply, if_neg]
    intro hi
    rw [hdrop y hy hi] at hky
    exact absurd hky Bool.false_ne_true
  · rw [revise_of_ne hk, hq]

end Thinned

end Queues
end LmaxEngine
