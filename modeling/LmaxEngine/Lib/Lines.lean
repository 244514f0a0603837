import Mathlib.Data.List.Flatten
import Mathlib.Order.Basic
import LmaxEngine.Lib.Queues

/-!
# Lines of queues

The queues of some keys, one after the other, form a line.  One element is ahead
of another when it stands before it in the line.  The operations on queues keep
the order of the elements that they are not about: what leaves is cut out of the
line, what is revised is revised where it stands, what is pushed comes in
between.

The quantity ahead of a tag is what the elements before the first one with the
tag hold together.
-/

namespace LmaxEngine
namespace Queues

universe u v w

section Pairs

variable {α : Type u} {κ : Type v} {r : κ → κ → Prop} {ks : List κ} {q : Family κ α}
variable {k k' : κ} {a b : α}

/-- Two elements of a list, in one order or the other. -/
theorem pair_sublist_or
    {xs : List α} (ha : a ∈ xs) (hb : b ∈ xs) (hne : a ≠ b) :
    [a, b].Sublist xs ∨ [b, a].Sublist xs := by
  obtain ⟨ys, zs, rfl⟩ := List.append_of_mem ha
  rcases List.mem_append.mp hb with hb | hb
  · right
    exact List.Sublist.append (List.singleton_sublist.mpr hb)
      (List.singleton_sublist.mpr List.mem_cons_self)
  · left
    have hb' : b ∈ zs := (List.mem_cons.mp hb).resolve_left (Ne.symm hne)
    exact ((List.singleton_sublist.mpr hb').cons_cons a).trans (List.sublist_append_right ys _)

/-- Two elements of a list without duplicates stand in one order only. -/
theorem not_pair_sublist_swap
    {xs : List α} (hnd : xs.Nodup) (h : [a, b].Sublist xs) :
    ¬ [b, a].Sublist xs := by
  induction xs with
  | nil => simp at h
  | cons c xs ih =>
      obtain ⟨hc, hnd⟩ := List.nodup_cons.mp hnd
      intro h'
      cases h with
      | cons _ h =>
          cases h' with
          | cons _ h' => exact ih hnd h h'
          | cons_cons _ _ => exact hc (h.subset (by simp))
      | cons_cons _ hb =>
          cases h' with
          | cons _ h' => exact hc (h'.subset (by simp))
          | cons_cons _ _ => exact hc (List.singleton_sublist.mp hb)

/-- Two elements of a shorter list stand in the same order. -/
theorem pair_sublist_of_sublist
    {xs ys : List α} (hnd : xs.Nodup) (h : [a, b].Sublist xs) (hsub : ys.Sublist xs)
    (ha : a ∈ ys) (hb : b ∈ ys) :
    [a, b].Sublist ys := by
  have hne : a ≠ b := by
    have := hnd.sublist h
    simpa using this
  exact (pair_sublist_or ha hb hne).resolve_right fun hswap =>
    not_pair_sublist_swap hnd h (hswap.trans hsub)

/-- Of two lists in a row the first has what is not in the second, and what is in
front of it. -/
theorem append_split
    {as bs front back : List α}
    (h : as ++ bs = front ++ a :: back) (ha : a ∉ bs) :
    ∃ back', as = front ++ a :: back' := by
  rcases List.append_eq_append_iff.mp h with ⟨cs, rfl, rfl⟩ | ⟨cs, rfl, hcs⟩
  · exact absurd (List.mem_append_right cs List.mem_cons_self) ha
  · cases cs with
    | nil =>
        obtain rfl : a :: back = bs := hcs
        exact absurd List.mem_cons_self ha
    | cons c cs =>
        obtain ⟨rfl, -⟩ := List.cons.inj hcs
        exact ⟨cs, rfl⟩

/-- In a sorted list the order of two elements is the order of the list. -/
theorem pair_sublist_iff
    (hr : ∀ k k', r k k' → ¬ r k' k) (hks : ks.Pairwise r) :
    [k, k'].Sublist ks ↔ k ∈ ks ∧ k' ∈ ks ∧ r k k' := by
  constructor
  · intro h
    refine ⟨h.subset (by simp), h.subset (by simp), ?_⟩
    exact List.pairwise_pair.mp (hks.sublist h)
  · rintro ⟨hk, hk', hrel⟩
    have hne : k ≠ k' := by
      rintro rfl
      exact hr k k hrel hrel
    refine (pair_sublist_or hk hk' hne).resolve_right fun h => ?_
    exact hr k k' hrel (List.pairwise_pair.mp (hks.sublist h))

/-- The queues of some keys, one after the other. -/
def line (ks : List κ) (q : Family κ α) : List α :=
  ks.flatMap q

theorem mem_line :
    a ∈ line ks q ↔ ∃ k, k ∈ ks ∧ a ∈ q k :=
  List.mem_flatMap

/-- The lines of some keys are not longer than the queues of all of them. -/
theorem length_line_le
    {dom : Finset κ}
    (hnd : ks.Nodup) (hdom : ∀ k, k ∈ ks → k ∈ dom) :
    (line ks q).length ≤ weigh dom q (fun _ => 1) := by
  classical
  have hones : ∀ k, ((q k).map (fun _ => 1)).sum = (q k).length := by
    intro k
    simp
  rw [line, List.length_flatMap, ← List.sum_toFinset _ hnd, weigh]
  simp only [hones]
  refine Finset.sum_le_sum_of_subset fun k hk => hdom k ?_
  exact List.mem_toFinset.mp hk

theorem line_cons
    {ks₁ ks₂ : List κ} {xs : List α}
    (hempty : ∀ k', k' ∈ ks₁ → q k' = []) (hk : q k = a :: xs) :
    line (ks₁ ++ k :: ks₂) q = a :: (xs ++ line ks₂ q) := by
  rw [line, List.flatMap_append, List.flatMap_eq_nil_iff.mpr hempty, List.flatMap_cons, hk]
  rfl

/-- Of two elements in line one is ahead of the other in a queue, or its queue
comes first. -/
theorem pair_sublist_line :
    [a, b].Sublist (line ks q) ↔
      (∃ k, k ∈ ks ∧ [a, b].Sublist (q k)) ∨
        ∃ k k', [k, k'].Sublist ks ∧ a ∈ q k ∧ b ∈ q k' := by
  induction ks with
  | nil => simp [line]
  | cons k₀ ks ih =>
      have hsplit : line (k₀ :: ks) q = q k₀ ++ line ks q := List.flatMap_cons
      rw [hsplit]
      constructor
      · intro h
        obtain ⟨l₁, l₂, hl, h₁, h₂⟩ := List.sublist_append_iff.mp h
        rcases l₁ with - | ⟨c, - | ⟨d, l₁⟩⟩
        · -- both stand behind the first queue
          obtain rfl : [a, b] = l₂ := hl
          rcases ih.mp h₂ with ⟨k, hk, hab⟩ | ⟨k, k', hkk', ha, hb⟩
          · exact Or.inl ⟨k, List.mem_cons_of_mem _ hk, hab⟩
          · exact Or.inr ⟨k, k', hkk'.cons k₀, ha, hb⟩
        · obtain ⟨rfl, rfl⟩ := List.cons_eq_cons.mp hl
          obtain ⟨k', hk', hb⟩ := mem_line.mp (List.singleton_sublist.mp h₂)
          exact Or.inr ⟨k₀, k', (List.singleton_sublist.mpr hk').cons_cons k₀,
            List.singleton_sublist.mp h₁, hb⟩
        · simp only [List.cons_append, List.cons.injEq, List.nil_eq, List.append_eq_nil_iff] at hl
          obtain ⟨rfl, rfl, rfl, rfl⟩ := hl
          exact Or.inl ⟨k₀, List.mem_cons_self, h₁⟩
      · rintro (⟨k, hk, hab⟩ | ⟨k, k', hkk', ha, hb⟩)
        · rcases List.mem_cons.mp hk with rfl | hk
          · exact hab.trans (List.sublist_append_left _ _)
          · exact (ih.mpr (Or.inl ⟨k, hk, hab⟩)).trans (List.sublist_append_right _ _)
        · cases hkk' with
          | cons _ hkk' =>
              exact (ih.mpr (Or.inr ⟨k, k', hkk', ha, hb⟩)).trans (List.sublist_append_right _ _)
          | cons_cons _ hk' =>
              have hb' : b ∈ line ks q := mem_line.mpr ⟨k', List.singleton_sublist.mp hk', hb⟩
              exact List.Sublist.append (List.singleton_sublist.mpr ha)
                (List.singleton_sublist.mpr hb')

end Pairs

section Operations

variable {κ : Type u} {α : Type v} {τ : Type w} [DecidableEq κ]
variable {tag : α → τ} {ks : List κ} {q : Family κ α} {k : κ} {x : α} {f : α → α}

/-- What is pushed leaves the line in its order. -/
theorem line_push :
    (line ks q).Sublist (line ks (push q k x)) := by
  refine List.Sublist.flatMap_right ks fun k' _ => ?_
  by_cases hk : k' = k
  · subst hk
    rw [push_self]
    exact List.sublist_append_left _ _
  · rw [push_of_ne hk]

variable [DecidableEq τ]

/-- What is discarded is cut out of the line. -/
theorem Distinct.line_discard
    (hd : Distinct tag q) (hx : x ∈ q k) :
    line ks (Queues.discard tag q k (tag x)) =
      (line ks q).filter (fun y => decide (tag y ≠ tag x)) := by
  rw [line, line, List.filter_flatMap]
  refine List.flatMap_congr fun k' _ => ?_
  by_cases hk : k' = k
  · subst hk
    exact discard_self
  · rw [discard_of_ne hk]
    refine (List.filter_eq_self.mpr fun y hy => ?_).symm
    simpa using fun htag => hk (hd.same_key hy hx htag)

/-- What is revised keeps its place in the line. -/
theorem Distinct.line_revise
    (hd : Distinct tag q) (hx : x ∈ q k) :
    line ks (Queues.revise tag q k (tag x) f) =
      (line ks q).map (fun y => if tag y = tag x then f y else y) := by
  rw [line, line, List.map_flatMap]
  refine List.flatMap_congr fun k' _ => ?_
  by_cases hk : k' = k
  · subst hk
    exact revise_self
  · rw [revise_of_ne hk]
    conv_lhs => rw [← List.map_id (q k')]
    refine List.map_congr_left fun y hy => ?_
    rw [if_neg fun htag => hk (hd.same_key hy hx htag)]
    rfl

omit [DecidableEq κ] [DecidableEq τ] in
/-- The tags of a line are distinct. -/
theorem Distinct.line_nodup
    (hd : Distinct tag q) (hks : ks.Nodup) :
    ((line ks q).map tag).Nodup := by
  rw [line, List.map_flatMap]
  refine List.nodup_flatMap.mpr ⟨fun k _ => hd.nodup k, ?_⟩
  refine hks.imp fun {k k'} hne => ?_
  rw [Function.onFun, List.disjoint_left]
  intro t ht ht'
  obtain ⟨y, hy, rfl⟩ := List.mem_map.mp ht
  obtain ⟨z, hz, htag⟩ := List.mem_map.mp ht'
  exact hne (hd.same_key hy hz htag.symm)

end Operations

section Quantities

variable {α : Type v} {τ : Type w} [DecidableEq τ] {tag : α → τ} {g : α → Nat}
variable {t : τ} {x y : α} {xs : List α}

/-- The quantity ahead of the first element with a tag. -/
def ahead (tag : α → τ) (g : α → Nat) (t : τ) : List α → Nat
  | [] => 0
  | y :: ys => if tag y = t then 0 else g y + ahead tag g t ys

theorem ahead_cons_self :
    ahead tag g (tag x) (x :: xs) = 0 :=
  if_pos rfl

theorem ahead_cons_of_ne
    (h : tag y ≠ t) :
    ahead tag g t (y :: xs) = g y + ahead tag g t xs :=
  if_neg h

/-- What stands ahead of an element and the element itself are ahead of the
next. -/
theorem ahead_add_le
    (hnd : (xs.map tag).Nodup) (h : [x, y].Sublist xs) :
    ahead tag g (tag x) xs + g x ≤ ahead tag g (tag y) xs := by
  induction xs with
  | nil => simp at h
  | cons z zs ih =>
      rw [List.map_cons, List.nodup_cons] at hnd
      have hz : ∀ w, w ∈ zs → tag z ≠ tag w := by
        intro w hw htag
        exact hnd.1 (htag ▸ List.mem_map_of_mem hw)
      cases h with
      | cons _ h =>
          have := ih hnd.2 h
          rw [ahead_cons_of_ne (hz x (h.subset (by simp))),
            ahead_cons_of_ne (hz y (h.subset (by simp)))]
          omega
      | cons_cons _ hy =>
          rw [ahead_cons_self, ahead_cons_of_ne (hz y (List.singleton_sublist.mp hy))]
          omega

/-- The quantity ahead in the image of a line. -/
theorem ahead_map
    {β : Type u} {σ : Type v} [DecidableEq σ] {tag' : β → σ} {g' : β → Nat} {f : α → β} {t' : σ}
    (htag : ∀ y, y ∈ xs → (tag' (f y) = t' ↔ tag y = t)) (hg : ∀ y, y ∈ xs → g' (f y) = g y) :
    ahead tag' g' t' (xs.map f) = ahead tag g t xs := by
  induction xs with
  | nil => rfl
  | cons y ys ih =>
      have hys := ih (fun z hz => htag z (List.mem_cons_of_mem _ hz))
        fun z hz => hg z (List.mem_cons_of_mem _ hz)
      rw [List.map_cons, ahead, ahead, hys, hg y List.mem_cons_self]
      simp only [htag y List.mem_cons_self]

end Quantities

end Queues
end LmaxEngine
