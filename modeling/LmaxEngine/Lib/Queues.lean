import Mathlib.Algebra.BigOperators.Group.Finset.Piecewise
import Mathlib.Algebra.GroupWithZero.Nat
import Mathlib.Algebra.Order.BigOperators.Group.Finset
import Mathlib.Data.List.Nodup
import Mathlib.Tactic.Common

/-!
# Families of first-in-first-out queues

A family of queues is a function from keys to lists.  Elements carry a tag
that identifies them: in a family with distinct tags an element is in one
queue only, and once.  The operations are to push an element at the end of a
queue, to discard the element with a given tag, and to revise it in place.

A weight of the elements is added up over a finite set of keys; the operations
change the sum by the weight of the one element they are about.

Over keys that are numbers, the lowest and the highest nonempty queue are found
by a scan.
-/

namespace LmaxEngine
namespace Queues

universe u v w

/-- A list of elements for every key. -/
abbrev Family (κ : Type u) (α : Type v) := κ → List α

section Lists

variable {α : Type v} {τ : Type w} [DecidableEq τ] (tag : α → τ)

/-- A list with distinct tags, seen from one of its elements: what is left
without the element, and what there is when the element is revised. -/
theorem split_at_tag
    {xs : List α} {x : α}
    (hnd : (xs.map tag).Nodup) (hx : x ∈ xs) :
    ∃ ys zs, xs = ys ++ x :: zs ∧
      xs.filter (fun y => decide (tag y ≠ tag x)) = ys ++ zs ∧
      ∀ f : α → α,
        xs.map (fun y => if tag y = tag x then f y else y) = ys ++ f x :: zs := by
  obtain ⟨ys, zs, rfl⟩ := List.append_of_mem hx
  rw [List.map_append, List.map_cons] at hnd
  obtain ⟨-, hndz, hdisj⟩ := List.nodup_append.mp hnd
  have hy : ∀ y, y ∈ ys → tag y ≠ tag x := fun y hy =>
    hdisj (tag y) (List.mem_map_of_mem hy) (tag x) (by simp)
  have hz : ∀ y, y ∈ zs → tag y ≠ tag x := fun y hy h =>
    (List.nodup_cons.mp hndz).1 (h ▸ List.mem_map_of_mem hy)
  refine ⟨ys, zs, rfl, ?_, fun f => ?_⟩
  · rw [List.filter_append, List.filter_cons_of_neg (by simp),
      List.filter_eq_self.mpr (by simpa using hy),
      List.filter_eq_self.mpr (by simpa using hz)]
  · have hself : ∀ l : List α, (∀ y, y ∈ l → tag y ≠ tag x) →
        l.map (fun y => if tag y = tag x then f y else y) = l := by
      intro l hl
      conv_rhs => rw [← List.map_id l]
      exact List.map_congr_left fun y hy => by simp [hl y hy]
    rw [List.map_append, List.map_cons, hself ys hy, hself zs hz, if_pos rfl]

end Lists

section Operations

variable {κ : Type u} [DecidableEq κ] {α : Type v}

/-- Append an element to the queue of a key. -/
def push (q : Family κ α) (k : κ) (x : α) : Family κ α :=
  Function.update q k (q k ++ [x])

variable {τ : Type w} [DecidableEq τ] (tag : α → τ)

/-- Delete the elements with a tag from the queue of a key. -/
def discard (q : Family κ α) (k : κ) (i : τ) : Family κ α :=
  Function.update q k ((q k).filter (fun y => decide (tag y ≠ i)))

/-- Rewrite the elements with a tag in the queue of a key, where they stand. -/
def revise (q : Family κ α) (k : κ) (i : τ) (f : α → α) : Family κ α :=
  Function.update q k ((q k).map (fun y => if tag y = i then f y else y))

variable {tag} {q : Family κ α} {k k' : κ} {x y : α} {i : τ} {f : α → α}

@[simp] theorem push_self :
    push q k x k = q k ++ [x] :=
  Function.update_self k _ q

theorem push_of_ne
    (h : k' ≠ k) :
    push q k x k' = q k' :=
  Function.update_of_ne h _ q

@[simp] theorem discard_self :
    discard tag q k i k = (q k).filter (fun y => decide (tag y ≠ i)) :=
  Function.update_self k _ q

theorem discard_of_ne
    (h : k' ≠ k) :
    discard tag q k i k' = q k' :=
  Function.update_of_ne h _ q

@[simp] theorem revise_self :
    revise tag q k i f k =
      (q k).map (fun y => if tag y = i then f y else y) :=
  Function.update_self k _ q

theorem revise_of_ne
    (h : k' ≠ k) :
    revise tag q k i f k' = q k' :=
  Function.update_of_ne h _ q

theorem mem_push :
    y ∈ push q k x k' ↔ y ∈ q k' ∨ (k' = k ∧ y = x) := by
  by_cases h : k' = k
  · subst h
    simp
  · simp [push_of_ne h, h]

theorem mem_discard :
    y ∈ discard tag q k i k' ↔ y ∈ q k' ∧ ¬ (k' = k ∧ tag y = i) := by
  by_cases h : k' = k
  · subst h
    simp
  · simp [discard_of_ne h, h]

/-- An element of a revised queue is an old one, or the new form of one with
the tag. -/
theorem mem_revise :
    y ∈ revise tag q k i f k' ↔
      (y ∈ q k' ∧ ¬ (k' = k ∧ tag y = i)) ∨
        (k' = k ∧ ∃ z, z ∈ q k ∧ tag z = i ∧ y = f z) := by
  by_cases h : k' = k
  · subst h
    simp only [revise_self, List.mem_map, true_and]
    constructor
    · rintro ⟨z, hz, rfl⟩
      split_ifs with hi
      · exact Or.inr ⟨z, hz, hi, rfl⟩
      · exact Or.inl ⟨hz, hi⟩
    · rintro (⟨hy, hi⟩ | ⟨z, hz, hi, rfl⟩)
      · exact ⟨y, hy, if_neg hi⟩
      · exact ⟨z, hz, if_pos hi⟩
  · simp [revise_of_ne h, h]

/-- An operation on the element with a tag is not seen by the others, and leaves
them in their order. -/
theorem filter_push
    {j : τ} (h : tag x = j) :
    (push q k x k').filter (fun y => decide (tag y ≠ j)) =
      (q k').filter (fun y => decide (tag y ≠ j)) := by
  by_cases hk : k' = k
  · subst hk
    simp [h]
  · rw [push_of_ne hk]

theorem filter_discard :
    (discard tag q k i k').filter (fun y => decide (tag y ≠ i)) =
      (q k').filter (fun y => decide (tag y ≠ i)) := by
  by_cases hk : k' = k
  · subst hk
    rw [discard_self, List.filter_filter]
    simp
  · rw [discard_of_ne hk]

theorem filter_revise
    (hf : ∀ y, tag (f y) = tag y) :
    (revise tag q k i f k').filter (fun y => decide (tag y ≠ i)) =
      (q k').filter (fun y => decide (tag y ≠ i)) := by
  by_cases hk : k' = k
  · subst hk
    rw [revise_self]
    induction q k' with
    | nil => rfl
    | cons y ys ih =>
        rw [List.map_cons]
        by_cases hy : tag y = i
        · rw [if_pos hy, List.filter_cons_of_neg (by simp [hf, hy]),
            List.filter_cons_of_neg (by simp [hy]), ih]
        · rw [if_neg hy, List.filter_cons_of_pos (by simp [hy]),
            List.filter_cons_of_pos (by simp [hy]), ih]
  · rw [revise_of_ne hk]

end Operations

section Distinct

variable {κ : Type u} {α : Type v} {τ : Type w}

/-- No tag occurs twice, neither in one queue nor in two. -/
structure Distinct (tag : α → τ) (q : Family κ α) : Prop where
  nodup : ∀ k, ((q k).map tag).Nodup
  same_key : ∀ {k k' x y}, x ∈ q k → y ∈ q k' → tag x = tag y → k = k'

variable {tag : α → τ} {q : Family κ α} {k k' : κ} {x y : α}

/-- Elements with the same tag are the same element. -/
theorem Distinct.eq
    (h : Distinct tag q)
    (hx : x ∈ q k) (hy : y ∈ q k') (htag : tag x = tag y) :
    x = y := by
  obtain rfl := h.same_key hx hy htag
  exact List.inj_on_of_nodup_map (h.nodup k) hx hy htag

theorem Distinct.empty :
    Distinct tag (fun _ => [] : Family κ α) where
  nodup := by simp
  same_key := by simp

variable [DecidableEq κ] [DecidableEq τ] {i : τ} {f : α → α}

omit [DecidableEq τ] in
theorem Distinct.push
    (h : Distinct tag q)
    (hfresh : ∀ k' y, y ∈ q k' → tag y ≠ tag x) :
    Distinct tag (push q k x) where
  nodup k' := by
    by_cases hk : k' = k
    · subst hk
      rw [push_self, List.map_append, List.map_cons, List.map_nil]
      refine List.nodup_append.mpr ⟨h.nodup k', by simp, ?_⟩
      intro t ht t' ht'
      obtain ⟨y, hy, rfl⟩ := List.mem_map.mp ht
      rw [List.mem_singleton.mp ht']
      exact hfresh k' y hy
    · rw [push_of_ne hk]
      exact h.nodup k'
  same_key {k₁ k₂ y z} hy hz htag := by
    rcases mem_push.mp hy with hy | ⟨hk₁, hyx⟩
    · rcases mem_push.mp hz with hz | ⟨-, hzx⟩
      · exact h.same_key hy hz htag
      · exact absurd (hzx ▸ htag) (hfresh k₁ y hy)
    · rcases mem_push.mp hz with hz | ⟨hk₂, -⟩
      · exact absurd (hyx ▸ htag).symm (hfresh k₂ z hz)
      · rw [hk₁, hk₂]

theorem Distinct.discard
    (h : Distinct tag q) :
    Distinct tag (discard tag q k i) where
  nodup k' := by
    by_cases hk : k' = k
    · subst hk
      rw [discard_self]
      exact (h.nodup k').sublist (List.filter_sublist.map tag)
    · rw [discard_of_ne hk]
      exact h.nodup k'
  same_key hy hz htag :=
    h.same_key (mem_discard.mp hy).1 (mem_discard.mp hz).1 htag

/-- Without an element the queues are those without its tag. -/
theorem Distinct.discard_eq_filter
    (h : Distinct tag q) (hx : x ∈ q k) :
    Queues.discard tag q k (tag x) k' = (q k').filter (fun y => decide (tag y ≠ tag x)) := by
  by_cases hk : k' = k
  · subst hk
    exact discard_self
  · rw [discard_of_ne hk]
    refine (List.filter_eq_self.mpr fun y hy => ?_).symm
    exact decide_eq_true fun htag => hk (h.same_key hy hx htag)

theorem Distinct.revise
    (h : Distinct tag q)
    (hf : ∀ y, tag (f y) = tag y) :
    Distinct tag (revise tag q k i f) := by
  have hmap : ∀ l : List α,
      (l.map (fun y => if tag y = i then f y else y)).map tag = l.map tag := by
    intro l
    rw [List.map_map]
    refine List.map_congr_left fun y _ => ?_
    by_cases hy : tag y = i <;> simp [hy, hf]
  have hmem : ∀ k' y, y ∈ Queues.revise tag q k i f k' →
      ∃ z, z ∈ q k' ∧ tag z = tag y := by
    intro k' y hy
    rcases mem_revise.mp hy with ⟨hy, -⟩ | ⟨rfl, z, hz, -, rfl⟩
    · exact ⟨y, hy, rfl⟩
    · exact ⟨z, hz, (hf z).symm⟩
  refine ⟨fun k' => ?_, fun {k₁ k₂ y z} hy hz htag => ?_⟩
  · by_cases hk : k' = k
    · subst hk
      rw [revise_self, hmap]
      exact h.nodup k'
    · rw [revise_of_ne hk]
      exact h.nodup k'
  · obtain ⟨y', hy', hty⟩ := hmem k₁ y hy
    obtain ⟨z', hz', htz⟩ := hmem k₂ z hz
    exact h.same_key hy' hz' (by rw [hty, htz, htag])

/-- When one element is discarded the others are left. -/
theorem Distinct.mem_discard
    (h : Distinct tag q) (hx : x ∈ q k) :
    y ∈ Queues.discard tag q k (tag x) k' ↔ y ∈ q k' ∧ tag y ≠ tag x := by
  rw [Queues.mem_discard]
  refine and_congr_right fun hy => not_congr ⟨fun hk => hk.2, fun htag => ?_⟩
  exact ⟨h.same_key hy hx htag, htag⟩

/-- When one element is revised there are the others and its new form. -/
theorem Distinct.mem_revise
    (h : Distinct tag q) (hx : x ∈ q k) :
    y ∈ Queues.revise tag q k (tag x) f k' ↔
      (y ∈ q k' ∧ tag y ≠ tag x) ∨ (k' = k ∧ y = f x) := by
  rw [Queues.mem_revise]
  constructor
  · rintro (⟨hy, hne⟩ | ⟨rfl, z, hz, htag, rfl⟩)
    · exact Or.inl ⟨hy, fun htag => hne ⟨h.same_key hy hx htag, htag⟩⟩
    · obtain rfl := h.eq hz hx htag
      exact Or.inr ⟨rfl, rfl⟩
  · rintro (⟨hy, hne⟩ | ⟨rfl, rfl⟩)
    · exact Or.inl ⟨hy, fun hk => hne hk.2⟩
    · exact Or.inr ⟨rfl, x, hx, rfl, rfl⟩

end Distinct

section Weights

variable {κ : Type u} {α : Type v}

/-- The weights of the elements in the queues of some keys, added up. -/
def weigh (dom : Finset κ) (q : Family κ α) (g : α → Nat) : Nat :=
  ∑ k ∈ dom, ((q k).map g).sum

variable {dom : Finset κ} {q : Family κ α} {g : α → Nat} {k : κ} {x : α}

theorem weigh_empty :
    weigh dom (fun _ => [] : Family κ α) g = 0 := by
  simp [weigh]

theorem weigh_mono
    {g' : α → Nat} (h : ∀ x, g x ≤ g' x) :
    weigh dom q g ≤ weigh dom q g' :=
  Finset.sum_le_sum fun _ _ => List.sum_le_sum fun x _ => h x

/-- One element weighs no more than all of them. -/
theorem le_weigh
    (hk : k ∈ dom) (hx : x ∈ q k) :
    g x ≤ weigh dom q g :=
  calc g x ≤ ((q k).map g).sum :=
        List.single_le_sum (by simp) _ (List.mem_map_of_mem hx)
    _ ≤ weigh dom q g :=
        Finset.single_le_sum (f := fun k => ((q k).map g).sum)
          (fun _ _ => Nat.zero_le _) hk

variable [DecidableEq κ]

theorem weigh_update
    (hk : k ∈ dom) (l : List α) :
    weigh dom (Function.update q k l) g + ((q k).map g).sum =
      weigh dom q g + (l.map g).sum := by
  have e : (fun k' => ((Function.update q k l k').map g).sum) =
      Function.update (fun k' => ((q k').map g).sum) k (l.map g).sum := by
    funext k'
    exact Function.apply_update (fun _ l => (l.map g).sum) q k l k'
  unfold weigh
  rw [e, Finset.sum_update_of_mem hk,
    ← Finset.add_sum_erase dom (fun k' => ((q k').map g).sum) hk,
    Finset.sdiff_singleton_eq_erase]
  omega

theorem weigh_push
    (hk : k ∈ dom) :
    weigh dom (push q k x) g = weigh dom q g + g x := by
  have := weigh_update (q := q) (g := g) hk (q k ++ [x])
  rw [List.map_append, List.sum_append, List.map_cons, List.map_nil,
    List.sum_singleton] at this
  unfold push
  omega

variable {τ : Type w} [DecidableEq τ] {tag : α → τ} {f : α → α}

theorem weigh_discard
    (h : Distinct tag q) (hk : k ∈ dom) (hx : x ∈ q k) :
    weigh dom (discard tag q k (tag x)) g + g x = weigh dom q g := by
  obtain ⟨ys, zs, hq, hfilter, -⟩ := split_at_tag tag (h.nodup k) hx
  have := weigh_update (q := q) (g := g) hk
    ((q k).filter (fun y => decide (tag y ≠ tag x)))
  rw [hfilter, hq] at this
  simp only [List.map_append, List.map_cons, List.sum_append, List.sum_cons] at this
  rw [discard, hfilter]
  omega

theorem weigh_revise
    (h : Distinct tag q) (hk : k ∈ dom) (hx : x ∈ q k) :
    weigh dom (revise tag q k (tag x) f) g + g x = weigh dom q g + g (f x) := by
  obtain ⟨ys, zs, hq, -, hmap⟩ := split_at_tag tag (h.nodup k) hx
  have := weigh_update (q := q) (g := g) hk
    ((q k).map (fun y => if tag y = tag x then f y else y))
  rw [hmap f, hq] at this
  simp only [List.map_append, List.map_cons, List.sum_append, List.sum_cons] at this
  rw [revise, hmap f]
  omega

end Weights

section Images

variable {κ : Type u} {α : Type v} {γ : Type w}

/-- The family of the images of the elements. -/
def image (h : α → γ) (q : Family κ α) : Family κ γ :=
  fun k => (q k).map h

variable {h : α → γ} {q : Family κ α} {k : κ} {x : α}

theorem image_congr
    {h' : α → γ}
    (heq : ∀ k x, x ∈ q k → h x = h' x) :
    image h q = image h' q := by
  funext k'
  exact List.map_congr_left fun y hy => heq k' y hy

/-- The weights of the images. -/
theorem weigh_image
    {dom : Finset κ} {g : γ → Nat} :
    weigh dom (image h q) g = weigh dom q (fun x => g (h x)) := by
  unfold weigh image
  simp only [List.map_map, Function.comp_def]

variable [DecidableEq κ]

theorem image_push :
    image h (push q k x) = push (image h q) k (h x) := by
  funext k'
  by_cases hk : k' = k
  · subst hk
    simp [image]
  · simp [image, push_of_ne hk]

theorem image_discard
    {τ σ : Type} [DecidableEq τ] [DecidableEq σ]
    {tag : α → τ} {tag' : γ → σ} {i : τ} {j : σ}
    (heq : ∀ y, y ∈ q k → (tag y = i ↔ tag' (h y) = j)) :
    image h (discard tag q k i) = discard tag' (image h q) k j := by
  funext k'
  by_cases hk : k' = k
  · subst hk
    rw [discard_self]
    unfold image
    rw [discard_self, List.filter_map]
    congr 1
    refine List.filter_congr fun y hy => ?_
    simp [heq y hy]
  · simp [image, discard_of_ne hk]

theorem image_revise
    {τ σ : Type} [DecidableEq τ] [DecidableEq σ]
    {tag : α → τ} {tag' : γ → σ} {i : τ} {j : σ}
    {f : α → α} {f' : γ → γ}
    (heq : ∀ y, y ∈ q k → (tag y = i ↔ tag' (h y) = j))
    (hf : ∀ y, y ∈ q k → tag y = i → h (f y) = f' (h y)) :
    image h (revise tag q k i f) = revise tag' (image h q) k j f' := by
  funext k'
  by_cases hk : k' = k
  · subst hk
    rw [revise_self]
    unfold image
    rw [revise_self, List.map_map, List.map_map]
    refine List.map_congr_left fun y hy => ?_
    by_cases hi : tag y = i
    · simp [(heq y hy).mp hi, hi, hf y hy hi]
    · simp [hi, mt (heq y hy).mpr hi]
  · simp [image, revise_of_ne hk]

end Images

section Scans

variable {α : Type v}

/-- The lowest key below `n` with a nonempty queue. -/
def lowest (n : Nat) (q : Family Nat α) : Option Nat :=
  (List.range n).find? (fun t => !(q t).isEmpty)

/-- The highest key below `n` with a nonempty queue. -/
def highest (n : Nat) (q : Family Nat α) : Option Nat :=
  (List.range n).reverse.find? (fun t => !(q t).isEmpty)

variable {n : Nat} {q : Family Nat α} {t : Nat}

theorem lowest_eq_none_iff :
    lowest n q = none ↔ ∀ t, t < n → q t = [] := by
  simp [lowest]

theorem highest_eq_none_iff :
    highest n q = none ↔ ∀ t, t < n → q t = [] := by
  simp [highest]

theorem lowest_eq_some_iff :
    lowest n q = some t ↔
      t < n ∧ q t ≠ [] ∧ ∀ t', t' < n → q t' ≠ [] → t ≤ t' := by
  rw [lowest, List.find?_range_eq_some]
  constructor
  · rintro ⟨hp, ht, hlt⟩
    refine ⟨List.mem_range.mp ht, by simpa using hp, fun t' _ hne => ?_⟩
    by_contra hgt
    have := hlt t' (by omega)
    simp at this
    exact hne this
  · rintro ⟨ht, hne, hmin⟩
    refine ⟨by simpa using hne, List.mem_range.mpr ht, fun t' hlt => ?_⟩
    by_contra hp
    have := hmin t' (by omega) (by simpa using hp)
    omega

theorem highest_eq_some_iff :
    highest n q = some t ↔
      t < n ∧ q t ≠ [] ∧ ∀ t', t' < n → q t' ≠ [] → t' ≤ t := by
  induction n with
  | zero => simp [highest]
  | succ n ih =>
      unfold highest at ih ⊢
      rw [List.range_succ, List.reverse_append, List.reverse_singleton,
        List.singleton_append, List.find?_cons]
      by_cases hn : q n = []
      · simp only [hn, List.isEmpty_nil, Bool.not_true, ih]
        constructor
        · rintro ⟨ht, hne, hmax⟩
          refine ⟨by omega, hne, fun t' ht' hne' => hmax t' ?_ hne'⟩
          have : t' ≠ n := fun h => hne' (h ▸ hn)
          omega
        · rintro ⟨ht, hne, hmax⟩
          have : t ≠ n := fun h => hne (h ▸ hn)
          exact ⟨by omega, hne, fun t' ht' => hmax t' (by omega)⟩
      · have he : (q n).isEmpty = false := by simpa using hn
        simp only [he, Bool.not_false, Option.some.injEq]
        constructor
        · rintro rfl
          exact ⟨by omega, hn, fun t' ht' _ => by omega⟩
        · rintro ⟨ht, -, hmax⟩
          have := hmax n (by omega) hn
          omega

end Scans

end Queues
end LmaxEngine
