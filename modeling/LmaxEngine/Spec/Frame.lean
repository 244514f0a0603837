import LmaxEngine.Spec.Breaches

/-!
# What a cancellation or a modification leaves alone

Both are about the one entry that the index names.  The other entries keep their
orders and stand in their queues as before.
-/

namespace LmaxEngine
namespace PriceTime

open Queues

/-- The entries other than the one with the number `n` are as they were, and that
one, if it is still there, has its name and its key. -/
structure Touches (s s' : State) (n : Nat) : Prop where
  others : ∀ k, (s'.queue k).filter (fun y => decide (y.num ≠ n)) =
    (s.queue k).filter (fun y => decide (y.num ≠ n))
  same : ∀ k y, y ∈ s'.queue k → y.num = n → ∃ k' x, x ∈ s.queue k' ∧ x.num = n ∧
    y.order.orderId = x.order.orderId ∧ y.order.key = x.order.key

section Changes

variable {cfg : Config} {s s' : State} {k k' : Level} {x y : Entry} {n : Nat}

theorem touches_refl
    (s : State) (n : Nat) :
    Touches s s n where
  others _ := rfl
  same k y hy hn := ⟨k, y, hy, hn, rfl, rfl⟩

theorem touches_leave
    (s : State) (k : Level) (x : Entry) :
    Touches s (s.leave k x) x.num where
  others _ := filter_discard
  same k' y hy hn := ⟨k', y, (mem_discard.mp hy).1, hn, rfl, rfl⟩

theorem Consistent.touches_change
    {f : Order → Order}
    (hc : Consistent cfg s) (hx : x ∈ s.queue k) (hf : Keeps f) :
    Touches s (s.change k x f) x.num where
  others _ := filter_revise fun _ => rfl
  same k' y hy hn := by
    rcases (mem_change hc.distinct hx).mp hy with ⟨-, hne⟩ | ⟨rfl, rfl⟩
    · exact absurd hn hne
    · exact ⟨k', x, hx, rfl, hf.orderId _, hf.key _⟩

theorem touches_move
    {o : Order}
    (hx : x ∈ s.queue k) (hid : o.orderId = x.order.orderId) (hkey : o.key = x.order.key) :
    Touches s (s.move k x k' o) x.num where
  others k'' := by
    have hdiscard : (discard Entry.num s.queue k x.num k'').filter
        (fun y => decide (y.num ≠ x.num)) =
          (s.queue k'').filter (fun y => decide (y.num ≠ x.num)) := filter_discard
    rw [← hdiscard]
    exact filter_push rfl
  same k'' y hy hn := by
    rcases mem_push.mp hy with hy | ⟨-, rfl⟩
    · exact ⟨k'', y, (mem_discard.mp hy).1, hn, rfl, rfl⟩
    · exact ⟨k, x, hx, rfl, hid, hkey⟩

/-- The entry that is not touched. -/
theorem Touches.mem_iff
    (h : Touches s s' n) (hn : y.num ≠ n) :
    y ∈ s'.queue k ↔ y ∈ s.queue k := by
  have hiff : ∀ q : Family Level Entry,
      y ∈ (q k).filter (fun y => decide (y.num ≠ n)) ↔ y ∈ q k := by
    intro q
    rw [List.mem_filter]
    simp [hn]
  rw [← hiff s'.queue, ← hiff s.queue, h.others]

/-- Every entry has the number of an old one. -/
theorem Touches.origin
    (h : Touches s s' n) (hy : y ∈ s'.queue k) :
    ∃ k' x, x ∈ s.queue k' ∧ x.num = y.num := by
  by_cases hn : y.num = n
  · obtain ⟨k', x, hx, hxn, -⟩ := h.same k y hy hn
    exact ⟨k', x, hx, hxn.trans hn.symm⟩
  · exact ⟨k, y, (h.mem_iff hn).mp hy, rfl⟩

variable (clientId clientOrderId : UInt64)

theorem cancel_touches
    (hc : Consistent cfg s) :
    (cancel s clientId clientOrderId).1 = s ∨
      ∃ k x, x ∈ s.queue k ∧ x.order.key = (clientId, clientOrderId) ∧
        Touches s (cancel s clientId clientOrderId).1 x.num := by
  rcases cancel_outcomes hc clientId clientOrderId with ⟨-, he⟩ | ⟨k, x, hx, hkey, -, he⟩
  · exact Or.inl (by rw [he])
  · rw [he]
    exact Or.inr ⟨k, x, hx, hkey, touches_leave s k x⟩

theorem modify_touches
    (hc : Consistent cfg s) (newPrice newQty : Option UInt64) :
    (modify cfg s clientId clientOrderId newPrice newQty).1 = s ∨
      ∃ k x, x ∈ s.queue k ∧ x.order.key = (clientId, clientOrderId) ∧
        Touches s (modify cfg s clientId clientOrderId newPrice newQty).1 x.num := by
  rcases modify_outcomes hc clientId clientOrderId newPrice newQty with
    ⟨-, he⟩ | ⟨k, x, hx, hkey, -, hout⟩
  · exact Or.inl (by rw [he])
  · generalize modify cfg s clientId clientOrderId newPrice newQty = r at hout ⊢
    cases hout with
    | refused => exact Or.inl rfl
    | kept =>
        exact Or.inr ⟨k, x, hx, hkey, hc.touches_change hx (keeps_reducedTo _)⟩
    | evicted => exact Or.inr ⟨k, x, hx, hkey, touches_leave s k x⟩
    | moved => exact Or.inr ⟨k, x, hx, hkey, touches_move hx rfl rfl⟩

end Changes

end PriceTime
end LmaxEngine
