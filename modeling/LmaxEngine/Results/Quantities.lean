import LmaxEngine.Results.Faults
import LmaxEngine.Spec.Quantities

/-!
# The quantities of the resting orders in a run

The two paths of a modification treat the quantities of an order differently.
In place, what is taken off the quantity left counts as filled.  On the way to
another queue the quantity left is set, and the other two are kept.
-/

namespace LmaxEngine

open Checked Queues Arena PriceTime

/-- Every resting order adds up. -/
def Engine.AddsUp (e : Engine) : Prop :=
  ∀ i o, e.book.arena.orderAt i = some o → o.AddsUp

/-- A modification that is carried out on a resting order, by way of another
place in the queues, and changes the quantity left of it. -/
def Engine.Resizes (e : Engine) : Command → Prop
  | .modify clientId clientOrderId newPrice newQty =>
      ∃ i o, e.Names (clientId, clientOrderId) i o ∧
        newQty.getD o.leavesQty ≠ 0 ∧
        newQty.getD o.leavesQty ≠ o.leavesQty ∧
        ¬ (newPrice.getD o.price = o.price ∧ newQty.getD o.leavesQty ≤ o.leavesQty) ∧
        ∃ t, e.book.priceToTick (newPrice.getD o.price) = .ok (some t)
  | _ => False

section Abstraction

variable {cfg : Config} {e : Engine} {s : State} {loc : Nat → Nat} {free : List Nat}

/-- What the slots hold is what the queues hold. -/
theorem Engine.Refines.forall_order_iff
    (h : Engine.Refines cfg e s loc free) (P : Order → Prop) :
    (∀ i o, e.book.arena.orderAt i = some o → P o) ↔ ∀ k x, x ∈ s.queue k → P x.order := by
  constructor
  · exact fun ha k x hx => ha _ _ (h.orderAt hx)
  · intro ha i o ho
    obtain ⟨k, x, hx, -, rfl⟩ := h.entry ho
    exact ha k x hx

/-- The entry that a key names, with a property of its order. -/
theorem Engine.Refines.exists_names_iff
    {key : Key}
    (h : Engine.Refines cfg e s loc free) (hc : Consistent cfg s) (P : Order → Prop) :
    (∃ i o, e.Names key i o ∧ P o) ↔
      ∃ k x, x ∈ s.queue k ∧ s.index key = some (x.locator k) ∧ P x.order := by
  constructor
  · rintro ⟨i, o, hn, hp⟩
    obtain ⟨k, x, hx, hindex, -, rfl⟩ := (h.names_iff hc).mp hn
    exact ⟨k, x, hx, hindex, hp⟩
  · rintro ⟨k, x, hx, hindex, hp⟩
    exact ⟨_, _, (h.names_iff hc).mpr ⟨k, x, hx, hindex, rfl, rfl⟩, hp⟩

theorem Engine.Refines.resizes_iff
    (h : Engine.Refines cfg e s loc free) (hc : Consistent cfg s) (c : Command) :
    e.Resizes c ↔ PriceTime.Resizes cfg s c := by
  cases c with
  | place clientId clientOrderId symbol side orderType price quantity tif => exact Iff.rfl
  | cancel clientId clientOrderId => exact Iff.rfl
  | modify clientId clientOrderId newPrice newQty =>
      rw [Engine.Resizes, PriceTime.Resizes, ← h.exists_names_iff hc (fun o =>
        newQty.getD o.leavesQty ≠ 0 ∧ newQty.getD o.leavesQty ≠ o.leavesQty ∧
          ¬ (newPrice.getD o.price = o.price ∧ newQty.getD o.leavesQty ≤ o.leavesQty) ∧
          (tickOf cfg (newPrice.getD o.price)).isSome = true)]
      simp only [h.tick_iff]

theorem Engine.Resizes.ne_zero
    {c : Command}
    (h : Engine.Refines cfg e s loc free) (hbad : e.Resizes c) :
    cfg.tickSize ≠ 0 := by
  rw [Engine.Resizes.eq_def] at hbad
  split at hbad
  · obtain ⟨i, o, -, -, -, -, htick⟩ := hbad
    exact h.ne_zero_of_tick htick
  · exact absurd hbad id

end Abstraction

section Results

variable {cfg : Config}

/-- **When quantities add up.**  In every state of a run every resting order
has its quantity left and filled exactly if no modification of the run moves an
order to another place and changes the quantity left of it. -/
theorem run_adds_up_iff
    (hpos : 1 ≤ cfg.capacity) (hlt : cfg.capacity < 2 ^ 32) (cs : List Command) :
    (∀ pre c post e evs, cs = pre ++ c :: post →
        (Engine.new cfg).run Build.release pre = .ok (e, evs) → ¬ e.Resizes c) ↔
      ∀ pre post e evs, cs = pre ++ post →
        (Engine.new cfg).run Build.release pre = .ok (e, evs) → e.AddsUp := by
  refine Engine.run_good_iff hpos hlt ?_ ?_ ?_ cs
  · obtain ⟨loc, free, h⟩ := Engine.simulates_new hpos hlt
    refine (h.forall_order_iff _).mpr fun k x hx => ?_
    simp [State.new] at hx
  · rintro e s c ⟨loc, free, h⟩ hbad
    exact hbad.ne_zero h
  · rintro e e' s c ⟨loc, free, h⟩ hc ⟨loc', free', h'⟩ hgood
    rw [Engine.AddsUp, h'.forall_order_iff, h.resizes_iff hc]
    exact handle_addsUp_iff hc ((h.forall_order_iff _).mp hgood) c

/-- A bid for one lot is raised to two. -/
def doubledBid : List Command :=
  [bidOne 1 100, .modify 1 0 none (some 2)]

theorem run_adds_up_iff_doubledBid :
    (∀ pre c post e evs, doubledBid = pre ++ c :: post →
        (Engine.new smallConfig).run Build.release pre = .ok (e, evs) → ¬ e.Resizes c) ↔
      ∀ pre post e evs, doubledBid = pre ++ post →
        (Engine.new smallConfig).run Build.release pre = .ok (e, evs) → e.AddsUp :=
  run_adds_up_iff (by decide) (by decide) _

/-- The bid has a quantity of one, two left and nothing filled. -/
theorem not_addsUp_doubledBid :
    ∃ e evs, (Engine.new smallConfig).run Build.release doubledBid = .ok (e, evs) ∧
      ¬ e.AddsUp := by
  obtain ⟨⟨e, evs⟩, hrun, hbid⟩ := exists_of_yields
    (x := (Engine.new smallConfig).run Build.release doubledBid)
    (p := fun r => (r.1.book.arena.orderAt 0).any
      (fun o => o.quantity = 1 && o.leavesQty = 2 && o.filledQty = 0))
    (by decide +kernel)
  refine ⟨e, evs, hrun, fun ha => ?_⟩
  simp only [Bool.and_eq_true, Option.any_eq_true, decide_eq_true_eq] at hbid
  obtain ⟨o, ho, ⟨hquantity, hleaves⟩, hfilled⟩ := hbid
  have := ha 0 o ho
  rw [Order.AddsUp, hquantity, hleaves, hfilled] at this
  exact absurd this (by decide)

end Results

end LmaxEngine
