import LmaxEngine.Spec.Breaches

/-!
# The quantities of a resting order

An order is placed for a quantity; what is left of it and what was filled add
up to that quantity when it comes to rest.  Fills and reductions in place keep
the sum.  An order that enters another queue takes its old quantity and what
was filled along, so the sum is kept only if what is left stays the same.
-/

namespace LmaxEngine

open Queues Transition PriceTime

/-- What is left of an order and what was filled make its quantity. -/
def Order.AddsUp (o : Order) : Prop :=
  o.quantity.toNat = o.leavesQty.toNat + o.filledQty.toNat

theorem Order.AddsUp.shift
    {o : Order} {qty : UInt64}
    (h : o.AddsUp) (hle : qty ≤ o.leavesQty) :
    Order.AddsUp { o with leavesQty := o.leavesQty - qty, filledQty := o.filledQty + qty } := by
  have hlt := o.quantity.toNat_lt
  rw [UInt64.le_iff_toNat_le] at hle
  rw [Order.AddsUp] at h ⊢
  dsimp only
  rw [UInt64.toNat_sub_of_le _ _ (UInt64.le_iff_toNat_le.mpr hle), UInt64.toNat_add,
    Nat.mod_eq_of_lt (by omega)]
  omega

theorem Order.AddsUp.filledBy
    {o : Order} {qty : UInt64}
    (h : o.AddsUp) (hle : qty ≤ o.leavesQty) :
    (filledBy qty o).AddsUp :=
  h.shift hle

theorem Order.AddsUp.reducedTo
    {o : Order} {target : UInt64}
    (h : o.AddsUp) (hle : target ≤ o.leavesQty) :
    (reducedTo target o).AddsUp := by
  have hdiff : o.leavesQty - (o.leavesQty - target) = target := by
    rw [← UInt64.toNat_inj, UInt64.toNat_sub_of_le _ _ (UInt64.sub_le hle),
      UInt64.toNat_sub_of_le _ _ hle]
    rw [UInt64.le_iff_toNat_le] at hle
    omega
  have := h.shift (UInt64.sub_le hle)
  rwa [hdiff] at this

/-- The order moved to another queue adds up if no more and no less is left of it
than before. -/
theorem Order.AddsUp.requeuedAs_iff
    {o : Order} {price target : UInt64}
    (h : o.AddsUp) :
    (requeuedAs price target o).AddsUp ↔ target = o.leavesQty := by
  rw [← UInt64.toNat_inj]
  rw [Order.AddsUp] at h ⊢
  change o.quantity.toNat = target.toNat + o.filledQty.toNat ↔ _
  omega

namespace PriceTime

/-- All resting orders add up. -/
def State.AddsUp (s : State) : Prop :=
  ∀ k x, x ∈ s.queue k → x.order.AddsUp

/-- A modification that moves an order and changes what is left of it. -/
def Resizes (cfg : Config) (s : State) : Command → Prop
  | .modify clientId clientOrderId newPrice newQty =>
      ∃ k x, x ∈ s.queue k ∧ s.index (clientId, clientOrderId) = some (x.locator k) ∧
        newQty.getD x.order.leavesQty ≠ 0 ∧
        newQty.getD x.order.leavesQty ≠ x.order.leavesQty ∧
        ¬ (newPrice.getD x.order.price = x.order.price ∧
          newQty.getD x.order.leavesQty ≤ x.order.leavesQty) ∧
        (tickOf cfg (newPrice.getD x.order.price)).isSome = true
  | _ => False

section Placements

/-- The resting orders add up, and no more is left of a placement than it asked
for. -/
structure Moment.AddsUp (cfg : Config) (m : Moment) : Prop where
  ok : MomentOk cfg m
  orders : m.state.AddsUp
  left : ∀ {p}, m.active = some p → p.leavesQty ≤ p.quantity

variable {cfg : Config} {s : State} {m m' : Moment} {es : List OutputEvent}

theorem State.AddsUp.change
    {k : Level} {x : Entry} {f : Order → Order}
    (h : s.AddsUp) (hc : Consistent cfg s) (hx : x ∈ s.queue k) (hf : (f x.order).AddsUp) :
    (s.change k x f).AddsUp := by
  intro k' y hy
  rcases (mem_change hc.distinct hx).mp hy with ⟨hy, -⟩ | ⟨rfl, rfl⟩
  · exact h k' y hy
  · exact hf

theorem State.AddsUp.leave
    {k : Level} {x : Entry}
    (h : s.AddsUp) :
    (s.leave k x).AddsUp :=
  fun k' y hy => h k' y (mem_discard.mp hy).1

/-- Every trade keeps what adds up. -/
theorem Trade.addsUp
    (h : Trade cfg m es m') (hm : m.AddsUp cfg) :
    m'.AddsUp cfg := by
  obtain ⟨hstep, hactive⟩ := h
  have hok := hstep.momentOk hm.ok
  have hquiet : m'.state.queue = m.state.queue → m'.active = none → m'.AddsUp cfg :=
    fun hq hnone => ⟨hok, by rw [State.AddsUp, hq]; exact hm.orders, by simp [hnone]⟩
  cases hstep with
  | account c => exact hquiet rfl rfl
  | @number s p hnum hlimit hqty hleaves =>
      refine ⟨hok, hm.orders, ?_⟩
      rintro p' hp
      obtain rfl := Option.some.inj hp
      exact UInt64.le_of_eq hleaves
  | @fillWhole s p t x hbest hcross hle =>
      refine ⟨hok, hm.orders.leave, ?_⟩
      rintro p' hp
      obtain rfl := Option.some.inj hp
      have hleft := hm.left rfl
      rw [UInt64.le_iff_toNat_le] at hleft ⊢
      change (p.leavesQty - x.order.leavesQty).toNat ≤ p.quantity.toNat
      rw [UInt64.toNat_sub_of_le _ _ hle]
      omega
  | @fillPart s p t x hbest hcross hpos hlt =>
      have hx := State.best_mem hbest
      have hfill := (hm.orders _ x hx).filledBy (UInt64.le_of_lt hlt)
      refine ⟨hok, hm.orders.change hm.ok.consistent hx hfill, ?_⟩
      rintro p' hp
      obtain rfl := Option.some.inj hp
      change p.leavesQty - p.leavesQty ≤ p.quantity
      rw [UInt64.sub_self]
      exact UInt64.zero_le
  | @rest s p price t hlimit htick hpos hswept hroom =>
      refine ⟨hok, ?_, by simp⟩
      intro k y hy
      rcases mem_push.mp hy with hy | ⟨-, rfl⟩
      · exact hm.orders k y hy
      · have hleft : p.leavesQty ≤ p.quantity := hm.left rfl
        change p.quantity.toNat = p.leavesQty.toNat + (p.quantity - p.leavesQty).toNat
        rw [UInt64.le_iff_toNat_le] at hleft
        rw [UInt64.toNat_sub_of_le _ _ (UInt64.le_iff_toNat_le.mpr hleft)]
        omega
  | leftover => exact hquiet rfl rfl
  | finish => exact hquiet rfl rfl
  | reject => exact hquiet rfl rfl
  | cancel hx hindex => exact ⟨hok, hm.orders.leave, by simp⟩
  | reduce =>
      exact hquiet (hactive.resolve_left (by simp)) rfl
  | move => exact hquiet (hactive.resolve_left (by simp)) rfl
  | evict hx hindex => exact ⟨hok, hm.orders.leave, by simp⟩

theorem place_addsUp
    (hc : Consistent cfg s) (h : s.AddsUp)
    (clientId clientOrderId : UInt64) (symbol : Symbol) (side : Side)
    (orderType : OrderType) (price : Option UInt64) (quantity : UInt64) :
    (place cfg s clientId clientOrderId symbol side orderType price quantity).1.AddsUp :=
  ((place_trades hc clientId clientOrderId symbol side orderType price quantity).preserves
    (P := Moment.AddsUp cfg) (fun hm ht => ht.addsUp hm) ⟨hc.moment, h, by simp⟩).orders

end Placements

section Commands

variable {cfg : Config} {s : State} {k : Level} {x : Entry}

/-- A moved order adds up with the others if no more and no less is left of it
than before. -/
theorem State.AddsUp.move_iff
    {k' : Level} {price target : UInt64}
    (h : s.AddsUp) (hx : x ∈ s.queue k) :
    (s.move k x k' (requeuedAs price target x.order)).AddsUp ↔ target = x.order.leavesQty := by
  rw [← (h k x hx).requeuedAs_iff]
  constructor
  · intro hmove
    exact hmove k' _ (mem_push.mpr (Or.inr ⟨rfl, rfl⟩))
  · intro ho k'' y hy
    rcases mem_push.mp hy with hy | ⟨-, rfl⟩
    · exact h k'' y (mem_discard.mp hy).1
    · exact ho

theorem modify_addsUp_iff
    {clientId clientOrderId : UInt64} {newPrice newQty : Option UInt64}
    (hc : Consistent cfg s) (h : s.AddsUp) :
    (modify cfg s clientId clientOrderId newPrice newQty).1.AddsUp ↔
      ¬ Resizes cfg s (.modify clientId clientOrderId newPrice newQty) := by
  rcases modify_outcomes hc clientId clientOrderId newPrice newQty with
    ⟨hnone, he⟩ | ⟨k, x, hx, hkey, hindex, hout⟩
  · rw [he]
    refine ⟨?_, fun _ => h⟩
    rintro - ⟨k, x, -, hindex, -⟩
    rw [hnone] at hindex
    exact absurd hindex (by simp)
  · rw [hkey] at hindex
    -- the condition speaks of the entry that the index names
    have hresizes : Resizes cfg s (.modify clientId clientOrderId newPrice newQty) ↔
        newQty.getD x.order.leavesQty ≠ 0 ∧
        newQty.getD x.order.leavesQty ≠ x.order.leavesQty ∧
        ¬ (newPrice.getD x.order.price = x.order.price ∧
          newQty.getD x.order.leavesQty ≤ x.order.leavesQty) ∧
        (tickOf cfg (newPrice.getD x.order.price)).isSome = true := by
      constructor
      · rintro ⟨k', y, hy, hindex', hrest⟩
        rw [hindex, Option.some.injEq] at hindex'
        obtain rfl := eq_of_locator_eq hc hx hy hindex'
        exact hrest
      · exact fun hrest => ⟨k, x, hx, hindex, hrest⟩
    rw [hresizes]
    generalize modify cfg s clientId clientOrderId newPrice newQty = r at hout ⊢
    cases hout with
    | refused hzero => exact ⟨fun _ hr => hr.1 hzero, fun _ => h⟩
    | kept hpos hprice hle =>
        refine ⟨fun _ hr => hr.2.2.1 ⟨hprice, hle⟩, fun _ => ?_⟩
        exact h.change hc hx ((h k x hx).reducedTo hle)
    | evicted hpos hmoved htick =>
        refine ⟨fun _ hr => ?_, fun _ => h.leave⟩
        rw [htick] at hr
        exact absurd hr.2.2.2 (by simp)
    | moved hpos hmoved htick =>
        rw [h.move_iff hx, htick]
        constructor
        · exact fun htarget hr => hr.2.1 htarget
        · intro hr
          by_contra htarget
          exact hr ⟨hpos, htarget, hmoved, rfl⟩

/-- **A command keeps what adds up unless it moves an order with another
quantity left.** -/
theorem handle_addsUp_iff
    (hc : Consistent cfg s) (h : s.AddsUp) (c : Command) :
    (handle cfg s c).1.AddsUp ↔ ¬ Resizes cfg s c := by
  cases c with
  | place clientId clientOrderId symbol side orderType price quantity tif =>
      refine ⟨fun _ hr => hr, fun _ => ?_⟩
      exact place_addsUp hc h clientId clientOrderId symbol side orderType price quantity
  | cancel clientId clientOrderId =>
      refine ⟨fun _ hr => hr, fun _ => ?_⟩
      rcases cancel_outcomes hc clientId clientOrderId with ⟨-, he⟩ | ⟨k, x, -, -, -, he⟩
      · rw [handle, he]
        exact h
      · rw [handle, he]
        exact h.leave
  | modify clientId clientOrderId newPrice newQty => exact modify_addsUp_iff hc h

end Commands

end PriceTime
end LmaxEngine
