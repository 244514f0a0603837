import LmaxEngine.Spec.Priority
import LmaxEngine.Spec.TimeInForce

/-!
# Limits and the prices of fills

Matching compares the limit of an order with the lowest price of a tick, and a
fill is at the price of the resting order.  The two differ in one tick only, that
of the limit itself: a bid may fill asks of its tick above its limit, and an ask
may leave bids of its tick that reach its limit.
-/

namespace LmaxEngine

open PriceTime

/-- A fill at a price that crosses the limit. -/
def OutputEvent.FillsWithin (side : Side) (limit : UInt64) : OutputEvent → Prop
  | .fill _ _ _ _ _ price _ _ => crosses side limit price = true
  | _ => True

namespace PriceTime

open Queues Transition

section Ticks

variable {cfg : Config} {price limit : UInt64} {t u : Nat}

/-- A price is below the price of the next tick. -/
theorem lt_next_tick
    (h : tickOf cfg price = some t) :
    price.toNat < cfg.basePrice.toNat + (t + 1) * cfg.tickSize.toNat := by
  unfold tickOf at h
  split_ifs at h with hlow
  dsimp only at h
  split_ifs at h
  obtain rfl := Option.some.inj h
  rw [not_or, UInt64.lt_iff_toNat_lt, Nat.not_lt] at hlow
  obtain ⟨hlow, hsize⟩ := hlow
  have hpos : 0 < cfg.tickSize.toNat :=
    UInt64.lt_iff_toNat_lt.mp (UInt64.pos_iff_ne_zero.mpr hsize)
  rw [UInt64.toNat_div, UInt64.toNat_sub_of_le _ _ (UInt64.le_iff_toNat_le.mpr hlow)]
  have hlt := Nat.lt_div_mul_add hpos (a := price.toNat - cfg.basePrice.toNat)
  rw [Nat.add_mul, Nat.one_mul]
  omega

/-- Ticks are in the order of the prices that they start from. -/
theorem tick_le_tick
    (h : tickOf cfg limit = some t)
    (hle : cfg.basePrice.toNat + u * cfg.tickSize.toNat ≤ limit.toNat) :
    u ≤ t := by
  have hlt := lt_next_tick h
  have hmul : u * cfg.tickSize.toNat < (t + 1) * cfg.tickSize.toNat := by omega
  exact Nat.lt_succ_iff.mp (Nat.lt_of_mul_lt_mul_right hmul)

/-- A limit hits an order whose price does not cross it only if it is a bid, and
the order is an ask above it in its own tick. -/
theorem hit_beyond_iff
    {side : Side}
    (h : tickOf cfg limit = some t) (hu : tickOf cfg price = some u) :
    crossesTick cfg side (some limit) u = true ∧ crosses side limit price = false ↔
      side = .buy ∧ u = t ∧ limit < price := by
  have hfloor := tick_mul_le hu
  have hprice := toNat_priceOf hu
  cases side with
  | buy =>
      simp only [crossesTick, crosses, decide_eq_true_eq, decide_eq_false_iff_not,
        UInt64.not_le, true_and]
      refine and_congr_left fun hlt => ?_
      rw [UInt64.lt_iff_toNat_lt] at hlt
      rw [UInt64.le_iff_toNat_le, hprice]
      constructor
      · intro hle
        have := tick_mul_le h
        exact Nat.le_antisymm (tick_le_tick h hle) (tick_le_tick hu (by omega))
      · rintro rfl
        exact tick_mul_le h
  | sell =>
      refine iff_of_false ?_ fun hs => absurd hs.1 (by simp)
      simp only [crossesTick, crosses, decide_eq_true_eq, decide_eq_false_iff_not,
        UInt64.le_iff_toNat_le, hprice]
      omega

/-- A limit does not hit an order whose price crosses it only if it is an ask, and
the order is a bid in its own tick, which starts below it. -/
theorem missed_within_iff
    {side : Side}
    (h : tickOf cfg limit = some t) (hu : tickOf cfg price = some u) :
    crossesTick cfg side (some limit) u = false ∧ crosses side limit price = true ↔
      side = .sell ∧ u = t ∧ limit ≤ price ∧ priceOf cfg t < limit := by
  have hfloor := tick_mul_le hu
  have hprice := toNat_priceOf hu
  cases side with
  | buy =>
      refine iff_of_false ?_ fun hs => absurd hs.1 (by simp)
      simp only [crossesTick, crosses, decide_eq_true_eq, decide_eq_false_iff_not,
        UInt64.le_iff_toNat_le, hprice]
      omega
  | sell =>
      simp only [crossesTick, crosses, decide_eq_true_eq, decide_eq_false_iff_not,
        UInt64.not_le, true_and]
      constructor
      · rintro ⟨hlt, hle⟩
        rw [UInt64.lt_iff_toNat_lt, hprice] at hlt
        rw [UInt64.le_iff_toNat_le] at hle
        have := tick_mul_le h
        obtain rfl := Nat.le_antisymm (tick_le_tick h (by omega)) (tick_le_tick hu (by omega))
        refine ⟨rfl, UInt64.le_iff_toNat_le.mpr hle, UInt64.lt_iff_toNat_lt.mpr ?_⟩
        rwa [hprice]
      · rintro ⟨rfl, hle, hlt⟩
        exact ⟨hlt, hle⟩

end Ticks

/-- A bid for more than rests ahead of an ask in its tick that is above its limit,
or an ask for more than the bids that it hits hold, with a bid in its tick that
reaches its limit while the tick starts below it. -/
def Misprices
    (cfg : Config) (s : State) (side : Side) (limit quantity : UInt64) : Prop :=
  match side with
  | .buy => ∃ t, tickOf cfg limit = some t ∧ ∃ x, x ∈ s.queue (.sell, t) ∧
      limit < x.order.price ∧ s.aheadQty .sell x.num < quantity.toNat
  | .sell => s.across cfg .sell (some limit) < quantity.toNat ∧
      ∃ t, tickOf cfg limit = some t ∧ ∃ x, x ∈ s.queue (.buy, t) ∧
        limit ≤ x.order.price ∧ priceOf cfg t < limit

/-- Every fill is within the limit, and if something is left no order of the other
side crosses it. -/
def HonoursLimit
    (r : State × List OutputEvent) (side : Side) (limit quantity : UInt64) : Prop :=
  (∀ ev, ev ∈ r.2 → ev.FillsWithin side limit) ∧
    (filled r.2 < quantity.toNat → ∀ k x, x ∈ r.1.queue k → k.1 = side.opposite →
      crosses side limit x.order.price = false)

section Placements

variable {cfg : Config} {s : State} {p : Placement} {r : State × List OutputEvent}
variable {limit : UInt64} {t : Nat}

/-- What a placement does beside matching is no fill, and is not done on the other
side. -/
theorem Placed.matching
    (limit : UInt64)
    (h : Placed cfg s p r) :
    (∃ es, r.2 = (p.sweep cfg (s.resting + 1) s).2.2 ++ es ∧
        ∀ ev, ev ∈ es → ev.fillQty = 0 ∧ ev.FillsWithin p.side limit) ∧
      ∀ k, k.1 = p.side.opposite →
        r.1.queue k = (p.sweep cfg (s.resting + 1) s).1.queue k := by
  cases h with
  | @matched es hes =>
      refine ⟨⟨es, rfl, fun ev hev => ?_⟩, fun _ _ => rfl⟩
      rcases hes ev hev with hrej | rfl
      · cases ev <;> first | exact ⟨rfl, trivial⟩ | exact absurd hrej id
      · exact ⟨rfl, trivial⟩
  | @rested price left t hprice htick hleft hpos =>
      refine ⟨⟨_, rfl, fun ev hev => ?_⟩, fun k hk => push_of_ne ?_⟩
      · rw [List.mem_singleton.mp hev]
        exact ⟨rfl, trivial⟩
      · rintro rfl
        cases hs : p.side <;> simp [hs, Side.opposite] at hk

/-- The fills of matching are within the limit where the orders that get something
cross it. -/
theorem sweep_fills_within_iff
    (hm : MomentOk cfg ⟨s, some p⟩) :
    (∀ ev, ev ∈ (p.sweep cfg (s.resting + 1) s).2.2 → ev.FillsWithin p.side limit) ↔
      ∀ k x, x ∈ s.queue k → 0 < offer cfg s p x →
        crosses p.side limit x.order.price = true := by
  constructor
  · intro h k x hx hoffer
    exact h _ ((mem_sweep_events_iff hm (Nat.lt_succ_self _)).mpr ⟨k, x, hx, hoffer, rfl⟩)
  · intro h ev hev
    obtain ⟨k, x, hx, hoffer, rfl⟩ := (mem_sweep_events_iff hm (Nat.lt_succ_self _)).mp hev
    exact h k x hx hoffer

/-- The orders that get something cross the limit, but for asks in its tick. -/
theorem offers_within_iff
    (hc : Consistent cfg s)
    (hlimit : p.limitPrice = some limit) (htick : tickOf cfg limit = some t) :
    (∀ k x, x ∈ s.queue k → 0 < offer cfg s p x →
        crosses p.side limit x.order.price = true) ↔
      ¬ (p.side = .buy ∧ ∃ x, x ∈ s.queue (p.side.opposite, t) ∧ limit < x.order.price ∧
        s.aheadQty p.side.opposite x.num < p.leavesQty.toNat) := by
  constructor
  · rintro h ⟨hside, x, hx, hlt, hahead⟩
    obtain ⟨hcross, hbeyond⟩ :=
      (hit_beyond_iff htick (hc.entry hx).tick).mpr ⟨hside, rfl, hlt⟩
    have hhit : hits cfg p.side p.limitPrice x.order = true :=
      (hits_iff hc hx).mpr ⟨rfl, by rwa [hlimit]⟩
    have hoffer : 0 < offer cfg s p x := by
      rw [offer, if_pos hhit]
      omega
    rw [h _ x hx hoffer] at hbeyond
    exact absurd hbeyond (by simp)
  · intro h k x hx hoffer
    by_contra hno
    rw [offer] at hoffer
    split_ifs at hoffer with hhit
    · obtain ⟨hside, hcross⟩ := (hits_iff hc hx).mp hhit
      rw [hlimit] at hcross
      obtain ⟨hbuy, htick', hlt⟩ := (hit_beyond_iff htick (hc.entry hx).tick).mp
        ⟨hcross, Bool.eq_false_iff.mpr hno⟩
      rw [← Prod.eta k, hside, htick'] at hx
      exact h ⟨hbuy, x, hx, hlt, by omega⟩
    · exact absurd hoffer (Nat.lt_irrefl 0)

/-- The orders that are not hit do not cross the limit, but for bids in its tick. -/
theorem misses_beyond_iff
    (hc : Consistent cfg s)
    (hlimit : p.limitPrice = some limit) (htick : tickOf cfg limit = some t) :
    (∀ k x, x ∈ s.queue k → hits cfg p.side p.limitPrice x.order = false →
        k.1 = p.side.opposite → crosses p.side limit x.order.price = false) ↔
      ¬ (p.side = .sell ∧ ∃ x, x ∈ s.queue (p.side.opposite, t) ∧
        limit ≤ x.order.price ∧ priceOf cfg t < limit) := by
  constructor
  · rintro h ⟨hside, x, hx, hle, hlt⟩
    obtain ⟨hmiss, hwithin⟩ :=
      (missed_within_iff htick (hc.entry hx).tick).mpr ⟨hside, rfl, hle, hlt⟩
    have hno : hits cfg p.side p.limitPrice x.order = false := by
      refine Bool.eq_false_iff.mpr fun hhit => ?_
      have hcross := ((hits_iff hc hx).mp hhit).2
      rw [hlimit, hmiss] at hcross
      exact absurd hcross (by simp)
    rw [h _ x hx hno rfl] at hwithin
    exact absurd hwithin (by simp)
  · intro h k x hx hno hside
    by_contra hcross
    have hmiss : crossesTick cfg p.side (some limit) k.2 = false := by
      refine Bool.eq_false_iff.mpr fun htrue => ?_
      rw [(hits_iff hc hx).mpr ⟨hside, by rwa [hlimit]⟩] at hno
      exact absurd hno (by simp)
    obtain ⟨hsell, htick', hle, hlt⟩ := (missed_within_iff htick (hc.entry hx).tick).mp
      ⟨hmiss, Bool.not_eq_false _ ▸ hcross⟩
    rw [← Prod.eta k, hside, htick'] at hx
    exact h ⟨hsell, x, hx, hle, hlt⟩

/-- All fills of a placement are within its limit where the orders that get
something cross it. -/
theorem Placed.fills_within_iff
    (hm : MomentOk cfg ⟨s, some p⟩) (h : Placed cfg s p r) :
    (∀ ev, ev ∈ r.2 → ev.FillsWithin p.side limit) ↔
      ∀ k x, x ∈ s.queue k → 0 < offer cfg s p x →
        crosses p.side limit x.order.price = true := by
  obtain ⟨⟨es, hes, hothers⟩, -⟩ := h.matching limit
  rw [← sweep_fills_within_iff hm, hes]
  constructor
  · exact fun hall ev hev => hall ev (List.mem_append_left _ hev)
  · intro hall ev hev
    rcases List.mem_append.mp hev with hev | hev
    · exact hall ev hev
    · exact (hothers ev hev).2

/-- Something is left when the orders that are hit do not hold the quantity. -/
theorem Placed.filled_lt_iff
    (hm : MomentOk cfg ⟨s, some p⟩) (hleaves : p.leavesQty = p.quantity)
    (hlimit : p.limitPrice = some limit) (h : Placed cfg s p r) :
    filled r.2 < p.quantity.toNat ↔ s.across cfg p.side (some limit) < p.quantity.toNat := by
  obtain ⟨⟨es, hes, hothers⟩, -⟩ := h.matching limit
  have hzero : filled es = 0 := by
    refine List.sum_eq_zero_iff.mpr fun n hn => ?_
    obtain ⟨ev, hev, rfl⟩ := List.mem_map.mp hn
    exact (hothers ev hev).1
  have hfuel : s.resting < s.resting + 1 := Nat.lt_succ_self s.resting
  have hfilled := sweep_filled cfg p (s.resting + 1) s
  have hleft := sweep_left hm hfuel
  rw [hlimit, hleaves] at hleft
  rw [hleaves] at hfilled
  rw [hes, filled_append, hzero]
  omega

/-- What crosses the limit on the other side when something is left is what crossed
it before and was not hit. -/
theorem Placed.beyond_iff
    (hm : MomentOk cfg ⟨s, some p⟩) (hleaves : p.leavesQty = p.quantity)
    (hlimit : p.limitPrice = some limit) (h : Placed cfg s p r)
    (hacross : s.across cfg p.side (some limit) < p.quantity.toNat) :
    (∀ k x, x ∈ r.1.queue k → k.1 = p.side.opposite →
        crosses p.side limit x.order.price = false) ↔
      ∀ k x, x ∈ s.queue k → hits cfg p.side p.limitPrice x.order = false →
        k.1 = p.side.opposite → crosses p.side limit x.order.price = false := by
  have hfuel : s.resting < s.resting + 1 := Nat.lt_succ_self s.resting
  obtain ⟨-, hqueue⟩ := h.matching limit
  have hleft := sweep_left hm hfuel
  have hne : (p.sweep cfg (s.resting + 1) s).2.1 ≠ 0 := by
    intro hz
    rw [hlimit, hleaves, hz, UInt64.toNat_zero] at hleft
    omega
  refine forall_congr' fun k => forall_congr' fun x => ?_
  have hmem := sweep_mem_iff (k := k) (x := x) hm hfuel hne
  constructor
  · intro hall hx hno hside
    refine hall ?_ hside
    rw [hqueue k hside]
    exact hmem.mpr ⟨hx, hno⟩
  · intro hall hx hside
    rw [hqueue k hside, hmem] at hx
    exact hall hx.1 hx.2 hside

/-- What a limit misprices is in its own tick. -/
theorem misprices_iff
    {quantity : UInt64}
    (htick : tickOf cfg limit = some t) (side : Side) :
    Misprices cfg s side limit quantity ↔
      (side = .buy ∧ ∃ x, x ∈ s.queue (side.opposite, t) ∧ limit < x.order.price ∧
        s.aheadQty side.opposite x.num < quantity.toNat) ∨
      (s.across cfg side (some limit) < quantity.toNat ∧ side = .sell ∧
        ∃ x, x ∈ s.queue (side.opposite, t) ∧ limit ≤ x.order.price ∧
          priceOf cfg t < limit) := by
  cases side with
  | buy =>
      rw [Misprices]
      simp only [htick, Option.some.injEq, exists_eq_left', Side.opposite, true_and,
        reduceCtorEq, false_and, and_false, or_false]
  | sell =>
      rw [Misprices]
      simp only [htick, Option.some.injEq, exists_eq_left', Side.opposite, true_and,
        reduceCtorEq, false_and, false_or]

/-- **When a limit is honoured** by a placement under way. -/
theorem Placed.honours_iff
    (hm : MomentOk cfg ⟨s, some p⟩) (hleaves : p.leavesQty = p.quantity)
    (hlimit : p.limitPrice = some limit) (htick : tickOf cfg limit = some t)
    (h : Placed cfg s p r) :
    HonoursLimit r p.side limit p.quantity ↔ ¬ Misprices cfg s p.side limit p.quantity := by
  have hc : Consistent cfg s := hm.consistent
  have hrests : (filled r.2 < p.quantity.toNat → ∀ k x, x ∈ r.1.queue k →
        k.1 = p.side.opposite → crosses p.side limit x.order.price = false) ↔
      ¬ (s.across cfg p.side (some limit) < p.quantity.toNat ∧ p.side = .sell ∧
        ∃ x, x ∈ s.queue (p.side.opposite, t) ∧ limit ≤ x.order.price ∧
          priceOf cfg t < limit) := by
    rw [h.filled_lt_iff hm hleaves hlimit, not_and, ← misses_beyond_iff hc hlimit htick]
    exact imp_congr_right (h.beyond_iff hm hleaves hlimit)
  rw [HonoursLimit, h.fills_within_iff hm, offers_within_iff hc hlimit htick, hrests,
    misprices_iff htick, not_or, hleaves]

end Placements

/-- **When a limit is honoured** by a placement that passes all checks. -/
theorem place_honours_iff
    {cfg : Config} {s : State} {clientId quantity limit : UInt64}
    (hc : Consistent cfg s)
    (h : Accepted cfg s clientId .limit (some limit) quantity)
    (clientOrderId : UInt64) (symbol : Symbol) (side : Side) :
    HonoursLimit (place cfg s clientId clientOrderId symbol side .limit (some limit) quantity)
        side limit quantity ↔
      ¬ Misprices cfg s side limit quantity := by
  obtain ⟨t, htick⟩ := Option.isSome_iff_exists.mp (h.tick rfl)
  rcases place_outcomes cfg s clientId clientOrderId symbol side .limit (some limit) quantity with
    ⟨hno, -⟩ | ⟨-, hplaced⟩
  · exact absurd h hno
  · exact hplaced.honours_iff (h.started hc clientOrderId symbol side) rfl rfl htick

/-- A placement that fails a check fills nothing. -/
theorem place_not_accepted_within
    {cfg : Config} {s : State} {clientId quantity limit : UInt64} {ev : OutputEvent}
    {clientOrderId : UInt64} {symbol : Symbol} {side : Side}
    (h : ¬ Accepted cfg s clientId .limit (some limit) quantity)
    (hev : ev ∈
      (place cfg s clientId clientOrderId symbol side .limit (some limit) quantity).2) :
    ev.FillsWithin side limit := by
  rcases place_outcomes cfg s clientId clientOrderId symbol side .limit (some limit) quantity with
    ⟨-, -, hrejected⟩ | ⟨haccepted, -⟩
  · have hrej := hrejected ev hev
    cases ev <;> first | exact trivial | exact absurd hrej id
  · exact absurd haccepted h

end PriceTime
end LmaxEngine
