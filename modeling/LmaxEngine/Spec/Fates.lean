import LmaxEngine.Spec.Conservation

/-!
# What becomes of a placement

What becomes of a placement can be told from the book that it finds: from the number
of open orders of its client, the quantity that the orders it hits hold together, and
the number of orders that rest.  A limit order is turned away for want of a slot only
if nothing is on offer to it.
-/

namespace LmaxEngine

/-- What becomes of a placement. -/
inductive Fate where
  | rejected (reason : RejectReason)
  | whole
  | cancelled (left : UInt64)
  | resting (price left : UInt64)
deriving DecidableEq, Repr

/-- The events after the fills. -/
def Fate.closing
    (orderId clientId clientOrderId : UInt64) (symbol : Symbol) (side : Side) :
    Fate → List OutputEvent
  | .rejected reason => [.orderRejected clientId clientOrderId reason]
  | .whole => []
  | .cancelled left => [.orderCancelled orderId clientId left]
  | .resting price left =>
      [.orderAccepted orderId clientId clientOrderId symbol side price left]

/-- The quantity that is filled, of what is asked for and what is on offer. -/
def Fate.traded (quantity offer : Nat) : Fate → Nat
  | .rejected _ => 0
  | _ => min quantity offer

/-- The events report this fate. -/
def Fate.Told
    (fate : Fate) (orderId clientId clientOrderId : UInt64) (symbol : Symbol) (side : Side)
    (quantity offer : Nat) (es : List OutputEvent) : Prop :=
  ∃ fills, es = fills ++ fate.closing orderId clientId clientOrderId symbol side ∧
    (∀ ev, ev ∈ fills → 0 < ev.fillQty) ∧ filled fills = fate.traded quantity offer

section Told

variable {fate : Fate} {orderId clientId clientOrderId : UInt64} {symbol : Symbol} {side : Side}
variable {quantity offer : Nat} {es : List OutputEvent}

theorem Fate.told_rejected
    (reason : RejectReason) :
    (Fate.rejected reason).Told orderId clientId clientOrderId symbol side quantity offer
      [.orderRejected clientId clientOrderId reason] :=
  ⟨[], rfl, fun _ hev => absurd hev List.not_mem_nil, rfl⟩

/-- A rejection is reported for rejected placements only, with their reason. -/
theorem Fate.Told.rejected_mem_iff
    {c co : UInt64} {reason : RejectReason}
    (h : fate.Told orderId clientId clientOrderId symbol side quantity offer es) :
    .orderRejected c co reason ∈ es ↔
      fate = .rejected reason ∧ c = clientId ∧ co = clientOrderId := by
  obtain ⟨fills, rfl, hfills, -⟩ := h
  have hfill : .orderRejected c co reason ∉ fills :=
    fun hev => absurd (hfills _ hev) (Nat.lt_irrefl 0)
  rw [List.mem_append, or_iff_right hfill]
  cases fate with
  | rejected reason' =>
      rw [Fate.closing, List.mem_singleton, OutputEvent.orderRejected.injEq, Fate.rejected.injEq]
      tauto
  | _ => simp [Fate.closing]

end Told

/-- The fate of a placement, for a client with so many open orders, so much on offer
and so many resting orders. -/
def fate
    (cfg : Config) (orders offer resting : Nat)
    (orderType : OrderType) (price : Option UInt64) (quantity : UInt64) : Fate :=
  if quantity = 0 then
    .rejected .invalidQuantity
  else if maxOpenOrders.toNat ≤ orders then
    .rejected .clientOrderLimitExceeded
  else
    match orderType with
    | .market =>
        if quantity.toNat ≤ offer then .whole
        else .cancelled (quantity - UInt64.ofNat offer)
    | .limit =>
        match price with
        | none => .rejected .invalidPrice
        | some price =>
            if PriceTime.tickOf cfg price = none then
              .rejected .invalidPrice
            else if quantity.toNat ≤ offer then
              .whole
            else if offer = 0 ∧ resting = cfg.capacity then
              .rejected .arenaFull
            else
              .resting price (quantity - UInt64.ofNat offer)

/-- The reasons there are to reject a placement.  Nothing looks at its symbol, and a
market order that finds no order is cancelled. -/
theorem fate_ne_rejected
    {reason : RejectReason}
    (h : reason = .invalidSymbol ∨ reason = .noLiquidityForMarketOrder)
    (cfg : Config) (orders offer resting : Nat)
    (orderType : OrderType) (price : Option UInt64) (quantity : UInt64) :
    fate cfg orders offer resting orderType price quantity ≠ .rejected reason := by
  unfold fate
  rcases h with rfl | rfl
  all_goals
    cases orderType <;> cases price <;> dsimp only <;> split_ifs <;> exact nofun

namespace PriceTime

open Queues

variable {cfg : Config} {s : State} {p : Placement}

/-- Matching fills what is on offer, as far as the quantity goes. -/
theorem sweep_traded_min
    (hm : MomentOk cfg ⟨s, some p⟩) :
    filled (p.sweep cfg (s.resting + 1) s).2.2 =
      min p.leavesQty.toNat (s.across cfg p.side p.limitPrice) := by
  have hsum := (sweep_traded hm (s.resting + 1)).sum
  rw [sweep_left hm (Nat.lt_succ_self _)] at hsum
  omega

/-- What is left of a placement for which too little is on offer. -/
theorem sweep_left_eq
    (hm : MomentOk cfg ⟨s, some p⟩)
    (hlt : s.across cfg p.side p.limitPrice < p.leavesQty.toNat) :
    (p.sweep cfg (s.resting + 1) s).2.1 =
      p.leavesQty - UInt64.ofNat (s.across cfg p.side p.limitPrice) := by
  have hbound := p.leavesQty.toNat_lt
  have hoffer : (UInt64.ofNat (s.across cfg p.side p.limitPrice)).toNat =
      s.across cfg p.side p.limitPrice := by
    rw [UInt64.toNat_ofNat', Nat.mod_eq_of_lt (hlt.trans hbound)]
  refine UInt64.toNat_inj.mp ?_
  rw [sweep_left hm (Nat.lt_succ_self _), UInt64.toNat_sub_of_le, hoffer]
  rw [UInt64.le_iff_toNat_le, hoffer]
  exact hlt.le

/-- The fate of a market order from the start of matching. -/
theorem placeMarket_fate
    (hm : MomentOk cfg ⟨s, some p⟩) (hleaves : p.leavesQty = p.quantity)
    (hlimit : p.limitPrice = none) :
    Fate.Told
      (if p.quantity.toNat ≤ s.across cfg p.side none then .whole
        else .cancelled (p.quantity - UInt64.ofNat (s.across cfg p.side none)))
      (UInt64.ofNat p.num) p.clientId p.clientOrderId p.symbol p.side
      p.quantity.toNat (s.across cfg p.side none)
      (PriceTime.placeMarket cfg s p.num p.clientId p.symbol p.side p.quantity).2 := by
  have hpositive := (sweep_traded hm (s.resting + 1)).positive
  have hfilled := sweep_traded_min hm
  have hpos := sweep_left_pos_iff hm
  have hleft := sweep_left_eq hm
  rw [hlimit, hleaves] at hfilled hpos hleft
  rw [PriceTime.placeMarket]
  simp only [matchAll_eq_sweep hleaves hlimit]
  by_cases hlt : s.across cfg p.side none < p.quantity.toNat
  · rw [if_pos (hpos.mpr hlt), if_neg (Nat.not_le.mpr hlt), hleft hlt]
    exact ⟨_, rfl, hpositive, hfilled⟩
  · rw [if_neg (mt hpos.mp hlt), if_pos (Nat.not_lt.mp hlt)]
    exact ⟨_, (List.append_nil _).symm, hpositive, hfilled⟩

/-- The fate of a limit order from the start of matching.  It finds the book full only
if nothing was on offer. -/
theorem placeLimit_fate
    {price : UInt64} {t : Nat}
    (hm : MomentOk cfg ⟨s, some p⟩) (hleaves : p.leavesQty = p.quantity)
    (hlimit : p.limitPrice = some price) :
    Fate.Told
      (if p.quantity.toNat ≤ s.across cfg p.side (some price) then .whole
        else if s.across cfg p.side (some price) = 0 ∧ s.resting = cfg.capacity then
          .rejected .arenaFull
        else .resting price (p.quantity - UInt64.ofNat (s.across cfg p.side (some price))))
      (UInt64.ofNat p.num) p.clientId p.clientOrderId p.symbol p.side
      p.quantity.toNat (s.across cfg p.side (some price))
      (PriceTime.placeLimit cfg s p.num p.clientId p.clientOrderId p.symbol p.side
        price p.quantity t).2 := by
  have hpositive := (sweep_traded hm (s.resting + 1)).positive
  have hfilled := sweep_traded_min hm
  have hpos := sweep_left_pos_iff hm
  have hleft := sweep_left_eq hm
  have hfree := sweep_resting_ne_iff hm
  have hc : Consistent cfg s := hm.consistent
  have hroom : s.resting ≤ cfg.capacity := hc.room
  rw [hlimit, hleaves] at hfilled hpos hleft
  rw [hlimit, ← across_pos_iff hc] at hfree
  rw [PriceTime.placeLimit]
  simp only [matchAll_eq_sweep hleaves hlimit]
  by_cases hlt : s.across cfg p.side (some price) < p.quantity.toNat
  · have hmore := hpos.mpr hlt
    have hfree := hfree (UInt64.pos_iff_ne_zero.mp hmore)
    rw [if_pos hmore, if_neg (Nat.not_le.mpr hlt), hleft hlt]
    by_cases hnone : s.across cfg p.side (some price) = 0 ∧ s.resting = cfg.capacity
    · have hfull := not_ne_iff.mp (mt hfree.mp (by omega))
      rw [if_pos hnone, if_pos hfull]
      refine ⟨_, rfl, hpositive, ?_⟩
      rw [hfilled, hnone.1]
      exact Nat.min_zero _
    · rw [if_neg hnone, if_neg (hfree.mpr (by omega))]
      exact ⟨_, rfl, hpositive, hfilled⟩
  · rw [if_neg (mt hpos.mp hlt), if_pos (Nat.not_lt.mp hlt)]
    exact ⟨_, (List.append_nil _).symm, hpositive, hfilled⟩

/-- **The fate of a placement** is settled by the book that it finds. -/
theorem place_fate
    (hc : Consistent cfg s)
    (clientId clientOrderId : UInt64) (symbol : Symbol) (side : Side)
    (orderType : OrderType) (price : Option UInt64) (quantity : UInt64) :
    (fate cfg (openOrders s.clients clientId) (s.across cfg side (limitOf orderType price))
        s.resting orderType price quantity).Told
      (UInt64.ofNat s.nextNum) clientId clientOrderId symbol side
      quantity.toNat (s.across cfg side (limitOf orderType price))
      (place cfg s clientId clientOrderId symbol side orderType price quantity).2 := by
  by_cases hqty : quantity = 0
  · rw [place, if_pos hqty]
    unfold fate
    rw [if_pos hqty]
    exact Fate.told_rejected _
  have hlimit_iff : maxOpenOrders ≤ (accountOf s.clients clientId).openOrders ↔
      maxOpenOrders.toNat ≤ openOrders s.clients clientId := UInt32.le_iff_toNat_le
  have hstart : ∀ hlimit limitPrice, MomentOk cfg ⟨(s.account clientId).number,
      some (s.placement clientId clientOrderId symbol side limitPrice quantity)⟩ :=
    fun hlimit limitPrice => started_ok hc hqty hlimit clientOrderId symbol side limitPrice
  unfold fate
  rcases place_cases cfg s clientId clientOrderId symbol side quantity orderType price with
    ⟨h0, -⟩ | ⟨hlimit, hp⟩ |
      ⟨-, hlimit, ⟨rfl, htick, hp⟩ | ⟨rfl, hp⟩ | ⟨limit, t, rfl, rfl, htick, hp⟩⟩
  · exact absurd h0 hqty
  · rw [hp, if_neg hqty, if_pos (hlimit_iff.mp hlimit)]
    exact Fate.told_rejected _
  · rw [hp, if_neg hqty, if_neg (mt hlimit_iff.mpr hlimit)]
    cases price with
    | none => exact Fate.told_rejected _
    | some limit =>
        rw [Option.bind_some] at htick
        dsimp only
        rw [if_pos htick]
        exact Fate.told_rejected _
  · rw [hp, if_neg hqty, if_neg (mt hlimit_iff.mpr hlimit)]
    exact placeMarket_fate (hstart hlimit none) rfl rfl
  · rw [hp, if_neg hqty, if_neg (mt hlimit_iff.mpr hlimit)]
    dsimp only
    rw [if_neg (by rw [htick]; exact Option.some_ne_none t)]
    exact placeLimit_fate (hstart hlimit (some limit)) rfl rfl

end PriceTime
end LmaxEngine
