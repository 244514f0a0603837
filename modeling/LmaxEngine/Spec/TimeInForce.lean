import LmaxEngine.Spec.Placing

/-!
# What a placement fills and whether it rests

A placement is filled with what the hit orders hold, as far as its quantity
goes.  If it does not rest its own side stays as it was, and it reports nothing
but fills, a rejection or what was left over.
-/

namespace LmaxEngine

open PriceTime

/-- The quantity that an event fills. -/
def OutputEvent.fillQty : OutputEvent → Nat
  | .fill _ _ _ _ _ _ quantity _ => quantity.toNat
  | _ => 0

/-- The quantity that events fill together. -/
def filled (es : List OutputEvent) : Nat :=
  (es.map OutputEvent.fillQty).sum

/-- An event that is neither a fill nor the acceptance of an order. -/
def OutputEvent.IsQuiet : OutputEvent → Prop
  | .fill .. => False
  | .orderAccepted .. => False
  | _ => True

@[simp] theorem filled_nil :
    filled [] = 0 := rfl

@[simp] theorem filled_cons
    (ev : OutputEvent) (es : List OutputEvent) :
    filled (ev :: es) = ev.fillQty + filled es := by
  simp [filled]

@[simp] theorem filled_append
    (es fs : List OutputEvent) :
    filled (es ++ fs) = filled es + filled fs := by
  simp [filled]

theorem fillQty_le_filled
    {es : List OutputEvent} {ev : OutputEvent}
    (h : ev ∈ es) :
    ev.fillQty ≤ filled es :=
  List.single_le_sum (fun _ _ => Nat.zero_le _) _ (List.mem_map_of_mem h)

namespace PriceTime

open Queues Transition

section Sweeps

variable {cfg : Config} {s : State} {p : Placement}

/-- What is filled and what is left make the quantity. -/
theorem sweep_filled
    (cfg : Config) (p : Placement) (fuel : Nat) (s : State) :
    filled (p.sweep cfg fuel s).2.2 + (p.sweep cfg fuel s).2.1.toNat = p.leavesQty.toNat := by
  induction fuel generalizing p s with
  | zero => exact Nat.zero_add _
  | succ fuel ih =>
      rcases sweep_cases cfg p s with hstop | ⟨t, x, h0, hb, hcross, hle | hlt⟩
      · rw [sweep_stop hstop]
        exact Nat.zero_add _
      · have hrest := ih (p.less x.order.leavesQty) (s.leave (p.side.opposite, t) x)
        have hless : (p.less x.order.leavesQty).leavesQty.toNat =
            p.leavesQty.toNat - x.order.leavesQty.toNat :=
          UInt64.toNat_sub_of_le _ _ hle
        have hfill : (p.fill x.order x.order.leavesQty).fillQty = x.order.leavesQty.toNat := rfl
        rw [UInt64.le_iff_toNat_le] at hle
        rw [sweep_whole h0 hb hcross (UInt64.le_iff_toNat_le.mpr hle), filled_cons, hfill]
        dsimp only
        omega
      · rw [sweep_part h0 hb hcross hlt]
        rfl

/-- Every fill is for something. -/
theorem sweep_fills
    {fuel : Nat} {ev : OutputEvent}
    (hm : MomentOk cfg ⟨s, some p⟩) (h : ev ∈ (p.sweep cfg fuel s).2.2) :
    0 < ev.fillQty := by
  induction fuel generalizing p s with
  | zero => exact absurd h (List.not_mem_nil)
  | succ fuel ih =>
      rcases sweep_cases cfg p s with hstop | ⟨t, x, h0, hb, hcross, hle | hlt⟩
      · rw [sweep_stop hstop] at h
        exact absurd h (List.not_mem_nil)
      · have hstep : Step cfg ⟨s, some p⟩ _ _ := Step.fillWhole hb hcross hle
        have hleaves := (hm.consistent.entry (State.best_mem hb)).leaves
        rw [sweep_whole h0 hb hcross hle] at h
        rcases List.mem_cons.mp h with rfl | h
        · exact UInt64.lt_iff_toNat_lt.mp hleaves
        · exact ih (hstep.momentOk hm) h
      · rw [sweep_part h0 hb hcross hlt] at h
        obtain rfl := List.mem_singleton.mp h
        exact UInt64.lt_iff_toNat_lt.mp (UInt64.pos_iff_ne_zero.mpr h0)

end Sweeps

/-- What a placement does that does not rest. -/
structure Taken (s : State) (side : Side) (r : State × List OutputEvent) : Prop where
  own : ∀ t, r.1.queue (side, t) = s.queue (side, t)
  events : ∀ ev, ev ∈ r.2 → 0 < ev.fillQty ∨ ev.IsQuiet

section Placements

variable {cfg : Config} {s : State} {p : Placement} {price : UInt64} {t : Nat}

theorem placeLimit_taken
    (hm : MomentOk cfg ⟨s, some p⟩)
    (hleaves : p.leavesQty = p.quantity)
    (hlimit : p.limitPrice = some price)
    (hno : ¬ (s.across cfg p.side (some price) < p.quantity.toNat ∧
      (s.resting < cfg.capacity ∨
        ∃ k y, y ∈ s.queue k ∧ hits cfg p.side (some price) y.order = true))) :
    Taken s p.side (PriceTime.placeLimit cfg s p.num p.clientId p.clientOrderId p.symbol p.side
      price p.quantity t) := by
  have hown := sweep_own cfg p (s.resting + 1) s
  have hfills : ∀ ev, ev ∈ (p.sweep cfg (s.resting + 1) s).2.2 → 0 < ev.fillQty :=
    fun ev => sweep_fills hm
  have hpos := sweep_left_pos_iff hm
  have hroom := sweep_resting_ne_iff hm
  rw [hlimit, hleaves] at hpos
  rw [hlimit] at hroom
  rw [PriceTime.placeLimit]
  simp only [matchAll_eq_sweep hleaves hlimit]
  generalize p.sweep cfg (s.resting + 1) s = r at hown hfills hpos hroom ⊢
  obtain ⟨r, left, fills⟩ := r
  dsimp only at hown hfills hpos hroom ⊢
  split_ifs with hlt hfull
  · refine ⟨hown, fun ev hev => ?_⟩
    rcases List.mem_append.mp hev with hev | hev
    · exact Or.inl (hfills ev hev)
    · obtain rfl := List.mem_singleton.mp hev
      exact Or.inr trivial
  · exact absurd ⟨hpos.mp hlt, (hroom (UInt64.pos_iff_ne_zero.mp hlt)).mp hfull⟩ hno
  · exact ⟨hown, fun ev hev => Or.inl (hfills ev hev)⟩

theorem placeMarket_taken
    (hm : MomentOk cfg ⟨s, some p⟩)
    (hleaves : p.leavesQty = p.quantity)
    (hlimit : p.limitPrice = none) :
    Taken s p.side
      (PriceTime.placeMarket cfg s p.num p.clientId p.symbol p.side p.quantity) := by
  have hown := sweep_own cfg p (s.resting + 1) s
  have hfills : ∀ ev, ev ∈ (p.sweep cfg (s.resting + 1) s).2.2 → 0 < ev.fillQty :=
    fun ev => sweep_fills hm
  rw [PriceTime.placeMarket]
  simp only [matchAll_eq_sweep hleaves hlimit]
  split_ifs
  · refine ⟨hown, fun ev hev => ?_⟩
    rcases List.mem_append.mp hev with hev | hev
    · exact Or.inl (hfills ev hev)
    · obtain rfl := List.mem_singleton.mp hev
      exact Or.inr trivial
  · exact ⟨hown, fun ev hev => Or.inl (hfills ev hev)⟩

theorem taken_reject
    {s' : State} {side : Side} {clientId clientOrderId : UInt64} {reason : RejectReason}
    (hqueue : s'.queue = s.queue) :
    Taken s side (s', [.orderRejected clientId clientOrderId reason]) where
  own t := by rw [hqueue]
  events ev hev := by
    obtain rfl := List.mem_singleton.mp hev
    exact Or.inr trivial

/-- **A placement that does not rest** leaves its own side alone. -/
theorem place_taken
    (clientId clientOrderId : UInt64) (symbol : Symbol) (side : Side)
    (orderType : OrderType) (limitPrice : Option UInt64) (quantity : UInt64)
    (hc : Consistent cfg s)
    (h : ∀ price, orderType = .limit → limitPrice = some price →
      ¬ Rests cfg s clientId side price quantity) :
    Taken s side
      (place cfg s clientId clientOrderId symbol side orderType limitPrice quantity) := by
  rcases place_cases cfg s clientId clientOrderId symbol side quantity orderType limitPrice with
    ⟨-, hp⟩ | ⟨-, hp⟩ |
      ⟨hqty, hlimit, ⟨-, -, hp⟩ | ⟨-, hp⟩ | ⟨price, t, htype, hprice, htick, hp⟩⟩
  · rw [hp]
    exact taken_reject rfl
  · rw [hp]
    exact taken_reject rfl
  · rw [hp]
    exact taken_reject rfl
  · have hm := started_ok hc hqty hlimit clientOrderId symbol side none
    have htaken := placeMarket_taken hm rfl rfl
    rw [hp]
    exact ⟨htaken.own, htaken.events⟩
  · have hm := started_ok hc hqty hlimit clientOrderId symbol side (some price)
    have htaken := placeLimit_taken (t := t) hm rfl rfl fun hrests =>
      h price htype hprice ⟨hqty, not_limit_iff.mp hlimit, by rw [htick]; rfl, hrests.1, hrests.2⟩
    rw [hp]
    exact ⟨htaken.own, htaken.events⟩

theorem filled_placeMarket
    (hm : MomentOk cfg ⟨s, some p⟩)
    (hleaves : p.leavesQty = p.quantity)
    (hlimit : p.limitPrice = none) :
    filled (PriceTime.placeMarket cfg s p.num p.clientId p.symbol p.side p.quantity).2 =
      min p.quantity.toNat (s.across cfg p.side none) := by
  have hfilled := sweep_filled cfg p (s.resting + 1) s
  have hleft := sweep_left hm (Nat.lt_succ_self s.resting)
  have hcancel : ∀ left, filled [.orderCancelled (UInt64.ofNat p.num) p.clientId left] = 0 :=
    fun _ => rfl
  rw [hlimit] at hleft
  rw [hleaves] at hfilled hleft
  rw [PriceTime.placeMarket]
  simp only [matchAll_eq_sweep hleaves hlimit]
  generalize p.sweep cfg (s.resting + 1) s = r at hfilled hleft ⊢
  obtain ⟨r, left, fills⟩ := r
  dsimp only at hfilled hleft ⊢
  split_ifs
  · rw [filled_append, hcancel]
    omega
  · change filled fills = _
    omega

theorem filled_placeLimit
    (hm : MomentOk cfg ⟨s, some p⟩)
    (hleaves : p.leavesQty = p.quantity)
    (hlimit : p.limitPrice = some price) :
    filled (PriceTime.placeLimit cfg s p.num p.clientId p.clientOrderId p.symbol p.side
      price p.quantity t).2 = min p.quantity.toNat (s.across cfg p.side (some price)) := by
  have hfilled := sweep_filled cfg p (s.resting + 1) s
  have hleft := sweep_left hm (Nat.lt_succ_self s.resting)
  rw [hlimit] at hleft
  rw [hleaves] at hfilled hleft
  rw [PriceTime.placeLimit]
  simp only [matchAll_eq_sweep hleaves hlimit]
  generalize p.sweep cfg (s.resting + 1) s = r at hfilled hleft ⊢
  obtain ⟨r, left, fills⟩ := r
  dsimp only at hfilled hleft ⊢
  split_ifs
  · simp only [filled_append, filled_cons, filled_nil, OutputEvent.fillQty]
    omega
  · simp only [filled_append, filled_cons, filled_nil, OutputEvent.fillQty]
    omega
  · change filled fills = _
    omega

theorem across_number
    (s : State) (c : UInt64) (side : Side) (limitPrice : Option UInt64) :
    (s.account c).number.across cfg side limitPrice = s.across cfg side limitPrice := rfl

/-- A market order takes what there is. -/
theorem filled_place_market
    (clientId clientOrderId : UInt64) (symbol : Symbol) (side : Side)
    (limitPrice : Option UInt64) (quantity : UInt64)
    (hc : Consistent cfg s) :
    filled (place cfg s clientId clientOrderId symbol side .market limitPrice quantity).2 =
      if openOrders s.clients clientId < 1000 then min quantity.toNat (s.across cfg side none)
      else 0 := by
  rcases place_cases cfg s clientId clientOrderId symbol side quantity .market limitPrice with
    ⟨hqty, hp⟩ | ⟨hlimit, hp⟩ |
      ⟨hqty, hlimit, ⟨htype, -⟩ | ⟨-, hp⟩ | ⟨price, t, htype, -⟩⟩
  · rw [hp, hqty]
    split_ifs
    · exact (Nat.zero_min _).symm
    · rfl
  · have hfull : ¬ openOrders s.clients clientId < 1000 := fun h => not_limit_iff.mpr h hlimit
    rw [hp, if_neg hfull]
    rfl
  · exact absurd htype (by simp)
  · have hm := started_ok hc hqty hlimit clientOrderId symbol side none
    have hfilled := filled_placeMarket hm rfl rfl
    rw [across_number] at hfilled
    rw [hp, if_pos (not_limit_iff.mp hlimit)]
    exact hfilled
  · exact absurd htype (by simp)

/-- A limit order that does not rest is filled in whole or not at all. -/
theorem filled_place_limit
    {clientId quantity : UInt64} {side : Side}
    (clientOrderId : UInt64) (symbol : Symbol)
    (hc : Consistent cfg s) (h : ¬ Rests cfg s clientId side price quantity) :
    filled (place cfg s clientId clientOrderId symbol side .limit (some price) quantity).2 =
        quantity.toNat ∨
      filled (place cfg s clientId clientOrderId symbol side .limit (some price) quantity).2 =
        0 := by
  rcases place_cases cfg s clientId clientOrderId symbol side quantity .limit (some price) with
    ⟨-, hp⟩ | ⟨-, hp⟩ |
      ⟨hqty, hlimit, ⟨-, -, hp⟩ | ⟨htype, -⟩ | ⟨price', t, -, hprice, htick, hp⟩⟩
  · exact Or.inr (by rw [hp]; rfl)
  · exact Or.inr (by rw [hp]; rfl)
  · exact Or.inr (by rw [hp]; rfl)
  · exact absurd htype (by simp)
  · obtain rfl := Option.some.inj hprice
    have hm := started_ok hc hqty hlimit clientOrderId symbol side (some price)
    have hfilled : filled (place cfg s clientId clientOrderId symbol side .limit (some price)
        quantity).2 = min quantity.toNat (s.across cfg side (some price)) := by
      have hfilled := filled_placeLimit (t := t) hm rfl rfl
      rw [across_number] at hfilled
      rw [hp]
      exact hfilled
    rw [hfilled]
    by_cases hleft : s.across cfg side (some price) < quantity.toNat
    · -- there is no room, so nothing is hit
      right
      have hmiss : ¬ ∃ k y, y ∈ s.queue k ∧ hits cfg side (some price) y.order = true := by
        rintro hhit
        exact h ⟨hqty, not_limit_iff.mp hlimit, by rw [htick]; rfl, hleft, Or.inr hhit⟩
      have hzero : s.across cfg side (some price) = 0 := by
        rw [State.across, weigh]
        refine Finset.sum_eq_zero fun k _ => List.sum_eq_zero_iff.mpr fun n hn => ?_
        obtain ⟨x, hx, rfl⟩ := List.mem_map.mp hn
        rw [hitQty, if_neg fun hhit => hmiss ⟨k, x, hx, hhit⟩]
      rw [hzero, Nat.min_zero]
    · exact Or.inl (Nat.min_eq_left (Nat.le_of_not_lt hleft))

end Placements

end PriceTime
end LmaxEngine
