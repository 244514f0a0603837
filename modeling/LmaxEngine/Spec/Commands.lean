import LmaxEngine.Spec.Steps

/-!
# Commands as trails of steps

Handling a command takes the plain book along a trail of steps that emits the
events of the command.  So every state of a run is consistent, and an invariant
of the steps is an invariant of runs.
-/

namespace LmaxEngine
namespace PriceTime

open Queues Transition

/-- A step of a placement: one with a placement under way, or one that leaves
the queues as they are. -/
def Trade (cfg : Config) (m : Moment) (es : List OutputEvent) (m' : Moment) : Prop :=
  Step cfg m es m' ∧ (m.active ≠ none ∨ m'.state.queue = m.state.queue)

theorem trade_reject
    {cfg : Config} {m : Moment} {ev : OutputEvent}
    (hev : IsRejection ev) :
    Trade cfg m [ev] ⟨m.state, none⟩ :=
  ⟨Step.reject hev, Or.inr rfl⟩

/-- A step with a placement under way. -/
theorem Step.trade
    {cfg : Config} {s : State} {p : Placement} {es : List OutputEvent} {m : Moment}
    (h : Step cfg ⟨s, some p⟩ es m) :
    Trade cfg ⟨s, some p⟩ es m :=
  ⟨h, Or.inl (by simp)⟩

section Matching

variable (cfg : Config)

/-- The matching loop for a placement. -/
def Placement.sweep (p : Placement) (fuel : Nat) (s : State) :
    State × UInt64 × List OutputEvent :=
  matchLoop cfg p.num p.clientId p.symbol p.side p.limitPrice fuel s p.leavesQty

variable {cfg} {p : Placement} {fuel : Nat} {s : State} {t : Nat} {x : Entry}

theorem sweep_used_up
    (h : p.leavesQty = 0) :
    p.sweep cfg (fuel + 1) s = (s, p.leavesQty, []) := by
  simp [Placement.sweep, matchLoop, h]

theorem sweep_empty
    (h : s.best p.side.opposite = none) :
    p.sweep cfg (fuel + 1) s = (s, p.leavesQty, []) := by
  by_cases h0 : p.leavesQty = 0
  · exact sweep_used_up h0
  · simp [Placement.sweep, matchLoop, h0, h]

theorem sweep_not_crossing
    (h : s.best p.side.opposite = some (t, x))
    (hc : crossesTick cfg p.side p.limitPrice t = false) :
    p.sweep cfg (fuel + 1) s = (s, p.leavesQty, []) := by
  by_cases h0 : p.leavesQty = 0
  · exact sweep_used_up h0
  · simp [Placement.sweep, matchLoop, h0, h, hc]

theorem min_eq_left_of_lt
    {a b : UInt64} (h : a < b) :
    min a b = a :=
  if_pos (UInt64.le_of_lt h)

theorem min_eq_right_of_le
    {a b : UInt64} (h : b ≤ a) :
    min a b = b := by
  change (if a ≤ b then a else b) = b
  split_ifs with hab
  · exact UInt64.le_antisymm hab h
  · rfl

/-- A round that fills the best entry in whole. -/
theorem sweep_whole
    (h0 : p.leavesQty ≠ 0)
    (h : s.best p.side.opposite = some (t, x))
    (hc : crossesTick cfg p.side p.limitPrice t = true)
    (hle : x.order.leavesQty ≤ p.leavesQty) :
    p.sweep cfg (fuel + 1) s =
      (((p.less x.order.leavesQty).sweep cfg fuel (s.leave (p.side.opposite, t) x)).1,
        ((p.less x.order.leavesQty).sweep cfg fuel (s.leave (p.side.opposite, t) x)).2.1,
        p.fill x.order x.order.leavesQty ::
          ((p.less x.order.leavesQty).sweep cfg fuel
            (s.leave (p.side.opposite, t) x)).2.2) := by
  simp [Placement.sweep, matchLoop, h0, h, hc, min_eq_right_of_le hle,
    Placement.less, Placement.fill]

/-- A round that fills the best entry in part. -/
theorem sweep_part
    (h0 : p.leavesQty ≠ 0)
    (h : s.best p.side.opposite = some (t, x))
    (hc : crossesTick cfg p.side p.limitPrice t = true)
    (hlt : p.leavesQty < x.order.leavesQty) :
    p.sweep cfg (fuel + 1) s =
      (s.change (p.side.opposite, t) x (filledBy p.leavesQty), 0,
        [p.fill x.order p.leavesQty]) := by
  have hne : p.leavesQty ≠ x.order.leavesQty := UInt64.ne_of_lt hlt
  simp [Placement.sweep, matchLoop, h0, h, hc, min_eq_left_of_lt hlt, hne,
    Placement.fill]

/-- What a round of the matching loop can do. -/
theorem sweep_cases
    (cfg : Config) (p : Placement) (s : State) :
    (p.leavesQty = 0 ∨ Swept cfg s p) ∨
      ∃ t x, p.leavesQty ≠ 0 ∧ s.best p.side.opposite = some (t, x) ∧
        crossesTick cfg p.side p.limitPrice t = true ∧
        (x.order.leavesQty ≤ p.leavesQty ∨ p.leavesQty < x.order.leavesQty) := by
  by_cases h0 : p.leavesQty = 0
  · exact Or.inl (Or.inl h0)
  · cases hb : s.best p.side.opposite with
    | none =>
        left; right
        intro t x h
        rw [hb] at h
        exact absurd h (by simp)
    | some tx =>
        obtain ⟨t, x⟩ := tx
        cases hc : crossesTick cfg p.side p.limitPrice t with
        | false =>
            left; right
            intro t' x' h
            rw [hb] at h
            obtain ⟨rfl, rfl⟩ := Prod.mk.inj (Option.some.inj h)
            exact hc
        | true =>
            right
            refine ⟨t, x, h0, rfl, hc, ?_⟩
            rcases UInt64.le_or_lt x.order.leavesQty p.leavesQty with h | h
            · exact Or.inl h
            · exact Or.inr h

theorem sweep_stop
    (h : p.leavesQty = 0 ∨ Swept cfg s p) :
    p.sweep cfg (fuel + 1) s = (s, p.leavesQty, []) := by
  rcases h with h | h
  · exact sweep_used_up h
  · cases hb : s.best p.side.opposite with
    | none => exact sweep_empty hb
    | some tx => exact sweep_not_crossing hb (h hb)

/-- Matching is a trail of fills. -/
theorem sweep_trades
    (fuel : Nat) (hm : MomentOk cfg ⟨s, some p⟩) :
    Trail (Trade cfg) ⟨s, some p⟩ (p.sweep cfg fuel s).2.2
      ⟨(p.sweep cfg fuel s).1,
        some { p with leavesQty := (p.sweep cfg fuel s).2.1 }⟩ := by
  induction fuel generalizing p s with
  | zero => exact Trail.refl _
  | succ fuel ih =>
      rcases sweep_cases cfg p s with hstop | ⟨t, x, h0, hb, hc, hle | hlt⟩
      · rw [sweep_stop hstop]
        exact Trail.refl _
      · have hstep : Step cfg ⟨s, some p⟩ _ _ := Step.fillWhole hb hc hle
        rw [sweep_whole h0 hb hc hle]
        exact Trail.head hstep.trade (ih (hstep.momentOk hm))
      · have hstep : Step cfg ⟨s, some p⟩ _ _ := Step.fillPart hb hc h0 hlt
        have hless : p.less p.leavesQty = { p with leavesQty := 0 } := by
          simp [Placement.less]
        rw [sweep_part h0 hb hc hlt]
        rw [hless] at hstep
        exact Trail.single hstep.trade

theorem sweep_trail
    (fuel : Nat) (hm : MomentOk cfg ⟨s, some p⟩) :
    Trail (Step cfg) ⟨s, some p⟩ (p.sweep cfg fuel s).2.2
      ⟨(p.sweep cfg fuel s).1,
        some { p with leavesQty := (p.sweep cfg fuel s).2.1 }⟩ :=
  (sweep_trades fuel hm).mono And.left

/-- With enough rounds matching stops because the quantity is used up or
nothing is left to cross. -/
theorem sweep_swept
    (hm : MomentOk cfg ⟨s, some p⟩) (hfuel : s.resting < fuel) :
    (p.sweep cfg fuel s).2.1 = 0 ∨ Swept cfg (p.sweep cfg fuel s).1 p := by
  induction fuel generalizing p s with
  | zero => omega
  | succ fuel ih =>
      rcases sweep_cases cfg p s with hstop | ⟨t, x, h0, hb, hc, hle | hlt⟩
      · rw [sweep_stop hstop]
        exact hstop
      · have hstep : Step cfg ⟨s, some p⟩ _ _ := Step.fillWhole hb hc hle
        have hrest : (s.leave (p.side.opposite, t) x).resting + 1 = s.resting :=
          hm.consistent.resting_leave (State.best_mem hb)
        rw [sweep_whole h0 hb hc hle]
        exact ih (p := p.less x.order.leavesQty) (hstep.momentOk hm) (by omega)
      · rw [sweep_part h0 hb hc hlt]
        exact Or.inl rfl

end Matching

section Handlers

variable {cfg : Config} {s : State}

/-- Matching the whole quantity of a placement is its sweep. -/
theorem matchAll_eq_sweep
    {p : Placement} {limit : Option UInt64}
    (hleaves : p.leavesQty = p.quantity) (hlimit : p.limitPrice = limit) :
    matchAll cfg p.num p.clientId p.symbol p.side limit s p.quantity =
      p.sweep cfg (s.resting + 1) s := by
  rw [Placement.sweep, hlimit, hleaves]
  rfl

/-- The trail of a limit order from the start of matching. -/
theorem placeLimit_trades
    {p : Placement} {price : UInt64} {t : Nat}
    (hm : MomentOk cfg ⟨s, some p⟩)
    (hleaves : p.leavesQty = p.quantity)
    (hlimit : p.limitPrice = some price) (htick : tickOf cfg price = some t) :
    Trail (Trade cfg) ⟨s, some p⟩
      (placeLimit cfg s p.num p.clientId p.clientOrderId p.symbol p.side
        price p.quantity t).2
      ⟨(placeLimit cfg s p.num p.clientId p.clientOrderId p.symbol p.side
        price p.quantity t).1, none⟩ := by
  have htrail := sweep_trades (s.resting + 1) hm
  have hend := sweep_swept hm (Nat.lt_succ_self s.resting)
  have hok := htrail.preserves (fun hs hstep => hstep.1.momentOk hs) hm
  unfold placeLimit
  simp only [matchAll_eq_sweep hleaves hlimit]
  generalize p.sweep cfg (s.resting + 1) s = r at htrail hend hok ⊢
  obtain ⟨s', left, fills⟩ := r
  dsimp only at htrail hend hok ⊢
  split_ifs with hpos hfull
  · exact htrail.tail (trade_reject trivial)
  · have hne : left ≠ 0 := UInt64.pos_iff_ne_zero.mp hpos
    have hroom : s'.resting < cfg.capacity :=
      lt_of_le_of_ne hok.consistent.room hfull
    have hrest := Step.rest (p := { p with leavesQty := left })
      hlimit htick hpos (hend.resolve_left hne) hroom
    exact htrail.tail hrest.trade
  · simpa using htrail.tail Step.finish.trade

/-- The trail of a market order from the start of matching. -/
theorem placeMarket_trades
    {p : Placement}
    (hm : MomentOk cfg ⟨s, some p⟩)
    (hleaves : p.leavesQty = p.quantity)
    (hlimit : p.limitPrice = none) :
    Trail (Trade cfg) ⟨s, some p⟩
      (placeMarket cfg s p.num p.clientId p.symbol p.side p.quantity).2
      ⟨(placeMarket cfg s p.num p.clientId p.symbol p.side p.quantity).1, none⟩ := by
  have htrail := sweep_trades (s.resting + 1) hm
  unfold placeMarket
  simp only [matchAll_eq_sweep hleaves hlimit]
  generalize p.sweep cfg (s.resting + 1) s = r at htrail ⊢
  obtain ⟨s', left, fills⟩ := r
  dsimp only at htrail ⊢
  split_ifs with hpos
  · exact htrail.tail (Step.leftover (p := { p with leavesQty := left }) hlimit).trade
  · simpa using htrail.tail Step.finish.trade

theorem not_limit_iff
    {c : UInt64} :
    ¬ maxOpenOrders ≤ (accountOf s.clients c).openOrders ↔ openOrders s.clients c < 1000 := by
  have hmax : maxOpenOrders.toNat = 1000 := rfl
  rw [UInt32.le_iff_toNat_le, hmax, openOrders, Nat.not_le]

/-- The steps that start a placement. -/
theorem start_trades
    {p : Placement}
    (hnum : p.num = s.nextNum)
    (hlimit : ¬ maxOpenOrders ≤ (accountOf s.clients p.clientId).openOrders)
    (hqty : p.quantity ≠ 0) (hleaves : p.leavesQty = p.quantity) :
    Trail (Trade cfg) ⟨s, none⟩ [] ⟨(s.account p.clientId).number, some p⟩ := by
  have hopen : openOrders (s.account p.clientId).clients p.clientId < 1000 := by
    rw [openOrders, accountOf_account]
    exact not_limit_iff.mp hlimit
  have haccount : Trade cfg ⟨s, none⟩ [] ⟨s.account p.clientId, none⟩ :=
    ⟨Step.account p.clientId, Or.inr rfl⟩
  have hnumber : Trade cfg ⟨s.account p.clientId, none⟩ []
      ⟨(s.account p.clientId).number, some p⟩ :=
    ⟨Step.number hnum hopen hqty hleaves, Or.inr rfl⟩
  exact Trail.head haccount (Trail.single hnumber)

/-- The placement that `place` starts. -/
def State.placement
    (s : State) (clientId clientOrderId : UInt64) (symbol : Symbol) (side : Side)
    (limitPrice : Option UInt64) (quantity : UInt64) : Placement where
  num := s.nextNum
  clientId := clientId
  clientOrderId := clientOrderId
  symbol := symbol
  side := side
  limitPrice := limitPrice
  quantity := quantity
  leavesQty := quantity

/-- A placement that passes the checks of its quantity and its client. -/
theorem started_ok
    {clientId quantity : UInt64}
    (hc : Consistent cfg s) (hqty : quantity ≠ 0)
    (hlimit : ¬ maxOpenOrders ≤ (accountOf s.clients clientId).openOrders)
    (clientOrderId : UInt64) (symbol : Symbol) (side : Side) (limitPrice : Option UInt64) :
    MomentOk cfg ⟨(s.account clientId).number,
      some (s.placement clientId clientOrderId symbol side limitPrice quantity)⟩ :=
  (start_trades (p := s.placement clientId clientOrderId symbol side limitPrice quantity)
    rfl hlimit hqty rfl).preserves (fun hs (hstep : Trade cfg _ _ _) => hstep.1.momentOk hs)
    hc.moment

/-- A placement is a trail of trades. -/
theorem place_trades
    (h : Consistent cfg s)
    (clientId clientOrderId : UInt64) (symbol : Symbol) (side : Side)
    (orderType : OrderType) (price : Option UInt64) (quantity : UInt64) :
    Trail (Trade cfg) ⟨s, none⟩
      (place cfg s clientId clientOrderId symbol side orderType price quantity).2
      ⟨(place cfg s clientId clientOrderId symbol side orderType price quantity).1,
        none⟩ := by
  have hstart : quantity ≠ 0 → ¬ maxOpenOrders ≤ (accountOf s.clients clientId).openOrders →
      ∀ limit, Trail (Trade cfg) ⟨s, none⟩ [] ⟨(s.account clientId).number,
        some (s.placement clientId clientOrderId symbol side limit quantity)⟩ :=
    fun hqty hlimit limit => start_trades
      (p := s.placement clientId clientOrderId symbol side limit quantity) rfl hlimit hqty rfl
  rcases place_cases cfg s clientId clientOrderId symbol side quantity orderType price with
    ⟨-, hp⟩ | ⟨-, hp⟩ | ⟨hqty, hlimit, ⟨-, -, hp⟩ | ⟨-, hp⟩ | ⟨limit, t, -, -, htick, hp⟩⟩
  · rw [hp]
    exact Trail.single (trade_reject trivial)
  · rw [hp]
    have haccount : Trade cfg ⟨s, none⟩ [] ⟨s.account clientId, none⟩ :=
      ⟨Step.account clientId, Or.inr rfl⟩
    exact Trail.head haccount (Trail.single (trade_reject trivial))
  · rw [hp]
    exact (hstart hqty hlimit none).tail (trade_reject trivial)
  · rw [hp]
    exact (hstart hqty hlimit none).trans
      (placeMarket_trades (started_ok h hqty hlimit _ _ _ _) rfl rfl)
  · rw [hp]
    exact (hstart hqty hlimit (some limit)).trans
      (placeLimit_trades (started_ok h hqty hlimit _ _ _ _) rfl rfl htick)

/-- The entry that the index names stands in its queue under its key. -/
theorem Consistent.find
    {key : Key} {l : Locator}
    (h : Consistent cfg s) (hl : s.index key = some l) :
    ∃ x, s.find l = some x ∧ x ∈ s.queue l.level ∧ x.order.key = key ∧
      x.locator l.level = l ∧ x.order.orderId = UInt64.ofNat l.num := by
  obtain ⟨x, hx, hnum, hkey⟩ := h.sound hl
  have hfind : ∃ y, s.find l = some y := by
    cases hf : s.find l with
    | some y => exact ⟨y, rfl⟩
    | none =>
        have := List.find?_eq_none.mp hf x hx
        exact absurd hnum (by simpa using this)
  obtain ⟨y, hy⟩ := hfind
  have hymem := List.mem_of_find?_eq_some hy
  have hynum : y.num = l.num := by simpa using List.find?_some hy
  obtain rfl := h.distinct.eq hymem hx (hynum.trans hnum.symm)
  refine ⟨y, hy, hx, hkey, ?_, ?_⟩
  · obtain ⟨num, tick, side⟩ := l
    obtain rfl : y.num = num := hnum
    rfl
  · rw [(h.entry hx).id, hnum]

/-- What a cancellation does. -/
theorem cancel_outcomes
    (h : Consistent cfg s) (clientId clientOrderId : UInt64) :
    (s.index (clientId, clientOrderId) = none ∧
        cancel s clientId clientOrderId = (s, [.cancelRejected clientOrderId clientId])) ∨
      ∃ k x, x ∈ s.queue k ∧ x.order.key = (clientId, clientOrderId) ∧
        s.index x.order.key = some (x.locator k) ∧
        cancel s clientId clientOrderId =
          (s.leave k x,
            [.orderCancelled x.order.orderId x.order.clientId x.order.leavesQty]) := by
  cases hl : s.index (clientId, clientOrderId) with
  | none => exact Or.inl ⟨rfl, by simp only [cancel, hl]⟩
  | some l =>
      obtain ⟨x, hfind, hx, hkey, hloc, hid⟩ := h.find hl
      have hclient : x.order.clientId = clientId := congrArg Prod.fst hkey
      refine Or.inr ⟨l.level, x, hx, hkey, by rw [hkey, hl, hloc], ?_⟩
      simp only [cancel, hl, hfind, hclient, ne_eq, not_true_eq_false, if_false, hid]

/-- The arena never refuses an order that has just given up its slot. -/
theorem resting_leave_ne_capacity
    {k : Level} {x : Entry}
    (h : Consistent cfg s) (hx : x ∈ s.queue k) :
    (s.leave k x).resting ≠ cfg.capacity := by
  have := h.resting_leave hx
  have := h.room
  omega

/-- What a modification does with the entry that it names. -/
inductive Modified (cfg : Config) (s : State) (k : Level) (x : Entry)
    (price target : UInt64) : State × List OutputEvent → Prop
  | refused
      (hzero : target = 0) :
      Modified cfg s k x price target
        (s, [.modifyRejected x.order.orderId x.order.clientId])
  | kept
      (hpos : target ≠ 0) (hprice : price = x.order.price)
      (hle : target ≤ x.order.leavesQty) :
      Modified cfg s k x price target
        (s.change k x (reducedTo target),
          [.orderModified x.order.orderId x.order.clientId price target])
  | evicted
      (hpos : target ≠ 0) (hmoved : ¬ (price = x.order.price ∧ target ≤ x.order.leavesQty))
      (htick : tickOf cfg price = none) :
      Modified cfg s k x price target
        (s.leave k x, [.modifyRejected x.order.orderId x.order.clientId])
  | moved {t : Nat}
      (hpos : target ≠ 0) (hmoved : ¬ (price = x.order.price ∧ target ≤ x.order.leavesQty))
      (htick : tickOf cfg price = some t) :
      Modified cfg s k x price target
        (s.move k x (x.order.side, t) (requeuedAs price target x.order),
          [.orderModified x.order.orderId x.order.clientId price target])

/-- What a modification does. -/
theorem modify_outcomes
    (h : Consistent cfg s) (clientId clientOrderId : UInt64)
    (newPrice newQty : Option UInt64) :
    (s.index (clientId, clientOrderId) = none ∧
        modify cfg s clientId clientOrderId newPrice newQty =
          (s, [.modifyRejected clientOrderId clientId])) ∨
      ∃ k x, x ∈ s.queue k ∧ x.order.key = (clientId, clientOrderId) ∧
        s.index x.order.key = some (x.locator k) ∧
        Modified cfg s k x (newPrice.getD x.order.price) (newQty.getD x.order.leavesQty)
          (modify cfg s clientId clientOrderId newPrice newQty) := by
  cases hl : s.index (clientId, clientOrderId) with
  | none => exact Or.inl ⟨rfl, by simp only [modify, hl]⟩
  | some l =>
      obtain ⟨x, hfind, hx, hkey, hloc, hid⟩ := h.find hl
      have hclient : x.order.clientId = clientId := congrArg Prod.fst hkey
      refine Or.inr ⟨l.level, x, hx, hkey, by rw [hkey, hl, hloc], ?_⟩
      rw [modify]
      simp only [hl, hfind, hclient, ne_eq, not_true_eq_false, if_false, ← hid]
      rw [← hclient]
      split_ifs with hzero hkeep
      · exact Modified.refused hzero
      · exact Modified.kept hzero hkeep.1 hkeep.2
      · rw [modifyRequeue]
        cases htick : tickOf cfg (newPrice.getD x.order.price) with
        | none =>
            simp only [← hid]
            exact Modified.evicted hzero hkeep htick
        | some t =>
            simp only [if_neg (resting_leave_ne_capacity h hx), ← hid]
            exact Modified.moved hzero hkeep htick

theorem cancel_trail
    (h : Consistent cfg s) (clientId clientOrderId : UInt64) :
    Trail (Step cfg) ⟨s, none⟩ (cancel s clientId clientOrderId).2
      ⟨(cancel s clientId clientOrderId).1, none⟩ := by
  rcases cancel_outcomes h clientId clientOrderId with ⟨-, he⟩ | ⟨k, x, hx, -, hindex, he⟩
  · rw [he]
    exact Trail.single (Step.reject trivial)
  · rw [he]
    exact Trail.single (Step.cancel hx hindex)

theorem modify_trail
    (h : Consistent cfg s) (clientId clientOrderId : UInt64)
    (newPrice newQty : Option UInt64) :
    Trail (Step cfg) ⟨s, none⟩ (modify cfg s clientId clientOrderId newPrice newQty).2
      ⟨(modify cfg s clientId clientOrderId newPrice newQty).1, none⟩ := by
  rcases modify_outcomes h clientId clientOrderId newPrice newQty with
    ⟨-, he⟩ | ⟨k, x, hx, -, hindex, hout⟩
  · rw [he]
    exact Trail.single (Step.reject trivial)
  · generalize modify cfg s clientId clientOrderId newPrice newQty = r at hout ⊢
    cases hout with
    | refused => exact Trail.single (Step.reject trivial)
    | kept hpos hprice hle =>
        rw [hprice]
        exact Trail.single (Step.reduce hx hindex hpos hle)
    | evicted => exact Trail.single (Step.evict hx hindex)
    | moved hpos hmoved htick =>
        exact Trail.single (Step.move hx hindex hpos htick hmoved)

/-- **Handling a command is a trail of steps.** -/
theorem handle_trail
    (h : Consistent cfg s) (c : Command) :
    Trail (Step cfg) ⟨s, none⟩ (handle cfg s c).2 ⟨(handle cfg s c).1, none⟩ := by
  cases c with
  | place clientId clientOrderId symbol side orderType price quantity tif =>
      exact (place_trades h clientId clientOrderId symbol side orderType price quantity).mono
        And.left
  | cancel clientId clientOrderId => exact cancel_trail h clientId clientOrderId
  | modify clientId clientOrderId newPrice newQty =>
      exact modify_trail h clientId clientOrderId newPrice newQty

theorem handle_consistent
    (h : Consistent cfg s) (c : Command) :
    Consistent cfg (handle cfg s c).1 :=
  ((handle_trail h c).preserves (fun hs hstep => hstep.momentOk hs) h.moment).consistent

/-- A run with one more command. -/
theorem run_snoc
    (s : State) (cs : List Command) (c : Command) :
    (run cfg s (cs ++ [c])).1 = (handle cfg (run cfg s cs).1 c).1 := by
  induction cs generalizing s with
  | nil => rfl
  | cons d cs ih => exact ih (handle cfg s d).1

/-- A run is a trail of steps with the events of its commands in order. -/
theorem run_trail
    (h : Consistent cfg s) (cs : List Command) :
    Trail (Step cfg) ⟨s, none⟩ (run cfg s cs).2.flatten ⟨(run cfg s cs).1, none⟩ := by
  induction cs generalizing s with
  | nil => exact Trail.refl _
  | cons c cs ih =>
      exact (handle_trail h c).trans (ih (handle_consistent h c))

theorem run_consistent
    (h : Consistent cfg s) (cs : List Command) :
    Consistent cfg (run cfg s cs).1 :=
  ((run_trail h cs).preserves (fun hs hstep => hstep.momentOk hs) h.moment).consistent

end Handlers

section Numbers

variable {cfg : Config} {s : State}

theorem sweep_nextNum
    (p : Placement) (fuel : Nat) (s : State) :
    (p.sweep cfg fuel s).1.nextNum = s.nextNum := by
  induction fuel generalizing p s with
  | zero => rfl
  | succ fuel ih =>
      rcases sweep_cases cfg p s with hstop | ⟨t, x, h0, hb, hc, hle | hlt⟩
      · rw [sweep_stop hstop]
      · rw [sweep_whole h0 hb hc hle]
        exact ih (p.less x.order.leavesQty) _
      · rw [sweep_part h0 hb hc hlt]
        rfl

theorem matchAll_nextNum
    (num : Nat) (c : UInt64) (symbol : Symbol) (side : Side) (limit : Option UInt64)
    (s : State) (qty : UInt64) :
    (matchAll cfg num c symbol side limit s qty).1.nextNum = s.nextNum :=
  sweep_nextNum
    { num := num, clientId := c, clientOrderId := 0, symbol := symbol, side := side,
      limitPrice := limit, quantity := qty, leavesQty := qty } _ s

theorem placeMarket_nextNum
    (num : Nat) (c : UInt64) (symbol : Symbol) (side : Side) (s : State) (qty : UInt64) :
    (PriceTime.placeMarket cfg s num c symbol side qty).1.nextNum = s.nextNum := by
  unfold PriceTime.placeMarket
  dsimp only
  split_ifs <;> exact matchAll_nextNum _ _ _ _ _ _ _

theorem placeLimit_nextNum
    (num : Nat) (c k : UInt64) (symbol : Symbol) (side : Side) (price : UInt64) (t : Nat)
    (s : State) (qty : UInt64) :
    (PriceTime.placeLimit cfg s num c k symbol side price qty t).1.nextNum = s.nextNum := by
  unfold PriceTime.placeLimit
  dsimp only
  split_ifs <;> exact matchAll_nextNum _ _ _ _ _ _ _

theorem cancel_nextNum
    (s : State) (c k : UInt64) :
    (cancel s c k).1.nextNum = s.nextNum := by
  simp only [cancel]
  split
  · rfl
  · split
    · rfl
    · split_ifs <;> rfl

theorem modify_nextNum
    (s : State) (c k : UInt64) (newPrice newQty : Option UInt64) :
    (PriceTime.modify cfg s c k newPrice newQty).1.nextNum = s.nextNum := by
  simp only [PriceTime.modify]
  split
  · rfl
  · split
    · rfl
    · split_ifs
      · rfl
      · rfl
      · rfl
      · unfold PriceTime.modifyRequeue
        dsimp only
        split
        · rfl
        · split_ifs <;> rfl

/-- A placement takes at most one number, and no other command takes one. -/
theorem handle_nextNum_le
    (cfg : Config) (s : State) (c : Command) :
    (handle cfg s c).1.nextNum ≤ s.nextNum + if c.isPlace then 1 else 0 := by
  cases c with
  | place clientId clientOrderId symbol side orderType price quantity tif =>
      have hs : ((s.account clientId).number).nextNum = s.nextNum + 1 := rfl
      simp only [handle, Command.isPlace, if_true]
      rcases place_cases cfg s clientId clientOrderId symbol side quantity orderType price with
        ⟨-, hp⟩ | ⟨-, hp⟩ | ⟨-, -, ⟨-, -, hp⟩ | ⟨-, hp⟩ | ⟨limit, t, -, -, -, hp⟩⟩
      · rw [hp]
        exact Nat.le_succ _
      · rw [hp]
        exact Nat.le_succ _
      · rw [hp]
        exact hs.le
      · rw [hp, placeMarket_nextNum, hs]
      · rw [hp, placeLimit_nextNum, hs]
  | cancel clientId clientOrderId => exact (cancel_nextNum s clientId clientOrderId).le
  | modify clientId clientOrderId newPrice newQty =>
      exact (modify_nextNum s clientId clientOrderId newPrice newQty).le

theorem run_nextNum_le
    (cfg : Config) (s : State) (cs : List Command) :
    (run cfg s cs).1.nextNum ≤ s.nextNum + cs.countP Command.isPlace := by
  induction cs generalizing s with
  | nil => exact Nat.le_refl _
  | cons c cs ih =>
      have h1 := ih (handle cfg s c).1
      have h2 := handle_nextNum_le cfg s c
      simp only [run, List.countP_cons]
      omega

end Numbers

end PriceTime
end LmaxEngine
