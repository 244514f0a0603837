import LmaxEngine.Results.Faults
import LmaxEngine.Results.Frame
import LmaxEngine.Spec.TimeInForce

/-!
# Time in force

The dispatch hands all fields of a placement to its handler but the time in
force.  So an order is matched and rests the same way under every time in force.
What that means is said here for each: whether the order rests, and whether it
is filled in part.
-/

namespace LmaxEngine

open Checked Queues Arena PriceTime

/-- A slot holds an order of the placement, and did not hold it before. -/
def Engine.LeavesResting
    (e e' : Engine) (clientId clientOrderId : UInt64) (side : Side) : Prop :=
  ∃ i o, e'.book.arena.orderAt i = some o ∧ e.book.arena.orderAt i ≠ some o ∧
    o.orderId = e.nextOrderId ∧ o.key = (clientId, clientOrderId) ∧ o.side = side

/-- Nothing of an order that is immediate or cancelled rests, one that is to be
filled or killed is filled in whole or changes nothing, and what rests is a limit
order that is good till cancelled. -/
def Engine.RespectsTimeInForce (e e' : Engine) (es : List OutputEvent) : Command → Prop
  | .place clientId clientOrderId _ side orderType _ quantity timeInForce =>
      (timeInForce = .ioc → ¬ e.LeavesResting e' clientId clientOrderId side) ∧
      (timeInForce = .fok → filled es = quantity.toNat ∨
        ((∀ ev, ev ∈ es → ev.fillQty = 0 ∧ ev.IsQuiet) ∧ e'.book = e.book)) ∧
      (e.LeavesResting e' clientId clientOrderId side →
        orderType = .limit ∧ timeInForce = .gtc)
  | _ => True

/-- The quantity that the orders against a side hold together. -/
def Engine.against (e : Engine) (side : Side) : Nat :=
  ∑ i ∈ Finset.range e.book.arena.orderStore.size,
    (e.book.arena.orderAt i).elim 0
      (fun o => if o.side = side.opposite then o.leavesQty.toNat else 0)

/-- A limit order that rests and is not good till cancelled, or a market order
that is to be filled or killed and finds some of its quantity only. -/
def Engine.IgnoresTimeInForce (cfg : Config) (e : Engine) : Command → Prop
  | .place clientId _ _ side .limit (some price) quantity timeInForce =>
      timeInForce ≠ .gtc ∧ e.Rests cfg clientId side price quantity
  | .place clientId _ _ side .market _ quantity timeInForce =>
      timeInForce = .fok ∧ (accountOf e.clients clientId).openOrders < maxOpenOrders ∧
        0 < e.against side ∧ e.against side < quantity.toNat
  | _ => False

section Handlers

variable {β : Build} {cfg : Config} {e e' : Engine} {es : List OutputEvent}
variable {s : State} {loc : Nat → Nat} {free : List Nat}

/-- Every round of the loop that changes the engine reports a fill. -/
theorem matchLoop_quiet
    {aggressor clientId qty left : UInt64} {symbol : Symbol} {side : Side}
    {limitPrice : Option UInt64} {fuel : Nat}
    (h : LmaxEngine.matchLoop β aggressor clientId symbol side limitPrice fuel e qty =
      .ok (e', left, es))
    (hquiet : ∀ ev, ev ∈ es → ev.IsQuiet) :
    e' = e := by
  cases fuel with
  | zero => exact absurd h (by simp [LmaxEngine.matchLoop])
  | succ fuel =>
      rcases matchLoop_cases h with ⟨rfl, -, -⟩ |
        ⟨t, pl, i, slot, resting, prev, next, -, -, -, -,
          ⟨book, clients, rest, -, -, -, rfl⟩ | ⟨-, rfl⟩⟩
      · rfl
      · exact (hquiet _ List.mem_cons_self).elim
      · exact (hquiet _ List.mem_cons_self).elim

/-- The book is as before when an order finds no slot. -/
theorem addOrder_error
    {side : Side} {t : Nat} {o o' : Order} {book : OrderBook}
    (hβ : β.Wrapping)
    (h : Engine.Refines cfg e s loc free) (ht : t < numTicks)
    (hadd : e.book.addOrder β side t o = .ok (.error o', book)) :
    book = e.book := by
  cases free with
  | nil =>
      rw [h.book.addOrder_full ht] at hadd
      exact (Prod.mk.inj (Except.ok.inj hadd)).2.symm
  | cons i fr =>
      obtain ⟨generation, b', hadd', -⟩ := h.book.addOrder side o hβ.counter ht
      rw [addQty_eq (hβ.fits _ _), ok_bind] at hadd'
      rw [hadd] at hadd'
      exact absurd (Prod.mk.inj (Except.ok.inj hadd')).1 (by simp)

/-- **A placement that reports neither a fill nor its acceptance leaves the book
as it was.** -/
theorem processPlace_quiet
    {clientId clientOrderId quantity : UInt64} {symbol : Symbol} {side : Side}
    {orderType : OrderType} {price : Option UInt64}
    (hβ : β.Wrapping)
    (h : Engine.Refines cfg e s loc free)
    (he : processPlace β e clientId clientOrderId symbol side orderType price quantity =
      .ok (e', es))
    (hquiet : ∀ ev, ev ∈ es → ev.IsQuiet) :
    e'.book = e.book := by
  have hsame : ∀ {e₁ : Engine} {es₁ : List OutputEvent},
      (Except.ok (e₁, es₁) : Run _) = .ok (e', es) → e₁.book = e.book → e'.book = e.book := by
    intro e₁ es₁ he hbook
    rw [← (Prod.mk.inj (Except.ok.inj he)).1, hbook]
  rw [processPlace] at he
  split_ifs at he with hqty
  · exact hsame he rfl
  dsimp only at he
  split_ifs at he
  · exact hsame he rfl
  · obtain ⟨nextOrderId, -, he⟩ := bind_eq_ok.mp he
    cases orderType with
    | market =>
        simp only [LmaxEngine.placeMarket, matchAggressor] at he
        obtain ⟨⟨e₁, left, fills⟩, hloop, he⟩ := bind_eq_ok.mp he
        dsimp only at he
        split_ifs at he with hpos
        · obtain ⟨rfl, rfl⟩ := Prod.mk.inj (Except.ok.inj he)
          rw [matchLoop_quiet hloop fun ev hev => hquiet ev (List.mem_append_left _ hev)]
        · obtain ⟨rfl, rfl⟩ := Prod.mk.inj (Except.ok.inj he)
          rw [matchLoop_quiet hloop hquiet]
    | limit =>
        cases price with
        | none => exact hsame he rfl
        | some price =>
            obtain ⟨tick, htick, he⟩ := bind_eq_ok.mp he
            cases tick with
            | none => exact hsame he rfl
            | some t =>
                have ht : t < numTicks := tickOf_lt (h.priceToTick_iff.mp htick)
                simp only [LmaxEngine.placeLimit, matchAggressor] at he
                obtain ⟨⟨e₁, left, fills⟩, hloop, he⟩ := bind_eq_ok.mp he
                dsimp only at he
                split_ifs at he with hpos
                · obtain ⟨filledQty, -, he⟩ := bind_eq_ok.mp he
                  obtain ⟨⟨result, book⟩, hadd, he⟩ := bind_eq_ok.mp he
                  cases result with
                  | ok oid =>
                      obtain ⟨n, -, he⟩ := bind_eq_ok.mp he
                      obtain ⟨-, rfl⟩ := Prod.mk.inj (Except.ok.inj he)
                      exact (hquiet _ (List.mem_append_right _ List.mem_cons_self)).elim
                  | error o =>
                      obtain ⟨rfl, rfl⟩ := Prod.mk.inj (Except.ok.inj he)
                      rw [matchLoop_quiet hloop fun ev hev =>
                        hquiet ev (List.mem_append_left _ hev)] at hadd
                      exact addOrder_error hβ h ht hadd
                · obtain ⟨rfl, rfl⟩ := Prod.mk.inj (Except.ok.inj he)
                  rw [matchLoop_quiet hloop hquiet]

end Handlers

section Placements

variable {cfg : Config} {e e' : Engine} {s s' : State} {loc loc' : Nat → Nat}
variable {free free' : List Nat} {clientId clientOrderId : UInt64} {side : Side}

theorem Engine.Refines.against_eq
    (h : Engine.Refines cfg e s loc free) (hc : Consistent cfg s) (side : Side) :
    e.against side = s.across cfg side none := by
  have hw := h.book.arena.weight
    (fun o : Order => if o.side = side.opposite then o.leavesQty.toNat else 0)
  rw [weigh_image] at hw
  rw [Engine.against, State.across, weigh]
  simp only [orderAt_eq]
  refine hw.trans (Finset.sum_congr rfl fun k _ => congrArg List.sum ?_)
  refine List.map_congr_left fun x hx => ?_
  have hhits : hits cfg side none x.order = true ↔
      k.1 = side.opposite ∧ crossesTick cfg side none k.2 = true := hits_iff hc hx
  rw [hitQty, Engine.cellOf]
  simp only [hhits, crossesTick, and_true, (hc.entry hx).side]

/-- Nothing comes to rest where the own side stays as it was. -/
theorem Engine.Refines.not_leavesResting
    (h : Engine.Refines cfg e s loc free) (hc : Consistent cfg s)
    (h' : Engine.Refines cfg e' s' loc' free') (hc' : Consistent cfg s')
    (hloc : ∀ m, m < s.nextNum → loc' m = loc m)
    (hown : ∀ t, s'.queue (side, t) = s.queue (side, t)) :
    ¬ e.LeavesResting e' clientId clientOrderId side := by
  rintro ⟨i, o, ho', hne, -, -, hside⟩
  obtain ⟨⟨side', t⟩, x, hx, rfl, rfl⟩ := h'.entry ho'
  obtain rfl : side' = side := by rw [← hside, (hc'.entry hx).side]
  rw [hown] at hx
  rw [hloc x.num (hc.entry hx).num] at hne
  exact hne (h.orderAt hx)

/-- An entry with a new number, beside the entries of its side, has come to
rest. -/
theorem Engine.Refines.leavesResting
    {t : Nat} {x : Entry}
    (h : Engine.Refines cfg e s loc free) (hc : Consistent cfg s)
    (h' : Engine.Refines cfg e' s' loc' free') (hc' : Consistent cfg s')
    (hloc : ∀ m, m < s.nextNum → loc' m = loc m)
    (hx : x ∈ s'.queue (side, t)) (hnum : x.num = s.nextNum)
    (hkey : x.order.key = (clientId, clientOrderId))
    (hown : ∀ t y, y ∈ s.queue (side, t) → y ∈ s'.queue (side, t)) :
    e.LeavesResting e' clientId clientOrderId side := by
  have hside : x.order.side = side := (hc'.entry hx).side
  refine ⟨loc' x.num, x.order, h'.orderAt hx, fun ho => ?_, ?_, hkey, hside⟩
  · obtain ⟨⟨side', t'⟩, y, hy, hslot, horder⟩ := h.entry ho
    obtain rfl : side' = side := by rw [← hside, ← horder, (hc.entry hy).side]
    have hlt := (hc.entry hy).num
    rw [← hloc y.num hlt] at hslot
    obtain rfl := h'.loc_inj (hown t' y hy) hx hslot
    omega
  · rw [(hc'.entry hx).id, hnum, h.nextOrderId]

section Placed

variable {es : List OutputEvent} {symbol : Symbol} {orderType : OrderType}
variable {price : Option UInt64} {quantity limit : UInt64} {tif : TimeInForce}

/-- Whether a placement leaves an order resting. -/
theorem Engine.Refines.leavesResting_iff
    (h : Engine.Refines cfg e s loc free) (hc : Consistent cfg s)
    (he : e.handle Build.release
      (.place clientId clientOrderId symbol side orderType price quantity tif) = .ok (e', es)) :
    e.LeavesResting e' clientId clientOrderId side ↔
      ∃ limit, orderType = .limit ∧ price = some limit ∧
        PriceTime.Rests cfg s clientId side limit quantity := by
  obtain ⟨-, loc', free', h', hloc⟩ := h.handle_loc hc he
  have hc' := handle_consistent hc
    (.place clientId clientOrderId symbol side orderType price quantity tif)
  constructor
  · intro hrest
    by_contra hno
    refine h.not_leavesResting hc h' hc' hloc (place_taken clientId clientOrderId symbol side
      orderType price quantity hc fun limit htype hprice hrests => ?_).own hrest
    exact hno ⟨limit, htype, hprice, hrests⟩
  · rintro ⟨limit, rfl, rfl, hrests⟩
    obtain ⟨r, t, x, hr, hnum, hkey, hside, -, hrem⟩ := place_rests clientOrderId symbol hc hrests
    rw [PriceTime.handle, hr] at h' hc'
    have hx : x ∈ (r.rest (side, t) x).queue (side, t) := mem_push.mpr (Or.inr ⟨rfl, rfl⟩)
    refine h.leavesResting hc h' hc' hloc hx hnum hkey fun t' y hy => ?_
    refine mem_push.mpr (Or.inl ((hrem.mem_iff _ y).mpr ⟨hy, ?_⟩))
    rw [Bool.eq_false_iff]
    intro hhit
    have hopp : side = side.opposite := ((hits_iff hc hy).mp hhit).1
    cases side <;> simp [Side.opposite] at hopp

/-- A placement that neither fills nor rests reports nothing else and leaves the
book as it was. -/
theorem Engine.Refines.quiet_of_not_rests
    (h : Engine.Refines cfg e s loc free) (hc : Consistent cfg s)
    (he : e.handle Build.release
      (.place clientId clientOrderId symbol side orderType price quantity tif) = .ok (e', es))
    (hzero : filled es = 0)
    (hno : ∀ limit, orderType = .limit → price = some limit →
      ¬ PriceTime.Rests cfg s clientId side limit quantity) :
    (∀ ev, ev ∈ es → ev.fillQty = 0 ∧ ev.IsQuiet) ∧ e'.book = e.book := by
  obtain ⟨hes, -⟩ := h.handle_loc hc he
  have htaken := place_taken clientId clientOrderId symbol side orderType price quantity hc hno
  have hev : ∀ ev, ev ∈ es → ev.fillQty = 0 ∧ ev.IsQuiet := by
    intro ev hev
    have hle := fillQty_le_filled hev
    rw [hes] at hev
    exact ⟨by omega, (htaken.events ev hev).resolve_left (by omega)⟩
  exact ⟨hev, processPlace_quiet Build.wrapping_release h he fun ev hmem => (hev ev hmem).2⟩

theorem Engine.Refines.respects_market_iff
    (h : Engine.Refines cfg e s loc free) (hc : Consistent cfg s)
    (he : e.handle Build.release
      (.place clientId clientOrderId symbol side .market price quantity tif) = .ok (e', es)) :
    e.RespectsTimeInForce e' es
        (.place clientId clientOrderId symbol side .market price quantity tif) ↔
      ¬ e.IgnoresTimeInForce cfg
        (.place clientId clientOrderId symbol side .market price quantity tif) := by
  have hfilled := filled_place_market clientId clientOrderId symbol side price quantity hc
  obtain ⟨hes, -⟩ := h.handle_loc hc he
  rw [PriceTime.handle] at hes
  rw [← hes, ← h.against_eq hc] at hfilled
  have hno : ¬ e.LeavesResting e' clientId clientOrderId side := by
    rw [h.leavesResting_iff hc he]
    rintro ⟨limit, htype, -⟩
    exact absurd htype (by simp)
  rw [Engine.IgnoresTimeInForce, h.openOrders_lt_iff]
  constructor
  · rintro ⟨-, hfok, -⟩ ⟨rfl, hopen, hsome, hless⟩
    rw [if_pos hopen] at hfilled
    rcases hfok rfl with hall | ⟨hnone, -⟩
    · omega
    · have hzero : filled es = 0 := by
        rw [filled, List.sum_eq_zero_iff]
        intro n hn
        obtain ⟨ev, hev, rfl⟩ := List.mem_map.mp hn
        exact (hnone ev hev).1
      omega
  · intro hgood
    refine ⟨fun _ => hno, fun hfok => ?_, fun hr => absurd hr hno⟩
    by_cases hall : filled es = quantity.toNat
    · exact Or.inl hall
    · refine Or.inr (h.quiet_of_not_rests hc he ?_ fun limit htype => absurd htype (by simp))
      by_contra hne
      refine hgood ⟨hfok, ?_⟩
      split_ifs at hfilled with hopen
      · exact ⟨hopen, by omega, by omega⟩
      · exact absurd hfilled hne

theorem Engine.Refines.respects_limit_iff
    (h : Engine.Refines cfg e s loc free) (hc : Consistent cfg s)
    (he : e.handle Build.release
      (.place clientId clientOrderId symbol side .limit (some limit) quantity tif) =
        .ok (e', es)) :
    e.RespectsTimeInForce e' es
        (.place clientId clientOrderId symbol side .limit (some limit) quantity tif) ↔
      ¬ e.IgnoresTimeInForce cfg
        (.place clientId clientOrderId symbol side .limit (some limit) quantity tif) := by
  have hiff : e.LeavesResting e' clientId clientOrderId side ↔
      PriceTime.Rests cfg s clientId side limit quantity := by
    rw [h.leavesResting_iff hc he]
    constructor
    · rintro ⟨limit', -, hl, hr⟩
      exact Option.some.inj hl ▸ hr
    · exact fun hr => ⟨limit, rfl, rfl, hr⟩
  rw [Engine.RespectsTimeInForce, Engine.IgnoresTimeInForce, h.rests_iff, hiff]
  constructor
  · rintro ⟨-, -, hgtc⟩ ⟨hne, hr⟩
    exact hne (hgtc hr).2
  · intro hgood
    refine ⟨fun hioc hr => ?_, fun hfok => ?_, fun hr => ⟨rfl, ?_⟩⟩
    · exact hgood ⟨by simp [hioc], hr⟩
    · have hno : ¬ PriceTime.Rests cfg s clientId side limit quantity :=
        fun hr => hgood ⟨by simp [hfok], hr⟩
      have hfilled := filled_place_limit clientOrderId symbol hc hno
      obtain ⟨hes, -⟩ := h.handle_loc hc he
      rw [PriceTime.handle] at hes
      rw [← hes] at hfilled
      refine hfilled.imp_right fun hzero => h.quiet_of_not_rests hc he hzero ?_
      rintro limit' - hl
      exact Option.some.inj hl ▸ hno
    · by_contra hne
      exact hgood ⟨hne, hr⟩

/-- A limit order without a price is rejected. -/
theorem Engine.Refines.respects_no_price
    (h : Engine.Refines cfg e s loc free) (hc : Consistent cfg s)
    (he : e.handle Build.release
      (.place clientId clientOrderId symbol side .limit none quantity tif) = .ok (e', es)) :
    e.RespectsTimeInForce e' es
      (.place clientId clientOrderId symbol side .limit none quantity tif) := by
  have hprice : ∀ limit, (none : Option UInt64) ≠ some limit := fun limit => nofun
  have hno : ¬ e.LeavesResting e' clientId clientOrderId side := by
    rw [h.leavesResting_iff hc he]
    exact fun ⟨limit, _, hnone, _⟩ => hprice limit hnone
  refine ⟨fun _ => hno, fun _ => Or.inr (h.quiet_of_not_rests hc he ?_
    fun limit _ hnone => absurd hnone (hprice limit)), fun hr => absurd hr hno⟩
  obtain ⟨hes, -⟩ := h.handle_loc hc he
  rw [hes, PriceTime.handle]
  rcases place_cases cfg s clientId clientOrderId symbol side quantity .limit none with
    ⟨-, hp⟩ | ⟨-, hp⟩ | ⟨-, -, ⟨-, -, hp⟩ | ⟨htype, -⟩ | ⟨limit, t, -, hsome, -⟩⟩
  · rw [hp]
    rfl
  · rw [hp]
    rfl
  · rw [hp]
    rfl
  · exact absurd htype (by simp)
  · exact absurd hsome (hprice limit)

end Placed

end Placements

section Results

variable {cfg : Config} {e e' : Engine} {cs : List Command} {evs : List (List OutputEvent)}
variable {es : List OutputEvent}

/-- **When time in force is respected.**  In every state that a run reaches a
placement respects its time in force exactly if it does not come to rest without
being good till cancelled, and is not a market order to be filled or killed that
finds some of its quantity only. -/
theorem respects_time_in_force_iff
    (hpos : 1 ≤ cfg.capacity) (hlt : cfg.capacity < 2 ^ 32)
    (hrun : (Engine.new cfg).run Build.release cs = .ok (e, evs))
    (c : Command) (he : e.handle Build.release c = .ok (e', es)) :
    e.RespectsTimeInForce e' es c ↔ ¬ e.IgnoresTimeInForce cfg c := by
  obtain ⟨⟨loc, free, h⟩, -⟩ := Engine.simulates_of_run Build.wrapping_release hpos hlt hrun
  have hc := run_consistent (consistent_new cfg) cs
  cases c with
  | cancel => exact iff_of_true trivial id
  | modify => exact iff_of_true trivial id
  | place clientId clientOrderId symbol side orderType price quantity tif =>
      cases orderType with
      | market => exact h.respects_market_iff hc he
      | limit =>
          cases price with
          | none => exact iff_of_true (h.respects_no_price hc he) id
          | some limit => exact h.respects_limit_iff hc he

/-- A bid for one lot that is immediate or cancelled. -/
def iocBid : Command :=
  .place 1 0 (Vector.replicate 8 0) .buy .limit (some 100) 1 .ioc

theorem respects_time_in_force_iff_iocBid :
    ∃ e' es, (Engine.new smallConfig).handle Build.release iocBid = .ok (e', es) ∧
      ((Engine.new smallConfig).RespectsTimeInForce e' es iocBid ↔
        ¬ (Engine.new smallConfig).IgnoresTimeInForce smallConfig iocBid) := by
  obtain ⟨⟨e', es⟩, he⟩ := exists_of_isOk
    (x := (Engine.new smallConfig).handle Build.release iocBid) (by decide +kernel)
  have hrun : (Engine.new smallConfig).run Build.release [] = .ok (Engine.new smallConfig, []) :=
    rfl
  exact ⟨e', es, he,
    respects_time_in_force_iff (by decide) (by decide) hrun iocBid he⟩

/-- On the empty book the bid rests. -/
theorem not_respects_iocBid :
    ∃ e' es, (Engine.new smallConfig).handle Build.release iocBid = .ok (e', es) ∧
      ¬ (Engine.new smallConfig).RespectsTimeInForce e' es iocBid := by
  obtain ⟨⟨e', es⟩, he, hbid⟩ := exists_of_yields
    (x := (Engine.new smallConfig).handle Build.release iocBid)
    (p := fun r => (r.1.book.arena.orderAt 0).any
      (fun o => o.orderId = 1 && o.key = (1, 0) && o.side = .buy))
    (by decide +kernel)
  refine ⟨e', es, he, fun hr => hr.1 rfl ?_⟩
  simp only [Bool.and_eq_true, Option.any_eq_true, decide_eq_true_eq] at hbid
  obtain ⟨o, ho, ⟨hid, hkey⟩, hside⟩ := hbid
  have hempty : (Engine.new smallConfig).book.arena.orderAt 0 = none := by decide
  refine ⟨0, o, ho, ?_, hid, hkey, hside⟩
  rw [hempty]
  simp

end Results

end LmaxEngine
