import LmaxEngine.Refinement.Commands

/-!
# Commands that overflow

A build that checks the additions on quantities aborts on every command for which
one of these sums exceeds its type.  So a command with a result in such a build is
one whose sums fit.
-/

namespace LmaxEngine
namespace Engine

open Checked Queues Arena PriceTime

section Overflows

variable {β : Build} {cfg : Config} {e : Engine} {s : State}
variable {loc : Nat → Nat} {free : List Nat} {p : Placement} {x : Entry} {n : Nat}

/-- The matching loop aborts in the round that overfills a counter. -/
theorem matchLoop_overfills
    (hβ : β .counterOverflow = false) (hqty : β .qtyOverflow = true)
    (hexact : β .totalQtySaturation = true → e.Tallies s)
    (h : Refines cfg e s loc free) (hc : Consistent cfg s)
    (hlen : (s.line p.side.opposite).length < n) (hover : Overfills cfg s p) :
    loopOf β p n e = .error (.check .qtyOverflow) := by
  induction n generalizing p e s free with
  | zero => omega
  | succ n ih =>
      rcases sweep_cases cfg p s with hstop | ⟨t, x, h0, hb, hcross, hle | hlt⟩
      · exact absurd hover (not_overfills hc hstop)
      · obtain ⟨xs, hline⟩ := line_best hb
        have hleave : (s.leave (p.side.opposite, t) x).line
            (p.less x.order.leavesQty).side.opposite = xs :=
          line_leave_best hc (State.best_mem hb) hline
        rw [hline, List.length_cons] at hlen
        obtain ⟨e1, h1, ht1, hloop⟩ := h.loop_whole hβ hexact hc h0 hb hcross hle
        rw [hloop, ih (p := p.less x.order.leavesQty) (fun hs => ht1 (hexact hs)) h1
          (hc.leave (State.best_mem hb)) (by rw [hleave]; omega)
          ((overfills_leave_iff hc hb hcross hle).mpr hover)]
        rfl
      · obtain ⟨e', -, -, hloop⟩ := h.loop_part hexact hc h0 hb hcross hlt
        rw [hloop, addQty_error hqty ((overfills_part_iff hc hb hcross hlt).mp hover)]
        rfl

theorem placeMarket_overflows
    (hβ : β .counterOverflow = false) (hqty : β .qtyOverflow = true)
    (h : Refines cfg e s loc free) (hc : Consistent cfg s)
    (hleaves : p.leavesQty = p.quantity) (hlimit : p.limitPrice = none)
    (htallies : e.Tallies s) (hover : Overfills cfg s p) :
    LmaxEngine.placeMarket β e (UInt64.ofNat p.num) p.clientId p.symbol p.side p.quantity =
      .error (.check .qtyOverflow) := by
  have hloop := matchLoop_overfills hβ hqty (fun _ => htallies) h hc
    (h.line_lt hc p.side.opposite) hover
  rw [loopOf, hlimit, hleaves] at hloop
  unfold LmaxEngine.placeMarket matchAggressor
  rw [hloop]
  rfl

theorem placeLimit_overflows
    {price : UInt64} {t : Nat}
    (hβ : β .counterOverflow = false) (hqty : β .qtyOverflow = true)
    (h : Refines cfg e s loc free) (hm : MomentOk cfg ⟨s, some p⟩)
    (hleaves : p.leavesQty = p.quantity) (hlimit : p.limitPrice = some price)
    (htick : tickOf cfg price = some t) (hpos : p.quantity ≠ 0)
    (htallies : e.Tallies s)
    (hover : Overfills cfg s p ∨ Overloads cfg s p.clientId p.side price p.quantity) :
    LmaxEngine.placeLimit β e (UInt64.ofNat p.num) p.clientId p.clientOrderId p.symbol
      p.side price p.quantity t = .error (.check .qtyOverflow) := by
  have hc : Consistent cfg s := hm.consistent
  unfold LmaxEngine.placeLimit matchAggressor
  by_cases hfill : Overfills cfg s p
  · have hloop := matchLoop_overfills hβ hqty (fun _ => htallies) h hc
      (h.line_lt hc p.side.opposite) hfill
    rw [loopOf, hlimit, hleaves] at hloop
    rw [hloop]
    rfl
  · -- the loop has a result, and what it leaves is too much for the level
    obtain ⟨hleft, hroom, hload⟩ :=
      (overloads_iff hm hleaves hlimit htick hpos).mp (hover.resolve_left hfill)
    obtain ⟨e', free', h', ht', hloop⟩ := matchLoop_refines hβ (fun _ => htallies)
      (fun _ => hfill) h hc (Nat.lt_succ_of_le (line_length_le s _))
    have hloop := hloop _ (h.line_lt hc _)
    have hm' : MomentOk cfg ⟨(p.sweep cfg (s.resting + 1) s).1,
        some { p with leavesQty := (p.sweep cfg (s.resting + 1) s).2.1 }⟩ :=
      (sweep_trail _ hm).preserves (fun hs hstep => hstep.momentOk hs) hm
    have hle := sweep_le cfg p (s.resting + 1) s
    have htotal := ht' htallies (p.side, t) (tickOf_lt htick)
    rw [held_sweep] at htotal
    rw [loopOf, hlimit, hleaves] at hloop
    simp only [hloop, ok_bind]
    generalize p.sweep cfg (s.resting + 1) s = r at h' hm' hle hleft hroom hload htotal ⊢
    obtain ⟨s', left, fills⟩ := r
    dsimp only at h' hm' hle hleft hroom hload htotal ⊢
    obtain ⟨i, fr, rfl⟩ := List.exists_cons_of_ne_nil (mt h'.free_eq_nil_iff.mp hroom)
    obtain ⟨oid, book, hadd, -⟩ := h'.rested hβ hm' htick
    rw [addQty_error hqty (by rw [htotal]; exact hload), error_bind] at hadd
    simp only [Placement.order] at hadd
    have hsub : sub64 β p.quantity left = .ok (p.quantity - left) :=
      probe_pass (UInt64.not_lt.mpr (hleaves ▸ hle))
    simp only [if_pos hleft, hsub, ok_bind, hadd, error_bind]

theorem place_overflows
    {clientId clientOrderId quantity : UInt64} {symbol : Symbol} {side : Side}
    {orderType : OrderType} {price : Option UInt64} {tif : TimeInForce}
    (hβ : β .counterOverflow = false) (hqty : β .qtyOverflow = true)
    (h : Refines cfg e s loc free) (hc : Consistent cfg s) (htallies : e.Tallies s)
    (hover : PriceTime.Overflows cfg s
      (.place clientId clientOrderId symbol side orderType price quantity tif)) :
    processPlace β e clientId clientOrderId symbol side orderType price quantity =
      .error (.check .qtyOverflow) := by
  obtain ⟨haccepted, hover⟩ := hover
  have hm := haccepted.started hc clientOrderId symbol side
  have hnumber := h.numbered clientId
  unfold processPlace
  simp only [if_neg haccepted.qty, h.clients, if_neg (not_limit_iff.mpr haccepted.limit),
    addCounter, probe_off hβ, ok_bind]
  cases orderType with
  | market =>
      have hfill : Overfills cfg (s.account clientId).number
          (s.placement clientId clientOrderId symbol side none quantity) := by
        rcases hover with hover | ⟨limit, hlimit, -⟩
        · exact (overfills_number s clientId _).mpr hover
        · exact absurd hlimit (by simp)
      have := placeMarket_overflows hβ hqty hnumber hm.consistent rfl rfl htallies hfill
      dsimp only [State.placement] at this
      rw [← h.nextOrderId] at this
      exact this
  | limit =>
      obtain ⟨t, ht⟩ := Option.isSome_iff_exists.mp (haccepted.tick rfl)
      obtain ⟨limit, rfl, htick⟩ := Option.bind_eq_some_iff.mp ht
      have hwhich : Overfills cfg (s.account clientId).number
            (s.placement clientId clientOrderId symbol side (some limit) quantity) ∨
          Overloads cfg (s.account clientId).number clientId side limit quantity := by
        rcases hover with hover | ⟨limit', -, hlimit, hload⟩
        · exact Or.inl ((overfills_number s clientId _).mpr hover)
        · obtain rfl := Option.some.inj hlimit
          exact Or.inr (overloads_number.mpr hload)
      have := placeLimit_overflows hβ hqty hnumber hm rfl rfl htick haccepted.qty htallies hwhich
      dsimp only [State.placement] at this
      rw [← h.nextOrderId] at this
      simp only [h.book.priceToTick_some htick, ok_bind]
      exact this

theorem modifyRequeue_overflows
    {l : Locator} {oid : OrderId} {clientId clientOrderId price target : UInt64} {t : Nat}
    (hβ : β .counterOverflow = false) (hqty : β .qtyOverflow = true)
    (h : Refines cfg e s loc free) (hc : Consistent cfg s) (hx : x ∈ s.queue l.level)
    (hkey : x.order.key = (clientId, clientOrderId)) (hnum : x.num = l.num)
    (htallies : e.Tallies s) (htick : tickOf cfg price = some t)
    (hload : 2 ^ 64 ≤ (s.leave l.level x).held (x.order.side, t) + target.toNat) :
    LmaxEngine.modifyRequeue β e
        { oid := oid, tick := l.tick, side := l.side, internalId := UInt64.ofNat l.num }
        clientId clientOrderId (loc x.num) x.order price target =
      .error (.check .qtyOverflow) := by
  obtain ⟨book, hremove, hr, hgone⟩ := h.removed hβ (fun _ => htallies) hc hx
  have htotal : (book.total (x.order.side, t)).toNat =
      (s.leave l.level x).held (x.order.side, t) :=
    hgone htallies (x.order.side, t) (tickOf_lt htick)
  obtain ⟨oid', book', hadd, -⟩ :=
    Refines.moved hβ hc hx hr (x.order.side, t) (tickOf_lt htick)
      (requeuedAs price target x.order) rfl
  rw [addQty_error hqty (by rw [htotal]; exact hload), error_bind,
    requeuedAs_eq hc hx hkey hnum] at hadd
  simp only [Locator.level] at hremove
  unfold LmaxEngine.modifyRequeue
  simp only [hremove, ok_bind, hr.book.priceToTick_some htick, hadd, error_bind]

theorem modify_overflows
    {clientId clientOrderId : UInt64} {newPrice newQty : Option UInt64}
    (hβ : β .counterOverflow = false) (hqty : β .qtyOverflow = true)
    (h : Refines cfg e s loc free) (hc : Consistent cfg s) (htallies : e.Tallies s)
    (hover : PriceTime.Overflows cfg s (.modify clientId clientOrderId newPrice newQty)) :
    processModify β e clientId clientOrderId newPrice newQty =
      .error (.check .qtyOverflow) := by
  obtain ⟨k, x, hx, hindex, hzero, hsum⟩ := hover
  obtain ⟨y, oid, slot, prev, next, -, hy, hkey, hnum, hidx, hvalid, hslot, hstate⟩ :=
    h.lookup hc hindex
  obtain rfl : y = x := hc.distinct.eq hy hx hnum
  have hclient : y.order.clientId = clientId := congrArg Prod.fst hkey
  unfold processModify
  simp only [hidx, hvalid, ok_bind, ix_eq hslot, hstate, hclient, ne_eq, not_true_eq_false,
    if_false, if_neg hzero]
  rcases hsum with ⟨hprice, hle, hcount⟩ | ⟨hmove, t, htick, hload⟩
  · have hsub : sub64 β y.order.leavesQty (newQty.getD y.order.leavesQty) =
        .ok (y.order.leavesQty - newQty.getD y.order.leavesQty) :=
      probe_pass (UInt64.not_lt.mpr hle)
    have hdiff := UInt64.toNat_sub_of_le _ _ hle
    unfold modifyInPlace
    simp only [if_pos (And.intro hprice hle), hsub, ok_bind,
      addQty_error hqty (hdiff ▸ hcount), error_bind]
  · rw [if_neg hmove]
    exact modifyRequeue_overflows hβ hqty h hc hy hkey hnum htallies htick hload

/-- **A build that checks the sums aborts on a command that overflows.** -/
theorem handle_overflows
    (hβ : β .counterOverflow = false) (hqty : β .qtyOverflow = true)
    (h : Refines cfg e s loc free) (hc : Consistent cfg s) (htallies : e.Tallies s)
    (c : Command) (hover : PriceTime.Overflows cfg s c) :
    e.handle β c = .error (.check .qtyOverflow) := by
  cases c with
  | place clientId clientOrderId symbol side orderType price quantity tif =>
      exact place_overflows hβ hqty h hc htallies hover
  | cancel clientId clientOrderId => exact absurd hover id
  | modify clientId clientOrderId newPrice newQty =>
      exact modify_overflows hβ hqty h hc htallies hover

end Overflows

end Engine
end LmaxEngine
