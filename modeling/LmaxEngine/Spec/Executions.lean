import LmaxEngine.Spec.Ledger
import LmaxEngine.Spec.Symbols
import LmaxEngine.Spec.TimeInForce

/-!
# What was executed of an order

The fills of a history that name an order id, as that of the aggressor or of the
resting order, say how much of the order was executed.  The counter `filledQty`
of an order says the same, as long as no reduction in place adds to it and no
fill takes it beyond 64 bits.
-/

namespace LmaxEngine

open PriceTime

/-- What an event executes of the order with an id. -/
def OutputEvent.executed (id : UInt64) : OutputEvent → Nat
  | .fill aggressorOrderId restingOrderId _ _ _ _ quantity _ =>
      if aggressorOrderId = id ∨ restingOrderId = id then quantity.toNat else 0
  | _ => 0

/-- What events execute of the order with an id. -/
def executed (id : UInt64) (es : List OutputEvent) : Nat :=
  (es.map (OutputEvent.executed id)).sum

section Sums

variable {id : UInt64} {es : List OutputEvent} {ev : OutputEvent}

@[simp] theorem executed_nil
    (id : UInt64) :
    executed id [] = 0 := rfl

@[simp] theorem executed_cons
    (id : UInt64) (ev : OutputEvent) (es : List OutputEvent) :
    executed id (ev :: es) = ev.executed id + executed id es := by
  simp [executed]

@[simp] theorem executed_append
    (id : UInt64) (es fs : List OutputEvent) :
    executed id (es ++ fs) = executed id es + executed id fs := by
  simp [executed]

/-- Only a fill executes something. -/
theorem executed_of_resting?
    (h : ev.resting? = none) :
    ev.executed id = 0 := by
  cases ev <;> first | rfl | exact absurd h (by simp [OutputEvent.resting?])

theorem executed_eq_zero
    (h : ∀ ev, ev ∈ es → ev.executed id = 0) :
    executed id es = 0 := by
  induction es with
  | nil => rfl
  | cons ev es ih =>
      rw [executed_cons, h ev List.mem_cons_self,
        ih fun ev' hev => h ev' (List.mem_cons_of_mem ev hev)]

/-- Where every event is one of the order, all that is filled is executed of it. -/
theorem executed_eq_filled
    (h : ∀ ev, ev ∈ es → ev.executed id = ev.fillQty) :
    executed id es = filled es := by
  induction es with
  | nil => rfl
  | cons ev es ih =>
      rw [executed_cons, filled_cons, h ev List.mem_cons_self,
        ih fun ev' hev => h ev' (List.mem_cons_of_mem ev hev)]

end Sums

namespace PriceTime

open Queues Transition

section Sweeps

variable {cfg : Config} {s : State} {k : Level} {x y : Entry} {p : Placement} {fuel : Nat}
variable {id : UInt64} {qty : UInt64}

theorem executed_fill_resting
    (p : Placement) (x : Entry) (qty : UInt64) :
    (p.fill x.order qty).executed x.order.orderId = qty.toNat :=
  if_pos (Or.inr rfl)

theorem executed_fill_aggressor
    (p : Placement) (x : Entry) (qty : UInt64) :
    (p.fill x.order qty).executed (UInt64.ofNat p.num) = qty.toNat :=
  if_pos (Or.inl rfl)

theorem executed_fill_other
    (hp : UInt64.ofNat p.num ≠ id) (hx : x.order.orderId ≠ id) :
    (p.fill x.order qty).executed id = 0 :=
  if_neg (not_or.mpr ⟨hp, hx⟩)

/-- The id of a placement under way is not that of a resting order. -/
theorem ofNat_num_ne
    (hm : MomentOk cfg ⟨s, some p⟩) (hnum : s.nextNum ≤ 2 ^ 64) (hx : x ∈ s.queue k) :
    UInt64.ofNat p.num ≠ x.order.orderId :=
  ne_of_pending hm hnum hx (pending_active rfl)

/-- Matching executes nothing of an order that has not this id. -/
theorem sweep_executed_other
    (hm : MomentOk cfg ⟨s, some p⟩) (hfuel : s.resting < fuel)
    (hp : UInt64.ofNat p.num ≠ id) (hno : ∀ k x, x ∈ s.queue k → x.order.orderId ≠ id) :
    executed id (p.sweep cfg fuel s).2.2 = 0 := by
  refine executed_eq_zero fun ev hev => ?_
  obtain ⟨k, x, hx, -, rfl⟩ := (mem_sweep_events_iff hm hfuel).mp hev
  exact executed_fill_other hp (hno k x hx)

/-- Matching executes of a resting order what it is offered, as far as it goes. -/
theorem sweep_executed_resting
    (hm : MomentOk cfg ⟨s, some p⟩) (hfuel : s.resting < fuel) (hnum : s.nextNum ≤ 2 ^ 64)
    (hx : x ∈ s.queue k) :
    executed x.order.orderId (p.sweep cfg fuel s).2.2 = min (offer cfg s p x) x.leaves := by
  induction fuel generalizing p s with
  | zero => omega
  | succ fuel ih =>
      have hc : Consistent cfg s := hm.consistent
      have hp := ofNat_num_ne hm hnum hx
      rcases sweep_cases cfg p s with hstop | ⟨t, z, h0, hb, hcross, hle | hlt⟩
      · rw [sweep_stop hstop, offer_stop hc hstop hx, Nat.zero_min]
        rfl
      · have hz := State.best_mem hb
        have hstep : Step cfg ⟨s, some p⟩ _ _ := Step.fillWhole hb hcross hle
        have hrest : (s.leave (p.side.opposite, t) z).resting + 1 = s.resting :=
          hc.resting_leave hz
        rw [sweep_whole h0 hb hcross hle, executed_cons]
        by_cases hne : x.num = z.num
        · obtain rfl := hc.distinct.eq hx hz hne
          have hgone : executed x.order.orderId ((p.less x.order.leavesQty).sweep cfg fuel
              (s.leave (p.side.opposite, t) x)).2.2 = 0 := by
            refine sweep_executed_other (hstep.momentOk hm) (by omega) hp fun k' y hy => ?_
            obtain ⟨hy, hyx⟩ := (hc.distinct.mem_discard hz).mp hy
            exact orderId_ne hc hnum hz hy hyx
          rw [executed_fill_resting, hgone, offer_best hc hb hcross, Entry.leaves,
            Nat.min_eq_right (UInt64.le_iff_toNat_le.mp hle)]
          rfl
        · have hx' : x ∈ (s.leave (p.side.opposite, t) z).queue k :=
            (hc.distinct.mem_discard hz).mpr ⟨hx, hne⟩
          rw [executed_fill_other hp (orderId_ne hc hnum hx hz (Ne.symm hne)), Nat.zero_add,
            ih (p := p.less z.order.leavesQty) (hstep.momentOk hm) (by omega) hnum hx',
            offer_leave hc hb hle hne]
      · have hz := State.best_mem hb
        rw [sweep_part h0 hb hcross hlt, executed_cons, executed_nil, Nat.add_zero]
        by_cases hne : x.num = z.num
        · obtain rfl := hc.distinct.eq hx hz hne
          rw [executed_fill_resting, offer_best hc hb hcross, Entry.leaves,
            Nat.min_eq_left (UInt64.lt_iff_toNat_lt.mp hlt).le]
        · rw [executed_fill_other hp (orderId_ne hc hnum hx hz (Ne.symm hne)),
            offer_behind hc hb (UInt64.le_of_lt hlt) hne, Nat.zero_min]

/-- Matching executes of the placement all that it fills. -/
theorem sweep_executed_aggressor
    (hm : MomentOk cfg ⟨s, some p⟩) (hfuel : s.resting < fuel) :
    executed (UInt64.ofNat p.num) (p.sweep cfg fuel s).2.2 = filled (p.sweep cfg fuel s).2.2 := by
  refine executed_eq_filled fun ev hev => ?_
  obtain ⟨k, x, -, -, rfl⟩ := (mem_sweep_events_iff hm hfuel).mp hev
  exact executed_fill_aggressor p x _

end Sweeps

/-- The counters of the resting orders say what a history executes of them. -/
def State.Counts (s : State) (hist : List OutputEvent) : Prop :=
  ∀ k x, x ∈ s.queue k → x.order.filledQty.toNat = executed x.order.orderId hist

/-- A history executes nothing of the ids that are not handed out. -/
def State.Unnamed (s : State) (hist : List OutputEvent) : Prop :=
  ∀ id : UInt64, s.nextNum ≤ id.toNat → executed id hist = 0

/-- Some order is filled in part and its counter goes beyond 64 bits. -/
def Overfills (cfg : Config) (s : State) (p : Placement) : Prop :=
  ∃ k x, x ∈ s.queue k ∧ offer cfg s p x < x.leaves ∧
    2 ^ 64 ≤ x.order.filledQty.toNat + offer cfg s p x

/-- An accepted placement that takes a counter beyond 64 bits, or a modification
that reduces an order in place. -/
def Miscounts (cfg : Config) (s : State) : Command → Prop
  | .place clientId clientOrderId symbol side orderType price quantity _ =>
      Accepted cfg s clientId orderType price quantity ∧
        Overfills cfg s
          (s.placement clientId clientOrderId symbol side (limitOf orderType price) quantity)
  | .modify clientId clientOrderId newPrice newQty =>
      ∃ k x, x ∈ s.queue k ∧ s.index (clientId, clientOrderId) = some (x.locator k) ∧
        newQty.getD x.order.leavesQty ≠ 0 ∧ newPrice.getD x.order.price = x.order.price ∧
        newQty.getD x.order.leavesQty < x.order.leavesQty
  | _ => False

section Placements

variable {cfg : Config} {s : State} {k : Level} {x y : Entry} {p : Placement}
variable {hist es : List OutputEvent}

/-- The counter of an order that is filled in part. -/
theorem toNat_filled
    (hlt : offer cfg s p x < x.leaves) :
    (x.filled (offer cfg s p x)).order.filledQty.toNat =
      (x.order.filledQty.toNat + offer cfg s p x) % 2 ^ 64 := by
  have hleaves := x.order.leavesQty.toNat_lt
  rw [Entry.leaves] at hlt
  change (x.order.filledQty + UInt64.ofNat (offer cfg s p x)).toNat = _
  rw [UInt64.toNat_add, UInt64.toNat_ofNat', Nat.mod_eq_of_lt (hlt.trans hleaves)]

/-- What matching leaves counts exactly if no counter is overfilled. -/
theorem sweep_counts_iff
    (hm : MomentOk cfg ⟨s, some p⟩) (hnum : s.nextNum ≤ 2 ^ 64) (h : s.Counts hist) :
    (p.sweep cfg (s.resting + 1) s).1.Counts (hist ++ (p.sweep cfg (s.resting + 1) s).2.2) ↔
      ¬ Overfills cfg s p := by
  have hexecuted : ∀ k x, x ∈ s.queue k → offer cfg s p x < x.leaves →
      executed x.order.orderId (hist ++ (p.sweep cfg (s.resting + 1) s).2.2) =
        x.order.filledQty.toNat + offer cfg s p x := by
    intro k x hx hlt
    rw [executed_append, sweep_executed_resting hm (Nat.lt_add_one _) hnum hx, h k x hx,
      Nat.min_eq_left hlt.le]
  constructor
  · rintro hcounts ⟨k, x, hx, hlt, hover⟩
    have hy := hcounts k _ ((mem_sweep_iff hm (Nat.lt_add_one _)).mpr ⟨x, hx, hlt, rfl⟩)
    have hid : (x.filled (offer cfg s p x)).order.orderId = x.order.orderId := rfl
    rw [toNat_filled hlt, hid, hexecuted k x hx hlt] at hy
    omega
  · intro hno k y hy
    obtain ⟨x, hx, hlt, rfl⟩ := (mem_sweep_iff hm (Nat.lt_add_one _)).mp hy
    have hid : (x.filled (offer cfg s p x)).order.orderId = x.order.orderId := rfl
    rw [toNat_filled hlt, hid, hexecuted k x hx hlt]
    refine Nat.mod_eq_of_lt (Nat.lt_of_not_le fun hover => hno ⟨k, x, hx, hlt, hover⟩)

/-- Events that execute nothing do not matter. -/
theorem State.Counts.quiet_iff
    {s' : State}
    (hqueue : s'.queue = s.queue) (hes : ∀ id, executed id es = 0) :
    s'.Counts (hist ++ es) ↔ s.Counts hist := by
  simp only [State.Counts, hqueue, executed_append, hes, Nat.add_zero]

/-- **A placement under way counts** exactly if it overfills no counter. -/
theorem Placed.counts_iff
    {r : State × List OutputEvent}
    (hm : MomentOk cfg ⟨s, some p⟩) (hnum : s.nextNum ≤ 2 ^ 64)
    (hleaves : p.leavesQty = p.quantity) (h : s.Counts hist)
    (hfresh : executed (UInt64.ofNat p.num) hist = 0) (hout : Placed cfg s p r) :
    r.1.Counts (hist ++ r.2) ↔ ¬ Overfills cfg s p := by
  rw [← sweep_counts_iff hm hnum h]
  cases hout with
  | matched hes =>
      rw [← List.append_assoc]
      refine State.Counts.quiet_iff rfl fun id => executed_eq_zero fun ev hev => ?_
      rcases hes ev hev with hrej | rfl
      · exact executed_of_resting? (resting?_rejection hrej)
      · rfl
  | @rested price left t hlimit htick hleft hpos =>
      have hacc : ∀ id, executed id [OutputEvent.orderAccepted (UInt64.ofNat p.num) p.clientId
          p.clientOrderId p.symbol p.side price left] = 0 := fun _ => rfl
      have hown : (Placement.entry { p with leavesQty := left } price).order.filledQty.toNat =
          executed (UInt64.ofNat p.num)
            (hist ++ (p.sweep cfg (s.resting + 1) s).2.2) := by
        have hfilled := sweep_filled cfg p (s.resting + 1) s
        rw [executed_append, hfresh, Nat.zero_add,
          sweep_executed_aggressor hm (Nat.lt_add_one _)]
        rw [← hleft, hleaves] at hfilled
        change (p.quantity - left).toNat = _
        rw [UInt64.toNat_sub_of_le _ _ (UInt64.le_iff_toNat_le.mpr (by omega))]
        omega
      rw [← List.append_assoc]
      constructor
      · intro hcounts k y hy
        have := hcounts k y (mem_push.mpr (Or.inl hy))
        rwa [executed_append, hacc] at this
      · intro hcounts k y hy
        rw [executed_append, hacc, Nat.add_zero]
        rcases mem_push.mp hy with hy | ⟨-, rfl⟩
        · exact hcounts k y hy
        · exact hown

end Placements

section Commands

variable {cfg : Config} {s : State} {k : Level} {x : Entry} {hist : List OutputEvent}

theorem State.Counts.leave
    (h : s.Counts hist) :
    (s.leave k x).Counts hist :=
  fun k' y hy => h k' y (mem_discard.mp hy).1

/-- A reduction in place counts exactly if it does not reduce. -/
theorem State.Counts.change_iff
    {target : UInt64}
    (h : s.Counts hist) (hc : Consistent cfg s) (hx : x ∈ s.queue k)
    (hle : target ≤ x.order.leavesQty) :
    (s.change k x (reducedTo target)).Counts hist ↔ ¬ target < x.order.leavesQty := by
  have hkept : (x.order.filledQty + (x.order.leavesQty - target)).toNat =
      x.order.filledQty.toNat ↔ ¬ target < x.order.leavesQty := by
    have h1 := x.order.filledQty.toNat_lt
    have h2 := x.order.leavesQty.toNat_lt
    rw [UInt64.toNat_add, UInt64.toNat_sub_of_le _ _ hle, UInt64.lt_iff_toNat_lt]
    rw [UInt64.le_iff_toNat_le] at hle
    omega
  rw [← hkept, h k x hx]
  constructor
  · exact fun hcounts => hcounts k _ ((mem_change hc.distinct hx).mpr (Or.inr ⟨rfl, rfl⟩))
  · intro hsame k' y hy
    rcases (mem_change hc.distinct hx).mp hy with ⟨hy, -⟩ | ⟨rfl, rfl⟩
    · exact h k' y hy
    · exact hsame

theorem State.Counts.move
    {k' : Level} {price target : UInt64}
    (h : s.Counts hist) (hx : x ∈ s.queue k) :
    (s.move k x k' (requeuedAs price target x.order)).Counts hist := by
  intro k'' y hy
  rcases mem_push.mp hy with hy | ⟨-, rfl⟩
  · exact h k'' y (mem_discard.mp hy).1
  · exact h k x hx

/-- A history that goes on with one event that is no fill. -/
theorem State.Counts.snoc_iff
    {ev : OutputEvent}
    (hev : ev.resting? = none) :
    s.Counts (hist ++ [ev]) ↔ s.Counts hist :=
  State.Counts.quiet_iff rfl fun id => by
    rw [executed_cons, executed_nil, executed_of_resting? hev]

theorem modify_counts_iff
    {clientId clientOrderId : UInt64} {newPrice newQty : Option UInt64}
    (hc : Consistent cfg s) (h : s.Counts hist) :
    (modify cfg s clientId clientOrderId newPrice newQty).1.Counts
        (hist ++ (modify cfg s clientId clientOrderId newPrice newQty).2) ↔
      ¬ Miscounts cfg s (.modify clientId clientOrderId newPrice newQty) := by
  rcases modify_outcomes hc clientId clientOrderId newPrice newQty with
    ⟨hnone, he⟩ | ⟨k, x, hx, hkey, hindex, hout⟩
  · rw [he, State.Counts.snoc_iff rfl]
    refine iff_of_true h ?_
    rintro ⟨k, x, -, hindex, -⟩
    rw [hnone] at hindex
    exact absurd hindex (by simp)
  · rw [hkey] at hindex
    -- the condition speaks of the entry that the index names
    have hmiscounts : Miscounts cfg s (.modify clientId clientOrderId newPrice newQty) ↔
        newQty.getD x.order.leavesQty ≠ 0 ∧ newPrice.getD x.order.price = x.order.price ∧
        newQty.getD x.order.leavesQty < x.order.leavesQty := by
      constructor
      · rintro ⟨k', y, hy, hindex', hrest⟩
        rw [hindex, Option.some.injEq] at hindex'
        obtain rfl := eq_of_locator_eq hc hx hy hindex'
        exact hrest
      · exact fun hrest => ⟨k, x, hx, hindex, hrest⟩
    rw [hmiscounts]
    generalize modify cfg s clientId clientOrderId newPrice newQty = r at hout ⊢
    cases hout with
    | refused hzero =>
        rw [State.Counts.snoc_iff rfl]
        exact iff_of_true h fun hr => hr.1 hzero
    | kept hpos hprice hle =>
        rw [State.Counts.snoc_iff rfl, h.change_iff hc hx hle]
        exact not_congr ⟨fun hlt => ⟨hpos, hprice, hlt⟩, fun hr => hr.2.2⟩
    | evicted hpos hmoved htick =>
        rw [State.Counts.snoc_iff rfl]
        exact iff_of_true h.leave fun hr => hmoved ⟨hr.2.1, UInt64.le_of_lt hr.2.2⟩
    | moved hpos hmoved htick =>
        rw [State.Counts.snoc_iff rfl]
        exact iff_of_true (h.move hx) fun hr => hmoved ⟨hr.2.1, UInt64.le_of_lt hr.2.2⟩

theorem place_counts_iff
    {clientId clientOrderId quantity : UInt64} {symbol : Symbol} {side : Side}
    {orderType : OrderType} {price : Option UInt64} {tif : TimeInForce}
    (hc : Consistent cfg s) (h : s.Counts hist) (hunnamed : s.Unnamed hist)
    (hnum : (place cfg s clientId clientOrderId symbol side orderType price
      quantity).1.nextNum ≤ 2 ^ 64) :
    (place cfg s clientId clientOrderId symbol side orderType price quantity).1.Counts
        (hist ++ (place cfg s clientId clientOrderId symbol side orderType price quantity).2) ↔
      ¬ Miscounts cfg s
        (.place clientId clientOrderId symbol side orderType price quantity tif) := by
  rcases place_outcomes cfg s clientId clientOrderId symbol side orderType price quantity with
    ⟨hno, hqueue, hrej⟩ | ⟨haccepted, hout⟩
  · rw [State.Counts.quiet_iff hqueue fun id => executed_eq_zero fun ev hev =>
      executed_of_resting? (resting?_rejection (hrej ev hev))]
    exact iff_of_true h fun hm => hno hm.1
  · rw [haccepted.nextNum] at hnum
    have hfresh : executed (UInt64.ofNat s.nextNum) hist = 0 := by
      refine hunnamed _ ?_
      rw [UInt64.toNat_ofNat', Nat.mod_eq_of_lt (by omega)]
    rw [hout.counts_iff (haccepted.started hc clientOrderId symbol side) hnum rfl h hfresh]
    exact not_congr ⟨fun hover => ⟨haccepted, hover⟩, fun hm => hm.2⟩

/-- **A command counts what it fills** exactly if it reduces no order in place and
takes no counter beyond 64 bits. -/
theorem handle_counts_iff
    (hc : Consistent cfg s) (h : s.Counts hist) (hunnamed : s.Unnamed hist)
    (c : Command) (hnum : (handle cfg s c).1.nextNum ≤ 2 ^ 64) :
    (handle cfg s c).1.Counts (hist ++ (handle cfg s c).2) ↔ ¬ Miscounts cfg s c := by
  cases c with
  | place clientId clientOrderId symbol side orderType price quantity tif =>
      exact place_counts_iff hc h hunnamed hnum
  | cancel clientId clientOrderId =>
      refine iff_of_true ?_ id
      rw [handle]
      rcases cancel_outcomes hc clientId clientOrderId with ⟨-, he⟩ | ⟨k, x, -, -, -, he⟩
      · rw [he, State.Counts.snoc_iff rfl]
        exact h
      · rw [he, State.Counts.snoc_iff rfl]
        exact h.leave
  | modify clientId clientOrderId newPrice newQty => exact modify_counts_iff hc h

/-- No event names an id before it is handed out. -/
theorem handle_unnamed
    (hc : Consistent cfg s) (h : s.Unnamed hist) (c : Command)
    (hnum : (handle cfg s c).1.nextNum ≤ 2 ^ 64) :
    (handle cfg s c).1.Unnamed (hist ++ (handle cfg s c).2) := by
  intro id hid
  rw [executed_append, h id ((nextNum_le_handle hc c).trans hid), Nat.zero_add]
  refine executed_eq_zero fun ev hev => ?_
  cases hfill : ev.resting? with
  | none => exact executed_of_resting? hfill
  | some i =>
      obtain ⟨clientId, clientOrderId, symbol, side, orderType, price, quantity, tif, k, x, qty,
        rfl, haccepted, hx, -, rfl⟩ := handle_fill hc c hev (by simp [hfill])
      rw [handle, haccepted.nextNum] at hnum hid
      have hxid := toNat_orderId hc (by omega) hx
      have hxnum := (hc.entry hx).num
      refine if_neg (not_or.mpr ⟨?_, ?_⟩)
      · rintro rfl
        rw [UInt64.toNat_ofNat', Nat.mod_eq_of_lt (by omega)] at hid
        omega
      · rintro rfl
        omega

end Commands

end PriceTime
end LmaxEngine
