import LmaxEngine.Results.Lines
import LmaxEngine.Results.Frame
import LmaxEngine.Spec.Conservation

/-!
# What a placement reports and conserves

A placement is rejected, or reports its fills and then what becomes of the rest:
a limit order comes to rest at the end of its level, and a market order is
cancelled.  What is filled is taken from the other side, and what rests is added
to its own.
-/

namespace LmaxEngine

open Checked Queues Arena PriceTime

/-- The quantity that the orders of a side hold together. -/
def Engine.sideQty (e : Engine) (side : Side) : Nat :=
  ∑ i ∈ Finset.range e.book.arena.orderStore.size,
    (e.book.arena.orderAt i).elim 0
      (fun o => if o.side = side then o.leavesQty.toNat else 0)

/-- The events of a placement and what has become of the book. -/
inductive Engine.Places
    (e e' : Engine) (clientId clientOrderId : UInt64) (symbol : Symbol) (side : Side)
    (orderType : OrderType) (price : Option UInt64) (quantity : UInt64) :
    List OutputEvent → Prop
  | rejected {reason : RejectReason}
      (hopposite : e'.sideQty side.opposite = e.sideQty side.opposite)
      (hown : e'.sideQty side = e.sideQty side) :
      Places e e' clientId clientOrderId symbol side orderType price quantity
        [.orderRejected clientId clientOrderId reason]
  | filled {fills : List OutputEvent}
      (hfills : ∀ ev, ev ∈ fills → 0 < ev.fillQty)
      (hall : filled fills = quantity.toNat) (hqty : quantity ≠ 0)
      (hopposite : e'.sideQty side.opposite + filled fills = e.sideQty side.opposite)
      (hown : e'.sideQty side = e.sideQty side) :
      Places e e' clientId clientOrderId symbol side orderType price quantity fills
  | accepted {fills : List OutputEvent} {left limit : UInt64} {t i : Nat}
      (htype : orderType = .limit) (hprice : price = some limit)
      (hfills : ∀ ev, ev ∈ fills → 0 < ev.fillQty)
      (hleft : filled fills + left.toNat = quantity.toNat) (hpos : 0 < left)
      (htick : e.book.priceToTick limit = .ok (some t))
      (htail : e'.book.slots side t = e.book.slots side t ++ [i])
      (horder : e'.book.arena.orderAt i =
        some (restingOrder e.nextOrderId clientId clientOrderId symbol side limit quantity left
          (quantity - left)))
      (hopposite : e'.sideQty side.opposite + filled fills = e.sideQty side.opposite)
      (hown : e'.sideQty side = e.sideQty side + left.toNat) :
      Places e e' clientId clientOrderId symbol side orderType price quantity
        (fills ++ [.orderAccepted e.nextOrderId clientId clientOrderId symbol side limit left])
  | cancelled {fills : List OutputEvent} {left : UInt64}
      (htype : orderType = .market)
      (hfills : ∀ ev, ev ∈ fills → 0 < ev.fillQty)
      (hleft : filled fills + left.toNat = quantity.toNat) (hpos : 0 < left)
      (hqueues : ∀ t, t < numTicks → e'.book.slots side t = e.book.slots side t)
      (hopposite : e'.sideQty side.opposite + filled fills = e.sideQty side.opposite)
      (hown : e'.sideQty side = e.sideQty side) :
      Places e e' clientId clientOrderId symbol side orderType price quantity
        (fills ++ [.orderCancelled e.nextOrderId clientId left])

/-- A placement reports something. -/
theorem Engine.Places.ne_nil
    {e e' : Engine} {clientId clientOrderId : UInt64} {symbol : Symbol} {side : Side}
    {orderType : OrderType} {price : Option UInt64} {quantity : UInt64} {es : List OutputEvent}
    (h : e.Places e' clientId clientOrderId symbol side orderType price quantity es) :
    es ≠ [] := by
  cases h with
  | rejected => simp
  | filled hfills hall hqty =>
      rintro rfl
      rw [LmaxEngine.filled_nil] at hall
      exact hqty (UInt64.toNat_inj.mp hall.symm)
  | accepted => simp
  | cancelled => simp

section Abstraction

variable {cfg : Config} {e e' : Engine} {s : State} {loc loc' : Nat → Nat}
variable {free free' : List Nat} {side : Side} {t : Nat}

theorem Engine.Refines.sideQty_eq
    (h : Engine.Refines cfg e s loc free) (side : Side) :
    e.sideQty side = s.sideQty side := by
  have hw := h.book.arena.weight
    (fun o : Order => if o.side = side then o.leavesQty.toNat else 0)
  rw [weigh_image] at hw
  rw [Engine.sideQty, State.sideQty]
  simp only [orderAt_eq]
  exact hw

/-- Where a queue is as before, so are the slots of its level. -/
theorem Engine.Refines.slots_congr
    {s' : State}
    (h : Engine.Refines cfg e s loc free) (hc : Consistent cfg s)
    (h' : Engine.Refines cfg e' s' loc' free')
    (hloc : ∀ m, m < s.nextNum → loc' m = loc m) (ht : t < numTicks)
    (hqueue : s'.queue (side, t) = s.queue (side, t)) :
    e'.book.slots side t = e.book.slots side t := by
  rw [h'.slots_eq ht, h.slots_eq ht, hqueue]
  exact List.map_congr_left fun x hx => hloc _ (hc.entry hx).num

/-- Where a queue has one entry more, its level has one slot more. -/
theorem Engine.Refines.slots_snoc
    {s' : State} {x : Entry}
    (h : Engine.Refines cfg e s loc free) (hc : Consistent cfg s)
    (h' : Engine.Refines cfg e' s' loc' free')
    (hloc : ∀ m, m < s.nextNum → loc' m = loc m) (ht : t < numTicks)
    (hqueue : s'.queue (side, t) = s.queue (side, t) ++ [x]) :
    e'.book.slots side t = e.book.slots side t ++ [loc' x.num] := by
  rw [h'.slots_eq ht, h.slots_eq ht, hqueue, List.map_append, List.map_singleton]
  congr 1
  exact List.map_congr_left fun x hx => hloc _ (hc.entry hx).num

/-- The end of a placement on the plain book is its end on the engine. -/
theorem Engine.Refines.places_of_ended
    {clientId clientOrderId quantity : UInt64} {symbol : Symbol} {orderType : OrderType}
    {price : Option UInt64} {r : State × List OutputEvent}
    (h : Engine.Refines cfg e s loc free) (hc : Consistent cfg s)
    (haccepted : Accepted cfg s clientId orderType price quantity)
    (hended : Ended cfg (s.account clientId).number
      (s.placement clientId clientOrderId symbol side (limitOf orderType price) quantity) r)
    (h' : Engine.Refines cfg e' r.1 loc' free') (hloc : ∀ m, m < s.nextNum → loc' m = loc m) :
    e.Places e' clientId clientOrderId symbol side orderType price quantity r.2 := by
  have hqty : ∀ side, (s.account clientId).number.sideQty side = e.sideQty side :=
    fun side => (h.sideQty_eq side).symm
  cases hended with
  | filled htraded =>
      refine Engine.Places.filled htraded.positive htraded.sum haccepted.qty ?_ ?_
      · rw [h'.sideQty_eq, ← hqty]
        exact htraded.oppositeQty
      · rw [h'.sideQty_eq, ← hqty]
        exact htraded.ownQty
  | @cancelled s' fills left htraded hlimit hpos =>
      have htype : orderType = .market := by
        cases orderType with
        | market => rfl
        | limit =>
            have htick := haccepted.tick rfl
            obtain rfl : price = none := hlimit
            exact absurd htick (by simp)
      change e.Places e' clientId clientOrderId symbol side orderType price quantity
        (fills ++ [.orderCancelled (UInt64.ofNat s.nextNum) clientId left])
      rw [← h.nextOrderId]
      refine Engine.Places.cancelled htype htraded.positive htraded.sum hpos
        (fun t ht => h.slots_congr hc h' hloc ht (htraded.own t)) ?_ ?_
      · rw [h'.sideQty_eq, ← hqty]
        exact htraded.oppositeQty
      · rw [h'.sideQty_eq, ← hqty]
        exact htraded.ownQty
  | @rested s' fills left limit t htraded hlimit htick hpos =>
      obtain ⟨rfl, rfl⟩ : orderType = .limit ∧ price = some limit := by
        cases orderType with
        | market => exact absurd hlimit nofun
        | limit => exact ⟨rfl, hlimit⟩
      change e.Places e' clientId clientOrderId symbol side .limit (some limit) quantity
        (fills ++ [.orderAccepted (UInt64.ofNat s.nextNum) clientId clientOrderId symbol side
          limit left])
      have hne : side ≠ side.opposite := by cases side <;> exact nofun
      have hrest : ∀ side', (s'.rest (side, t) (Placement.entry
            { s.placement clientId clientOrderId symbol side (limitOf .limit (some limit)) quantity
              with leavesQty := left } limit)).sideQty side' =
          s'.sideQty side' + if side = side' then left.toNat else 0 :=
        fun side' => sideQty_rest (tickOf_lt htick) side'
      have hqueue : (s'.rest (side, t) (Placement.entry
          { s.placement clientId clientOrderId symbol side (limitOf .limit (some limit)) quantity
            with leavesQty := left } limit)).queue (side, t) = s.queue (side, t) ++ [_] :=
        push_self.trans (congrArg (· ++ [_]) (htraded.own t))
      rw [← h.nextOrderId]
      refine Engine.Places.accepted rfl rfl htraded.positive htraded.sum hpos
        (h.priceToTick_iff.mpr htick)
        (h.slots_snoc hc h' hloc (tickOf_lt htick) hqueue) ?_ ?_ ?_
      · rw [h.nextOrderId]
        exact h'.orderAt (mem_push.mpr (Or.inr ⟨rfl, rfl⟩))
      · rw [h'.sideQty_eq, ← hqty]
        refine (congrArg (· + filled fills) (hrest side.opposite)).trans ?_
        rw [if_neg hne, Nat.add_zero]
        exact htraded.oppositeQty
      · rw [h'.sideQty_eq, ← hqty]
        refine (hrest side).trans ?_
        rw [if_pos rfl]
        exact congrArg (· + left.toNat) htraded.ownQty
  | full hlimit =>
      exact Engine.Places.rejected (by rw [h'.sideQty_eq, hqty]) (by rw [h'.sideQty_eq, hqty])

end Abstraction

section Results

variable {cfg : Config} {e : Engine} {cs : List Command} {evs : List (List OutputEvent)}
variable {clientId clientOrderId quantity : UInt64}
variable {symbol : Symbol} {side : Side} {orderType : OrderType} {price : Option UInt64}
variable {tif : TimeInForce}

/-- **What a placement reports and conserves.**  It has a result where the ticks have a
size, and whatever it results in. -/
theorem run_places
    (hpos : 1 ≤ cfg.capacity) (hlt : cfg.capacity < 2 ^ 32)
    (hrun : (Engine.new cfg).run Build.release cs = .ok (e, evs)) :
    (cfg.tickSize ≠ 0 → ∃ e' es, e.handle Build.release
      (.place clientId clientOrderId symbol side orderType price quantity tif) = .ok (e', es)) ∧
    ∀ e' es, e.handle Build.release
        (.place clientId clientOrderId symbol side orderType price quantity tif) = .ok (e', es) →
      e.Places e' clientId clientOrderId symbol side orderType price quantity es ∧ es ≠ [] := by
  obtain ⟨hs, -⟩ := Engine.simulates_of_run Build.wrapping_release hpos hlt hrun
  have hc := run_consistent (consistent_new cfg) cs
  refine ⟨fun htick => Engine.exists_handle Build.wrapping_release htick hs hc _,
    fun e' es he => ?_⟩
  obtain ⟨loc, free, h⟩ := hs
  generalize (PriceTime.run cfg State.new cs).1 = s at h hc
  obtain ⟨rfl, loc', free', h', hloc⟩ := h.handle_loc hc he
  refine (fun hplaces => ⟨hplaces, hplaces.ne_nil⟩) ?_
  rw [PriceTime.handle] at h' ⊢
  rcases place_endings hc clientId clientOrderId symbol side orderType price quantity with
    ⟨reason, s', hqueue, hp⟩ | ⟨haccepted, hended⟩
  · rw [hp] at h' ⊢
    have hqty : ∀ side, e'.sideQty side = e.sideQty side := by
      intro side
      rw [h'.sideQty_eq, h.sideQty_eq, State.sideQty, State.sideQty, hqueue]
    exact Engine.Places.rejected (hqty _) (hqty _)
  · exact h.places_of_ended hc haccepted hended h' hloc

/-- An ask that takes both bids that the session leaves, and rests with one lot. -/
theorem run_places_sweepingAsk :
    ∃ e e', (Engine.new smallConfig).run Build.release session = .ok (e, sessionEvents) ∧
      e.handle Build.release sweepingAsk = .ok (e', sweepingEvents) ∧
      e.Places e' 7 0 (Vector.replicate 8 0) .sell .limit (some 100) 4 sweepingEvents ∧
      sweepingEvents ≠ [] := by
  obtain ⟨e, e', hrun, he⟩ := exists_handle_sweepingAsk
  exact ⟨e, e', hrun, he, (run_places (by decide) (by decide) hrun).2 e' sweepingEvents he⟩

end Results

end LmaxEngine
