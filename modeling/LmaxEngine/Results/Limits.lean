import LmaxEngine.Results.Lines
import LmaxEngine.Results.Frame
import LmaxEngine.Spec.Limits

/-!
# Limit prices

A limit order is to fill at prices within its limit, and not to leave an order of
the other side that crosses it.  The engine compares the limit with the lowest
price of a tick and fills at the price of the order, so both can fail in the tick
of the limit, and nowhere else.
-/

namespace LmaxEngine

open Checked Queues Arena PriceTime

/-- Every fill is within the limit, and if something is left of an order that
passed all checks no resting order of the other side crosses it. -/
def Engine.HonoursLimit
    (e e' : Engine) (es : List OutputEvent)
    (clientId : UInt64) (side : Side) (limit quantity : UInt64) : Prop :=
  (∀ ev, ev ∈ es → ev.FillsWithin side limit) ∧
    (e.Accepts clientId .limit (some limit) quantity → filled es < quantity.toNat →
      ∀ i o, e'.book.arena.orderAt i = some o → o.side = side.opposite →
        crosses side limit o.price = false)

/-- For a bid: in the tick of the limit an ask rests above the limit, and the orders
ahead of it hold less than the quantity.  For an ask: the bids at ticks that start
at the limit or above it hold less than the quantity, and in the tick of the limit,
which starts below it, a bid rests that reaches it. -/
def Engine.Misprices
    (cfg : Config) (e : Engine) (side : Side) (limit quantity : UInt64) : Prop :=
  match side with
  | .buy => ∃ t, e.book.priceToTick limit = .ok (some t) ∧
      ∃ i o, i ∈ e.book.slots .sell t ∧ e.book.arena.orderAt i = some o ∧
        limit < o.price ∧ e.aheadQty .sell i < quantity.toNat
  | .sell => e.across cfg .sell limit < quantity.toNat ∧
      ∃ t, e.book.priceToTick limit = .ok (some t) ∧
        ∃ i o, i ∈ e.book.slots .buy t ∧ e.book.arena.orderAt i = some o ∧
          limit ≤ o.price ∧ priceOf cfg t < limit

section Abstraction

variable {cfg : Config} {e e' : Engine} {s : State} {loc : Nat → Nat} {free : List Nat}
variable {side : Side} {limit quantity : UInt64}

/-- An order in a slot of a level is one of an entry of its queue. -/
theorem Engine.Refines.exists_slot_iff
    {t : Nat} (P : Nat → Order → Prop)
    (h : Engine.Refines cfg e s loc free) (ht : t < numTicks) :
    (∃ i o, i ∈ e.book.slots side t ∧ e.book.arena.orderAt i = some o ∧ P i o) ↔
      ∃ x, x ∈ s.queue (side, t) ∧ P (loc x.num) x.order := by
  rw [h.slots_eq ht]
  constructor
  · rintro ⟨i, o, hi, ho, hp⟩
    obtain ⟨x, hx, rfl⟩ := List.mem_map.mp hi
    rw [h.orderAt hx, Option.some.injEq] at ho
    subst ho
    exact ⟨x, hx, hp⟩
  · rintro ⟨x, hx, hp⟩
    exact ⟨_, _, List.mem_map_of_mem hx, h.orderAt hx, hp⟩

theorem Engine.Refines.misprices_iff
    (h : Engine.Refines cfg e s loc free) (hc : Consistent cfg s) :
    e.Misprices cfg side limit quantity ↔ PriceTime.Misprices cfg s side limit quantity := by
  cases side with
  | buy =>
      refine exists_congr fun t => ?_
      rw [h.priceToTick_iff]
      refine and_congr_right fun ht => (h.exists_slot_iff (fun i o =>
        limit < o.price ∧ e.aheadQty .sell i < quantity.toNat) (tickOf_lt ht)).trans ?_
      exact exists_congr fun x => and_congr_right fun hx => by rw [h.aheadQty_eq hc hx]
  | sell =>
      refine and_congr (by rw [h.across_eq]) (exists_congr fun t => ?_)
      rw [h.priceToTick_iff]
      exact and_congr_right fun ht => h.exists_slot_iff (fun _ o =>
        limit ≤ o.price ∧ priceOf cfg t < limit) (tickOf_lt ht)

/-- No resting order of a side crosses the limit where no entry does. -/
theorem Engine.Refines.no_crossing_iff
    (h : Engine.Refines cfg e s loc free) (hc : Consistent cfg s) :
    (∀ i o, e.book.arena.orderAt i = some o → o.side = side.opposite →
        crosses side limit o.price = false) ↔
      ∀ k x, x ∈ s.queue k → k.1 = side.opposite →
        crosses side limit x.order.price = false := by
  constructor
  · intro hall k x hx hside
    exact hall _ _ (h.orderAt hx) (by rw [(hc.entry hx).side, hside])
  · intro hall i o ho hside
    obtain ⟨k, x, hx, -, rfl⟩ := h.entry ho
    exact hall k x hx (by rw [← (hc.entry hx).side, hside])

end Abstraction

section Results

variable {cfg : Config} {e e' : Engine} {cs : List Command} {evs : List (List OutputEvent)}
variable {es : List OutputEvent} {clientId clientOrderId limit quantity : UInt64}
variable {symbol : Symbol} {side : Side} {tif : TimeInForce}

/-- **When a limit is honoured.**  In every state that a run reaches, for every base
price and tick size, a limit order fills within its limit and leaves no order that
crosses it exactly if it is not accepted where the orders in its own tick are
mispriced. -/
theorem run_honours_limit_iff
    (hpos : 1 ≤ cfg.capacity) (hlt : cfg.capacity < 2 ^ 32)
    (hrun : (Engine.new cfg).run Build.release cs = .ok (e, evs))
    (he : e.handle Build.release
      (.place clientId clientOrderId symbol side .limit (some limit) quantity tif) =
        .ok (e', es)) :
    e.HonoursLimit e' es clientId side limit quantity ↔
      ¬ (e.Accepts clientId .limit (some limit) quantity ∧
        e.Misprices cfg side limit quantity) := by
  obtain ⟨⟨loc, free, h⟩, -⟩ := Engine.simulates_of_run Build.wrapping_release hpos hlt hrun
  have hc := run_consistent (consistent_new cfg) cs
  generalize (PriceTime.run cfg State.new cs).1 = s at h hc
  obtain ⟨rfl, loc', free', h', -⟩ := h.handle_loc hc he
  have hc' := handle_consistent hc
    (.place clientId clientOrderId symbol side .limit (some limit) quantity tif)
  rw [Engine.HonoursLimit, h.accepts_iff, h.misprices_iff hc, h'.no_crossing_iff hc']
  by_cases haccepted : Accepted cfg s clientId .limit (some limit) quantity
  · have hplace := place_honours_iff hc haccepted clientOrderId symbol side
    simp only [haccepted, true_and, true_implies]
    exact hplace
  · refine iff_of_true ⟨fun ev hev => place_not_accepted_within haccepted hev, ?_⟩ ?_
    · exact fun ha => absurd ha haccepted
    · exact fun hbad => haccepted hbad.1

/-- An ask for one lot that the bid at 103 is to meet. -/
theorem run_honours_limit_iff_askOne :
    ∃ e evs e' es, (Engine.new coarseConfig).run Build.release [askOne 2 105] = .ok (e, evs) ∧
      e.handle Build.release (bidOne 1 103) = .ok (e', es) ∧
      (e.HonoursLimit e' es 1 .buy 103 1 ↔
        ¬ (e.Accepts 1 .limit (some 103) 1 ∧ e.Misprices coarseConfig .buy 103 1)) := by
  obtain ⟨⟨e, evs⟩, hrun, hstep⟩ := exists_of_yields
    (x := (Engine.new coarseConfig).run Build.release [askOne 2 105])
    (p := fun r => (r.1.handle Build.release (bidOne 1 103)).isOk) (by decide +kernel)
  obtain ⟨⟨e', es⟩, he⟩ := exists_of_isOk hstep
  exact ⟨e, evs, e', es, hrun, he, run_honours_limit_iff (by decide) (by decide) hrun he⟩

/-- The bid at 103 fills the ask at 105, in the tick from 100 to 109. -/
theorem mispriced_bidOne :
    ∃ e evs e' es, (Engine.new coarseConfig).run Build.release [askOne 2 105] = .ok (e, evs) ∧
      e.handle Build.release (bidOne 1 103) = .ok (e', es) ∧
      .fill 2 1 1 2 (Vector.replicate 8 0) 105 1 .buy ∈ es ∧
      ¬ e.HonoursLimit e' es 1 .buy 103 1 := by
  obtain ⟨⟨e, evs⟩, hrun, hstep⟩ := exists_of_yields
    (x := (Engine.new coarseConfig).run Build.release [askOne 2 105])
    (p := fun r => yields (r.1.handle Build.release (bidOne 1 103))
      (fun r' => decide (.fill 2 1 1 2 (Vector.replicate 8 0) 105 1 .buy ∈ r'.2)))
    (by decide +kernel)
  obtain ⟨⟨e', es⟩, he, hfill⟩ := exists_of_yields hstep
  rw [decide_eq_true_eq] at hfill
  refine ⟨e, evs, e', es, hrun, he, hfill, fun hh => ?_⟩
  have hcross : crosses .buy 103 105 = true := hh.1 _ hfill
  exact absurd hcross (by decide)

end Results

end LmaxEngine
