import LmaxEngine.Spec.Precedence

/-!
# Whose orders a fill is about

The aggressor of a fill is the placement that is handled, with its symbol.  The
resting order is one that the placement is offered to.  An order keeps its id and
its symbol from the placement that it comes from.
-/

namespace LmaxEngine
namespace PriceTime

open Queues Transition

section Symbols

variable {cfg : Config} {s : State} {k : Level} {x y : Entry} {p : Placement}

theorem offer_number
    (s : State) (c : UInt64) (p : Placement) (x : Entry) :
    offer cfg (s.account c).number p x = offer cfg s p x := rfl

/-- A placement under way keeps its number. -/
theorem Placed.nextNum
    {r : State × List OutputEvent}
    (h : Placed cfg s p r) :
    r.1.nextNum = s.nextNum := by
  cases h with
  | matched => exact sweep_nextNum p _ s
  | rested => exact sweep_nextNum p _ s

/-- The orders that a placement leaves, and its own. -/
theorem Placed.origin
    {r : State × List OutputEvent}
    (hm : MomentOk cfg ⟨s, some p⟩) (h : Placed cfg s p r) (hy : y ∈ r.1.queue k) :
    (∃ x, x ∈ s.queue k ∧ y.order.orderId = x.order.orderId ∧
        y.order.symbol = x.order.symbol) ∨
      (y.order.orderId = UInt64.ofNat p.num ∧ y.order.symbol = p.symbol) := by
  have hold : ∀ y, y ∈ (p.sweep cfg (s.resting + 1) s).1.queue k →
      ∃ x, x ∈ s.queue k ∧ y.order.orderId = x.order.orderId ∧
        y.order.symbol = x.order.symbol := by
    intro y hy
    obtain ⟨x, hx, -, rfl⟩ := (mem_sweep_iff hm (Nat.lt_succ_self _)).mp hy
    exact ⟨x, hx, rfl, rfl⟩
  cases h with
  | matched => exact Or.inl (hold y hy)
  | rested =>
      rcases mem_push.mp hy with hy | ⟨-, rfl⟩
      · exact Or.inl (hold y hy)
      · exact Or.inr ⟨rfl, rfl⟩

/-- The fills of a placement. -/
theorem Placed.fill
    {r : State × List OutputEvent} {ev : OutputEvent}
    (hm : MomentOk cfg ⟨s, some p⟩) (h : Placed cfg s p r) (hev : ev ∈ r.2)
    (hfill : ev.resting? ≠ none) :
    ∃ k x qty, x ∈ s.queue k ∧ 0 < offer cfg s p x ∧ ev = p.fill x.order qty := by
  have hfills : ∀ ev, ev ∈ (p.sweep cfg (s.resting + 1) s).2.2 →
      ∃ k x qty, x ∈ s.queue k ∧ 0 < offer cfg s p x ∧ ev = p.fill x.order qty := by
    intro ev hev
    obtain ⟨k, x, hx, hpos, he⟩ := (mem_sweep_events_iff hm (Nat.lt_succ_self _)).mp hev
    exact ⟨k, x, _, hx, hpos, he⟩
  cases h with
  | matched hes =>
      rcases List.mem_append.mp hev with hev | hev
      · exact hfills ev hev
      · rcases hes ev hev with hrej | rfl
        · exact absurd (resting?_rejection hrej) hfill
        · exact absurd rfl hfill
  | rested =>
      rcases List.mem_append.mp hev with hev | hev
      · exact hfills ev hev
      · obtain rfl := List.mem_singleton.mp hev
        exact absurd rfl hfill

variable {clientId clientOrderId : UInt64} {symbol : Symbol} {side : Side}
variable {orderType : OrderType} {price : Option UInt64} {quantity : UInt64}

/-- An accepted placement takes a number. -/
theorem Accepted.nextNum
    (h : Accepted cfg s clientId orderType price quantity) :
    (place cfg s clientId clientOrderId symbol side orderType price quantity).1.nextNum =
      s.nextNum + 1 := by
  rcases place_outcomes cfg s clientId clientOrderId symbol side orderType price quantity with
    ⟨hno, -⟩ | ⟨-, hout⟩
  · exact absurd h hno
  · exact hout.nextNum

/-- **Where an order comes from:** an old one with its id and its symbol, or the
placement that is handled. -/
theorem handle_symbols
    (hc : Consistent cfg s) (c : Command) (hy : y ∈ (handle cfg s c).1.queue k) :
    (∃ k' x, x ∈ s.queue k' ∧ y.order.orderId = x.order.orderId ∧
        y.order.symbol = x.order.symbol) ∨
      ∃ clientId clientOrderId side orderType price quantity tif,
        c = .place clientId clientOrderId y.order.symbol side orderType price quantity tif ∧
        Accepted cfg s clientId orderType price quantity ∧
        y.order.orderId = UInt64.ofNat s.nextNum := by
  cases c with
  | place clientId clientOrderId symbol side orderType price quantity tif =>
      rw [handle] at hy
      rcases place_outcomes cfg s clientId clientOrderId symbol side orderType price quantity with
        ⟨-, hqueue, -⟩ | ⟨haccepted, hout⟩
      · rw [hqueue] at hy
        exact Or.inl ⟨k, y, hy, rfl, rfl⟩
      · rcases hout.origin (haccepted.started hc clientOrderId symbol side) hy with
          ⟨x, hx, hid, hsymbol⟩ | ⟨hid, hsymbol⟩
        · exact Or.inl ⟨k, x, hx, hid, hsymbol⟩
        · refine Or.inr ⟨clientId, clientOrderId, side, orderType, price, quantity, tif, ?_,
            haccepted, hid⟩
          rw [hsymbol]
          rfl
  | cancel clientId clientOrderId =>
      rw [handle] at hy
      rcases cancel_outcomes hc clientId clientOrderId with ⟨-, he⟩ | ⟨k', x, -, -, -, he⟩
      · rw [he] at hy
        exact Or.inl ⟨k, y, hy, rfl, rfl⟩
      · rw [he] at hy
        exact Or.inl ⟨k, y, (mem_discard.mp hy).1, rfl, rfl⟩
  | modify clientId clientOrderId newPrice newQty =>
      rw [handle] at hy
      rcases modify_outcomes hc clientId clientOrderId newPrice newQty with
        ⟨-, he⟩ | ⟨k', x, hx, -, -, hout⟩
      · rw [he] at hy
        exact Or.inl ⟨k, y, hy, rfl, rfl⟩
      · generalize modify cfg s clientId clientOrderId newPrice newQty = r at hy hout
        cases hout with
        | refused => exact Or.inl ⟨k, y, hy, rfl, rfl⟩
        | kept =>
            rcases (mem_change hc.distinct hx).mp hy with ⟨hy, -⟩ | ⟨-, rfl⟩
            · exact Or.inl ⟨k, y, hy, rfl, rfl⟩
            · exact Or.inl ⟨k', x, hx, rfl, rfl⟩
        | evicted => exact Or.inl ⟨k, y, (mem_discard.mp hy).1, rfl, rfl⟩
        | moved =>
            rcases mem_push.mp hy with hy | ⟨-, rfl⟩
            · exact Or.inl ⟨k, y, (mem_discard.mp hy).1, rfl, rfl⟩
            · exact Or.inl ⟨k', x, hx, rfl, rfl⟩

/-- **The two orders of a fill:** the placement that is handled, and an entry that
it is offered to. -/
theorem handle_fill
    {ev : OutputEvent}
    (hc : Consistent cfg s) (c : Command) (hev : ev ∈ (handle cfg s c).2)
    (hfill : ev.resting? ≠ none) :
    ∃ clientId clientOrderId symbol side orderType price quantity tif k x qty,
      c = .place clientId clientOrderId symbol side orderType price quantity tif ∧
      Accepted cfg s clientId orderType price quantity ∧ x ∈ s.queue k ∧
      0 < offer cfg s
        (s.placement clientId clientOrderId symbol side (limitOf orderType price) quantity) x ∧
      ev = fillEvent s.nextNum clientId symbol side x.order qty := by
  cases hplace : c.isPlace with
  | false => exact absurd (handle_resting? hc hplace hev) hfill
  | true =>
      cases c with
      | cancel => exact absurd hplace (by simp [Command.isPlace])
      | modify => exact absurd hplace (by simp [Command.isPlace])
      | place clientId clientOrderId symbol side orderType price quantity tif =>
          rw [handle] at hev
          rcases place_outcomes cfg s clientId clientOrderId symbol side orderType price quantity
            with ⟨-, -, hrej⟩ | ⟨haccepted, hout⟩
          · exact absurd (resting?_rejection (hrej ev hev)) hfill
          · obtain ⟨k, x, qty, hx, hpos, he⟩ :=
              hout.fill (haccepted.started hc clientOrderId symbol side) hev hfill
            rw [offer_number] at hpos
            exact ⟨clientId, clientOrderId, symbol, side, orderType, price, quantity, tif, k, x,
              qty, rfl, haccepted, hx, hpos, he⟩

end Symbols

end PriceTime
end LmaxEngine
