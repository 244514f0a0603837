import LmaxEngine.Results.Feed
import LmaxEngine.Spec.Replacing

/-!
# A modification and a new order in its place

A client that wants its order at another price can modify it, or cancel it and place
it anew.  Both put the order at the end of the queue of the new price.  The new order
is matched first and the modified one is not, and this is the only difference.
-/

namespace LmaxEngine

open Checked Queues Arena PriceTime

/-- The same orders in the same queues, but for the ids that the engine has handed
out, and the same open orders of every client. -/
structure Engine.SameBook (e e' : Engine) : Prop where
  quotes : ∀ side t, t < numTicks →
    (e.quotes side t).map Quote.anonymous = (e'.quotes side t).map Quote.anonymous
  openOrders : ∀ c,
    (accountOf e.clients c).openOrders = (accountOf e'.clients c).openOrders

section Results

variable {cfg : Config} {e e₁ e₂ : Engine} {s s' : State}
variable {cs : List Command} {evs evs₂ : List (List OutputEvent)} {es₁ : List OutputEvent}

theorem Engine.Simulates.sameBook_iff
    (h : e.Simulates cfg s) (hc : Consistent cfg s)
    (h' : e₁.Simulates cfg s') (hc' : Consistent cfg s') :
    e.SameBook e₁ ↔ PriceTime.SameBook s s' := by
  obtain ⟨loc, free, h⟩ := h
  obtain ⟨loc', free', h'⟩ := h'
  have hquotes : ∀ {e : Engine} {s : State} {loc free}, Engine.Refines cfg e s loc free →
      ∀ side t, t < numTicks → (e.quotes side t).map Quote.anonymous =
        (s.queue (side, t)).map (fun x => x.order.quote.anonymous) := by
    intro e s loc free h side t ht
    rw [h.quotes_eq ht, image, List.map_map]
    rfl
  have hnil : ∀ {s : State}, Consistent cfg s → ∀ k : Level, ¬ k.2 < numTicks →
      s.queue k = [] := fun hc k ht =>
    List.eq_nil_iff_forall_not_mem.mpr fun x hx => ht (tickOf_lt (hc.entry hx).tick)
  constructor
  · intro hs
    refine ⟨?_, fun c => ?_⟩
    · rintro ⟨side, t⟩
      by_cases ht : t < numTicks
      · rw [← hquotes h side t ht, ← hquotes h' side t ht]
        exact hs.quotes side t ht
      · rw [hnil hc (side, t) ht, hnil hc' (side, t) ht]
    · rw [← h.clients, ← h'.clients]
      have hopen := hs.openOrders c
      generalize accountOf e.clients c = ac at hopen
      cases ac
      exact congrArg ClientAccount.mk hopen
  · intro hs
    refine ⟨fun side t ht => ?_, fun c => ?_⟩
    · rw [hquotes h side t ht, hquotes h' side t ht]
      exact hs.queues (side, t)
    · rw [h.clients, h'.clients, hs.accounts]

/-- **When a modification is a new order in its place.**  In every state that a run
reaches, take a modification that puts an order into another queue.  To cancel the
order and to place it anew with the same price and quantity leaves the same book, but
for the order's id, exactly if the new price crosses no resting order. -/
theorem run_replaces_iff
    {i t : Nat} {o : Order} {clientId clientOrderId : UInt64} {tif : TimeInForce}
    (newPrice newQty : Option UInt64)
    (hpos : 1 ≤ cfg.capacity) (hlt : cfg.capacity < 2 ^ 32)
    (hrun : (Engine.new cfg).run Build.release cs = .ok (e, evs))
    (hn : e.Names (clientId, clientOrderId) i o)
    (hqty : newQty.getD o.leavesQty ≠ 0)
    (hmoved : ¬ (newPrice.getD o.price = o.price ∧ newQty.getD o.leavesQty ≤ o.leavesQty))
    (htick : e.book.priceToTick (newPrice.getD o.price) = .ok (some t))
    (hmodify : e.handle Build.release (.modify clientId clientOrderId newPrice newQty) =
      .ok (e₁, es₁))
    (hreplace : e.run Build.release
        [.cancel clientId clientOrderId,
          .place clientId clientOrderId o.symbol o.side .limit (some (newPrice.getD o.price))
            (newQty.getD o.leavesQty) tif] = .ok (e₂, evs₂)) :
    e₁.SameBook e₂ ↔ ∀ j o', e.book.arena.orderAt j = some o' →
      hits cfg o.side (some (newPrice.getD o.price)) o' = false := by
  obtain ⟨hs, -⟩ := Engine.simulates_of_run Build.wrapping_release hpos hlt hrun
  have hc := run_consistent (consistent_new cfg) cs
  generalize (PriceTime.run cfg State.new cs).1 = s at hs hc
  obtain ⟨hs₂, -⟩ := hs.of_run Build.wrapping_release hc hreplace
  have hc₂ := run_consistent hc [.cancel clientId clientOrderId,
    .place clientId clientOrderId o.symbol o.side .limit (some (newPrice.getD o.price))
      (newQty.getD o.leavesQty) tif]
  obtain ⟨loc, free, h⟩ := hs
  obtain ⟨-, loc', free', h₁, -⟩ := h.handle_loc hc hmodify
  have hc₁ := handle_consistent hc (.modify clientId clientOrderId newPrice newQty)
  obtain ⟨k, x, hx, hindex, -, rfl⟩ := (h.names_iff hc).mp hn
  have htick' := h.priceToTick_iff.mp htick
  obtain ⟨hkey, hout⟩ := modified_of_index newPrice newQty hc hx hindex
  obtain ⟨rfl, rfl⟩ := Prod.mk.inj hkey
  have hmove : (PriceTime.handle cfg s
      (.modify x.order.clientId x.order.clientOrderId newPrice newQty)).1 =
        s.move k x (x.order.side, t) (requeuedAs (newPrice.getD x.order.price)
          (newQty.getD x.order.leavesQty) x.order) := by
    rw [PriceTime.handle, hout.eq, modifiedBy, if_neg hqty, if_neg hmoved]
    simp only [htick']
  have hcancel := cancel_eq hc hx hindex
  have hplace : (PriceTime.run cfg s
      [.cancel x.order.clientId x.order.clientOrderId,
        .place x.order.clientId x.order.clientOrderId x.order.symbol x.order.side .limit
          (some (newPrice.getD x.order.price)) (newQty.getD x.order.leavesQty) tif]).1 =
        (place cfg (s.leave k x) x.order.clientId x.order.clientOrderId x.order.symbol
          x.order.side .limit (some (newPrice.getD x.order.price))
          (newQty.getD x.order.leavesQty)).1 := by
    simp only [PriceTime.run, PriceTime.handle, hcancel]
  have hs₁ : e₁.Simulates cfg _ := ⟨loc', free', h₁⟩
  rw [hs₁.sameBook_iff hc₁ hs₂ hc₂, hmove, hplace, sameBook_move_iff hc hx hqty htick']
  constructor
  · intro hmiss j o ho
    obtain ⟨k', y, hy, -, rfl⟩ := h.entry ho
    exact hmiss k' y hy
  · exact fun hmiss k' y hy => hmiss _ _ (h.orderAt hy)

/-- The bid of `bidOne` as it rests. -/
def restingBid : Order :=
  restingOrder 1 1 0 (Vector.replicate 8 0) .buy 100 1 1 0

/-- A bid below an ask is modified to another price below it. -/
theorem run_replaces_iff_restingBid :
    ∃ e evs e₁ es₁ e₂ evs₂,
      (Engine.new smallConfig).run Build.release [bidOne 1 100, askOne 2 105] = .ok (e, evs) ∧
      e.Names (1, 0) 0 restingBid ∧
      e.handle Build.release (.modify 1 0 (some 103) none) = .ok (e₁, es₁) ∧
      e.run Build.release [.cancel 1 0,
        .place 1 0 restingBid.symbol .buy .limit (some 103) 1 .gtc] = .ok (e₂, evs₂) ∧
      (e₁.SameBook e₂ ↔ ∀ j o', e.book.arena.orderAt j = some o' →
        hits smallConfig .buy (some 103) o' = false) := by
  obtain ⟨⟨e, evs⟩, hrun, hstep⟩ := exists_of_yields
    (x := (Engine.new smallConfig).run Build.release [bidOne 1 100, askOne 2 105])
    (p := fun r =>
      (r.1.orderIndex (1, 0)).any (fun l =>
        yields (r.1.book.arena.validate l.oid) (fun v => decide (v = some 0))) &&
      decide (r.1.book.arena.orderAt 0 = some restingBid) &&
      yields (r.1.book.priceToTick 103) (fun v => decide (v = some 3)) &&
      (r.1.handle Build.release (.modify 1 0 (some 103) none)).isOk &&
      (r.1.run Build.release [.cancel 1 0,
        .place 1 0 restingBid.symbol .buy .limit (some 103) 1 .gtc]).isOk)
    (by decide +kernel)
  simp only [Bool.and_eq_true, Option.any_eq_true, decide_eq_true_eq] at hstep
  obtain ⟨⟨⟨⟨⟨locator, hindex, hvalid⟩, horder⟩, htick⟩, hmodify⟩, hreplace⟩ := hstep
  obtain ⟨v, hvalid, hv⟩ := exists_of_yields hvalid
  obtain ⟨v', htick, hv'⟩ := exists_of_yields htick
  rw [of_decide_eq_true hv] at hvalid
  rw [of_decide_eq_true hv'] at htick
  obtain ⟨⟨e₁, es₁⟩, hmodify⟩ := exists_of_isOk hmodify
  obtain ⟨⟨e₂, evs₂⟩, hreplace⟩ := exists_of_isOk hreplace
  have hn : e.Names (1, 0) 0 restingBid := ⟨locator, hindex, hvalid, horder⟩
  exact ⟨e, evs, e₁, es₁, e₂, evs₂, hrun, hn, hmodify, hreplace,
    run_replaces_iff (some 103) none (by decide) (by decide) hrun hn (by decide) (by decide)
      htick hmodify hreplace⟩

end Results

end LmaxEngine
