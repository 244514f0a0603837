import LmaxEngine.Results.Faults
import LmaxEngine.Results.Frame
import LmaxEngine.Spec.Fates

/-!
# What becomes of a placement

On the engine, the open orders of a client are the occupied slots with its orders, and
what is on offer to a placement are the quantities of the occupied slots that it hits.
They settle what the engine answers, before a single order is matched.
-/

namespace LmaxEngine

open Checked Queues Arena PriceTime

/-- The quantity that the orders hit by a placement hold together. -/
def Engine.onOffer (cfg : Config) (e : Engine) (side : Side) (limitPrice : Option UInt64) : Nat :=
  ∑ i ∈ Finset.range e.book.arena.orderStore.size,
    (e.book.arena.orderAt i).elim 0 (hitQty cfg side limitPrice)

/-- The fate of a placement on this book. -/
def Engine.fate
    (cfg : Config) (e : Engine) (clientId : UInt64) (side : Side)
    (orderType : OrderType) (price : Option UInt64) (quantity : UInt64) : Fate :=
  LmaxEngine.fate cfg (e.book.arena.occupied (fun o => o.clientId = clientId))
    (e.onOffer cfg side (limitOf orderType price)) e.book.arena.orderCount
    orderType price quantity

section Abstraction

variable {cfg : Config} {e : Engine} {s : State} {loc : Nat → Nat} {free : List Nat}

theorem Engine.Refines.onOffer_eq
    (h : Engine.Refines cfg e s loc free) (side : Side) (limitPrice : Option UInt64) :
    e.onOffer cfg side limitPrice = s.across cfg side limitPrice := by
  have hw := h.book.arena.weight (hitQty cfg side limitPrice)
  rw [weigh_image] at hw
  rw [Engine.onOffer, State.across]
  simp only [orderAt_eq]
  exact hw

theorem Engine.Refines.occupied_eq
    (h : Engine.Refines cfg e s loc free) (hc : Consistent cfg s) (clientId : UInt64) :
    e.book.arena.occupied (fun o => o.clientId = clientId) = openOrders s.clients clientId := by
  rw [hc.accounts, occupied_eq_weigh h.book.arena, weigh_image]
  refine congrArg (weigh levels _) (funext fun x => ?_)
  by_cases hx : x.order.clientId = clientId <;> simp [ofClient, Engine.cellOf, hx]

end Abstraction

section Results

variable {cfg : Config} {e : Engine} {cs : List Command} {evs : List (List OutputEvent)}
variable {clientId clientOrderId quantity : UInt64}
variable {symbol : Symbol} {side : Side} {orderType : OrderType} {price : Option UInt64}
variable {tif : TimeInForce}

/-- **The answer to a placement is settled by the book that it finds.**  In every state
that a run reaches, the number of orders of the client, the quantity on offer and the
room in the arena tell how much is filled, what is said of the rest, and whether and
why the placement is rejected.  Two of the reasons are never given. -/
theorem run_fate
    (hpos : 1 ≤ cfg.capacity) (hlt : cfg.capacity < 2 ^ 32)
    (hrun : (Engine.new cfg).run Build.release cs = .ok (e, evs)) :
    (cfg.tickSize ≠ 0 → ∃ e' es, e.handle Build.release
      (.place clientId clientOrderId symbol side orderType price quantity tif) = .ok (e', es)) ∧
    ∀ e' es, e.handle Build.release
        (.place clientId clientOrderId symbol side orderType price quantity tif) = .ok (e', es) →
      (e.fate cfg clientId side orderType price quantity).Told e.nextOrderId clientId
          clientOrderId symbol side quantity.toNat (e.onOffer cfg side (limitOf orderType price))
          es ∧
        (∀ c co reason, .orderRejected c co reason ∈ es ↔
          e.fate cfg clientId side orderType price quantity = .rejected reason ∧
            c = clientId ∧ co = clientOrderId) ∧
        ∀ c co, .orderRejected c co .invalidSymbol ∉ es ∧
          .orderRejected c co .noLiquidityForMarketOrder ∉ es := by
  obtain ⟨hs, -⟩ := Engine.simulates_of_run Build.wrapping_release hpos hlt hrun
  have hc := run_consistent (consistent_new cfg) cs
  refine ⟨fun htick => Engine.exists_handle Build.wrapping_release htick hs hc _,
    fun e' es he => ?_⟩
  obtain ⟨loc, free, h⟩ := hs
  generalize (PriceTime.run cfg State.new cs).1 = s at h hc
  obtain ⟨rfl, -⟩ := h.handle_loc hc he
  have htold := place_fate hc clientId clientOrderId symbol side orderType price quantity
  rw [← h.onOffer_eq, ← h.occupied_eq hc, ← h.resting_eq, ← h.nextOrderId] at htold
  refine ⟨htold, fun c co reason => htold.rejected_mem_iff, fun c co => ⟨?_, ?_⟩⟩
  · exact fun hev => fate_ne_rejected (Or.inl rfl) _ _ _ _ _ _ _ (htold.rejected_mem_iff.mp hev).1
  · exact fun hev => fate_ne_rejected (Or.inr rfl) _ _ _ _ _ _ _ (htold.rejected_mem_iff.mp hev).1

/-- An ask that takes both bids that the session leaves, and rests with one lot. -/
theorem run_fate_sweepingAsk :
    ∃ e e', (Engine.new smallConfig).run Build.release session = .ok (e, sessionEvents) ∧
      e.handle Build.release sweepingAsk = .ok (e', sweepingEvents) ∧
      (e.fate smallConfig 7 .sell .limit (some 100) 4).Told e.nextOrderId 7 0
          (Vector.replicate 8 0) .sell (4 : UInt64).toNat
          (e.onOffer smallConfig .sell (limitOf .limit (some 100))) sweepingEvents ∧
        (∀ c co reason, .orderRejected c co reason ∈ sweepingEvents ↔
          e.fate smallConfig 7 .sell .limit (some 100) 4 = .rejected reason ∧ c = 7 ∧ co = 0) ∧
        ∀ c co, .orderRejected c co .invalidSymbol ∉ sweepingEvents ∧
          .orderRejected c co .noLiquidityForMarketOrder ∉ sweepingEvents := by
  obtain ⟨e, e', hrun, he⟩ := exists_handle_sweepingAsk
  exact ⟨e, e', hrun, he, (run_fate (by decide) (by decide) hrun).2 e' sweepingEvents he⟩

end Results

end LmaxEngine
