import LmaxEngine.Results.Frame
import LmaxEngine.Results.Lines
import LmaxEngine.Results.Quantities
import LmaxEngine.Spec.Executions

/-!
# What the counters of the resting orders say

The counter `filled_qty` of a resting order is the quantity that the fills of the
run name it with, unless a modification of the run has reduced it in place, which
adds what was taken off as if it were filled, or the counter has wrapped.
-/

namespace LmaxEngine

open Checked Queues Arena PriceTime

/-- The counter of every resting order is what a history executes of it. -/
def Engine.CountsFills (e : Engine) (hist : List OutputEvent) : Prop :=
  ∀ i o, e.book.arena.orderAt i = some o → o.filledQty.toNat = executed o.orderId hist

/-- Some order is filled in part and its counter goes beyond 64 bits. -/
def Engine.Overfills
    (cfg : Config) (e : Engine) (side : Side) (limitPrice : Option UInt64)
    (quantity : UInt64) : Prop :=
  ∃ i o, e.book.arena.orderAt i = some o ∧
    e.offer cfg side limitPrice quantity i < o.leavesQty.toNat ∧
    2 ^ 64 ≤ o.filledQty.toNat + e.offer cfg side limitPrice quantity i

/-- An accepted placement that takes a counter beyond 64 bits, or a modification
that reduces an order in place. -/
def Engine.Miscounts (cfg : Config) (e : Engine) : Command → Prop
  | .place clientId _ _ side orderType price quantity _ =>
      e.Accepts clientId orderType price quantity ∧
        e.Overfills cfg side (limitOf orderType price) quantity
  | .modify clientId clientOrderId newPrice newQty =>
      ∃ i o, e.Names (clientId, clientOrderId) i o ∧
        newQty.getD o.leavesQty ≠ 0 ∧ newPrice.getD o.price = o.price ∧
        newQty.getD o.leavesQty < o.leavesQty
  | _ => False

section Abstraction

variable {cfg : Config} {e : Engine} {s : State} {loc : Nat → Nat} {free : List Nat}

theorem Engine.Refines.overfills_iff
    (h : Engine.Refines cfg e s loc free) (hc : Consistent cfg s) (p : Placement) :
    e.Overfills cfg p.side p.limitPrice p.leavesQty ↔ PriceTime.Overfills cfg s p := by
  constructor
  · rintro ⟨i, o, ho, hlt, hover⟩
    obtain ⟨k, x, hx, rfl, rfl⟩ := h.entry ho
    rw [h.offer_eq hc hx] at hlt hover
    exact ⟨k, x, hx, hlt, hover⟩
  · rintro ⟨k, x, hx, hlt, hover⟩
    rw [← h.offer_eq hc hx] at hlt hover
    exact ⟨_, _, h.orderAt hx, hlt, hover⟩

theorem Engine.Refines.miscounts_iff
    (h : Engine.Refines cfg e s loc free) (hc : Consistent cfg s) (c : Command) :
    e.Miscounts cfg c ↔ PriceTime.Miscounts cfg s c := by
  cases c with
  | place clientId clientOrderId symbol side orderType price quantity tif =>
      exact and_congr h.accepts_iff (h.overfills_iff hc
        (s.placement clientId clientOrderId symbol side (limitOf orderType price) quantity))
  | cancel clientId clientOrderId => exact Iff.rfl
  | modify clientId clientOrderId newPrice newQty =>
      exact h.exists_names_iff hc (fun o =>
        newQty.getD o.leavesQty ≠ 0 ∧ newPrice.getD o.price = o.price ∧
          newQty.getD o.leavesQty < o.leavesQty)

/-- What miscounts is about some resting order. -/
theorem PriceTime.Miscounts.ne_zero
    {c : Command}
    (hc : Consistent cfg s) (hbad : PriceTime.Miscounts cfg s c) :
    cfg.tickSize ≠ 0 := by
  cases c with
  | place clientId clientOrderId symbol side orderType price quantity tif =>
      obtain ⟨-, k, x, hx, -⟩ := hbad
      exact ne_zero_of_tickOf (hc.entry hx).tick
  | cancel clientId clientOrderId => exact absurd hbad id
  | modify clientId clientOrderId newPrice newQty =>
      obtain ⟨k, x, hx, -⟩ := hbad
      exact ne_zero_of_tickOf (hc.entry hx).tick

end Abstraction

section Results

variable {cfg : Config} {e : Engine} {cs : List Command} {evs : List (List OutputEvent)}

/-- The events of a run name no id before it is handed out. -/
theorem run_unnamed
    (hpos : 1 ≤ cfg.capacity) (hlt : cfg.capacity < 2 ^ 32)
    (hrun : (Engine.new cfg).run Build.release cs = .ok (e, evs)) :
    (run cfg State.new cs).1.nextNum ≤ 2 ^ 64 →
      (run cfg State.new cs).1.Unnamed evs.flatten := by
  refine Engine.run_induction (P := fun _ _ s evs => s.nextNum ≤ 2 ^ 64 →
    s.Unnamed evs.flatten) hpos hlt hrun (fun _ _ _ => rfl) ?_
  rintro cs e s evs c e' es - ⟨loc, free, h⟩ hc he ih hnum
  obtain ⟨rfl, -⟩ := h.handle_loc hc he
  rw [List.flatten_append, List.flatten_singleton]
  exact handle_unnamed hc (ih ((nextNum_le_handle hc c).trans hnum)) c hnum

/-- **When fills are counted.**  In a run of fewer than `2 ^ 64` placements the
counters of the resting orders are at all times what the events of the run
execute of them, exactly if no modification of the run reduces an order in place
and no placement takes a counter beyond 64 bits. -/
theorem run_counts_fills_iff
    (hpos : 1 ≤ cfg.capacity) (hlt : cfg.capacity < 2 ^ 32)
    (cs : List Command) (hcs : cs.countP Command.isPlace < 2 ^ 64) :
    (∀ pre c post e evs, cs = pre ++ c :: post →
        (Engine.new cfg).run Build.release pre = .ok (e, evs) → ¬ e.Miscounts cfg c) ↔
      ∀ pre post e evs, cs = pre ++ post →
        (Engine.new cfg).run Build.release pre = .ok (e, evs) → e.CountsFills evs.flatten := by
  refine Engine.run_kept_iff (fun hist e => e.CountsFills hist) hpos hlt cs ?_ ?_ ?_
  · obtain ⟨loc, free, h⟩ := Engine.simulates_new hpos hlt
    intro i o ho
    obtain ⟨k, x, hx, -, -⟩ := h.entry ho
    exact absurd hx List.not_mem_nil
  · intro pre e evs c hrun hbad
    obtain ⟨⟨loc, free, h⟩, -⟩ := Engine.simulates_of_run Build.wrapping_release hpos hlt hrun
    have hc := run_consistent (consistent_new cfg) pre
    exact ((h.miscounts_iff hc c).mp hbad).ne_zero hc
  · intro pre c post e evs e' es hsplit hrun he hgood
    obtain ⟨⟨loc, free, h⟩, -⟩ := Engine.simulates_of_run Build.wrapping_release hpos hlt hrun
    have hc := run_consistent (consistent_new cfg) pre
    obtain ⟨rfl, loc', free', h', -⟩ := h.handle_loc hc he
    have hnum : (PriceTime.handle cfg (run cfg State.new pre).1 c).1.nextNum ≤ 2 ^ 64 := by
      have hle := run_nextNum_le cfg State.new (pre ++ [c])
      have hnew : State.new.nextNum = 1 := rfl
      have hcount : cs.countP Command.isPlace =
          (pre ++ [c]).countP Command.isPlace + post.countP Command.isPlace := by
        rw [hsplit, ← List.countP_append, List.append_assoc]
        rfl
      rw [PriceTime.run_snoc] at hle
      omega
    have hunnamed := run_unnamed hpos hlt hrun ((nextNum_le_handle hc c).trans hnum)
    have hcounts : (run cfg State.new pre).1.Counts evs.flatten :=
      (h.forall_order_iff _).mp hgood
    rw [h.miscounts_iff hc c, ← handle_counts_iff hc hcounts hunnamed c hnum]
    exact h'.forall_order_iff _

/-- A bid for two lots. -/
def bidTwo : Command :=
  .place 1 0 (Vector.replicate 8 0) .buy .limit (some 100) 2 .gtc

/-- A bid for two lots is reduced to one. -/
def halvedBid : List Command :=
  [bidTwo, .modify 1 0 none (some 1)]

theorem run_counts_fills_iff_halvedBid :
    (∀ pre c post e evs, halvedBid = pre ++ c :: post →
        (Engine.new smallConfig).run Build.release pre = .ok (e, evs) →
          ¬ e.Miscounts smallConfig c) ↔
      ∀ pre post e evs, halvedBid = pre ++ post →
        (Engine.new smallConfig).run Build.release pre = .ok (e, evs) →
          e.CountsFills evs.flatten :=
  run_counts_fills_iff (by decide) (by decide) halvedBid (by decide)

/-- Nothing was filled, and the counter of the bid is one. -/
theorem not_countsFills_halvedBid :
    ∃ e evs, (Engine.new smallConfig).run Build.release halvedBid = .ok (e, evs) ∧
      ¬ e.CountsFills evs.flatten := by
  obtain ⟨⟨e, evs⟩, hrun, hbid⟩ := exists_of_yields
    (x := (Engine.new smallConfig).run Build.release halvedBid)
    (p := fun r => decide (executed 1 r.2.flatten = 0) &&
      (r.1.book.arena.orderAt 0).any (fun o => o.orderId = 1 && o.filledQty = 1))
    (by decide +kernel)
  refine ⟨e, evs, hrun, fun hcounts => ?_⟩
  simp only [Bool.and_eq_true, Option.any_eq_true, decide_eq_true_eq] at hbid
  obtain ⟨hnone, o, ho, hid, hfilled⟩ := hbid
  have := hcounts 0 o ho
  rw [hid, hfilled, hnone] at this
  exact absurd this (by decide)

end Results

end LmaxEngine
