import LmaxEngine.Results.Feed
import LmaxEngine.Spec.Bystanders

/-!
# A client that does not trade is not noticed

The only ways in which one client's orders reach another are a fill and a full arena.
Where neither happens the commands of a client can be left out of a run: the other
clients get the same answers, and their orders stand in the same queues.
-/

namespace LmaxEngine

open Checked Queues Arena PriceTime

section Results

variable {cfg : Config} {e e' : Engine} {cs : List Command} {evs evs' : List (List OutputEvent)}

/-- The orders of a level without those of the client. -/
theorem Engine.Refines.quotes_without
    {d : UInt64} {ν : Nat → Nat} {s s' : State} {loc loc' : Nat → Nat} {free free' : List Nat}
    {side : Side} {t : Nat}
    (h : Engine.Refines cfg e s loc free) (h' : Engine.Refines cfg e' s' loc' free')
    (hrel : Without d ν s s') (ht : t < numTicks) :
    (e'.quotes side t).map Quote.anonymous =
      ((e.quotes side t).filter (fun r => decide (r.clientId ≠ d))).map Quote.anonymous := by
  rw [h.quotes_eq ht, h'.quotes_eq ht, image, image, hrel.queue, List.map_map, List.map_map,
    List.filter_map, List.map_map]
  rfl

/-- **A client that does not trade is not noticed.**  If no order of the client is filled
in a run, and nobody else is turned away for want of a slot, then without the client's
commands the others get the same events, but for the ids that the engine hands out.
Their orders stand in the same queues in the same order, and their open orders are as
many. -/
theorem run_bystander
    (d : UInt64) (hpos : 1 ≤ cfg.capacity) (hlt : cfg.capacity < 2 ^ 32)
    (hrun : (Engine.new cfg).run Build.release cs = .ok (e, evs))
    (hspare : ∀ es, es ∈ evs → ∀ ev, ev ∈ es → ev.Spares d) :
    (cfg.tickSize ≠ 0 → ∃ e' evs',
      (Engine.new cfg).run Build.release (cs.filter (Command.ofOthers d)) = .ok (e', evs')) ∧
    ∀ e' evs',
      (Engine.new cfg).run Build.release (cs.filter (Command.ofOthers d)) = .ok (e', evs') →
      evs'.map (List.map OutputEvent.anonymous) =
          (answersToOthers d cs evs).map (List.map OutputEvent.anonymous) ∧
        (∀ side t, t < numTicks → (e'.quotes side t).map Quote.anonymous =
          ((e.quotes side t).filter (fun r => decide (r.clientId ≠ d))).map Quote.anonymous) ∧
        ∀ c, c ≠ d →
          (accountOf e'.clients c).openOrders = (accountOf e.clients c).openOrders := by
  refine ⟨fun htick => Engine.exists_run Build.wrapping_release htick hpos hlt _,
    fun e' evs' hrun' => ?_⟩
  obtain ⟨⟨loc, free, h⟩, rfl⟩ := Engine.simulates_of_run Build.wrapping_release hpos hlt hrun
  obtain ⟨⟨loc', free', h'⟩, rfl⟩ :=
    Engine.simulates_of_run Build.wrapping_release hpos hlt hrun'
  have hc := consistent_new cfg
  have hnew : Without d id State.new State.new := by
    refine ⟨fun _ => rfl, fun hx => absurd hx List.not_mem_nil, fun _ _ => rfl, fun _ _ => rfl⟩
  obtain ⟨⟨ν, hrel⟩, hevs⟩ := hnew.run hc hc hspare
  refine ⟨hevs, fun side t ht => h.quotes_without h' hrel ht, fun c hne => ?_⟩
  rw [h.clients, h'.clients, hrel.accounts c hne]

/-- A bid below an ask of another client. -/
def restingPair : List Command :=
  [bidOne 1 100, askOne 2 105]

theorem run_bystander_restingPair :
    ∃ e evs e' evs', (Engine.new smallConfig).run Build.release restingPair = .ok (e, evs) ∧
      (∀ es, es ∈ evs → ∀ ev, ev ∈ es → ev.Spares 1) ∧
      (Engine.new smallConfig).run Build.release (restingPair.filter (Command.ofOthers 1)) =
        .ok (e', evs') ∧
      evs'.map (List.map OutputEvent.anonymous) =
        (answersToOthers 1 restingPair evs).map (List.map OutputEvent.anonymous) ∧
      (∀ side t, t < numTicks → (e'.quotes side t).map Quote.anonymous =
        ((e.quotes side t).filter (fun r => decide (r.clientId ≠ 1))).map Quote.anonymous) ∧
      ∀ c, c ≠ 1 →
        (accountOf e'.clients c).openOrders = (accountOf e.clients c).openOrders := by
  obtain ⟨⟨e, evs⟩, hrun, hevs⟩ := exists_of_yields
    (x := (Engine.new smallConfig).run Build.release restingPair)
    (p := fun r => decide (r.2 =
      [[.orderAccepted 1 1 0 (Vector.replicate 8 0) .buy 100 1],
        [.orderAccepted 2 2 0 (Vector.replicate 8 0) .sell 105 1]]))
    (by decide +kernel)
  obtain ⟨⟨e', evs'⟩, hrun'⟩ := exists_of_isOk
    (x := (Engine.new smallConfig).run Build.release
      (restingPair.filter (Command.ofOthers 1)))
    (by decide +kernel)
  have hevs := of_decide_eq_true hevs
  have hspare : ∀ es, es ∈ evs → ∀ ev, ev ∈ es → ev.Spares 1 := by
    intro es hes ev hev
    dsimp only at hevs
    simp only [hevs, List.mem_cons, List.not_mem_nil, or_false] at hes
    rcases hes with rfl | rfl <;> obtain rfl := List.mem_singleton.mp hev <;>
      exact ⟨id, fun _ _ h => absurd h (by simp)⟩
  exact ⟨e, evs, e', evs', hrun, hspare, hrun',
    (run_bystander 1 (by decide) (by decide) hrun hspare).2 e' evs' hrun'⟩

end Results

end LmaxEngine
