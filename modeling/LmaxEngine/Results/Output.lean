import LmaxEngine.Model.System
import LmaxEngine.Results.Faults

/-!
# What the business logic processor publishes

Of the events of a command the processor publishes the first sixteen.  A
command emits one event for each order that it fills and at most one more, so
none is dropped as long as it hits at most fifteen resting orders.
-/

namespace LmaxEngine

open Checked Queues Arena PriceTime

/-- The number of resting orders that a command hits. -/
def Engine.hitBy (cfg : Config) (e : Engine) : Command → Nat
  | .place _ _ _ side .market _ _ _ => e.book.arena.occupied (hits cfg side none)
  | .place _ _ _ side .limit (some price) _ _ =>
      e.book.arena.occupied (hits cfg side (some price))
  | _ => 0

section Reached

variable {β : Build} {cfg : Config} {e e' : Engine} {s : State} {loc : Nat → Nat} {free : List Nat}
variable {slot : InputSlot} {c : Command} {es : List OutputEvent}

theorem Engine.process_eq
    (hslot : slot.command = some c) (he : e.handle β c = .ok (e', es)) :
    e.process β slot =
      .ok (e', (es.take eventSlots).map fun event => (event, slot.timestampNs)) := by
  simp only [Engine.process, hslot, he, ok_bind, EventBuffer.published_foldl]

theorem Engine.Refines.hitCount_eq
    (h : Engine.Refines cfg e s loc free) (side : Side) (limitPrice : Option UInt64) :
    e.book.arena.occupied (hits cfg side limitPrice) = s.hitCount cfg side limitPrice := by
  rw [occupied_eq_weigh h.book.arena, weigh_image]
  rfl

theorem Engine.Refines.hitBy_eq
    (h : Engine.Refines cfg e s loc free) (c : Command) :
    e.hitBy cfg c = s.hitBy cfg c := by
  cases c with
  | place clientId clientOrderId symbol side orderType price quantity tif =>
      cases orderType with
      | market => exact h.hitCount_eq _ _
      | limit =>
          cases price with
          | none => rfl
          | some price => exact h.hitCount_eq _ _
  | cancel clientId clientOrderId => rfl
  | modify clientId clientOrderId newPrice newQty => rfl

variable {cs : List Command} {evs : List (List OutputEvent)}

theorem Engine.Refines.events_le
    (h : Engine.Refines cfg e s loc free) (hc : Consistent cfg s)
    (he : e.handle Build.release c = .ok (e', es)) :
    es.length ≤ e.hitBy cfg c + 1 := by
  rcases Engine.handle_agrees Build.wrapping_release ⟨loc, free, h⟩ hc c with
    ⟨e₁, he₁, -⟩ | ⟨-, he₁⟩
  · rw [he, Except.ok.injEq, Prod.mk.injEq] at he₁
    obtain ⟨-, rfl⟩ := he₁
    rw [h.hitBy_eq]
    exact handle_events_le hc c
  · rw [he] at he₁
    exact absurd he₁ (by simp)

variable {cs : List Command} {evs : List (List OutputEvent)}

/-- **The published events of a command** are the first sixteen that its handler
emits, in the order of emission and with the timestamp of its slot.  The handler
emits at most one more than the resting orders that the command hits, so all are
published if these are at most fifteen. -/
theorem run_published
    (hpos : 1 ≤ cfg.capacity) (hlt : cfg.capacity < 2 ^ 32)
    (hrun : (Engine.new cfg).run Build.release cs = .ok (e, evs))
    (hslot : slot.command = some c)
    (he : e.handle Build.release c = .ok (e', es)) :
    e.process Build.release slot =
        .ok (e', (es.take 16).map fun event => (event, slot.timestampNs)) ∧
      es.length ≤ e.hitBy cfg c + 1 ∧
      (e.hitBy cfg c ≤ 15 → e.process Build.release slot =
        .ok (e', es.map fun event => (event, slot.timestampNs))) := by
  obtain ⟨⟨loc, free, h⟩, -⟩ :=
    Engine.simulates_of_run Build.wrapping_release hpos hlt hrun
  have hle := h.events_le (run_consistent (consistent_new cfg) cs) he
  have hprocess := Engine.process_eq hslot he
  refine ⟨hprocess, hle, fun hfew => ?_⟩
  rw [hprocess, List.take_of_length_le]
  exact hle.trans (Nat.succ_le_succ hfew)

/-- The input slot of a command. -/
def slotOf (c : Command) : InputSlot where
  rawBytes := Vector.replicate 256 0
  len := 0
  command := some c
  timestampNs := 0

/-- The published events of the ask after the session. -/
theorem run_published_session :
    ∃ e e', (Engine.new smallConfig).run Build.release session = .ok (e, sessionEvents) ∧
      e.handle Build.release sweepingAsk = .ok (e', sweepingEvents) ∧
      e.process Build.release (slotOf sweepingAsk) =
        .ok (e', (sweepingEvents.take 16).map fun event => (event, 0)) ∧
      sweepingEvents.length ≤ e.hitBy smallConfig sweepingAsk + 1 ∧
      (e.hitBy smallConfig sweepingAsk ≤ 15 →
        e.process Build.release (slotOf sweepingAsk) =
          .ok (e', sweepingEvents.map fun event => (event, 0))) := by
  obtain ⟨e, e', hrun, he⟩ := exists_handle_sweepingAsk
  have hslot : (slotOf sweepingAsk).command = some sweepingAsk := rfl
  exact ⟨e, e', hrun, he, run_published (by decide) (by decide) hrun hslot he⟩

/-- A book of thirty-two slots. -/
def deepConfig : Config where
  basePrice := 100
  tickSize := 1
  capacity := 32

/-- Asks of one lot from seventeen clients. -/
def seventeenAsks : List Command :=
  (List.range 17).map fun n => askOne (UInt64.ofNat n) 100

/-- A market order of client 17 for seventeen lots. -/
def buySeventeen : Command :=
  .place 17 0 (Vector.replicate 8 0) .buy .market none 17 .ioc

/-- A market order that fills seventeen asks emits seventeen fills, and sixteen
are published. -/
theorem published_ne_emitted :
    ∃ e evs e' es published,
      (Engine.new deepConfig).run Build.release seventeenAsks = .ok (e, evs) ∧
      e.handle Build.release buySeventeen = .ok (e', es) ∧
      e.process Build.release (slotOf buySeventeen) = .ok (e', published) ∧
      published.map Prod.fst ≠ es := by
  obtain ⟨⟨e, evs⟩, hrun, hnext⟩ := exists_of_yields
    (x := (Engine.new deepConfig).run Build.release seventeenAsks)
    (p := fun r => yields (r.1.handle Build.release buySeventeen) fun q => q.2.length = 17)
    (by decide +kernel)
  obtain ⟨⟨e', es⟩, he, hlen⟩ := exists_of_yields hnext
  refine ⟨e, evs, e', es, _, hrun, he, Engine.process_eq rfl he, fun heq => ?_⟩
  have hshort := congrArg List.length heq
  rw [decide_eq_true_eq] at hlen
  rw [List.length_map, List.length_map, List.length_take, hlen] at hshort
  exact absurd hshort (by decide)

end Reached

end LmaxEngine
