import LmaxEngine.Model.Handlers
import LmaxEngine.Model.InputRing
import LmaxEngine.Model.OutputRing

/-!
# The business logic processor and the whole system

The body of the loop of `consumer/blp.rs`, between the read of a slot and the
next one.  The handlers emit into a local array of sixteen events; what does
not fit is dropped.  Afterwards the array is published, event by event, with
the timestamp of the input slot.

The system is the two rings with the processor between them, which is a consumer of
the input ring and the publisher of the output ring, and one thread: it reads a slot,
handles its command, stores its input sequence, publishes the events of the command
one by one, and only then waits for the next slot.

A step is a step of one of the two rings.  Handling a command touches no shared
memory but the slot, so it is part of the step that reads the slot.  A handler
that aborts ends the thread: there is no step.
-/

namespace LmaxEngine

open Checked

/-- `events.len()` -/
def eventSlots : Nat := 16

/-- The local variables `events` and `count`. -/
structure EventBuffer where
  events : Vector (Option OutputEvent) eventSlots
  count : Nat
  count_le : count ≤ eventSlots

namespace EventBuffer

def new : EventBuffer where
  events := Vector.replicate eventSlots none
  count := 0
  count_le := Nat.zero_le _

/-- The closure `emit`. -/
def emit (b : EventBuffer) (event : OutputEvent) : EventBuffer :=
  if h : b.count < eventSlots then
    { events := b.events.set b.count (some event)
      count := b.count + 1
      count_le := h }
  else
    b

/-- The events that the loop `for i in 0..count` publishes. -/
def published (b : EventBuffer) : List OutputEvent :=
  (b.events.toList.take b.count).filterMap id

end EventBuffer

/-- One round of the loop: the engine after the command of the slot, and the
arguments of the calls of `publish_output`. -/
def Engine.process (β : Build) (e : Engine) (slot : InputSlot) :
    Run (Engine × List (OutputEvent × UInt64)) :=
  match slot.command with
  | none => .ok (e, [])
  | some command => do
      let (e, events) ← e.handle β command
      let buffer := events.foldl EventBuffer.emit EventBuffer.new
      .ok (e, buffer.published.map fun event => (event, slot.timestampNs))

namespace EventBuffer

variable {b : EventBuffer} {es : List OutputEvent}

/-- The array holds these events, from its start. -/
def Holds (b : EventBuffer) (es : List OutputEvent) : Prop :=
  b.count = es.length ∧ b.events.toList.take b.count = es.map some

theorem holds_new :
    new.Holds [] :=
  ⟨rfl, rfl⟩

theorem Holds.emit
    (h : b.Holds es) (hlt : es.length < eventSlots) (event : OutputEvent) :
    (b.emit event).Holds (es ++ [event]) := by
  obtain ⟨hcount, htake⟩ := h
  have hlt' : b.count < eventSlots := by omega
  have hlen : b.count < (b.events.toList.set b.count (some event)).length := by
    rwa [List.length_set, Vector.length_toList]
  unfold EventBuffer.emit
  rw [dif_pos hlt']
  refine ⟨by simp [hcount], ?_⟩
  dsimp only
  rw [Vector.toList_set, List.take_succ_eq_append_getElem hlen, List.getElem_set_self,
    List.take_set_of_le (Nat.le_refl _), htake, List.map_append]
  rfl

/-- Once the array is full, events are dropped. -/
theorem Holds.emit_full
    (h : b.Holds es) (hfull : es.length = eventSlots) (event : OutputEvent) :
    b.emit event = b := by
  unfold EventBuffer.emit
  rw [dif_neg]
  rw [h.1, hfull]
  exact Nat.lt_irrefl _

theorem Holds.emit_all
    (h : b.Holds es) (hle : es.length ≤ eventSlots) (events : List OutputEvent) :
    (events.foldl EventBuffer.emit b).Holds ((es ++ events).take eventSlots) := by
  induction events generalizing b es with
  | nil => rwa [List.foldl_nil, List.append_nil, List.take_of_length_le hle]
  | cons event events ih =>
      rw [List.foldl_cons]
      rcases Nat.lt_or_eq_of_le hle with hlt | hfull
      · have := ih (h.emit hlt event) (by rw [List.length_append]; exact hlt)
        rwa [List.append_assoc] at this
      · rw [h.emit_full hfull]
        have := ih h hle
        rwa [List.take_append_of_le_length hfull.ge] at this ⊢

theorem Holds.published
    (h : b.Holds es) :
    b.published = es := by
  rw [EventBuffer.published, h.2, List.filterMap_map]
  exact List.filterMap_some

/-- **What is published** are the first sixteen events. -/
theorem published_foldl
    (events : List OutputEvent) :
    (events.foldl EventBuffer.emit new).published = events.take eventSlots :=
  (holds_new.emit_all (Nat.zero_le _) events).published

end EventBuffer

structure System where
  input : Pipeline
  engine : Engine
  /-- The arguments of the calls of `publish_output`, made and still to be made, for
  all commands that have been handled. -/
  publications : List Publication
  output : Outlet

namespace System

/-- `RingBuffer::new` for both rings, and what `run` makes before its loop. -/
def new (cfg : Config) (inputCapacity outputCapacity : Nat) : System where
  input := Pipeline.new inputCapacity
  engine := Engine.new cfg
  publications := []
  output := Outlet.new outputCapacity

/-- The loop over the events of the last command is through. -/
def Flushed (s : System) : Prop :=
  s.output.publisher = .idle ∧ s.output.calls = s.publications.length

inductive Step (β : Build) (messages : List Message) :
    System → List Reception → System → Prop
  /-- The processor is at the top of its loop when it reads its input sequence. -/
  | input {s : System} {input : Pipeline}
      (hstep : Pipeline.Step messages s.input [] input)
      (hbegin : s.input.consumer .businessLogic = .idle →
        input.consumer .businessLogic = .idle ∨ s.Flushed) :
      Step β messages s [] { s with input := input }
  | handle {s : System} {next : Int} {slot : InputSlot} {engine : Engine}
      {published : List Publication}
      (hphase : s.input.consumer .businessLogic = .reading next)
      (hslot : s.input.ring.slotRef next = some slot)
      (hprocess : s.engine.process β slot = .ok (engine, published)) :
      Step β messages s []
        { s with
          input := s.input.enter .businessLogic (.storing next)
          engine := engine
          publications := s.publications ++ published }
  /-- It publishes when its input sequence is stored. -/
  | output {s : System} {output : Outlet} {es : List Reception}
      (hstep : Outlet.Step s.publications s.output es output)
      (hcall : s.output.publisher = .idle →
        output.publisher = .idle ∨ s.input.consumer .businessLogic = .idle) :
      Step β messages s es { s with output := output }

end System

end LmaxEngine
