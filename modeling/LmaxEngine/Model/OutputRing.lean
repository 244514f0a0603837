import LmaxEngine.Lib.Sequencing
import LmaxEngine.Model.Ring

/-!
# The output ring

The business logic processor publishes with `publish_output`
(`blp/publisher.rs`), and the output consumer (`consumer/outputConsumer.rs`)
waits for it.  The sequence of the consumer is the gate of the publisher.

As on the input ring a step is one access to shared memory.  The publisher
assigns the two fields of a slot one after the other, and they are read one after
the other.  The trace lists what has been read.
-/

namespace LmaxEngine

open Sequencing

inductive PublisherPhase where
  /-- The sequence of the publisher is to be read. -/
  | idle
  /-- In the loop that reads the gate. -/
  | gating (next : Int)
  /-- The event of the slot is to be written. -/
  | claimed (next : Int)
  /-- The timestamp of the slot is to be written. -/
  | stamping (next : Int)
  /-- The sequence of the publisher is to be stored. -/
  | storing (next : Int)
deriving DecidableEq, Repr

inductive ReaderPhase where
  /-- The own sequence is to be read. -/
  | idle
  /-- In `wait_for(next)`. -/
  | waiting (next : Int) (scan : Scan Unit)
  /-- The event of the slot is to be read. -/
  | reading (next : Int)
  /-- The timestamp of the slot is to be read. -/
  | timing (next : Int) (event : Option OutputEvent)
  /-- The own sequence is to be stored. -/
  | storing (next : Int)
deriving DecidableEq, Repr

/-- The slot that the consumer is reading. -/
def ReaderPhase.Accesses (phase : ReaderPhase) (n : Int) : Prop :=
  phase = .reading n ∨ ∃ event, phase = .timing n event

/-- The arguments of a call of `publish_output`. -/
abbrev Publication := OutputEvent × UInt64

/-- What is read from a slot. -/
abbrev Reception := Option OutputEvent × UInt64

structure Outlet where
  ring : RingBuffer OutputSlot
  /-- The number of calls of `publish_output` that have returned. -/
  calls : Nat
  sequence : Int
  gate : Int
  publisher : PublisherPhase
  reader : ReaderPhase

/-- Both sequences start at minus one. -/
def Outlet.new (capacity : Nat) : Outlet where
  ring := RingBuffer.new capacity
  calls := 0
  sequence := -1
  gate := -1
  publisher := .idle
  reader := .idle

namespace Outlet

/-- The one sequence behind the barrier of the consumer. -/
def dependencies : List Unit :=
  [()]

inductive Step (publications : List Publication) :
    Outlet → List Reception → Outlet → Prop
  | call {s : Outlet}
      (hphase : s.publisher = .idle)
      (hmore : s.calls < publications.length) :
      Step publications s [] { s with publisher := .gating (s.sequence + 1) }
  | spin {s : Outlet} {next : Int}
      (hphase : s.publisher = .gating next)
      (hfull : s.ring.capacity < next - s.gate) :
      Step publications s [] s
  /-- `next_seq - consumed <= buffer_size` -/
  | claim {s : Outlet} {next : Int}
      (hphase : s.publisher = .gating next)
      (hgate : next - s.gate ≤ s.ring.capacity) :
      Step publications s [] { s with publisher := .claimed next }
  /-- A slot that was never written holds any value, `fresh`. -/
  | writeEvent {s : Outlet} {next : Int} {event : OutputEvent} {timestampNs : UInt64}
      (fresh : OutputSlot)
      (hphase : s.publisher = .claimed next)
      (hcall : publications[s.calls]? = some (event, timestampNs)) :
      Step publications s []
        { s with
          ring := s.ring.write next
            { (s.ring.slotRef next).getD fresh with event := some event }
          publisher := .stamping next }
  | writeTimestamp {s : Outlet} {next : Int} {event : OutputEvent} {timestampNs : UInt64}
      {slot : OutputSlot}
      (hphase : s.publisher = .stamping next)
      (hcall : publications[s.calls]? = some (event, timestampNs))
      (hslot : s.ring.slotRef next = some slot) :
      Step publications s []
        { s with
          ring := s.ring.write next { slot with timestampNs := timestampNs }
          publisher := .storing next }
  | publish {s : Outlet} {next : Int}
      (hphase : s.publisher = .storing next) :
      Step publications s []
        { s with sequence := next, calls := s.calls + 1, publisher := .idle }
  | begin {s : Outlet}
      (hphase : s.reader = .idle) :
      Step publications s []
        { s with reader := .waiting (s.gate + 1) (Scan.start dependencies) }
  | look {s : Outlet} {next : Int} {scan : Scan Unit} {d : Unit} {rest : List Unit}
      (hphase : s.reader = .waiting next scan)
      (hrest : scan.rest = d :: rest) :
      Step publications s [] { s with reader := .waiting next (scan.read s.sequence) }
  | pass {s : Outlet} {next : Int} {scan : Scan Unit}
      (hphase : s.reader = .waiting next scan)
      (hrest : scan.rest = [])
      (hmin : next ≤ scan.least.getD i64Max) :
      Step publications s [] { s with reader := .reading next }
  | retry {s : Outlet} {next : Int} {scan : Scan Unit}
      (hphase : s.reader = .waiting next scan)
      (hrest : scan.rest = [])
      (hmin : scan.least.getD i64Max < next) :
      Step publications s [] { s with reader := .waiting next (Scan.start dependencies) }
  | readEvent {s : Outlet} {next : Int} {slot : OutputSlot}
      (hphase : s.reader = .reading next)
      (hslot : s.ring.slotRef next = some slot) :
      Step publications s [] { s with reader := .timing next slot.event }
  | readTimestamp {s : Outlet} {next : Int} {event : Option OutputEvent} {slot : OutputSlot}
      (hphase : s.reader = .timing next event)
      (hslot : s.ring.slotRef next = some slot) :
      Step publications s [(event, slot.timestampNs)] { s with reader := .storing next }
  | advance {s : Outlet} {next : Int}
      (hphase : s.reader = .storing next) :
      Step publications s [] { s with gate := next, reader := .idle }

end Outlet

end LmaxEngine
