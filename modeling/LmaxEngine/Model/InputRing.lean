import LmaxEngine.Lib.Disruptor
import LmaxEngine.Model.Parser
import LmaxEngine.Model.Ring

/-!
# The input ring

A producer (`single_producer/singleProducer.rs`) and four consumers on one ring
(`consumer`): the unmarshaller, the replicator and the journal wait for the
producer, and the business logic processor waits for these three
(`sequence_barrier/sequenceBarrier.rs`).

A step is one access to shared memory by one thread: a sequence is read or
stored, a slot is read or written.  Between its steps a thread is in a phase that
holds its local variables.  The steps of the threads interleave in any order.
The trace lists what the business logic processor reads: a command and its
timestamp, or nothing where the slot has no command.

The threads are the same wherever the program is put together, but not who waits for
whom.  In the pipeline with a journal and a replicator the business logic processor
waits for all three consumers of raw messages; `main` and the benchmarks of `main.rs`
start an unmarshaller and a processor only.  In both the producer waits for the
processor.  For these the barriers are a parameter: the input ring is a disruptor
whose cells are the slots, and the bodies of the consumer loops are its visits.
-/

namespace LmaxEngine

open Sequencing

/-- A call of `publish`: the bytes and the time that `now_ns` returns. -/
structure Message where
  raw : List UInt8
  timestampNs : UInt64
deriving DecidableEq, Repr

inductive Consumer where
  | unmarshaller
  | replicator
  | journal
  | businessLogic
deriving DecidableEq, Repr

/-- The sequences of the pipeline. -/
inductive Source where
  | producer
  | consumer (c : Consumer)
deriving DecidableEq, Repr

/-- The sequences behind the barrier of a consumer. -/
def Consumer.dependencies : Consumer → List Source
  | .businessLogic =>
      [.consumer .unmarshaller, .consumer .replicator, .consumer .journal]
  | _ => [.producer]

inductive ProducerPhase where
  /-- In `claim_next`, before the gate is passed. -/
  | claiming
  /-- The slot of `seq` is to be written. -/
  | claimed (seq : Int)
  /-- The cursor of the ring is to be stored. -/
  | written (seq : Int)
  /-- The sequence of the producer is to be stored. -/
  | marked (seq : Int)
deriving DecidableEq, Repr

inductive ConsumerPhase where
  /-- The own sequence is to be read. -/
  | idle
  /-- In `wait_for(next)`. -/
  | waiting (next : Int) (scan : Scan Source)
  /-- The slot of `next` is to be read. -/
  | reading (next : Int)
  /-- The unmarshaller has parsed the slot and is to write the command. -/
  | writing (next : Int) (command : Option Command)
  /-- The own sequence is to be stored. -/
  | storing (next : Int)
deriving DecidableEq, Repr

/-- The slot that a consumer is accessing. -/
def ConsumerPhase.Accesses (phase : ConsumerPhase) (n : Int) : Prop :=
  phase = .reading n ∨ ∃ command, phase = .writing n command

structure Pipeline where
  ring : RingBuffer InputSlot
  nextSeq : Int
  producer : ProducerPhase
  sequence : Source → Int
  consumer : Consumer → ConsumerPhase

/-- Every sequence starts at minus one. -/
def Pipeline.new (capacity : Nat) : Pipeline where
  ring := RingBuffer.new capacity
  nextSeq := 0
  producer := .claiming
  sequence := fun _ => -1
  consumer := fun _ => .idle

/-- What the unmarshaller stores for bytes. -/
def unmarshal (bytes : List UInt8) : Option Command :=
  (parseCommand bytes).toOption

/-- What the business logic processor takes from a slot. -/
def InputSlot.delivered (slot : InputSlot) : Option (Command × UInt64) :=
  slot.command.map fun command => (command, slot.timestampNs)

namespace Pipeline

/-- A consumer enters a phase. -/
def enter (s : Pipeline) (c : Consumer) (phase : ConsumerPhase) : Pipeline :=
  { s with consumer := Function.update s.consumer c phase }

/-- A sequence is stored. -/
def store (s : Pipeline) (d : Source) (seq : Int) : Pipeline :=
  { s with sequence := Function.update s.sequence d seq }

inductive Step (messages : List Message) :
    Pipeline → List (Option (Command × UInt64)) → Pipeline → Prop
  /-- The producer reads the gating sequence and it has not passed the wrap point. -/
  | spin {s : Pipeline}
      (hphase : s.producer = .claiming)
      (hfull : s.sequence (.consumer .businessLogic) < s.nextSeq - s.ring.capacity) :
      Step messages s [] s
  | claim {s : Pipeline}
      (hphase : s.producer = .claiming)
      (hmore : s.nextSeq < messages.length)
      (hgate : s.nextSeq - s.ring.capacity ≤ s.sequence (.consumer .businessLogic)) :
      Step messages s []
        { s with producer := .claimed s.nextSeq, nextSeq := s.nextSeq + 1 }
  | writeSlot {s : Pipeline} {seq : Int} {message : Message}
      (hphase : s.producer = .claimed seq)
      (hmessage : messages[seq.toNat]? = some message) :
      Step messages s []
        { s with
          ring := s.ring.write seq (InputSlot.ofRaw message.raw message.timestampNs)
          producer := .written seq }
  | storeCursor {s : Pipeline} {seq : Int}
      (hphase : s.producer = .written seq) :
      Step messages s []
        { s with ring := { s.ring with cursor := seq }, producer := .marked seq }
  | publish {s : Pipeline} {seq : Int}
      (hphase : s.producer = .marked seq) :
      Step messages s [] { s.store .producer seq with producer := .claiming }
  | begin {s : Pipeline} (c : Consumer)
      (hphase : s.consumer c = .idle) :
      Step messages s []
        (s.enter c (.waiting (s.sequence (.consumer c) + 1) (Scan.start c.dependencies)))
  /-- One sequence of the barrier is read. -/
  | look {s : Pipeline} {next : Int} {scan : Scan Source} {d : Source} {rest : List Source}
      (c : Consumer)
      (hphase : s.consumer c = .waiting next scan)
      (hrest : scan.rest = d :: rest) :
      Step messages s [] (s.enter c (.waiting next (scan.read (s.sequence d))))
  /-- `min >= seq` -/
  | pass {s : Pipeline} {next : Int} {scan : Scan Source} (c : Consumer)
      (hphase : s.consumer c = .waiting next scan)
      (hrest : scan.rest = [])
      (hmin : next ≤ scan.least.getD i64Max) :
      Step messages s [] (s.enter c (.reading next))
  | retry {s : Pipeline} {next : Int} {scan : Scan Source} (c : Consumer)
      (hphase : s.consumer c = .waiting next scan)
      (hrest : scan.rest = [])
      (hmin : scan.least.getD i64Max < next) :
      Step messages s [] (s.enter c (.waiting next (Scan.start c.dependencies)))
  | parse {s : Pipeline} {next : Int} {slot : InputSlot}
      (hphase : s.consumer .unmarshaller = .reading next)
      (hslot : s.ring.slotRef next = some slot) :
      Step messages s [] (s.enter .unmarshaller (.writing next (unmarshal slot.bytes)))
  | writeCommand {s : Pipeline} {next : Int} {command : Option Command} {slot : InputSlot}
      (hphase : s.consumer .unmarshaller = .writing next command)
      (hslot : s.ring.slotRef next = some slot) :
      Step messages s []
        { s.enter .unmarshaller (.storing next) with
          ring := s.ring.write next { slot with command := command } }
  /-- The replicator and the journal look at the slot and do nothing with it yet. -/
  | inspect {s : Pipeline} {next : Int} {slot : InputSlot} (c : Consumer)
      (hc : c = .replicator ∨ c = .journal)
      (hphase : s.consumer c = .reading next)
      (hslot : s.ring.slotRef next = some slot) :
      Step messages s [] (s.enter c (.storing next))
  | handle {s : Pipeline} {next : Int} {slot : InputSlot}
      (hphase : s.consumer .businessLogic = .reading next)
      (hslot : s.ring.slotRef next = some slot) :
      Step messages s [slot.delivered] (s.enter .businessLogic (.storing next))
  | advance {s : Pipeline} {next : Int} (c : Consumer)
      (hphase : s.consumer c = .storing next) :
      Step messages s [] ((s.store (.consumer c) next).enter c .idle)

end Pipeline

section Wirings

open Disruptor

/-- What a consumer has in mind at a slot: the unmarshaller, once it has parsed the
slot, what it is to write. -/
abbrev Memory := Option (Option Command)

/-- An access of a consumer to a slot.  The unmarshaller reads and then writes, the
others only read. -/
def Consumer.visit : Consumer → Memory → InputSlot → InputSlot × Option Memory
  | .unmarshaller, none, slot => (slot, some (some (unmarshal slot.bytes)))
  | .unmarshaller, some command, slot => ({ slot with command := command }, none)
  | _, _, slot => (slot, none)

/-- The input ring. -/
def inputMachine (capacity : Nat) : Machine Consumer Message InputSlot Memory where
  index := (RingBuffer.new capacity : RingBuffer InputSlot).index
  size := (RingBuffer.new capacity : RingBuffer InputSlot).capacity
  top := i64Max
  fill := fun message => InputSlot.ofRaw message.raw message.timestampNs
  start := fun _ => none
  visit := Consumer.visit

/-- The pipeline with a journal and a replicator. -/
def pipelineWiring : Wiring Consumer where
  dependencies
    | .businessLogic => [some .unmarshaller, some .replicator, some .journal]
    | _ => [none]
  gate := .businessLogic
  runs := fun _ => True

/-- The pipeline of `main` and of the benchmarks. -/
def mainWiring : Wiring Consumer where
  dependencies
    | .businessLogic => [some .unmarshaller]
    | _ => [none]
  gate := .businessLogic
  runs := fun c => c = .unmarshaller ∨ c = .businessLogic

/-- What the business logic processor has read. -/
def deliveries (hist : List (Visit Consumer InputSlot)) : List (Option (Command × UInt64)) :=
  (visitsOf .businessLogic hist).map fun v => v.found.delivered

end Wirings

end LmaxEngine
