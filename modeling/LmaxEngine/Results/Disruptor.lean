import LmaxEngine.Results.Wiring

/-!
# The pipeline is a disruptor

A run of the pipeline of the input ring, as its own steps describe it, is a run of the
disruptor with the wiring of the pipeline.  The one step that the disruptor does not
have is that of the cursor, which no thread waits for.
-/

namespace LmaxEngine

open Disruptor Sequencing Transition

def Source.view : Source → Option Consumer
  | .producer => none
  | .consumer c => some c

def Source.ofView : Option Consumer → Source
  | none => .producer
  | some c => .consumer c

@[simp] theorem Source.view_ofView
    (d : Option Consumer) :
    (Source.ofView d).view = d := by
  cases d <;> rfl

@[simp] theorem Source.ofView_view
    (d : Source) :
    Source.ofView d.view = d := by
  cases d <;> rfl

theorem Source.ofView_injective :
    Function.Injective Source.ofView :=
  Function.LeftInverse.injective Source.view_ofView

/-- A pass over the sequences, seen as one over the counters. -/
def viewScan (scan : Scan Source) : Scan (Option Consumer) where
  rest := scan.rest.map Source.view
  least := scan.least

def ProducerPhase.view : ProducerPhase → Disruptor.ProducerPhase
  | .claiming => .claiming
  | .claimed seq => .claimed seq
  | .written seq => .written seq
  | .marked seq => .written seq

def ConsumerPhase.view : ConsumerPhase → Phase Consumer Memory
  | .idle => .idle
  | .waiting next scan => .waiting next (viewScan scan)
  | .reading next => .visiting next none
  | .writing next command => .visiting next (some command)
  | .storing next => .leaving next

namespace Pipeline

/-- The pipeline, seen as a disruptor. -/
def view (s : Pipeline) : State Consumer InputSlot Memory where
  cells := s.ring.buffer
  nextSeq := s.nextSeq
  producer := s.producer.view
  sequence := fun d => s.sequence (Source.ofView d)
  consumer := fun c => (s.consumer c).view

section Views

variable {k : Nat} {messages : List Message} {s t : Pipeline}
variable {es trace : List (Option (Command × UInt64))}

theorem view_new
    (k : Nat) :
    (Pipeline.new (2 ^ k)).view = State.new :=
  rfl

theorem view_enter
    (s : Pipeline) (c : Consumer) (phase : ConsumerPhase) :
    (s.enter c phase).view = s.view.enter c phase.view := by
  have hconsumer : (fun c' => (Function.update s.consumer c phase c').view) =
      Function.update (fun c' => (s.consumer c').view) c phase.view := by
    funext c'
    by_cases hc : c' = c
    · subst hc
      rw [Function.update_self, Function.update_self]
    · rw [Function.update_of_ne hc, Function.update_of_ne hc]
  unfold view enter State.enter
  rw [← hconsumer]

theorem view_store
    (s : Pipeline) (d : Option Consumer) (seq : Int) :
    (s.store (Source.ofView d) seq).view = s.view.store d seq := by
  have hsequence : (fun d' => Function.update s.sequence (Source.ofView d) seq
      (Source.ofView d')) = Function.update (fun d' => s.sequence (Source.ofView d')) d seq := by
    funext d'
    by_cases hd : d' = d
    · subst hd
      rw [Function.update_self, Function.update_self]
    · rw [Function.update_of_ne (Source.ofView_injective.ne hd), Function.update_of_ne hd]
  unfold view store State.store
  rw [← hsequence]

theorem index_view
    (hmask : s.ring.mask = 2 ^ k - 1) (n : Int) :
    (inputMachine (2 ^ k)).index n = s.ring.index n := by
  change (RingBuffer.new (2 ^ k) : RingBuffer InputSlot).index n = s.ring.index n
  rw [RingBuffer.index_eq (k := k) rfl, RingBuffer.index_eq hmask]

theorem size_view
    (hmask : s.ring.mask = 2 ^ k - 1) :
    (inputMachine (2 ^ k)).size = s.ring.capacity := by
  rw [inputMachine_size, RingBuffer.capacity_eq hmask]

theorem dependencies_view
    (c : Consumer) :
    pipelineWiring.dependencies c = c.dependencies.map Source.view := by
  cases c <;> rfl

theorem viewScan_start
    (c : Consumer) :
    viewScan (Scan.start c.dependencies) = Scan.start (pipelineWiring.dependencies c) := by
  rw [dependencies_view]
  rfl

theorem viewScan_read
    (scan : Scan Source) (seq : Int) :
    viewScan (scan.read seq) = (viewScan scan).read seq := by
  simp [viewScan, Scan.read, List.map_tail]

/-- Consumers that only read are through with a slot after one access. -/
theorem visit_reading
    {c : Consumer} {slot : InputSlot} {capacity : Nat} (hc : c ≠ .unmarshaller) :
    (inputMachine capacity).visit c none slot = (slot, none) := by
  cases c with
  | unmarshaller => exact absurd rfl hc
  | replicator => rfl
  | journal => rfl
  | businessLogic => rfl

theorem deliveries_other
    {c : Consumer} {n : Int} {slot : InputSlot} (hc : c ≠ .businessLogic) :
    deliveries [{ consumer := c, number := n, found := slot }] = [] := by
  simp [deliveries, visitsOf, hc]

theorem deliveries_own
    (n : Int) (slot : InputSlot) :
    deliveries [{ consumer := .businessLogic, number := n, found := slot }] =
      [slot.delivered] := by
  simp [deliveries, visitsOf]

/-- **Every step of the pipeline is one of the disruptor**, or it stores the cursor or
spins. -/
theorem Step.wired
    (hstep : Step messages s es t) (hmask : s.ring.mask = 2 ^ k - 1) :
    (t.view = s.view ∧ es = []) ∨
      ∃ visits, Disruptor.Step pipelineWiring (inputMachine (2 ^ k)) messages s.view visits
        t.view ∧ deliveries visits = es := by
  have hcell : ∀ {n : Int} {slot : InputSlot}, s.ring.slotRef n = some slot →
      s.view.cells ((inputMachine (2 ^ k)).index n) = some slot := by
    intro n slot hslot
    rw [index_view hmask]
    exact hslot
  cases hstep with
  | spin => exact Or.inl ⟨rfl, rfl⟩
  | claim hphase hmore hgate =>
      rw [← size_view hmask] at hgate
      exact Or.inr ⟨[], Disruptor.Step.claim (s := s.view)
        (congrArg ProducerPhase.view hphase) hmore hgate, rfl⟩
  | @writeSlot seq message hphase hmessage =>
      refine Or.inr ⟨[], ?_, rfl⟩
      have hfill : Disruptor.Step pipelineWiring (inputMachine (2 ^ k)) messages s.view [] _ :=
        Disruptor.Step.fill (congrArg ProducerPhase.view hphase) hmessage
      rw [index_view hmask] at hfill
      exact hfill
  | storeCursor hphase =>
      refine Or.inl ⟨?_, rfl⟩
      unfold view
      rw [hphase]
      rfl
  | @publish seq hphase =>
      refine Or.inr ⟨[], ?_, rfl⟩
      have hpublish : Disruptor.Step pipelineWiring (inputMachine (2 ^ k)) messages s.view [] _ :=
        Disruptor.Step.publish (congrArg ProducerPhase.view hphase)
      rw [← view_store] at hpublish
      exact hpublish
  | begin c hphase =>
      refine Or.inr ⟨[], ?_, rfl⟩
      have hbegin : Disruptor.Step pipelineWiring (inputMachine (2 ^ k)) messages s.view [] _ :=
        Disruptor.Step.begin c trivial (congrArg ConsumerPhase.view hphase)
      rw [view_enter, ConsumerPhase.view, viewScan_start]
      exact hbegin
  | @look next scan d rest c hphase hrest =>
      refine Or.inr ⟨[], ?_, rfl⟩
      have hlook : Disruptor.Step pipelineWiring (inputMachine (2 ^ k)) messages s.view [] _ :=
        Disruptor.Step.look c (congrArg ConsumerPhase.view hphase)
          (show (viewScan scan).rest = d.view :: rest.map Source.view by simp [viewScan, hrest])
      have hread : s.view.sequence d.view = s.sequence d := by simp [view]
      rw [hread, ← viewScan_read] at hlook
      rw [view_enter]
      exact hlook
  | pass c hphase hrest hmin =>
      refine Or.inr ⟨[], ?_, rfl⟩
      rw [view_enter]
      exact Disruptor.Step.pass c (congrArg ConsumerPhase.view hphase)
        (by simp [viewScan, hrest]) hmin
  | retry c hphase hrest hmin =>
      refine Or.inr ⟨[], ?_, rfl⟩
      have hretry : Disruptor.Step pipelineWiring (inputMachine (2 ^ k)) messages s.view [] _ :=
        Disruptor.Step.retry c (congrArg ConsumerPhase.view hphase)
          (by simp [viewScan, hrest]) hmin
      rw [view_enter, ConsumerPhase.view, viewScan_start]
      exact hretry
  | @parse next slot hphase hslot =>
      refine Or.inr ⟨[], ?_, rfl⟩
      have hconsumer : s.view.consumer .unmarshaller = .visiting next none :=
        congrArg ConsumerPhase.view hphase
      have hvisit : Disruptor.Step pipelineWiring (inputMachine (2 ^ k)) messages s.view [] _ :=
        Disruptor.Step.visit .unmarshaller hconsumer (hcell hslot) rfl
      rw [State.write_self (hcell hslot)] at hvisit
      rw [view_enter]
      exact hvisit
  | @writeCommand next command slot hphase hslot =>
      have hconsumer : s.view.consumer .unmarshaller = .visiting next (some command) :=
        congrArg ConsumerPhase.view hphase
      have hleave : Disruptor.Step pipelineWiring (inputMachine (2 ^ k)) messages s.view _ _ :=
        Disruptor.Step.leave .unmarshaller hconsumer (hcell hslot) rfl
      rw [index_view hmask] at hleave
      have hview := view_enter { s with ring := s.ring.write next { slot with command := command } }
        .unmarshaller (.storing next)
      exact Or.inr ⟨_, hview ▸ hleave, deliveries_other (by decide)⟩
  | @inspect next slot c hc hphase hslot =>
      have hleave : Disruptor.Step pipelineWiring (inputMachine (2 ^ k)) messages s.view _ _ :=
        Disruptor.Step.leave c (congrArg ConsumerPhase.view hphase) (hcell hslot)
          (visit_reading (by rcases hc with rfl | rfl <;> decide))
      rw [State.write_self (hcell hslot)] at hleave
      have hview := view_enter s c (.storing next)
      exact Or.inr ⟨_, hview ▸ hleave, deliveries_other (by rcases hc with rfl | rfl <;> decide)⟩
  | @handle next slot hphase hslot =>
      have hconsumer : s.view.consumer .businessLogic = .visiting next none :=
        congrArg ConsumerPhase.view hphase
      have hleave : Disruptor.Step pipelineWiring (inputMachine (2 ^ k)) messages s.view _ _ :=
        Disruptor.Step.leave .businessLogic hconsumer (hcell hslot) (visit_reading (by decide))
      rw [State.write_self (hcell hslot)] at hleave
      refine Or.inr ⟨_, ?_, deliveries_own next slot⟩
      rw [view_enter]
      exact hleave
  | @advance next c hphase =>
      refine Or.inr ⟨[], ?_, rfl⟩
      have hadvance : Disruptor.Step pipelineWiring (inputMachine (2 ^ k)) messages s.view [] _ :=
        Disruptor.Step.advance c (congrArg ConsumerPhase.view hphase)
      rw [view_enter, show s.store (.consumer c) next = s.store (Source.ofView (some c)) next
        from rfl, view_store]
      exact hadvance

theorem deliveries_append
    (hist visits : List (Visit Consumer InputSlot)) :
    deliveries (hist ++ visits) = deliveries hist ++ deliveries visits := by
  simp [deliveries, visitsOf]

/-- **A run of the pipeline is a run of the disruptor**, with the same deliveries. -/
theorem exists_trail_wired
    (htrail : Trail (Step messages) (Pipeline.new (2 ^ k)) trace s) :
    ∃ hist, Trail (Disruptor.Step pipelineWiring (inputMachine (2 ^ k)) messages)
      State.new hist s.view ∧ deliveries hist = trace := by
  have h := htrail.invariant
    (P := fun trace s => Sequenced k messages s ∧
      ∃ hist, Trail (Disruptor.Step pipelineWiring (inputMachine (2 ^ k)) messages)
        State.new hist s.view ∧ deliveries hist = trace)
    (fun {trace s es t} h hstep => by
      obtain ⟨hseq, hist, htrail, rfl⟩ := h
      refine ⟨hstep.sequenced hseq, ?_⟩
      rcases hstep.wired hseq.mask with ⟨hview, rfl⟩ | ⟨visits, hwired, rfl⟩
      · exact ⟨hist, hview ▸ htrail, (List.append_nil _).symm⟩
      · exact ⟨hist ++ visits, htrail.tail hwired, deliveries_append hist visits⟩)
    [] ⟨sequenced_new k messages, [], view_new k ▸ Trail.refl State.new, rfl⟩
  exact h.2

/-- **The pipeline is a disruptor** with a live and sound wiring: a run of its threads is
one of the disruptor, with the same deliveries, and so every consumer finds in a slot
the message that it has come for. -/
theorem pipeline_wired
    (hlen : messages.length < 2 ^ 63)
    (htrail : Trail (Step messages) (Pipeline.new (2 ^ k)) trace s) :
    pipelineWiring.Live ∧ pipelineWiring.Sound ∧
      (∃ hist, Trail (Disruptor.Step pipelineWiring (inputMachine (2 ^ k)) messages)
        State.new hist s.view ∧ deliveries hist = trace) ∧
      ∀ c n, (s.consumer c).Accesses n → 0 ≤ n ∧ ∃ slot message,
        s.ring.slotRef n = some slot ∧ messages[n.toNat]? = some message ∧
        slot.bytes = message.raw.take 256 ∧ slot.timestampNs = message.timestampNs := by
  obtain ⟨hist, hwired, htrace⟩ := exists_trail_wired htrail
  refine ⟨live_pipelineWiring, sound_pipelineWiring, ⟨hist, hwired, htrace⟩, fun c n hn => ?_⟩
  have hphase : ∃ memory, s.view.consumer c = .visiting n memory := by
    rcases hn with hphase | ⟨command, hphase⟩
    · exact ⟨none, congrArg ConsumerPhase.view hphase⟩
    · exact ⟨some command, congrArg ConsumerPhase.view hphase⟩
  obtain ⟨memory, hphase⟩ := hphase
  obtain ⟨hpos, slot, message, hslot, hfound⟩ :=
    readsOwn_of_sound sound_pipelineWiring k hlen hwired hphase
  refine ⟨hpos, slot, message, ?_, hfound⟩
  rw [index_view (delivers_of_trail hlen htrail).sequenced.mask] at hslot
  exact hslot

/-- The pipeline about to read the cancellation of the trade. -/
theorem pipeline_wired_trade :
    ∃ trace s, Trail (Step tradeMessages) (Pipeline.new (2 ^ 1)) trace s ∧
      s.consumer .businessLogic = .reading 3 ∧
      (∃ hist, Trail (Disruptor.Step pipelineWiring (inputMachine (2 ^ 1)) tradeMessages)
        State.new hist s.view ∧ deliveries hist = trace) ∧
      ∃ slot message, s.ring.slotRef 3 = some slot ∧ tradeMessages[3]? = some message ∧
        slot.bytes = message.raw.take 256 ∧ slot.timestampNs = message.timestampNs := by
  obtain ⟨trace, s, htrail, hphase⟩ :=
    exists_trail_reading (n := 3) (k := 1) (by decide) (show 3 < tradeMessages.length by decide)
      (Trail.refl _) (by decide)
  obtain ⟨-, -, hwired, hslots⟩ := pipeline_wired (by decide) htrail
  exact ⟨trace, s, htrail, hphase, hwired, (hslots .businessLogic 3 (Or.inl hphase)).2⟩

end Views

end Pipeline

end LmaxEngine
