import LmaxEngine.Lib.Transition
import LmaxEngine.Model.InputRing

/-!
# The input ring in every reachable state

The sequences of the pipeline are ordered, so no slot is written before all
consumers are done with it, and every consumer finds in a slot the message with
the number that it waits for.  The business logic processor reads the parsed
messages one by one, in the order in which they were published.
-/

namespace LmaxEngine
namespace Pipeline

open Sequencing Transition

/-- What the sequences say about the phase of a consumer. -/
def PhaseOk (sequence : Source → Int) (c : Consumer) : ConsumerPhase → Prop
  | .idle => True
  | .waiting next scan =>
      next = sequence (.consumer c) + 1 ∧ scan.Covers c.dependencies sequence
  | .reading next =>
      next = sequence (.consumer c) + 1 ∧ ∀ d, d ∈ c.dependencies → next ≤ sequence d
  | .writing next _ =>
      next = sequence (.consumer c) + 1 ∧ ∀ d, d ∈ c.dependencies → next ≤ sequence d
  | .storing next =>
      next = sequence (.consumer c) + 1 ∧ ∀ d, d ∈ c.dependencies → next ≤ sequence d

/-- What the sequences say about the phase of the producer: a number that is
claimed is within the ring of what the last consumer has handled. -/
def ProducerOk (size : Int) (nextSeq : Int) (sequence : Source → Int) : ProducerPhase → Prop
  | .claiming => sequence .producer + 1 = nextSeq
  | .claimed seq =>
      sequence .producer + 1 = seq ∧ seq + 1 = nextSeq ∧
        seq - size ≤ sequence (.consumer .businessLogic)
  | .written seq =>
      sequence .producer + 1 = seq ∧ seq + 1 = nextSeq ∧
        seq - size ≤ sequence (.consumer .businessLogic)
  | .marked seq =>
      sequence .producer + 1 = seq ∧ seq + 1 = nextSeq ∧
        seq - size ≤ sequence (.consumer .businessLogic)

/-- The invariant of the sequences and the phases. -/
structure Sequenced (k : Nat) (messages : List Message) (s : Pipeline) : Prop where
  mask : s.ring.mask = 2 ^ k - 1
  producer : ProducerOk (2 ^ k) s.nextSeq s.sequence s.producer
  bound : s.nextSeq ≤ messages.length
  start : -1 ≤ s.sequence (.consumer .businessLogic)
  order : ∀ c d, d ∈ c.dependencies → s.sequence (.consumer c) ≤ s.sequence d
  gate : s.sequence .producer ≤ s.sequence (.consumer .businessLogic) + 2 ^ k
  consumer : ∀ c, PhaseOk s.sequence c (s.consumer c)

section Sequences

variable {k : Nat} {messages : List Message} {s t : Pipeline} {c : Consumer}
variable {sequence sequence' : Source → Int} {phase : ConsumerPhase}

/-- Phases stay right while the sequences of others grow. -/
theorem PhaseOk.mono
    (h : PhaseOk sequence c phase)
    (hown : sequence' (.consumer c) = sequence (.consumer c))
    (hle : ∀ d, sequence d ≤ sequence' d) :
    PhaseOk sequence' c phase := by
  cases phase with
  | idle => trivial
  | waiting next scan => exact ⟨by rw [hown]; exact h.1, h.2.mono hle⟩
  | reading next => exact ⟨by rw [hown]; exact h.1, fun d hd => (h.2 d hd).trans (hle d)⟩
  | writing next command =>
      exact ⟨by rw [hown]; exact h.1, fun d hd => (h.2 d hd).trans (hle d)⟩
  | storing next => exact ⟨by rw [hown]; exact h.1, fun d hd => (h.2 d hd).trans (hle d)⟩

/-- A consumer enters a phase that the sequences allow. -/
theorem Sequenced.enter
    (h : Sequenced k messages s) (hphase : PhaseOk s.sequence c phase) :
    Sequenced k messages (s.enter c phase) := by
  refine ⟨h.mask, h.producer, h.bound, h.start, h.order, h.gate, fun c' => ?_⟩
  change PhaseOk s.sequence c' (Function.update s.consumer c phase c')
  by_cases hc : c' = c
  · subst hc
    rwa [Function.update_self]
  · rw [Function.update_of_ne hc]
    exact h.consumer c'

theorem ProducerOk.mono
    {size nextSeq : Int} {phase : ProducerPhase}
    (h : ProducerOk size nextSeq sequence phase)
    (hown : sequence' .producer = sequence .producer)
    (hle : sequence (.consumer .businessLogic) ≤ sequence' (.consumer .businessLogic)) :
    ProducerOk size nextSeq sequence' phase := by
  cases phase with
  | claiming =>
      rw [ProducerOk, hown]
      exact h
  | claimed seq => exact ⟨by rw [hown]; exact h.1, h.2.1, h.2.2.trans hle⟩
  | written seq => exact ⟨by rw [hown]; exact h.1, h.2.1, h.2.2.trans hle⟩
  | marked seq => exact ⟨by rw [hown]; exact h.1, h.2.1, h.2.2.trans hle⟩

theorem not_mem_dependencies
    (c : Consumer) :
    Source.consumer c ∉ c.dependencies := by
  cases c <;> decide

theorem le_store
    {d : Source} {seq : Int}
    (h : s.sequence d + 1 = seq) (d' : Source) :
    s.sequence d' ≤ (s.store d seq).sequence d' := by
  by_cases hd : d' = d
  · subst hd
    simp only [store, Function.update_self]
    omega
  · simp [store, hd]

/-- A consumer stores the number that it is done with. -/
theorem Sequenced.advance
    {next : Int}
    (h : Sequenced k messages s) (hphase : s.consumer c = .storing next) :
    Sequenced k messages ((s.store (.consumer c) next).enter c .idle) := by
  have hc := h.consumer c
  rw [hphase] at hc
  obtain ⟨hnext, hdeps⟩ := hc
  have hle := le_store hnext.symm
  have hblp := hle (.consumer .businessLogic)
  have hproducer : (s.store (.consumer c) next).sequence .producer = s.sequence .producer := by
    simp [store]
  have hstore : Sequenced k messages
      { s.store (.consumer c) next with consumer := Function.update s.consumer c .idle } := by
    refine ⟨h.mask, h.producer.mono hproducer hblp, h.bound, h.start.trans hblp, ?_, ?_, ?_⟩
    · intro c' d hd
      by_cases hc' : c' = c
      · subst hc'
        have hne : d ≠ .consumer c' := fun he => not_mem_dependencies c' (he ▸ hd)
        simp only [store, Function.update_self, Function.update_of_ne hne]
        exact hdeps d hd
      · have hne : Source.consumer c' ≠ .consumer c := fun he => hc' (Source.consumer.inj he)
        have hown : (s.store (.consumer c) next).sequence (.consumer c') =
            s.sequence (.consumer c') := by
          simp [store, hc']
        dsimp only
        rw [hown]
        exact (h.order c' d hd).trans (hle d)
    · dsimp only
      rw [hproducer]
      have := h.gate
      omega
    · intro c'
      by_cases hc' : c' = c
      · subst hc'
        simp [PhaseOk]
      · have hown : (s.store (.consumer c) next).sequence (.consumer c') =
            s.sequence (.consumer c') := by
          simp [store, hc']
        dsimp only
        rw [Function.update_of_ne hc']
        exact (h.consumer c').mono hown hle
  exact hstore

/-- The producer stores the number that it has written. -/
theorem Sequenced.publish
    {seq : Int}
    (h : Sequenced k messages s) (hphase : s.producer = .marked seq) :
    Sequenced k messages { s.store .producer seq with producer := .claiming } := by
  have hp := h.producer
  rw [hphase] at hp
  obtain ⟨hseq, hnext, hgate⟩ := hp
  have hle := le_store hseq
  have hown : ∀ c, (s.store .producer seq).sequence (.consumer c) = s.sequence (.consumer c) :=
    fun c => by simp [store]
  have hproducer : (s.store .producer seq).sequence .producer = seq := by simp [store]
  refine ⟨h.mask, ?_, h.bound, ?_, ?_, ?_, ?_⟩
  · change (s.store .producer seq).sequence .producer + 1 = s.nextSeq
    rw [hproducer, hnext]
  · dsimp only
    rw [hown]
    exact h.start
  · intro c d hd
    dsimp only
    rw [hown]
    exact (h.order c d hd).trans (hle d)
  · dsimp only
    rw [hown, hproducer]
    omega
  · intro c
    exact (h.consumer c).mono (hown c) hle

/-- **Every step keeps the sequences in order.** -/
theorem Step.sequenced
    {es : List (Option (Command × UInt64))}
    (hstep : Step messages s es t) (h : Sequenced k messages s) :
    Sequenced k messages t := by
  cases hstep with
  | spin => exact h
  | claim hphase hmore hgate =>
      have hp := h.producer
      rw [hphase] at hp
      rw [RingBuffer.capacity_eq h.mask] at hgate
      refine ⟨h.mask, ⟨hp, rfl, hgate⟩, ?_, h.start, h.order, h.gate, h.consumer⟩
      exact Int.add_one_le_of_lt hmore
  | writeSlot hphase hmessage =>
      have hp := h.producer
      rw [hphase] at hp
      exact ⟨h.mask, hp, h.bound, h.start, h.order, h.gate, h.consumer⟩
  | storeCursor hphase =>
      have hp := h.producer
      rw [hphase] at hp
      exact ⟨h.mask, hp, h.bound, h.start, h.order, h.gate, h.consumer⟩
  | publish hphase => exact h.publish hphase
  | begin c hphase => exact h.enter ⟨rfl, Scan.covers_start _ _⟩
  | look c hphase hrest =>
      have hc := h.consumer c
      rw [hphase] at hc
      exact h.enter ⟨hc.1, hc.2.read hrest⟩
  | pass c hphase hrest hmin =>
      have hc := h.consumer c
      rw [hphase] at hc
      exact h.enter ⟨hc.1, hc.2.le hrest hmin⟩
  | retry c hphase hrest hmin =>
      have hc := h.consumer c
      rw [hphase] at hc
      exact h.enter ⟨hc.1, Scan.covers_start _ _⟩
  | parse hphase hslot =>
      have hc := h.consumer .unmarshaller
      rw [hphase] at hc
      exact h.enter hc
  | writeCommand hphase hslot =>
      have hc := h.consumer .unmarshaller
      rw [hphase] at hc
      have he : Sequenced k messages (s.enter .unmarshaller (.storing _)) := h.enter hc
      exact ⟨he.mask, he.producer, he.bound, he.start, he.order, he.gate, he.consumer⟩
  | inspect c hc hphase hslot =>
      have hok := h.consumer c
      rw [hphase] at hok
      exact h.enter hok
  | handle hphase hslot =>
      have hc := h.consumer .businessLogic
      rw [hphase] at hc
      exact h.enter hc
  | advance c hphase => exact h.advance hphase

theorem sequenced_new
    (k : Nat) (messages : List Message) :
    Sequenced k messages (Pipeline.new (2 ^ k)) where
  mask := rfl
  producer := rfl
  bound := Int.natCast_nonneg _
  start := le_refl _
  order _ _ _ := le_refl _
  gate := by
    have : (0 : Int) < 2 ^ k := Int.pow_pos (by decide)
    change (-1 : Int) ≤ -1 + 2 ^ k
    omega
  consumer _ := trivial

end Sequences

/-- The last number that a consumer in this phase is done with. -/
def doneIn (own : Int) : ConsumerPhase → Int
  | .storing next => next
  | _ => own

/-- The last number that a consumer is done with. -/
def done (s : Pipeline) (c : Consumer) : Int :=
  doneIn (s.sequence (.consumer c)) (s.consumer c)

/-- The last number whose slot is written. -/
def top (s : Pipeline) : Int :=
  match s.producer with
  | .written seq => seq
  | .marked seq => seq
  | _ => s.sequence .producer

/-- What the slot of a number holds: the message, and its command once the
unmarshaller is done with it. -/
def SlotOk (messages : List Message) (parsed : Int) (n : Int) (slot : InputSlot) : Prop :=
  ∃ message, messages[n.toNat]? = some message ∧
    slot.bytes = message.raw.take 256 ∧ slot.timestampNs = message.timestampNs ∧
    (n ≤ parsed → slot.command = (parseCommand message.raw).toOption)

/-- The invariant of the slots: those of the last `2 ^ k` numbers hold their
messages. -/
structure Stored (k : Nat) (messages : List Message) (s : Pipeline) : Prop where
  cells : Holds s.ring.index s.ring.buffer (max 0 (s.top + 1 - 2 ^ k)) s.top
    (SlotOk messages (s.done .unmarshaller))
  parsed : ∀ {next command}, s.consumer .unmarshaller = .writing next command →
    ∃ message, messages[next.toNat]? = some message ∧
      command = (parseCommand message.raw).toOption

section Slots

variable {k : Nat} {messages : List Message} {s t : Pipeline} {c : Consumer}
variable {phase : ConsumerPhase}

theorem done_enter
    {c' : Consumer}
    (hdone : c' = c →
      doneIn (s.sequence (.consumer c)) phase = doneIn (s.sequence (.consumer c)) (s.consumer c)) :
    (s.enter c phase).done c' = s.done c' := by
  by_cases hc : c' = c
  · subst hc
    simp only [done, enter, Function.update_self, hdone]
  · simp only [done, enter, Function.update_of_ne hc]

theorem Sequenced.blp_le
    (h : Sequenced k messages s) (c : Consumer) :
    s.sequence (.consumer .businessLogic) ≤ s.sequence (.consumer c) := by
  cases c with
  | businessLogic => exact le_refl _
  | unmarshaller => exact h.order .businessLogic _ (by decide)
  | replicator => exact h.order .businessLogic _ (by decide)
  | journal => exact h.order .businessLogic _ (by decide)

theorem Sequenced.le_producer
    (h : Sequenced k messages s) (c : Consumer) :
    s.sequence (.consumer c) ≤ s.sequence .producer := by
  have hu := h.order .unmarshaller .producer (by decide)
  cases c with
  | businessLogic => exact (h.order .businessLogic (.consumer .unmarshaller) (by decide)).trans hu
  | unmarshaller => exact hu
  | replicator => exact h.order .replicator _ (by decide)
  | journal => exact h.order .journal _ (by decide)

/-- The numbers in use fit into the ring. -/
theorem Sequenced.top_bounds
    (h : Sequenced k messages s) :
    s.sequence .producer ≤ s.top ∧ s.top < messages.length ∧
      s.top ≤ s.sequence (.consumer .businessLogic) + 2 ^ k := by
  have hp := h.producer
  have hgate := h.gate
  have hbound := h.bound
  unfold top
  cases hphase : s.producer with
  | claiming =>
      rw [hphase] at hp
      dsimp only [ProducerOk] at hp ⊢
      omega
  | claimed seq =>
      rw [hphase] at hp
      dsimp only [ProducerOk] at hp ⊢
      omega
  | written seq =>
      rw [hphase] at hp
      dsimp only [ProducerOk] at hp ⊢
      omega
  | marked seq =>
      rw [hphase] at hp
      dsimp only [ProducerOk] at hp ⊢
      omega

/-- Every barrier is behind the producer. -/
theorem Sequenced.published
    {n : Int}
    (h : Sequenced k messages s) (hdeps : ∀ d, d ∈ c.dependencies → n ≤ s.sequence d) :
    n ≤ s.sequence .producer := by
  cases c with
  | businessLogic =>
      exact (hdeps (.consumer .unmarshaller) (by decide)).trans (h.le_producer _)
  | unmarshaller => exact hdeps _ (by decide)
  | replicator => exact hdeps _ (by decide)
  | journal => exact hdeps _ (by decide)

/-- A number that a consumer waits for, once it is through the barrier, is among
those in use. -/
theorem Sequenced.in_window
    {n : Int}
    (h : Sequenced k messages s) (hown : n = s.sequence (.consumer c) + 1)
    (hdeps : ∀ d, d ∈ c.dependencies → n ≤ s.sequence d) :
    max 0 (s.top + 1 - 2 ^ k) ≤ n ∧ n ≤ s.top := by
  obtain ⟨htop, -, hgate⟩ := h.top_bounds
  have hstart := h.start
  have hblp := h.blp_le c
  have hproducer := h.published hdeps
  omega

theorem Sequenced.done_bounds
    (h : Sequenced k messages s) (c : Consumer) :
    s.sequence (.consumer c) ≤ s.done c ∧ s.done c ≤ s.sequence .producer := by
  have hc := h.consumer c
  have hle := h.le_producer c
  unfold done
  cases hphase : s.consumer c with
  | idle => exact ⟨le_refl _, hle⟩
  | waiting next scan => exact ⟨le_refl _, hle⟩
  | reading next => exact ⟨le_refl _, hle⟩
  | writing next command => exact ⟨le_refl _, hle⟩
  | storing next =>
      rw [hphase] at hc
      have := h.published hc.2
      have := hc.1
      dsimp only [doneIn]
      omega

theorem Sequenced.accesses
    {n : Int}
    (h : Sequenced k messages s) (hn : (s.consumer c).Accesses n) :
    n = s.sequence (.consumer c) + 1 ∧ ∀ d, d ∈ c.dependencies → n ≤ s.sequence d := by
  have hc := h.consumer c
  rcases hn with hr | ⟨command, hw⟩
  · rwa [hr] at hc
  · rwa [hw] at hc

/-- What a consumer finds in the slot that it accesses. -/
theorem Stored.slot
    {n : Int}
    (h : Stored k messages s) (hseq : Sequenced k messages s)
    (hn : (s.consumer c).Accesses n) :
    ∃ slot, s.ring.slotRef n = some slot ∧ SlotOk messages (s.done .unmarshaller) n slot := by
  obtain ⟨hown, hdeps⟩ := hseq.accesses hn
  obtain ⟨hlo, hhi⟩ := hseq.in_window hown hdeps
  exact h.cells n hlo hhi

theorem Stored.enter
    (h : Stored k messages s)
    (hdone : c = .unmarshaller →
      doneIn (s.sequence (.consumer c)) phase = doneIn (s.sequence (.consumer c)) (s.consumer c))
    (hparsed : ∀ {next command}, c = .unmarshaller → phase = .writing next command →
      ∃ message, messages[next.toNat]? = some message ∧
        command = (parseCommand message.raw).toOption) :
    Stored k messages (s.enter c phase) where
  cells := by
    rw [done_enter fun hc => hdone hc.symm]
    exact h.cells
  parsed {next command} hphase := by
    by_cases hc : Consumer.unmarshaller = c
    · subst hc
      simp only [Pipeline.enter, Function.update_self] at hphase
      exact hparsed rfl hphase
    · simp only [Pipeline.enter, Function.update_of_ne hc] at hphase
      exact h.parsed hphase

/-- The producer writes its message over a slot that no consumer needs. -/
theorem Stored.writeSlot
    {seq : Int} {message : Message}
    (h : Stored k messages s) (hseq : Sequenced k messages s)
    (hlen : messages.length < 2 ^ 63)
    (hphase : s.producer = .claimed seq) (hmessage : messages[seq.toNat]? = some message) :
    Stored k messages
      { s with
        ring := s.ring.write seq (InputSlot.ofRaw message.raw message.timestampNs)
        producer := .written seq } where
  cells := by
    have hp := hseq.producer
    rw [hphase] at hp
    obtain ⟨hown, hnext, hgate⟩ := hp
    have hbound := hseq.bound
    have hdone := (hseq.done_bounds .unmarshaller).2
    have hstart := (hseq.start).trans (hseq.le_producer .businessLogic)
    have htop : s.top + 1 = seq := by
      simpa only [top, hphase] using hown
    have hpos : (0 : Int) < 2 ^ k := Int.pow_pos (by decide)
    have hwrite := h.cells.append (a := InputSlot.ofRaw message.raw message.timestampNs)
      (RingBuffer.spread_index hseq.mask) hpos (by omega) (by omega)
      (by
        rw [htop]
        exact ⟨message, hmessage, InputSlot.bytes_ofRaw _ _, rfl, fun hle => by omega⟩)
    rw [htop] at hwrite
    exact hwrite
  parsed hphase := h.parsed hphase

/-- The unmarshaller writes the command of a message beside it. -/
theorem Stored.writeCommand
    {next : Int} {command : Option Command} {slot : InputSlot}
    (h : Stored k messages s) (hseq : Sequenced k messages s)
    (hlen : messages.length < 2 ^ 63)
    (hphase : s.consumer .unmarshaller = .writing next command)
    (hslot : s.ring.slotRef next = some slot) :
    Stored k messages
      { s.enter .unmarshaller (.storing next) with
        ring := s.ring.write next { slot with command := command } } := by
  have haccess : (s.consumer .unmarshaller).Accesses next := Or.inr ⟨command, hphase⟩
  obtain ⟨hown, hdeps⟩ := hseq.accesses haccess
  obtain ⟨hlo, hhi⟩ := hseq.in_window hown hdeps
  obtain ⟨slot', hslot', message, hmessage, hbytes, htime, -⟩ := h.slot hseq haccess
  rw [hslot, Option.some.injEq] at hslot'
  subst hslot'
  obtain ⟨message', hmessage', rfl⟩ := h.parsed hphase
  rw [hmessage, Option.some.injEq] at hmessage'
  subst hmessage'
  have hbounds := hseq.top_bounds
  have hpos : (0 : Int) < 2 ^ k := Int.pow_pos (by decide)
  have hdone : s.done .unmarshaller = next - 1 := by
    simp only [done, hphase, doneIn]
    omega
  have hnew : (s.enter .unmarshaller (.storing next)).done .unmarshaller = next := by
    simp [done, Pipeline.enter, doneIn]
  have hcells : Holds s.ring.index
      (Function.update s.ring.buffer (s.ring.index next)
        (some { slot with command := (parseCommand message.raw).toOption }))
      (max 0 (s.top + 1 - 2 ^ k)) s.top (SlotOk messages next) := by
    refine Holds.rewrite (RingBuffer.spread_index hseq.mask) h.cells (by omega) hlo hhi (by omega)
      (by omega) ?_ ⟨message, hmessage, hbytes, htime, fun _ => rfl⟩
    rintro m b hne ⟨message', hmessage', hb, ht, hcommand⟩
    exact ⟨message', hmessage', hb, ht, fun hle => hcommand (by omega)⟩
  rw [← hnew] at hcells
  exact ⟨hcells, fun {next' command'} hw => absurd hw (by simp [Pipeline.enter])⟩

/-- **Every step keeps the messages in their slots.** -/
theorem Step.stored
    {es : List (Option (Command × UInt64))}
    (hstep : Step messages s es t) (hseq : Sequenced k messages s)
    (hlen : messages.length < 2 ^ 63) (h : Stored k messages s) :
    Stored k messages t := by
  cases hstep with
  | spin => exact h
  | claim hphase hmore hgate =>
      have hcells := h.cells
      simp only [top, hphase] at hcells
      exact ⟨hcells, h.parsed⟩
  | writeSlot hphase hmessage => exact h.writeSlot hseq hlen hphase hmessage
  | storeCursor hphase =>
      have hcells := h.cells
      simp only [top, hphase] at hcells
      exact ⟨hcells, h.parsed⟩
  | publish hphase =>
      have hcells := h.cells
      simp only [top, hphase] at hcells
      refine ⟨?_, h.parsed⟩
      simpa [top, store, done] using hcells
  | begin c hphase =>
      exact h.enter (fun _ => by rw [hphase]; rfl) (fun _ he => absurd he (by simp))
  | look c hphase hrest =>
      exact h.enter (fun _ => by rw [hphase]; rfl) (fun _ he => absurd he (by simp))
  | pass c hphase hrest hmin =>
      exact h.enter (fun _ => by rw [hphase]; rfl) (fun _ he => absurd he (by simp))
  | retry c hphase hrest hmin =>
      exact h.enter (fun _ => by rw [hphase]; rfl) (fun _ he => absurd he (by simp))
  | @parse next slot hphase hslot =>
      refine h.enter (fun _ => by rw [hphase]; rfl) fun {next' command} _ he => ?_
      obtain ⟨rfl, rfl⟩ := ConsumerPhase.writing.inj he
      obtain ⟨slot', hslot', message, hmessage, hbytes, -, -⟩ :=
        h.slot (c := .unmarshaller) (n := next) hseq (Or.inl hphase)
      rw [hslot, Option.some.injEq] at hslot'
      subst hslot'
      refine ⟨message, hmessage, ?_⟩
      rw [hbytes, unmarshal, parseCommand_take]
  | writeCommand hphase hslot => exact h.writeCommand hseq hlen hphase hslot
  | inspect c hc hphase hslot =>
      refine h.enter (fun hu => ?_) (fun _ he => absurd he (by simp))
      subst hu
      exact absurd hc (by decide)
  | handle hphase hslot =>
      exact h.enter (fun hu => absurd hu (by decide)) (fun _ he => absurd he (by simp))
  | @advance next c hphase =>
      have hdone : ((s.store (.consumer c) next).enter c .idle).done .unmarshaller =
          s.done .unmarshaller := by
        by_cases hc : Consumer.unmarshaller = c
        · subst hc
          simp [done, enter, store, hphase, doneIn]
        · simp [done, enter, store, hc]
      have htop : ((s.store (.consumer c) next).enter c .idle).top = s.top := by
        simp [top, enter, store]
      refine ⟨?_, fun {next' command} hw => ?_⟩
      · rw [hdone, htop]
        exact h.cells
      · by_cases hc : Consumer.unmarshaller = c
        · subst hc
          simp [enter] at hw
        · simp only [enter, store, Function.update_of_ne hc] at hw
          exact h.parsed hw

end Slots

/-- What the business logic processor is to read for a message. -/
def delivery (message : Message) : Option (Command × UInt64) :=
  ((parseCommand message.raw).toOption).map fun command => (command, message.timestampNs)

/-- The invariant of the pipeline and of what has been read from it. -/
structure Delivers
    (k : Nat) (messages : List Message)
    (trace : List (Option (Command × UInt64))) (s : Pipeline) : Prop where
  sequenced : Sequenced k messages s
  stored : Stored k messages s
  read : trace = (messages.take (s.done .businessLogic + 1).toNat).map delivery

section Delivery

variable {k : Nat} {messages : List Message} {s t : Pipeline} {c : Consumer}
variable {es trace : List (Option (Command × UInt64))}

/-- A step reads nothing for the business logic processor, or the slot that it is
waiting for. -/
theorem Step.read_cases
    (hstep : Step messages s es t) :
    (es = [] ∧ t.done .businessLogic = s.done .businessLogic) ∨
      ∃ next slot, s.consumer .businessLogic = .reading next ∧
        s.ring.slotRef next = some slot ∧ es = [slot.delivered] ∧
        t.done .businessLogic = next := by
  cases hstep with
  | spin => exact Or.inl ⟨rfl, rfl⟩
  | claim => exact Or.inl ⟨rfl, rfl⟩
  | writeSlot => exact Or.inl ⟨rfl, rfl⟩
  | storeCursor => exact Or.inl ⟨rfl, rfl⟩
  | publish => exact Or.inl ⟨rfl, by simp [done, store]⟩
  | begin c hphase => exact Or.inl ⟨rfl, done_enter fun _ => by rw [hphase]; rfl⟩
  | look c hphase hrest => exact Or.inl ⟨rfl, done_enter fun _ => by rw [hphase]; rfl⟩
  | pass c hphase hrest hmin => exact Or.inl ⟨rfl, done_enter fun _ => by rw [hphase]; rfl⟩
  | retry c hphase hrest hmin => exact Or.inl ⟨rfl, done_enter fun _ => by rw [hphase]; rfl⟩
  | parse hphase hslot => exact Or.inl ⟨rfl, done_enter fun hc => absurd hc (by decide)⟩
  | writeCommand hphase hslot => exact Or.inl ⟨rfl, by simp [done, enter]⟩
  | inspect c hc hphase hslot =>
      refine Or.inl ⟨rfl, done_enter fun he => ?_⟩
      subst he
      exact absurd hc (by decide)
  | @handle next slot hphase hslot =>
      exact Or.inr ⟨next, slot, hphase, hslot, rfl, by simp [done, enter, doneIn]⟩
  | @advance next c hphase =>
      refine Or.inl ⟨rfl, ?_⟩
      by_cases hc : Consumer.businessLogic = c
      · subst hc
        simp [done, enter, store, hphase, doneIn]
      · simp [done, enter, store, hc]

/-- **Every step keeps the deliveries in order.** -/
theorem Step.delivers
    (hstep : Step messages s es t) (hlen : messages.length < 2 ^ 63)
    (h : Delivers k messages trace s) :
    Delivers k messages (trace ++ es) t := by
  refine ⟨hstep.sequenced h.sequenced, hstep.stored h.sequenced hlen h.stored, ?_⟩
  rcases hstep.read_cases with ⟨rfl, hdone⟩ | ⟨next, slot, hphase, hslot, rfl, hdone⟩
  · rw [List.append_nil, hdone]
    exact h.read
  · have haccess : (s.consumer .businessLogic).Accesses next := Or.inl hphase
    obtain ⟨hown, hdeps⟩ := h.sequenced.accesses haccess
    obtain ⟨slot', hslot', message, hmessage, -, htime, hcommand⟩ :=
      h.stored.slot h.sequenced haccess
    rw [hslot, Option.some.injEq] at hslot'
    subst hslot'
    have hparsed : next ≤ s.done .unmarshaller :=
      (hdeps (.consumer .unmarshaller) (by decide)).trans
        (h.sequenced.done_bounds .unmarshaller).1
    have hold : s.done .businessLogic + 1 = next := by
      simp only [done, hphase, doneIn, hown]
    have hstart := h.sequenced.start
    have hnext : (next + 1).toNat = next.toNat + 1 := by omega
    rw [hdone, h.read, hold, hnext, List.take_add_one, hmessage, List.map_append]
    simp only [Option.toList_some, List.map_cons, List.map_nil, InputSlot.delivered, delivery,
      hcommand hparsed, htime]

theorem delivers_new
    (k : Nat) (messages : List Message) :
    Delivers k messages [] (Pipeline.new (2 ^ k)) where
  sequenced := sequenced_new k messages
  stored :=
    { cells := fun n hn hn' => by
        have : (Pipeline.new (2 ^ k)).top = -1 := rfl
        omega
      parsed := fun hw => absurd hw (by simp [Pipeline.new]) }
  read := rfl

theorem delivers_of_trail
    (hlen : messages.length < 2 ^ 63)
    (htrail : Trail (Step messages) (Pipeline.new (2 ^ k)) trace s) :
    Delivers k messages trace s :=
  htrail.invariant (P := Delivers k messages)
    (fun h hstep => hstep.delivers hlen h) [] (delivers_new k messages)

end Delivery

end Pipeline
end LmaxEngine
