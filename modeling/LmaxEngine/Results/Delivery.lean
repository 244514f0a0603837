import LmaxEngine.Results.InputRing

/-!
# Delivery through the input ring

As long as there is a message that the processor has not read, some thread has a step
that leaves less to do.  So from every state the processor gets to every message that
it has not read, and finds it in its slot, parsed.
-/

namespace LmaxEngine

open Sequencing Transition

/-- The numbers below `count` that come after `n`. -/
def toCome (count : Nat) (n : Int) : Nat :=
  (count - (n + 1)).toNat

/-- The steps that the producer has left in a call of `publish`. -/
def ProducerPhase.toDo : ProducerPhase → Nat
  | .claiming => 3
  | .claimed _ => 2
  | .written _ => 1
  | .marked _ => 0

/-- The steps that a consumer has left in a round of its loop, if it does not have
to wait. -/
def ConsumerPhase.toDo (c : Consumer) : ConsumerPhase → Nat
  | .idle => 4 + c.dependencies.length
  | .waiting next scan => 3 + scan.toDo c.dependencies.length next
  | .reading _ => 2
  | .writing _ _ => 1
  | .storing _ => 0

@[simp] theorem ConsumerPhase.toDo_storing
    (c : Consumer) (n : Int) :
    (ConsumerPhase.storing n).toDo c = 0 :=
  rfl

/-- A sum over the consumers. -/
def overall (f : Consumer → Nat) : Nat :=
  f .unmarshaller + f .replicator + f .journal + f .businessLogic

theorem overall_of_eq
    {f g : Consumer → Nat} {c : Consumer}
    (h : ∀ c', c' ≠ c → g c' = f c') :
    overall g + f c = overall f + g c := by
  unfold overall
  cases c <;>
    simp only [h .unmarshaller, h .replicator, h .journal, h .businessLogic, ne_eq,
      reduceCtorEq, not_false_eq_true] <;>
    omega

namespace Pipeline

/-- The messages that are still to be published, to be done and to be stored as
done. -/
def backlog (messages : List Message) (s : Pipeline) : Nat :=
  toCome messages.length (s.sequence .producer) +
    overall fun c => toCome messages.length (s.sequence (.consumer c)) +
      toCome messages.length (s.done c)

/-- The steps of the rounds that the threads are in. -/
def agenda (s : Pipeline) : Nat :=
  s.producer.toDo + overall fun c => (s.consumer c).toDo c

/-- The work that is left.  A message that is done leaves room for a round of a loop
and for the publication of sixteen events. -/
def work (messages : List Message) (s : Pipeline) : Nat :=
  300 * s.backlog messages + s.agenda

section Steps

variable {k : Nat} {messages : List Message} {s t : Pipeline} {c : Consumer}
variable {phase : ConsumerPhase} {next : Int}

/-- What a consumer leaves to do when it enters a phase. -/
theorem work_enter
    (messages : List Message) (s : Pipeline) (c : Consumer) (phase : ConsumerPhase) :
    (s.enter c phase).work messages +
        (300 * toCome messages.length (s.done c) + (s.consumer c).toDo c) =
      s.work messages +
        (300 * toCome messages.length (doneIn (s.sequence (.consumer c)) phase) +
          phase.toDo c) := by
  have hdone : (s.enter c phase).done c = doneIn (s.sequence (.consumer c)) phase := by
    simp only [done, enter, Function.update_self]
  have hself : (s.enter c phase).consumer c = phase := Function.update_self _ _ _
  have hbacklog := overall_of_eq (c := c)
    (f := fun c => toCome messages.length (s.sequence (.consumer c)) +
      toCome messages.length (s.done c))
    (g := fun c' => toCome messages.length ((s.enter c phase).sequence (.consumer c')) +
      toCome messages.length ((s.enter c phase).done c'))
    (fun c' hc => by
      rw [done_enter fun he => absurd he hc]
      rfl)
  have hagenda := overall_of_eq (c := c)
    (f := fun c => (s.consumer c).toDo c)
    (g := fun c' => ((s.enter c phase).consumer c').toDo c')
    (fun c' hc => by
      dsimp only [enter]
      rw [Function.update_of_ne hc])
  rw [hdone] at hbacklog
  rw [hself] at hagenda
  have hproducer : (s.enter c phase).producer = s.producer := rfl
  have hsequence : (s.enter c phase).sequence = s.sequence := rfl
  rw [hsequence] at hbacklog
  unfold work backlog agenda
  rw [hproducer, hsequence]
  omega

/-- Within a round a consumer leaves less to do with every step. -/
theorem work_enter_lt
    (hdone : doneIn (s.sequence (.consumer c)) phase = s.done c)
    (hlt : phase.toDo c < (s.consumer c).toDo c) :
    (s.enter c phase).work messages < s.work messages := by
  have hwork := work_enter messages s c phase
  rw [hdone] at hwork
  omega

/-- A consumer that is done with a slot leaves a message less. -/
theorem work_finish
    (hnext : next = s.done c + 1) (hlt : next < messages.length) :
    (s.enter c (.storing next)).work messages + 300 + (s.consumer c).toDo c =
      s.work messages := by
  have hwork := work_enter messages s c (.storing next)
  have hcount : toCome messages.length (s.done c) = toCome messages.length next + 1 := by
    unfold toCome
    omega
  rw [hcount, doneIn, ConsumerPhase.toDo_storing] at hwork
  omega

/-- A consumer that stores its sequence begins a new round. -/
theorem work_advance_lt
    (hphase : s.consumer c = .storing next)
    (hnext : next = s.sequence (.consumer c) + 1) (hlt : next < messages.length) :
    ((s.store (.consumer c) next).enter c .idle).work messages < s.work messages := by
  have hdone : ∀ c', ((s.store (.consumer c) next).enter c .idle).done c' = s.done c' := by
    intro c'
    by_cases hc : c' = c
    · subst hc
      simp [done, enter, store, hphase, doneIn]
    · simp [done, enter, store, hc]
  have hcount : toCome messages.length (s.sequence (.consumer c)) =
      toCome messages.length next + 1 := by
    unfold toCome
    omega
  have hbacklog := overall_of_eq (c := c)
    (f := fun c => toCome messages.length (s.sequence (.consumer c)) +
      toCome messages.length (s.done c))
    (g := fun c' => toCome messages.length
        (((s.store (.consumer c) next).enter c .idle).sequence (.consumer c')) +
      toCome messages.length (((s.store (.consumer c) next).enter c .idle).done c'))
    (fun c' hc => by
      rw [hdone]
      simp [enter, store, hc])
  have hagenda := overall_of_eq (c := c)
    (f := fun c => (s.consumer c).toDo c)
    (g := fun c' => (((s.store (.consumer c) next).enter c .idle).consumer c').toDo c')
    (fun c' hc => by
      dsimp only [enter, store]
      rw [Function.update_of_ne hc])
  have hself : ((s.store (.consumer c) next).enter c .idle).consumer c = .idle :=
    Function.update_self _ _ _
  have hseq : ((s.store (.consumer c) next).enter c .idle).sequence (.consumer c) = next :=
    Function.update_self _ _ _
  have hproducer : ((s.store (.consumer c) next).enter c .idle).sequence .producer =
      s.sequence .producer := by
    simp [enter, store]
  have hphases : ((s.store (.consumer c) next).enter c .idle).producer = s.producer := rfl
  have hidle : ConsumerPhase.idle.toDo c ≤ 7 := by
    cases c <;> decide
  rw [hself, hphase, ConsumerPhase.toDo_storing] at hagenda
  rw [hdone, hseq, hcount] at hbacklog
  unfold work backlog agenda
  rw [hproducer, hphases]
  omega

end Steps

/-- What the phase of a consumer may be. -/
def Fits (c : Consumer) : ConsumerPhase → Prop
  | .waiting _ scan => ∀ d, d ∈ scan.rest → d ∈ c.dependencies
  | .writing _ _ => c = .unmarshaller
  | _ => True

/-- The consumers look at the sequences behind their barriers, and only the
unmarshaller writes. -/
def Orderly (s : Pipeline) : Prop :=
  ∀ c, Fits c (s.consumer c)

section Orders

variable {messages : List Message} {s t : Pipeline} {c : Consumer}
variable {phase : ConsumerPhase} {es : List (Option (Command × UInt64))}

theorem Orderly.enter
    (h : s.Orderly) (hphase : Fits c phase) :
    (s.enter c phase).Orderly := by
  intro c'
  dsimp only [Pipeline.enter]
  by_cases hc : c' = c
  · subst hc
    rwa [Function.update_self]
  · rw [Function.update_of_ne hc]
    exact h c'

theorem Step.orderly
    (hstep : Step messages s es t) (h : s.Orderly) :
    t.Orderly := by
  cases hstep with
  | spin => exact h
  | claim => exact h
  | writeSlot => exact h
  | storeCursor => exact h
  | publish => exact h
  | begin c hphase => exact h.enter fun _ hd => hd
  | @look next scan d rest c hphase hrest =>
      have hc := h c
      rw [hphase] at hc
      refine h.enter fun d' hd' => hc d' ?_
      rw [Scan.read, hrest] at hd'
      rw [hrest]
      exact List.mem_cons_of_mem d hd'
  | pass c => exact h.enter trivial
  | retry c => exact h.enter fun _ hd => hd
  | parse => exact h.enter rfl
  | @writeCommand next command slot hphase =>
      have hout : (s.enter .unmarshaller (.storing next)).Orderly := h.enter trivial
      exact hout
  | inspect c => exact h.enter trivial
  | handle => exact h.enter trivial
  | @advance next c hphase =>
      have hout : ((s.store (.consumer c) next).enter c .idle).Orderly :=
        Orderly.enter (s := s.store (.consumer c) next) h trivial
      exact hout

end Orders

section Progress

variable {k : Nat} {messages : List Message} {s : Pipeline} {c : Consumer}
variable {reads : List (Option (Command × UInt64))}

/-- The producer goes on when everything that it has published is handled. -/
theorem exists_step_producer
    (h : Sequenced k messages s)
    (hmore : s.sequence .producer + 1 < messages.length)
    (hroom : s.sequence .producer ≤ s.sequence (.consumer .businessLogic)) :
    ∃ t, Step messages s [] t ∧ t.work messages < s.work messages ∧ t.consumer = s.consumer := by
  have hp := h.producer
  have hstart := h.start
  have hle := h.le_producer .businessLogic
  have hpow : (0 : Int) < 2 ^ k := Int.pow_pos (by decide)
  have hless : ∀ {t : Pipeline}, t.sequence = s.sequence → t.consumer = s.consumer →
      t.producer.toDo < s.producer.toDo → t.work messages < s.work messages := by
    intro t hsequence hconsumer hlt
    unfold work backlog agenda Pipeline.done
    rw [hsequence, hconsumer]
    omega
  cases hphase : s.producer with
  | claiming =>
      rw [hphase] at hp
      dsimp only [ProducerOk] at hp
      refine ⟨_, Step.claim hphase (by omega) ?_, hless rfl rfl ?_, rfl⟩
      · rw [RingBuffer.capacity_eq h.mask]
        omega
      · rw [hphase]
        exact Nat.lt_succ_self 2
  | claimed seq =>
      rw [hphase] at hp
      obtain ⟨hseq, hnext, -⟩ := hp
      have hlt : seq.toNat < messages.length := by omega
      refine ⟨_, Step.writeSlot hphase (List.getElem?_eq_getElem hlt), hless rfl rfl ?_, rfl⟩
      rw [hphase]
      exact Nat.lt_succ_self 1
  | written seq =>
      refine ⟨_, Step.storeCursor hphase, hless rfl rfl ?_, rfl⟩
      rw [hphase]
      exact Nat.zero_lt_one
  | marked seq =>
      rw [hphase] at hp
      obtain ⟨hseq, hnext, -⟩ := hp
      refine ⟨_, Step.publish hphase, ?_, rfl⟩
      have hsequence : ∀ c, (s.store .producer seq).sequence (.consumer c) =
          s.sequence (.consumer c) := fun c => by simp [store]
      have hproducer : (s.store .producer seq).sequence .producer = seq := by simp [store]
      have hcount : toCome messages.length (s.sequence .producer) =
          toCome messages.length seq + 1 := by
        unfold toCome
        omega
      have hconsumer : (s.store .producer seq).consumer = s.consumer := rfl
      unfold work backlog agenda Pipeline.done
      dsimp only
      simp only [hsequence, hproducer, hcount, hconsumer, hphase, ProducerPhase.toDo]
      omega

/-- A consumer gets to a slot when the sequences behind its barrier are there. -/
theorem exists_step_waiting
    (h : Sequenced k messages s) (horderly : s.Orderly) (hlen : messages.length < 2 ^ 63)
    (hdeps : ∀ d, d ∈ c.dependencies → s.sequence (.consumer c) + 1 ≤ s.sequence d)
    (hphase : s.consumer c = .idle ∨ ∃ next scan, s.consumer c = .waiting next scan) :
    ∃ phase, Step messages s [] (s.enter c phase) ∧
      (s.enter c phase).work messages < s.work messages := by
  rcases hphase with hphase | ⟨next, scan, hphase⟩
  · refine ⟨_, Step.begin c hphase, work_enter_lt (by simp only [done, hphase, doneIn]) ?_⟩
    rw [hphase]
    simp only [ConsumerPhase.toDo, Scan.toDo_start]
    omega
  · have hc := h.consumer c
    have hfits := horderly c
    rw [hphase] at hc hfits
    obtain ⟨hnext, -⟩ := hc
    have hdone : ∀ {phase}, doneIn (s.sequence (.consumer c)) phase = s.sequence (.consumer c) →
        doneIn (s.sequence (.consumer c)) phase = s.done c := by
      intro phase hown
      rw [hown]
      simp only [done, hphase, doneIn]
    cases hrest : scan.rest with
    | cons d rest =>
        refine ⟨_, Step.look c hphase hrest, work_enter_lt (hdone rfl) ?_⟩
        have hd : next ≤ s.sequence d := by
          rw [hnext]
          exact hdeps d (hfits d (by rw [hrest]; exact List.mem_cons_self))
        have hlt := Scan.toDo_read_lt c.dependencies.length hrest hd
        rw [hphase]
        simp only [ConsumerPhase.toDo]
        omega
    | nil =>
        by_cases hhope : scan.Hopeful next
        · have hproducer := h.published hdeps
          have htop := h.top_bounds
          have hmax : next ≤ i64Max := by
            rw [i64Max]
            omega
          refine ⟨_, Step.pass c hphase hrest (hhope.le hmax), work_enter_lt (hdone rfl) ?_⟩
          rw [hphase]
          simp only [ConsumerPhase.toDo]
          omega
        · refine ⟨_, Step.retry c hphase hrest (Scan.lt_of_not_hopeful hhope),
            work_enter_lt (hdone rfl) ?_⟩
          rw [hphase]
          simp only [ConsumerPhase.toDo, Scan.toDo_start, Scan.toDo_of_not_hopeful hhope hrest]
          omega

/-- A consumer that is done with a slot stores its sequence. -/
theorem exists_step_storing
    {next : Int}
    (h : Sequenced k messages s) (hphase : s.consumer c = .storing next) :
    ∃ t, Step messages s [] t ∧ t.work messages < s.work messages ∧
      t.consumer = Function.update s.consumer c .idle := by
  have hc := h.consumer c
  rw [hphase] at hc
  have hproducer := h.published hc.2
  have htop := h.top_bounds
  exact ⟨_, Step.advance c hphase, work_advance_lt hphase hc.1 (by omega), rfl⟩

/-- **A consumer of raw messages goes on** when the producer is ahead of it. -/
theorem exists_step_consumer
    (h : Delivers k messages reads s) (horderly : s.Orderly) (hlen : messages.length < 2 ^ 63)
    (hc : c ≠ .businessLogic)
    (hdeps : ∀ d, d ∈ c.dependencies → s.sequence (.consumer c) + 1 ≤ s.sequence d) :
    ∃ t, Step messages s [] t ∧ t.work messages < s.work messages ∧
      t.consumer .businessLogic = s.consumer .businessLogic := by
  have hseq := h.sequenced
  have hother : ∀ phase, (s.enter c phase).consumer .businessLogic =
      s.consumer .businessLogic := fun phase => Function.update_of_ne hc.symm _ _
  have hproducer := hseq.published hdeps
  have htop := hseq.top_bounds
  cases hphase : s.consumer c with
  | idle =>
      obtain ⟨phase, hstep, hlt⟩ :=
        exists_step_waiting hseq horderly hlen hdeps (Or.inl hphase)
      exact ⟨_, hstep, hlt, hother phase⟩
  | waiting next scan =>
      obtain ⟨phase, hstep, hlt⟩ :=
        exists_step_waiting hseq horderly hlen hdeps (Or.inr ⟨next, scan, hphase⟩)
      exact ⟨_, hstep, hlt, hother phase⟩
  | reading next =>
      have haccess : (s.consumer c).Accesses next := Or.inl hphase
      obtain ⟨hown, -⟩ := hseq.accesses haccess
      obtain ⟨slot, hslot, -⟩ := h.stored.slot hseq haccess
      have hdone : next = s.done c + 1 := by
        simp only [done, hphase, doneIn, hown]
      have hlt : next < messages.length := by omega
      have hfinish := work_finish hdone hlt
      cases c with
      | businessLogic => exact absurd rfl hc
      | unmarshaller =>
          refine ⟨_, Step.parse hphase hslot, work_enter_lt ?_ ?_, hother _⟩
          · simp only [done, hphase, doneIn]
          · rw [hphase]
            exact Nat.lt_succ_self 1
      | replicator =>
          exact ⟨_, Step.inspect _ (Or.inl rfl) hphase hslot, by omega, hother _⟩
      | journal =>
          exact ⟨_, Step.inspect _ (Or.inr rfl) hphase hslot, by omega, hother _⟩
  | writing next command =>
      have haccess : (s.consumer c).Accesses next := Or.inr ⟨command, hphase⟩
      obtain ⟨hown, -⟩ := hseq.accesses haccess
      obtain ⟨slot, hslot, -⟩ := h.stored.slot hseq haccess
      have hdone : next = s.done c + 1 := by
        simp only [done, hphase, doneIn, hown]
      have hlt : next < messages.length := by omega
      have hfinish := work_finish hdone hlt
      obtain rfl : c = .unmarshaller := by
        have hfits := horderly c
        rwa [hphase] at hfits
      refine ⟨_, Step.writeCommand hphase hslot, ?_, hother (.storing next)⟩
      change (s.enter .unmarshaller (.storing next)).work messages < s.work messages
      omega
  | storing next =>
      obtain ⟨t, hstep, hlt, ht⟩ := exists_step_storing hseq hphase
      refine ⟨t, hstep, hlt, ?_⟩
      rw [ht, Function.update_of_ne hc.symm]

/-- The processor gets to its slot when its barrier is open. -/
theorem exists_step_processor
    (h : Sequenced k messages s) (horderly : s.Orderly) (hlen : messages.length < 2 ^ 63)
    (hdeps : ∀ d, d ∈ Consumer.businessLogic.dependencies →
      s.sequence (.consumer .businessLogic) + 1 ≤ s.sequence d)
    (hread : ∀ n, s.consumer .businessLogic ≠ .reading n) :
    ∃ t, Step messages s [] t ∧ t.work messages < s.work messages := by
  cases hphase : s.consumer .businessLogic with
  | idle =>
      obtain ⟨phase, hstep, hless⟩ :=
        exists_step_waiting h horderly hlen hdeps (Or.inl hphase)
      exact ⟨_, hstep, hless⟩
  | waiting next scan =>
      obtain ⟨phase, hstep, hless⟩ :=
        exists_step_waiting h horderly hlen hdeps (Or.inr ⟨next, scan, hphase⟩)
      exact ⟨_, hstep, hless⟩
  | reading next => exact absurd hphase (hread next)
  | writing next command =>
      have hfits := horderly .businessLogic
      rw [hphase] at hfits
      exact absurd hfits (by simp [Fits])
  | storing next =>
      obtain ⟨t, hstep, hless, -⟩ := exists_step_storing h hphase
      exact ⟨t, hstep, hless⟩

/-- The processor finds a slot where it reads, and is then through with a message. -/
theorem exists_slot_reading
    {next : Int}
    (h : Delivers k messages reads s) (hphase : s.consumer .businessLogic = .reading next) :
    ∃ slot, s.ring.slotRef next = some slot ∧
      (s.enter .businessLogic (.storing next)).work messages + 300 < s.work messages := by
  have hseq := h.sequenced
  have haccess : (s.consumer .businessLogic).Accesses next := Or.inl hphase
  obtain ⟨hown, hdeps⟩ := hseq.accesses haccess
  obtain ⟨slot, hslot, -⟩ := h.stored.slot hseq haccess
  refine ⟨slot, hslot, ?_⟩
  have hproducer := hseq.published hdeps
  have htop := hseq.top_bounds
  have hdone : next = s.done .businessLogic + 1 := by
    simp only [done, hphase, doneIn, hown]
  have hfinish := work_finish hdone (show next < messages.length by omega)
  rw [hphase] at hfinish
  simp only [ConsumerPhase.toDo] at hfinish
  omega

/-- **Another thread goes on** while the barrier of the processor is closed. -/
theorem exists_step_upstream
    (h : Delivers k messages reads s) (horderly : s.Orderly) (hlen : messages.length < 2 ^ 63)
    (hmore : s.sequence (.consumer .businessLogic) + 1 < messages.length)
    (hclosed : ¬ ∀ d, d ∈ Consumer.businessLogic.dependencies →
      s.sequence (.consumer .businessLogic) + 1 ≤ s.sequence d) :
    ∃ t, Step messages s [] t ∧ t.work messages < s.work messages ∧
      t.consumer .businessLogic = s.consumer .businessLogic := by
  obtain ⟨d, hdeps⟩ := not_forall.mp hclosed
  obtain ⟨hd, hbehind⟩ := Classical.not_imp.mp hdeps
  obtain ⟨c, rfl, hc, hproducer⟩ : ∃ c, d = .consumer c ∧ c ≠ .businessLogic ∧
      c.dependencies = [.producer] := by
    simp only [Consumer.dependencies, List.mem_cons, List.not_mem_nil, or_false] at hd
    rcases hd with rfl | rfl | rfl <;> exact ⟨_, rfl, by decide, rfl⟩
  have hown := h.sequenced.blp_le c
  -- the consumer goes through if it can, and else the producer
  by_cases hahead : s.sequence (.consumer c) + 1 ≤ s.sequence .producer
  · refine exists_step_consumer h horderly hlen hc ?_
    rw [hproducer]
    intro d hd
    rwa [List.mem_singleton.mp hd]
  · obtain ⟨t, hstep, hless, hsame⟩ :=
      exists_step_producer h.sequenced (by omega) (by omega)
    exact ⟨t, hstep, hless, congrFun hsame _⟩

/-- **Some thread goes on** while there is a message that the processor is not through
with. -/
theorem exists_step
    (h : Delivers k messages reads s) (horderly : s.Orderly) (hlen : messages.length < 2 ^ 63)
    (hmore : s.sequence (.consumer .businessLogic) + 1 < messages.length) :
    ∃ es t, Step messages s es t ∧ t.work messages < s.work messages := by
  by_cases hread : ∃ n, s.consumer .businessLogic = .reading n
  · obtain ⟨n, hphase⟩ := hread
    obtain ⟨slot, hslot, hless⟩ := exists_slot_reading h hphase
    exact ⟨_, _, Step.handle hphase hslot, by omega⟩
  · by_cases hopen : ∀ d, d ∈ Consumer.businessLogic.dependencies →
        s.sequence (.consumer .businessLogic) + 1 ≤ s.sequence d
    · obtain ⟨t, hstep, hless⟩ := exists_step_processor h.sequenced horderly hlen hopen
        (not_exists.mp hread)
      exact ⟨_, t, hstep, hless⟩
    · obtain ⟨t, hstep, hless, -⟩ := exists_step_upstream h horderly hlen hmore hopen
      exact ⟨_, t, hstep, hless⟩

end Progress

section Reading

variable {k : Nat} {messages : List Message} {s t : Pipeline}
variable {es trace : List (Option (Command × UInt64))} {n : Nat}

/-- The processor does not get past a message without reading it. -/
theorem Step.done_lt
    (hstep : Step messages s es t) (h : Sequenced k messages s)
    (hbefore : s.done .businessLogic < n) (hread : s.consumer .businessLogic ≠ .reading n) :
    t.done .businessLogic < n := by
  rcases hstep.read_cases with ⟨-, hdone⟩ | ⟨next, slot, hphase, -, -, hdone⟩
  · rwa [hdone]
  · obtain ⟨hown, -⟩ := h.accesses (Or.inl hphase)
    have hnext : next ≠ n := fun he => hread (he ▸ hphase)
    simp only [done, hphase, doneIn] at hbefore
    rw [hdone]
    omega

/-- **The processor gets to every message** that it is not past. -/
theorem exists_trail_reading
    (hlen : messages.length < 2 ^ 63) (hn : n < messages.length)
    (htrail : Trail (Step messages) (Pipeline.new (2 ^ k)) trace s)
    (hbefore : s.done .businessLogic < n) :
    ∃ es t, Trail (Step messages) s es t ∧ t.consumer .businessLogic = .reading n := by
  refine Trail.reaches
    (P := fun hist s => Delivers k messages hist s ∧ s.Orderly ∧ s.done .businessLogic < n)
    (work messages) (fun h hread hstep => ?_) (fun h hread => ?_)
    ⟨delivers_of_trail hlen htrail,
      htrail.preserves (P := Orderly) (fun h hstep => hstep.orderly h) fun _ => trivial,
      hbefore⟩
  · obtain ⟨hdelivers, horderly, hlt⟩ := h
    exact ⟨hstep.delivers hlen hdelivers, hstep.orderly horderly,
      hstep.done_lt hdelivers.sequenced hlt hread⟩
  · obtain ⟨hdelivers, horderly, hlt⟩ := h
    have hdone := (hdelivers.sequenced.done_bounds .businessLogic).1
    exact exists_step hdelivers horderly hlen (by omega)

/-- **Delivery through the input ring.**  In every state that the pipeline
reaches, a consumer that accesses a slot finds the message with the number that
it accesses; the business logic processor has read the parsed messages and their
timestamps, each once and in the order of publication; and the sequences are
ordered, with the producer at most the capacity ahead of the processor. -/
theorem input_delivered
    (hlen : messages.length < 2 ^ 63)
    (htrail : Trail (Step messages) (Pipeline.new (2 ^ k)) trace s) :
    (∀ c n, (s.consumer c).Accesses n → 0 ≤ n ∧ ∃ slot message,
        s.ring.slotRef n = some slot ∧ messages[n.toNat]? = some message ∧
        slot.bytes = message.raw.take 256 ∧ slot.timestampNs = message.timestampNs ∧
        (c = .businessLogic → slot.command = (parseCommand message.raw).toOption)) ∧
    (trace = (messages.take trace.length).map delivery ∧
      (trace.length : Int) = s.done .businessLogic + 1) ∧
    (∀ c, s.sequence (.consumer .businessLogic) ≤ s.sequence (.consumer c) ∧
      s.sequence (.consumer c) ≤ s.sequence .producer) ∧
    s.sequence .producer ≤ s.sequence (.consumer .businessLogic) + 2 ^ k := by
  have h := delivers_of_trail hlen htrail
  have hseq := h.sequenced
  have hdone := hseq.done_bounds .businessLogic
  have htop := hseq.top_bounds
  have hstart := hseq.start
  have hcount : trace.length = (s.done .businessLogic + 1).toNat := by
    rw [h.read, List.length_map, List.length_take]
    omega
  refine ⟨fun c n hn => ?_, ⟨?_, ?_⟩, fun c => ⟨hseq.blp_le c, hseq.le_producer c⟩, hseq.gate⟩
  · obtain ⟨hown, hdeps⟩ := hseq.accesses hn
    obtain ⟨slot, hslot, message, hmessage, hbytes, htime, hcommand⟩ := h.stored.slot hseq hn
    have hpos := hseq.blp_le c
    refine ⟨by omega, slot, message, hslot, hmessage, hbytes, htime, fun hc => hcommand ?_⟩
    subst hc
    exact (hdeps (.consumer .unmarshaller) (by decide)).trans (hseq.done_bounds .unmarshaller).1
  · rw [hcount]
    exact h.read
  · omega

/-- The bytes of a limit order for one at 100. -/
def placeMessage (client side : UInt8) (timestampNs : UInt64) : Message where
  raw := [1] ++ (client :: List.replicate 7 0) ++ List.replicate 16 0 ++ [side, 0, 1] ++
    (100 :: List.replicate 7 0) ++ (1 :: List.replicate 7 0) ++ [0]
  timestampNs := timestampNs

/-- A cancellation, as bytes. -/
def cancelMessage : Message where
  raw := 2 :: List.replicate 16 0
  timestampNs := 7

/-- Two bids, an offer that takes the first of them, and its cancellation. -/
def tradeMessages : List Message :=
  [placeMessage 0 0 3, placeMessage 2 0 4, placeMessage 1 1 5, cancelMessage]

/-- On a ring of two slots the processor is about to read the cancellation. -/
theorem input_delivered_tradeMessages :
    ∃ trace s slot, Trail (Step tradeMessages) (Pipeline.new (2 ^ 1)) trace s ∧
      s.consumer .businessLogic = .reading 3 ∧
      trace = (tradeMessages.take 3).map delivery ∧
      s.ring.slotRef 3 = some slot ∧ slot.command = some (.cancel 0 0) ∧
      slot.timestampNs = 7 := by
  obtain ⟨trace, s, htrail, hphase⟩ :=
    exists_trail_reading (n := 3) (k := 1) (by decide) (show 3 < tradeMessages.length by decide)
      (Trail.refl _) (by decide)
  obtain ⟨hslots, ⟨hread, hcount⟩, -, -⟩ := input_delivered (by decide) htrail
  obtain ⟨-, slot, message, hslot, hmessage, -, htime, hcommand⟩ :=
    hslots .businessLogic 3 (Or.inl hphase)
  obtain rfl : cancelMessage = message := Option.some.inj hmessage
  have hdone : s.done .businessLogic + 1 = 3 := by
    have hseq := (delivers_of_trail (by decide) htrail).sequenced
    obtain ⟨hown, -⟩ := hseq.accesses (Or.inl hphase)
    simp only [done, hphase, doneIn]
    omega
  have hlength : trace.length = 3 := by omega
  rw [hlength] at hread
  exact ⟨trace, s, slot, htrail, hphase, hread, hslot, hcommand rfl, htime⟩

end Reading

end Pipeline

end LmaxEngine
