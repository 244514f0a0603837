import LmaxEngine.Results.Delivery
import LmaxEngine.Results.System

/-!
# The system and one thread

In every interleaving the engine is that of one thread, and what has been read is a
prefix of what one thread publishes.

As long as there is a message to handle or an event to read, some thread has a
step that leaves less to do.  So no interleaving ends in a deadlock: from every
state that the system reaches it can go on until the output consumer has read
everything, and then that does not depend on the interleaving.
-/

namespace LmaxEngine

open Checked PriceTime Sequencing Transition

/-- The steps that the publisher has left in a call of `publish_output`. -/
def PublisherPhase.toDo : PublisherPhase → Nat
  | .idle => 4
  | .gating _ => 3
  | .claimed _ => 2
  | .stamping _ => 1
  | .storing _ => 0

/-- The steps that the output consumer has left in a round of its loop. -/
def ReaderPhase.toDo : ReaderPhase → Nat
  | .idle => 5
  | .waiting next scan => 3 + scan.toDo 1 next
  | .reading _ => 2
  | .timing _ _ => 1
  | .storing _ => 0

namespace Outlet

/-- The work that is left: events to publish and events to read. -/
def work (publications : List Publication) (s : Outlet) : Nat :=
  8 * (toCome publications.length (s.calls - 1) + toCome publications.length s.gate) +
    s.publisher.toDo + s.reader.toDo

section Progress

variable {l : Nat} {publications : List Publication} {s : Outlet} {trace : List Reception}

/-- **The output consumer goes on** when there is an event that it has not read. -/
theorem exists_step_reader
    (h : Delivers l publications trace s) (hlen : publications.length < 2 ^ 63)
    (hmore : s.gate + 1 ≤ s.sequence) :
    ∃ es t, Step publications s es t ∧ t.work publications < s.work publications ∧
      t.publisher = s.publisher := by
  have hseq := h.sequenced
  have hr := hseq.reader
  have hcalls := hseq.calls
  have hbound := hseq.bound
  have hless : ∀ {t : Outlet}, t.calls = s.calls → t.gate = s.gate →
      t.publisher = s.publisher → t.reader.toDo < s.reader.toDo →
      t.work publications < s.work publications := by
    intro t hc hg hp hlt
    unfold work
    rw [hc, hg, hp]
    omega
  cases hphase : s.reader with
  | idle =>
      refine ⟨_, _, Step.begin hphase, hless rfl rfl rfl ?_, rfl⟩
      rw [hphase]
      exact Nat.lt_succ_self 4
  | waiting next scan =>
      rw [hphase] at hr
      obtain ⟨hnext, -⟩ := hr
      cases hrest : scan.rest with
      | cons d rest =>
          refine ⟨_, _, Step.look hphase hrest, hless rfl rfl rfl ?_, rfl⟩
          have hlt := Scan.toDo_read_lt (n := next) (v := s.sequence) 1 hrest (by omega)
          rw [hphase]
          simp only [ReaderPhase.toDo]
          omega
      | nil =>
          by_cases hhope : scan.Hopeful next
          · have hmax : next ≤ i64Max := by
              rw [i64Max]
              omega
            refine ⟨_, _, Step.pass hphase hrest (hhope.le hmax), hless rfl rfl rfl ?_, rfl⟩
            rw [hphase]
            simp only [ReaderPhase.toDo]
            omega
          · refine ⟨_, _, Step.retry hphase hrest (Scan.lt_of_not_hopeful hhope),
              hless rfl rfl rfl ?_, rfl⟩
            rw [hphase]
            simp only [ReaderPhase.toDo, Scan.toDo_start, Scan.toDo_of_not_hopeful hhope hrest]
            exact Nat.lt_succ_self 4
  | reading next =>
      rw [hphase] at hr
      obtain ⟨slot, event, timestampNs, hslot, -⟩ := h.slot hr.1.ge hr.2
      refine ⟨_, _, Step.readEvent hphase hslot, hless rfl rfl rfl ?_, rfl⟩
      rw [hphase]
      exact Nat.lt_succ_self 1
  | timing next event =>
      rw [hphase] at hr
      obtain ⟨slot, event', timestampNs, hslot, -⟩ := h.slot hr.1.ge hr.2
      refine ⟨_, _, Step.readTimestamp hphase hslot, hless rfl rfl rfl ?_, rfl⟩
      rw [hphase]
      exact Nat.zero_lt_one
  | storing next =>
      rw [hphase] at hr
      obtain ⟨hnext, hle⟩ := hr
      refine ⟨_, _, Step.advance hphase, ?_, rfl⟩
      have hcount : toCome publications.length s.gate = toCome publications.length next + 1 := by
        unfold toCome
        omega
      unfold work
      dsimp only
      rw [hphase, hcount]
      simp only [ReaderPhase.toDo]
      omega

/-- **The publisher goes on** when everything that it has published is read. -/
theorem exists_step_publisher
    (h : Delivers l publications trace s)
    (hroom : s.sequence ≤ s.gate)
    (hmore : s.publisher = .idle → s.calls < publications.length) :
    ∃ t, Step publications s [] t ∧ t.work publications < s.work publications := by
  have hseq := h.sequenced
  have hp := hseq.publisher
  have hcalls := hseq.calls
  have hbound := hseq.bound
  have hpow : (0 : Int) < 2 ^ l := Int.pow_pos (by decide)
  have hless : ∀ {t : Outlet}, t.calls = s.calls → t.gate = s.gate → t.reader = s.reader →
      t.publisher.toDo < s.publisher.toDo → t.work publications < s.work publications := by
    intro t hc hg hr hlt
    unfold work
    rw [hc, hg, hr]
    omega
  have hcall : s.calls < publications.length →
      ∃ event timestampNs, publications[s.calls]? = some (event, timestampNs) :=
    fun hlt => ⟨_, _, List.getElem?_eq_getElem hlt⟩
  cases hphase : s.publisher with
  | idle =>
      refine ⟨_, Step.call hphase (hmore hphase), hless rfl rfl rfl ?_⟩
      rw [hphase]
      exact Nat.lt_succ_self 3
  | gating next =>
      rw [hphase] at hp
      obtain ⟨hnext, -⟩ := hp
      refine ⟨_, Step.claim hphase ?_, hless rfl rfl rfl ?_⟩
      · rw [RingBuffer.capacity_eq hseq.mask]
        omega
      · rw [hphase]
        exact Nat.lt_succ_self 2
  | claimed next =>
      rw [hphase] at hp
      obtain ⟨hnext, hlt, -⟩ := hp
      obtain ⟨event, timestampNs, hargs⟩ := hcall (by omega)
      refine ⟨_, Step.writeEvent { event := none, timestampNs := 0 } hphase hargs,
        hless rfl rfl rfl ?_⟩
      rw [hphase]
      exact Nat.lt_succ_self 1
  | stamping next =>
      rw [hphase] at hp
      obtain ⟨hnext, hlt, -⟩ := hp
      obtain ⟨event, timestampNs, hargs⟩ := hcall (by omega)
      have htop : s.top = next := by simp only [top, hphase]
      have hstart := hseq.start
      have horder := hseq.order
      obtain ⟨slot, hslot, -⟩ := h.cells next (by omega) (by omega)
      refine ⟨_, Step.writeTimestamp hphase hargs hslot, hless rfl rfl rfl ?_⟩
      rw [hphase]
      exact Nat.zero_lt_one
  | storing next =>
      rw [hphase] at hp
      obtain ⟨hnext, hlt, -⟩ := hp
      refine ⟨_, Step.publish hphase, ?_⟩
      unfold work toCome
      dsimp only
      rw [hphase]
      simp only [PublisherPhase.toDo]
      omega

end Progress

end Outlet

namespace System

/-- All messages are handled and all events are read. -/
def Drained (messages : List Message) (s : System) : Prop :=
  s.input.sequence (.consumer .businessLogic) + 1 = messages.length ∧
    s.output.gate + 1 = s.publications.length

/-- The work that is left. -/
def work (messages : List Message) (s : System) : Nat :=
  s.input.work messages + s.output.work s.publications

section Progress

variable {β : Build} {cfg : Config} {k l n : Nat} {messages : List Message} {s t : System}
variable {es trace : List Reception}

theorem Step.orderly
    (hstep : Step β messages s es t) (h : s.input.Orderly) :
    t.input.Orderly := by
  cases hstep with
  | input hstep => exact hstep.orderly h
  | handle => exact Pipeline.Orderly.enter h trivial
  | output => exact h

/-- The processor does not get past a message without reading it. -/
theorem Step.done_lt
    (hstep : Step β messages s es t) (h : Pipeline.Sequenced k messages s.input)
    (hbefore : s.input.done .businessLogic < n)
    (hread : s.input.consumer .businessLogic ≠ .reading n) :
    t.input.done .businessLogic < n := by
  cases hstep with
  | input hstep => exact hstep.done_lt h hbefore hread
  | handle hphase hslot => exact (Pipeline.Step.handle hphase hslot).done_lt h hbefore hread
  | output => exact hbefore

/-- A handler gets through the message that it has come to if it gets through the first
messages in one thread. -/
theorem Serves.exists_process
    {next : Int} {slot : InputSlot}
    (h : Serves β cfg k l messages trace s)
    (hok : ∃ r, (Engine.new cfg).serve β (messages.take n) = .ok r)
    (hphase : s.input.consumer .businessLogic = .reading next) (hnext : next < n)
    (hslot : s.input.ring.slotRef next = some slot) :
    ∃ e' later, s.engine.process β slot = .ok (e', later) := by
  obtain ⟨reads, hdelivers⟩ := h.input
  have hseq := hdelivers.sequenced
  have haccess : (s.input.consumer .businessLogic).Accesses next := Or.inl hphase
  obtain ⟨hown, hdeps⟩ := hseq.accesses haccess
  obtain ⟨slot', hslot', message, hmessage, -, htime, hcommand⟩ :=
    hdelivers.stored.slot hseq haccess
  obtain rfl : slot = slot' := Option.some.inj (hslot.symm.trans hslot')
  have hparsed : next ≤ s.input.done .unmarshaller :=
    (hdeps (.consumer .unmarshaller) (by decide)).trans (hseq.done_bounds .unmarshaller).1
  have hstart := hseq.start
  have hserved := h.served
  simp only [Pipeline.done, hphase, Pipeline.doneIn] at hserved
  rw [← hown] at hserved
  -- the messages up to this one, and those behind it
  obtain ⟨d, hd⟩ : ∃ d, n = next.toNat + 1 + d := ⟨n - (next.toNat + 1), by omega⟩
  obtain ⟨⟨e', published⟩, hok⟩ := hok
  rw [hd, List.take_add, List.take_add_one, hmessage, List.append_assoc] at hok
  obtain ⟨e₁, early, late, hearly, hlate, -⟩ := Engine.serve_append hok
  obtain ⟨rfl, rfl⟩ := Prod.mk.inj (Except.ok.inj (hserved.symm.trans hearly))
  rw [Option.toList_some, List.singleton_append, Engine.serve] at hlate
  obtain ⟨⟨e₂, now⟩, hnow, -⟩ := bind_eq_ok.mp hlate
  refine ⟨e₂, now, ?_⟩
  rw [← hnow]
  exact Engine.process_congr (hcommand hparsed) htime

/-- **Some thread goes on** as long as the system is not drained, and the processor
has not come to a message that it does not get through. -/
theorem Serves.exists_step
    (h : Serves β cfg k l messages trace s) (horderly : s.input.Orderly)
    (hlen : eventSlots * messages.length < 2 ^ 63)
    (hok : ∃ r, (Engine.new cfg).serve β (messages.take n) = .ok r)
    (hbefore : s.input.done .businessLogic < n)
    (hread : s.input.consumer .businessLogic ≠ .reading n)
    (hmore : ¬ s.Drained messages) :
    ∃ es t, Step β messages s es t ∧ t.work messages < s.work messages := by
  have hfew : messages.length < 2 ^ 63 := by
    rw [eventSlots] at hlen
    omega
  obtain ⟨reads, hdelivers⟩ := h.input
  have hseq := hdelivers.sequenced
  have hout := h.output.sequenced
  have horder := hout.order
  have hcalls := hout.calls
  have hbound := hout.bound
  have hinput : ∀ {input : Pipeline}, Pipeline.Step messages s.input [] input →
      input.work messages < s.input.work messages →
      (s.input.consumer .businessLogic = .idle →
        input.consumer .businessLogic = .idle ∨ s.Flushed) →
      ∃ es t, Step β messages s es t ∧ t.work messages < s.work messages :=
    fun hstep hless hbegin => ⟨_, _, Step.input hstep hbegin, Nat.add_lt_add_right hless _⟩
  -- first what is published is read
  by_cases hunread : s.output.gate + 1 ≤ s.output.sequence
  · obtain ⟨es, output, hstep, hless, hsame⟩ :=
      Outlet.exists_step_reader h.output (h.length_lt hlen) hunread
    exact ⟨es, _, Step.output hstep fun hidle => Or.inl (hsame.trans hidle),
      Nat.add_lt_add_left hless _⟩
  have hroom : s.output.sequence ≤ s.output.gate := by omega
  -- then what is emitted is published
  by_cases hflushed : s.Flushed
  · have hcount := hflushed.2
    have htop := hseq.top_bounds
    have hleft : s.input.sequence (.consumer .businessLogic) + 1 < messages.length := by
      by_contra hno
      have hhigh := hseq.le_producer .businessLogic
      exact hmore ⟨by omega, by omega⟩
    -- then the slot that the processor is at is handled
    by_cases hslot : ∃ next, s.input.consumer .businessLogic = .reading next
    · obtain ⟨next, hphase⟩ := hslot
      obtain ⟨slot, hslot, hless⟩ := Pipeline.exists_slot_reading hdelivers hphase
      obtain ⟨hown, -⟩ := hseq.accesses (Or.inl hphase)
      have hne : next ≠ n := fun he => hread (he ▸ hphase)
      have hnext : next < n := by
        simp only [Pipeline.done, hphase, Pipeline.doneIn] at hbefore
        omega
      obtain ⟨e', later, hprocess⟩ := h.exists_process hok hphase hnext hslot
      refine ⟨_, _, Step.handle hphase hslot hprocess, ?_⟩
      have hsixteen : later.length ≤ 16 := by
        rcases Engine.process_eq_ok.mp hprocess with ⟨-, -, rfl⟩ | ⟨c, evs, -, -, rfl⟩
        · exact Nat.zero_le _
        · rw [List.length_map, List.length_take]
          exact Nat.min_le_left _ _
      unfold work Outlet.work toCome
      dsimp only
      rw [List.length_append]
      omega
    -- then what is at the barriers goes through, and the producer comes last
    · by_cases hopen : ∀ d, d ∈ Consumer.businessLogic.dependencies →
          s.input.sequence (.consumer .businessLogic) + 1 ≤ s.input.sequence d
      · obtain ⟨input, hstep, hless⟩ :=
          Pipeline.exists_step_processor hseq horderly hfew hopen (not_exists.mp hslot)
        exact hinput hstep hless fun _ => Or.inr hflushed
      · obtain ⟨input, hstep, hless, -⟩ :=
          Pipeline.exists_step_upstream hdelivers horderly hfew hleft hopen
        exact hinput hstep hless fun _ => Or.inr hflushed
  · by_cases hbusy : s.output.publisher = .idle ∧ s.input.consumer .businessLogic ≠ .idle
    · obtain ⟨m, hphase⟩ : ∃ m, s.input.consumer .businessLogic = .storing m :=
        (h.flushed.resolve_left hbusy.2).resolve_right hflushed
      obtain ⟨input, hstep, hless, -⟩ := Pipeline.exists_step_storing hseq hphase
      exact hinput hstep hless fun hidle => absurd hidle hbusy.2
    · have hidle : s.output.publisher = .idle →
          s.input.consumer .businessLogic = .idle := fun hp => by
        by_contra hno
        exact hbusy ⟨hp, hno⟩
      obtain ⟨output, hstep, hless⟩ := Outlet.exists_step_publisher h.output hroom fun hp => by
        have hne : s.output.calls ≠ s.publications.length := fun he => hflushed ⟨hp, he⟩
        omega
      exact ⟨_, _, Step.output hstep fun hp => Or.inr (hidle hp), Nat.add_lt_add_left hless _⟩

theorem orderly_of_trail
    (htrail : Trail (Step β messages) (System.new cfg (2 ^ k) (2 ^ l)) trace s) :
    s.input.Orderly :=
  htrail.preserves (P := fun s => s.input.Orderly) (fun h hstep => hstep.orderly h)
    fun _ => trivial

/-- **The processor gets to every message** before which it gets through all messages. -/
theorem exists_trail_reading
    (hlen : eventSlots * messages.length < 2 ^ 63) (hn : n < messages.length)
    (hok : ∃ r, (Engine.new cfg).serve β (messages.take n) = .ok r)
    (htrail : Trail (Step β messages) (System.new cfg (2 ^ k) (2 ^ l)) trace s)
    (hbefore : s.input.done .businessLogic < n) :
    ∃ es t, Trail (Step β messages) s es t ∧ t.input.consumer .businessLogic = .reading n := by
  refine Trail.reaches
    (P := fun hist s => Serves β cfg k l messages hist s ∧ s.input.Orderly ∧
      s.input.done .businessLogic < n)
    (work messages) (fun h hread hstep => ?_) (fun h hread => ?_)
    ⟨serves_of_trail hlen htrail, orderly_of_trail htrail, hbefore⟩
  · obtain ⟨hserves, horderly, hlt⟩ := h
    obtain ⟨reads, hdelivers⟩ := hserves.input
    exact ⟨hstep.serves hlen hserves, hstep.orderly horderly,
      hstep.done_lt hdelivers.sequenced hlt hread⟩
  · obtain ⟨hserves, horderly, hlt⟩ := h
    refine hserves.exists_step horderly hlen hok hlt hread fun hdrained => ?_
    obtain ⟨reads, hdelivers⟩ := hserves.input
    have hdone := (hdelivers.sequenced.done_bounds .businessLogic).1
    have hall := hdrained.1
    omega

/-- **From every state that the system reaches it gets to one where nothing is left to
do**, if one thread gets through the messages. -/
theorem exists_trail_drained
    (hlen : eventSlots * messages.length < 2 ^ 63)
    (hok : ∃ r, (Engine.new cfg).serve β messages = .ok r)
    (htrail : Trail (Step β messages) (System.new cfg (2 ^ k) (2 ^ l)) trace s) :
    ∃ es t, Trail (Step β messages) s es t ∧ t.Drained messages := by
  rw [← List.take_length (l := messages)] at hok
  refine Trail.reaches
    (P := fun hist s => Serves β cfg k l messages hist s ∧ s.input.Orderly)
    (work messages)
    (fun h _ hstep => ⟨hstep.serves hlen h.1, hstep.orderly h.2⟩)
    (fun h hmore => ?_)
    ⟨serves_of_trail hlen htrail, orderly_of_trail htrail⟩
  obtain ⟨reads, hdelivers⟩ := h.1.input
  have hseq := hdelivers.sequenced
  have hdone := hseq.done_bounds .businessLogic
  have htop := hseq.top_bounds
  refine h.1.exists_step h.2 hlen hok (by omega) (fun hphase => ?_) hmore
  obtain ⟨hown, hdeps⟩ := hseq.accesses (Or.inl hphase)
  have hproducer := hseq.published hdeps
  omega

/-- In a release build one thread gets through all messages. -/
theorem exists_serve
    (hpos : 1 ≤ cfg.capacity) (hlt : cfg.capacity < 2 ^ 32) (htick : cfg.tickSize ≠ 0)
    (messages : List Message) :
    ∃ r, (Engine.new cfg).serve Build.release messages = .ok r := by
  obtain ⟨e, evs, hrun⟩ :=
    Engine.exists_run Build.wrapping_release htick hpos hlt (commandsOf messages)
  exact ⟨_, Engine.serve_of_run hrun⟩

/-- When nothing is left to do, all that is published has been read. -/
theorem Serves.trace_eq
    {β : Build}
    (h : Serves β cfg k l messages trace s) (hdrained : s.Drained messages) :
    trace = s.publications.map Outlet.reception := by
  obtain ⟨-, hread⟩ := hdrained
  have hout := h.output.sequenced
  have hcalls := hout.calls
  have hgate := hout.gate_le_done
  rw [h.output.read, List.take_of_length_le (by omega)]

/-- What has been read when nothing is left to do. -/
theorem Serves.read_all
    {β : Build}
    (h : Serves β cfg k l messages trace s) (hdrained : s.Drained messages) :
    ∃ evs, (Engine.new cfg).run β (commandsOf messages) = .ok (s.engine, evs) ∧
      trace = (publicationsOf messages evs).map Outlet.reception := by
  obtain ⟨reads, hdelivers⟩ := h.input
  have hseq := hdelivers.sequenced
  have hdone := hseq.done_bounds .businessLogic
  have htop := hseq.top_bounds
  obtain ⟨evs, hrun, hpublications⟩ := Engine.run_of_serve h.served
  have hall : messages.take (s.input.done .businessLogic + 1).toNat = messages :=
    List.take_of_length_le (by have := hdrained.1; omega)
  rw [hall] at hrun hpublications
  refine ⟨evs, hrun, ?_⟩
  rw [h.trace_eq hdrained, hpublications]

/-- **The system refines one thread.**  In every state that an interleaving of the
threads reaches, the engine is as after the commands of the first messages, and what
has been read is a prefix of what is published for them, with their timestamps and
in their order.  All of these messages have been parsed, journaled and replicated. -/
theorem system_refines_thread
    (hlen : eventSlots * messages.length < 2 ^ 63)
    (htrail : Trail (Step β messages) (System.new cfg (2 ^ k) (2 ^ l)) trace s) :
    ∃ n evs, n ≤ messages.length ∧
      (Engine.new cfg).run β (commandsOf (messages.take n)) = .ok (s.engine, evs) ∧
      s.publications = publicationsOf (messages.take n) evs ∧
      trace <+: s.publications.map Outlet.reception ∧
      ∀ c, c ≠ .businessLogic → (n : Int) ≤ s.input.sequence (.consumer c) + 1 := by
  have h := serves_of_trail hlen htrail
  obtain ⟨reads, hdelivers⟩ := h.input
  have hseq := hdelivers.sequenced
  have hstart := hseq.start
  have hdone := hseq.done_bounds .businessLogic
  have htop := hseq.top_bounds
  obtain ⟨evs, hrun, hpublications⟩ := Engine.run_of_serve h.served
  refine ⟨_, evs, by omega, hrun, hpublications, ?_, fun c hc => ?_⟩
  · rw [h.output.read]
    exact (List.take_prefix _ _).map _
  · have hle := hseq.done_le_of_mem (Pipeline.mem_dependencies_of_ne hc)
    omega

/-- **What is done before a message is handled.**  When the processor is about to
handle a message, the first sixteen events of each of the earlier messages are
published, and of these the output ring holds what is not read; and the message is
parsed, journaled and replicated. -/
theorem system_orders_effects
    {n : Int}
    (hlen : eventSlots * messages.length < 2 ^ 63)
    (htrail : Trail (Step β messages) (System.new cfg (2 ^ k) (2 ^ l)) trace s)
    (hphase : s.input.consumer .businessLogic = .reading n) :
    0 ≤ n ∧ (∀ c, c ≠ .businessLogic → n ≤ s.input.sequence (.consumer c)) ∧
      ∃ evs, (Engine.new cfg).run β (commandsOf (messages.take n.toNat)) = .ok (s.engine, evs) ∧
        s.publications = publicationsOf (messages.take n.toNat) evs ∧
        s.output.sequence + 1 = s.publications.length ∧
        ∀ m, s.output.gate < m → m ≤ s.output.sequence → ∃ slot event timestampNs,
          s.output.ring.slotRef m = some slot ∧
          s.publications[m.toNat]? = some (event, timestampNs) ∧
          slot.event = some event ∧ slot.timestampNs = timestampNs := by
  have h := serves_of_trail hlen htrail
  obtain ⟨reads, hdelivers⟩ := h.input
  have hseq := hdelivers.sequenced
  have hstart := hseq.start
  obtain ⟨hown, hdeps⟩ := hseq.accesses (Or.inl hphase)
  have hdone : s.input.done .businessLogic + 1 = n := by
    simp only [Pipeline.done, hphase, Pipeline.doneIn, hown]
  obtain ⟨evs, hrun, hpublications⟩ := Engine.run_of_serve h.served
  rw [hdone] at hrun hpublications
  have hflushed : s.Flushed := by
    rcases h.flushed with hidle | ⟨m, hm⟩ | hflushed
    · exact absurd (hphase.symm.trans hidle) (by simp)
    · exact absurd (hphase.symm.trans hm) (by simp)
    · exact hflushed
  refine ⟨by omega, fun c hc => hdeps _ (Pipeline.mem_dependencies_of_ne hc), evs, hrun,
    hpublications, ?_, fun m hlow hhigh => h.output.slot hlow hhigh⟩
  rw [← hflushed.2]
  exact h.output.sequenced.calls

/-- **No interleaving gets stuck.**  From every state that the system reaches it can
go on to a state in which all messages are handled and all events are read, and what
has been read in all is what one thread publishes. -/
theorem system_drains
    (hlen : eventSlots * messages.length < 2 ^ 63)
    (hpos : 1 ≤ cfg.capacity) (hlt : cfg.capacity < 2 ^ 32) (htick : cfg.tickSize ≠ 0)
    (htrail : Trail (Step Build.release messages) (System.new cfg (2 ^ k) (2 ^ l)) trace s) :
    ∃ es t evs, Trail (Step Build.release messages) s es t ∧ t.Drained messages ∧
      (Engine.new cfg).run Build.release (commandsOf messages) = .ok (t.engine, evs) ∧
      trace ++ es = (publicationsOf messages evs).map Outlet.reception := by
  obtain ⟨es, t, hmore, hdrained⟩ :=
    exists_trail_drained hlen (exists_serve hpos hlt htick messages) htrail
  obtain ⟨evs, hrun, hread⟩ := (serves_of_trail hlen (htrail.trans hmore)).read_all hdrained
  exact ⟨es, t, evs, hmore, hdrained, hrun, hread⟩

/-- **What is read does not depend on the interleaving.**  Two runs that have handled
the same messages and have read all events have read the same, and their engines are
in the same state, whatever the sizes of their rings. -/
theorem system_schedule_independent
    {β : Build} {k' l' : Nat} {t : System} {trace' : List Reception}
    (hlen : eventSlots * messages.length < 2 ^ 63)
    (htrail : Trail (Step β messages) (System.new cfg (2 ^ k) (2 ^ l)) trace s)
    (htrail' : Trail (Step β messages) (System.new cfg (2 ^ k') (2 ^ l')) trace' t)
    (hdrained : s.Drained messages) (hdrained' : t.Drained messages) :
    trace = trace' ∧ s.engine = t.engine := by
  obtain ⟨evs, hrun, hread⟩ := (serves_of_trail hlen htrail).read_all hdrained
  obtain ⟨evs', hrun', hread'⟩ := (serves_of_trail hlen htrail').read_all hdrained'
  obtain ⟨he, rfl⟩ := Prod.mk.inj (Except.ok.inj (hrun.symm.trans hrun'))
  exact ⟨hread.trans hread'.symm, he⟩

/-- **From bytes to answers.**  Let some of the messages start with the wire format of
commands.  There is one engine and one list of answers, the engine after these commands
and its events with the times of their messages, such that every interleaving can go on
to that engine with exactly these answers read, and ends there when nothing is left to
do. -/
theorem system_answers
    {requests : List Request}
    (hlen : eventSlots * messages.length < 2 ^ 63)
    (hpos : 1 ≤ cfg.capacity) (hlt : cfg.capacity < 2 ^ 32) (htick : cfg.tickSize ≠ 0)
    (hcarry : Carry messages requests) :
    ∃ e evs, (Engine.new cfg).run Build.release (requests.map Prod.fst) = .ok (e, evs) ∧
      ∀ k l trace s,
        Trail (Step Build.release messages) (System.new cfg (2 ^ k) (2 ^ l)) trace s →
        (s.Drained messages →
          trace = (answers requests evs).map Outlet.reception ∧ s.engine = e) ∧
        ∃ es t, Trail (Step Build.release messages) s es t ∧ t.Drained messages ∧
          trace ++ es = (answers requests evs).map Outlet.reception ∧ t.engine = e := by
  obtain ⟨e, evs, hrun⟩ :=
    Engine.exists_run Build.wrapping_release htick hpos hlt (requests.map Prod.fst)
  obtain ⟨hcommands, hanswers⟩ := hcarry.served evs
  refine ⟨e, evs, hrun, ?_⟩
  have hend : ∀ {k l trace s},
      Trail (Step Build.release messages) (System.new cfg (2 ^ k) (2 ^ l)) trace s →
      s.Drained messages →
      trace = (answers requests evs).map Outlet.reception ∧ s.engine = e := by
    intro k l trace s htrail hdrained
    obtain ⟨evs', hrun', hread⟩ := (serves_of_trail hlen htrail).read_all hdrained
    rw [hcommands, hrun] at hrun'
    obtain ⟨rfl, rfl⟩ := Prod.mk.inj (Except.ok.inj hrun')
    rw [hanswers] at hread
    exact ⟨hread, rfl⟩
  intro k l trace s htrail
  refine ⟨hend htrail, ?_⟩
  obtain ⟨es, t, hmore, hdrained⟩ :=
    exists_trail_drained hlen (exists_serve hpos hlt htick messages) htrail
  obtain ⟨hread, hengine⟩ := hend (htrail.trans hmore) hdrained
  exact ⟨es, t, hmore, hdrained, hread, hengine⟩

end Progress

section Trade

open Pipeline

variable {k l : Nat}

/-- What the messages of the trade are answered with. -/
def tradeEvents : List (List OutputEvent) :=
  [[.orderAccepted 1 0 0 (Vector.replicate 8 0) .buy 100 1],
    [.orderAccepted 2 2 0 (Vector.replicate 8 0) .buy 100 1],
    [.fill 3 1 1 0 (Vector.replicate 8 0) 100 1 .sell],
    [.cancelRejected 0 0]]

/-- What the reader makes of them. -/
def tradeTrace : List Reception :=
  (publicationsOf tradeMessages tradeEvents).map Outlet.reception

theorem exists_run_trade :
    ∃ e, (Engine.new smallConfig).run Build.release (commandsOf tradeMessages) =
      .ok (e, tradeEvents) := by
  obtain ⟨⟨e, evs⟩, hrun, hevents⟩ := exists_of_yields
    (x := (Engine.new smallConfig).run Build.release (commandsOf tradeMessages))
    (p := fun r => decide (r.2 = tradeEvents)) (by decide +kernel)
  obtain rfl := of_decide_eq_true hevents
  exact ⟨e, hrun⟩

/-- The trade, on rings of any sizes. -/
theorem exists_trail_trade
    (k l : Nat) :
    ∃ s, Trail (Step Build.release tradeMessages)
        (System.new smallConfig (2 ^ k) (2 ^ l)) tradeTrace s ∧
      s.Drained tradeMessages := by
  have hok : ∃ r, (Engine.new smallConfig).serve Build.release tradeMessages = .ok r :=
    exists_serve (by decide) (by decide) (by decide) tradeMessages
  obtain ⟨trace, s, htrail, hdrained⟩ := exists_trail_drained (by decide) hok
    (Trail.refl (System.new smallConfig (2 ^ k) (2 ^ l)))
  obtain ⟨evs, hrun, rfl⟩ := (serves_of_trail (by decide) htrail).read_all hdrained
  obtain ⟨e, hrun'⟩ := exists_run_trade
  rw [hrun', Except.ok.injEq, Prod.mk.injEq] at hrun
  obtain ⟨-, rfl⟩ := hrun
  exact ⟨s, htrail, hdrained⟩

/-- The processor comes to the cancellation, on rings of any sizes. -/
theorem exists_trail_tradeCancel
    (k l : Nat) :
    ∃ trace s, Trail (Step Build.release tradeMessages)
        (System.new smallConfig (2 ^ k) (2 ^ l)) trace s ∧
      s.input.consumer .businessLogic = .reading 3 := by
  have hok : ∃ r, (Engine.new smallConfig).serve Build.release (tradeMessages.take 3) = .ok r :=
    exists_serve (by decide) (by decide) (by decide) (tradeMessages.take 3)
  exact exists_trail_reading (n := 3) (by decide) (by decide) hok
    (Trail.refl (System.new smallConfig (2 ^ k) (2 ^ l)))
    (show (-1 : Int) < 3 by decide)

/-- After the trade all of its messages are handled, and their events read. -/
theorem system_refines_thread_trade :
    ∃ s, Trail (Step Build.release tradeMessages)
        (System.new smallConfig (2 ^ 0) (2 ^ 1)) tradeTrace s ∧
      s.Drained tradeMessages ∧
      ∃ n evs, n ≤ 4 ∧
        (Engine.new smallConfig).run Build.release (commandsOf (tradeMessages.take n)) =
          .ok (s.engine, evs) ∧
        s.publications = publicationsOf (tradeMessages.take n) evs ∧
        tradeTrace <+: s.publications.map Outlet.reception ∧
        ∀ c, c ≠ .businessLogic → (n : Int) ≤ s.input.sequence (.consumer c) + 1 := by
  obtain ⟨s, htrail, hdrained⟩ := exists_trail_trade 0 1
  exact ⟨s, htrail, hdrained, system_refines_thread (by decide) htrail⟩

/-- When the cancellation is about to be handled it is journaled, and the events of the
orders before it are published. -/
theorem system_orders_effects_trade :
    ∃ trace s, Trail (Step Build.release tradeMessages)
        (System.new smallConfig (2 ^ 0) (2 ^ 1)) trace s ∧
      s.input.consumer .businessLogic = .reading 3 ∧
      3 ≤ s.input.sequence (.consumer .journal) ∧
      s.publications = publicationsOf (tradeMessages.take 3) (tradeEvents.take 3) ∧
      s.output.sequence = 2 := by
  obtain ⟨trace, s, htrail, hphase⟩ := exists_trail_tradeCancel 0 1
  obtain ⟨-, hupstream, evs, hrun, hpublications, hsequence, -⟩ :=
    system_orders_effects (by decide) htrail hphase
  obtain ⟨⟨e, evs'⟩, hrun', hevents⟩ := exists_of_yields
    (x := (Engine.new smallConfig).run Build.release (commandsOf (tradeMessages.take 3)))
    (p := fun r => decide (r.2 = tradeEvents.take 3)) (by decide +kernel)
  obtain rfl := of_decide_eq_true hevents
  obtain ⟨-, rfl⟩ := Prod.mk.inj (Except.ok.inj (hrun.symm.trans hrun'))
  have hcount : s.publications.length = 3 := by
    rw [hpublications]
    rfl
  exact ⟨trace, s, htrail, hphase, hupstream .journal (by decide), hpublications, by omega⟩

/-- From the cancellation the system goes on, and the reader gets all events. -/
theorem system_drains_trade :
    ∃ trace s, Trail (Step Build.release tradeMessages)
        (System.new smallConfig (2 ^ 0) (2 ^ 1)) trace s ∧
      s.input.consumer .businessLogic = .reading 3 ∧
      ∃ es t evs, Trail (Step Build.release tradeMessages) s es t ∧
        t.Drained tradeMessages ∧
        (Engine.new smallConfig).run Build.release (commandsOf tradeMessages) =
          .ok (t.engine, evs) ∧
        trace ++ es = (publicationsOf tradeMessages evs).map Outlet.reception := by
  obtain ⟨trace, s, htrail, hphase⟩ := exists_trail_tradeCancel 0 1
  exact ⟨trace, s, htrail, hphase,
    system_drains (by decide) (by decide) (by decide) (by decide) htrail⟩

/-- Rings of one slot and rings of eight. -/
theorem system_schedule_independent_trade :
    ∃ s t,
      Trail (Step Build.release tradeMessages)
        (System.new smallConfig (2 ^ 0) (2 ^ 0)) tradeTrace s ∧
      Trail (Step Build.release tradeMessages)
        (System.new smallConfig (2 ^ 3) (2 ^ 3)) tradeTrace t ∧
      s.Drained tradeMessages ∧ t.Drained tradeMessages ∧
      tradeTrace = tradeTrace ∧ s.engine = t.engine := by
  obtain ⟨s, htrail, hdrained⟩ := exists_trail_trade 0 0
  obtain ⟨t, htrail', hdrained'⟩ := exists_trail_trade 3 3
  exact ⟨s, t, htrail, htrail', hdrained, hdrained',
    system_schedule_independent (by decide) htrail htrail' hdrained hdrained'⟩

/-- The requests of the trade. -/
def tradeRequests : List Request :=
  [(bidOne 0 100, 3), (bidOne 2 100, 4), (askOne 1 100, 5), (.cancel 0 0, 7)]

/-- The trade behind a byte that is no command. -/
def noisyMessages : List Message :=
  ⟨[9], 2⟩ :: tradeMessages

theorem carry_noisyMessages :
    Carry noisyMessages tradeRequests := by
  have hnoise : (parseCommand [9]).toOption = none := rfl
  have hfirst : encode (bidOne 0 100) = some (placeMessage 0 0 3).raw := by decide
  have hsecond : encode (bidOne 2 100) = some (placeMessage 2 0 4).raw := by decide
  have hoffer : encode (askOne 1 100) = some (placeMessage 1 1 5).raw := by decide
  have hcancel : encode (.cancel 0 0) = some cancelMessage.raw := by decide
  refine Carry.noise (fun c bytes h hpre => ?_) ?_
  · exact absurd (hnoise.symm.trans (parseCommand_toOption_eq_some_iff.mpr ⟨bytes, h, hpre⟩)) nofun
  · exact Carry.request hfirst List.prefix_rfl (Carry.request hsecond List.prefix_rfl
      (Carry.request hoffer List.prefix_rfl (Carry.request hcancel List.prefix_rfl Carry.nil)))

/-- The trade is answered whatever the rings. -/
theorem system_answers_trade :
    ∃ e evs, (Engine.new smallConfig).run Build.release (tradeRequests.map Prod.fst) =
        .ok (e, evs) ∧
      ∀ k l trace s,
        Trail (Step Build.release noisyMessages) (System.new smallConfig (2 ^ k) (2 ^ l))
          trace s →
        (s.Drained noisyMessages →
          trace = (answers tradeRequests evs).map Outlet.reception ∧ s.engine = e) ∧
        ∃ es t, Trail (Step Build.release noisyMessages) s es t ∧ t.Drained noisyMessages ∧
          trace ++ es = (answers tradeRequests evs).map Outlet.reception ∧ t.engine = e :=
  system_answers (by decide) (by decide) (by decide) (by decide) carry_noisyMessages

end Trade

end System

end LmaxEngine
