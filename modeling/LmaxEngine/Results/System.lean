import LmaxEngine.Results.Book
import LmaxEngine.Results.InputRing
import LmaxEngine.Results.OutputRing
import LmaxEngine.Spec.Serial

/-!
# The system refines one thread

However the threads interleave, what the output consumer has read is a prefix of
what one thread publishes that parses the messages, handles the commands and
publishes the events one after the other.
-/

namespace LmaxEngine

open Checked Sequencing Transition

namespace Outlet

section Growth

variable {k : Nat} {publications : List Publication} {s t : Outlet}
variable {es trace : List Reception}

theorem getElem?_append
    {n : Nat} {publication : Publication}
    (h : publications[n]? = some publication) (later : List Publication) :
    (publications ++ later)[n]? = some publication := by
  obtain ⟨hlt, -⟩ := List.getElem?_eq_some_iff.mp h
  rw [List.getElem?_append_left hlt, h]

/-- What was published stays published when there is more to publish. -/
theorem SlotOk.append
    {stamped n : Int} {slot : OutputSlot}
    (h : SlotOk publications stamped n slot) (later : List Publication) :
    SlotOk (publications ++ later) stamped n slot := by
  obtain ⟨event, timestampNs, hcall, hevent, htime⟩ := h
  exact ⟨event, timestampNs, getElem?_append hcall later, hevent, htime⟩

theorem Sequenced.append
    (h : Sequenced k publications s) (later : List Publication) :
    Sequenced k (publications ++ later) s where
  mask := h.mask
  calls := h.calls
  bound := h.bound.trans (by rw [List.length_append]; exact Nat.le_add_right _ _)
  start := h.start
  order := h.order
  room := h.room
  publisher := by
    have hp := h.publisher
    have hlen : (publications.length : Int) ≤ ((publications ++ later).length : Int) := by
      rw [List.length_append]
      omega
    cases hphase : s.publisher with
    | idle => trivial
    | gating next =>
        rw [hphase] at hp
        exact ⟨hp.1, hp.2.trans_le hlen⟩
    | claimed next =>
        rw [hphase] at hp
        exact ⟨hp.1, hp.2.1.trans_le hlen, hp.2.2⟩
    | stamping next =>
        rw [hphase] at hp
        exact ⟨hp.1, hp.2.1.trans_le hlen, hp.2.2⟩
    | storing next =>
        rw [hphase] at hp
        exact ⟨hp.1, hp.2.1.trans_le hlen, hp.2.2⟩
  reader := h.reader

/-- There may always be more to publish. -/
theorem Delivers.append
    (h : Delivers k publications trace s) (later : List Publication) :
    Delivers k (publications ++ later) trace s where
  sequenced := h.sequenced.append later
  cells n hn hn' := by
    obtain ⟨slot, hslot, hok⟩ := h.cells n hn hn'
    exact ⟨slot, hslot, hok.append later⟩
  timing ht := by
    obtain ⟨publication, hcall, hevent⟩ := h.timing ht
    exact ⟨publication, getElem?_append hcall later, hevent⟩
  read := by
    have hdone := h.sequenced.done_le
    have hcalls := h.sequenced.calls
    have hbound := h.sequenced.bound
    rw [h.read, List.take_append_of_le_length]
    omega

/-- Calls are counted when they are through. -/
theorem Step.calls_le
    (hstep : Step publications s es t) :
    s.calls ≤ t.calls := by
  cases hstep with
  | publish => exact Nat.le_succ _
  | _ => exact Nat.le_refl _

theorem Step.calls_eq
    (hstep : Step publications s es t) (hidle : s.publisher = .idle) :
    t.calls = s.calls := by
  cases hstep with
  | publish hphase =>
      rw [hidle] at hphase
      exact absurd hphase (by simp)
  | _ => rfl

end Growth

end Outlet

namespace Pipeline

/-- A consumer that is done with a slot stores its sequence next. -/
theorem Step.of_storing
    {messages : List Message} {s t : Pipeline} {es : List (Option (Command × UInt64))}
    {c : Consumer} {n : Int}
    (hstep : Step messages s es t) (hphase : s.consumer c = .storing n) :
    t.consumer c = .storing n ∨ t.consumer c = .idle := by
  have henter : ∀ {c' : Consumer} {phase : ConsumerPhase}, s.consumer c' ≠ .storing n →
      Function.update s.consumer c' phase c = .storing n := by
    intro c' phase hne
    rw [Function.update_of_ne, hphase]
    rintro rfl
    exact hne hphase
  cases hstep with
  | spin => exact Or.inl hphase
  | claim => exact Or.inl hphase
  | writeSlot => exact Or.inl hphase
  | storeCursor => exact Or.inl hphase
  | publish => exact Or.inl hphase
  | begin c' hc => exact Or.inl (henter (by simp [hc]))
  | look c' hc => exact Or.inl (henter (by simp [hc]))
  | pass c' hc => exact Or.inl (henter (by simp [hc]))
  | retry c' hc => exact Or.inl (henter (by simp [hc]))
  | parse hc => exact Or.inl (henter (by simp [hc]))
  | writeCommand hc => exact Or.inl (henter (by simp [hc]))
  | inspect c' _ hc => exact Or.inl (henter (by simp [hc]))
  | handle hc => exact Or.inl (henter (by simp [hc]))
  | advance c' hc =>
      by_cases heq : c = c'
      · subst heq
        exact Or.inr (Function.update_self _ _ _)
      · exact Or.inl ((Function.update_of_ne heq _ _).trans hphase)

/-- A consumer is done with nothing that its barrier does not let through. -/
theorem Sequenced.done_le_of_mem
    {k : Nat} {messages : List Message} {s : Pipeline} {c : Consumer} {d : Source}
    (h : Sequenced k messages s) (hd : d ∈ c.dependencies) :
    s.done c ≤ s.sequence d := by
  have hc := h.consumer c
  unfold done
  cases hphase : s.consumer c with
  | storing next =>
      rw [hphase] at hc
      exact hc.2 d hd
  | _ => exact h.order c d hd

/-- The processor waits for all other consumers. -/
theorem mem_dependencies_of_ne
    {c : Consumer} (hc : c ≠ .businessLogic) :
    Source.consumer c ∈ Consumer.businessLogic.dependencies := by
  cases c with
  | businessLogic => exact absurd rfl hc
  | _ => decide

end Pipeline

namespace System

/-- The invariant of the system and of what has been read from it. -/
structure Serves
    (β : Build) (cfg : Config) (k l : Nat) (messages : List Message)
    (trace : List Reception) (s : System) : Prop where
  input : ∃ reads, Pipeline.Delivers k messages reads s.input
  output : Outlet.Delivers l s.publications trace s.output
  served : (Engine.new cfg).serve β
    (messages.take (s.input.done .businessLogic + 1).toNat) = .ok (s.engine, s.publications)
  /-- Of all messages but the last one handled everything is published. -/
  earlier : ∃ e old, (Engine.new cfg).serve β
      (messages.take (s.input.done .businessLogic).toNat) = .ok (e, old) ∧
    old.length ≤ s.output.calls
  ready : s.input.consumer .businessLogic ≠ .idle → s.output.publisher = .idle
  flushed : s.input.consumer .businessLogic = .idle ∨
    (∃ n, s.input.consumer .businessLogic = .storing n) ∨ s.Flushed

section Serving

variable {β : Build} {cfg : Config} {k l : Nat} {messages : List Message}
variable {s t : System} {es trace : List Reception}

/-- No more events are published than fit into the numbers of the output ring. -/
theorem Serves.length_lt
    (h : Serves β cfg k l messages trace s) (hlen : eventSlots * messages.length < 2 ^ 63) :
    s.publications.length < 2 ^ 63 := by
  have hle := Engine.length_serve_le h.served
  have htake : (messages.take (s.input.done .businessLogic + 1).toNat).length ≤
      messages.length := by
    rw [List.length_take]
    exact Nat.min_le_right _ _
  exact (hle.trans (Nat.mul_le_mul_left _ htake)).trans_lt hlen

/-- A step on the input ring hands nothing to the processor. -/
theorem Serves.step_input
    {input : Pipeline}
    (h : Serves β cfg k l messages trace s) (hlen : messages.length < 2 ^ 63)
    (hstep : Pipeline.Step messages s.input [] input)
    (hbegin : s.input.consumer .businessLogic = .idle →
      input.consumer .businessLogic = .idle ∨ s.Flushed) :
    Serves β cfg k l messages trace { s with input := input } := by
  obtain ⟨reads, hdelivers⟩ := h.input
  have hdone : input.done .businessLogic = s.input.done .businessLogic := by
    rcases hstep.read_cases with ⟨-, hdone⟩ | ⟨next, slot, -, -, hes, -⟩
    · exact hdone
    · exact absurd hes (by simp)
  have hphase : input.consumer .businessLogic = .idle ∨
      (∃ n, s.input.consumer .businessLogic = .storing n ∧
        input.consumer .businessLogic = .storing n) ∨ s.Flushed := by
    rcases h.flushed with hidle | ⟨n, hn⟩ | hflushed
    · exact (hbegin hidle).imp_right Or.inr
    · rcases hstep.of_storing hn with hn' | hidle
      · exact Or.inr (Or.inl ⟨n, hn, hn'⟩)
      · exact Or.inl hidle
    · exact Or.inr (Or.inr hflushed)
  refine
    { input := ⟨_, hstep.delivers hlen hdelivers⟩
      output := h.output
      served := by rw [hdone]; exact h.served
      earlier := by rw [hdone]; exact h.earlier
      ready := fun hbusy => ?_
      flushed := ?_ }
  · rcases hphase with hidle | ⟨n, hn, -⟩ | hflushed
    · exact absurd hidle hbusy
    · exact h.ready (by rw [hn]; simp)
    · exact hflushed.1
  · rcases hphase with hidle | ⟨n, -, hn⟩ | hflushed
    · exact Or.inl hidle
    · exact Or.inr (Or.inl ⟨n, hn⟩)
    · exact Or.inr (Or.inr hflushed)

/-- The processor handles the message that is next in line. -/
theorem Serves.step_handle
    {next : Int} {slot : InputSlot} {engine : Engine} {published : List Publication}
    (h : Serves β cfg k l messages trace s) (hlen : messages.length < 2 ^ 63)
    (hphase : s.input.consumer .businessLogic = .reading next)
    (hslot : s.input.ring.slotRef next = some slot)
    (hprocess : s.engine.process β slot = .ok (engine, published)) :
    Serves β cfg k l messages trace
      { s with
        input := s.input.enter .businessLogic (.storing next)
        engine := engine
        publications := s.publications ++ published } := by
  obtain ⟨reads, hdelivers⟩ := h.input
  have hseq := hdelivers.sequenced
  have haccess : (s.input.consumer .businessLogic).Accesses next := Or.inl hphase
  obtain ⟨hown, hdeps⟩ := hseq.accesses haccess
  obtain ⟨slot', hslot', message, hmessage, -, htime, hcommand⟩ :=
    hdelivers.stored.slot hseq haccess
  obtain rfl : slot = slot' := Option.some.inj (hslot.symm.trans hslot')
  have hparsed : next ≤ s.input.done .unmarshaller :=
    (hdeps (.consumer .unmarshaller) (by decide)).trans (hseq.done_bounds .unmarshaller).1
  have hflushed : s.Flushed := by
    rcases h.flushed with hidle | ⟨n, hn⟩ | hflushed
    · exact absurd (hphase.symm.trans hidle) (by simp)
    · exact absurd (hphase.symm.trans hn) (by simp)
    · exact hflushed
  have hstart := hseq.start
  have hold : s.input.done .businessLogic + 1 = next := by
    simp only [Pipeline.done, hphase, Pipeline.doneIn, hown]
  have hnew : (s.input.enter .businessLogic (.storing next)).done .businessLogic = next := by
    simp [Pipeline.done, Pipeline.enter, Pipeline.doneIn]
  have hserved := h.served
  rw [hold] at hserved
  have hmore : (Engine.new cfg).serve β (messages.take (next + 1).toNat) =
      .ok (engine, s.publications ++ published) := by
    have hcount : (next + 1).toNat = next.toNat + 1 := by omega
    rw [hcount, List.take_add_one, hmessage]
    refine Engine.serve_snoc hserved ?_
    rw [← hprocess]
    exact Engine.process_congr (hcommand hparsed).symm htime.symm
  exact
    { input := ⟨_, (Pipeline.Step.handle hphase hslot).delivers hlen hdelivers⟩
      output := h.output.append published
      served := by rw [hnew]; exact hmore
      earlier := by
        rw [hnew]
        exact ⟨s.engine, s.publications, hserved, hflushed.2.ge⟩
      ready := fun _ => hflushed.1
      flushed := Or.inr (Or.inl ⟨next, by simp [Pipeline.enter]⟩) }

/-- A step on the output ring. -/
theorem Serves.step_output
    {output : Outlet}
    (h : Serves β cfg k l messages trace s) (hlen : eventSlots * messages.length < 2 ^ 63)
    (hstep : Outlet.Step s.publications s.output es output)
    (hcall : s.output.publisher = .idle →
      output.publisher = .idle ∨ s.input.consumer .businessLogic = .idle) :
    Serves β cfg k l messages (trace ++ es) { s with output := output } := by
  have hready : s.input.consumer .businessLogic ≠ .idle → output.publisher = .idle :=
    fun hbusy => (hcall (h.ready hbusy)).resolve_right hbusy
  refine
    { input := h.input
      output := hstep.delivers (h.length_lt hlen) h.output
      served := h.served
      earlier := ?_
      ready := hready
      flushed := ?_ }
  · obtain ⟨e, old, hold, hle⟩ := h.earlier
    exact ⟨e, old, hold, hle.trans hstep.calls_le⟩
  · by_cases hidle : s.input.consumer .businessLogic = .idle
    · exact Or.inl hidle
    · refine Or.inr ((h.flushed.resolve_left hidle).imp_right fun hflushed => ?_)
      exact ⟨hready hidle, (hstep.calls_eq hflushed.1).trans hflushed.2⟩

/-- **Every step of the system serves the messages in order.** -/
theorem Step.serves
    (hstep : Step β messages s es t) (hlen : eventSlots * messages.length < 2 ^ 63)
    (h : Serves β cfg k l messages trace s) :
    Serves β cfg k l messages (trace ++ es) t := by
  have hfew : messages.length < 2 ^ 63 := by
    rw [eventSlots] at hlen
    omega
  cases hstep with
  | input hstep hbegin =>
      rw [List.append_nil]
      exact h.step_input hfew hstep hbegin
  | handle hphase hslot hprocess =>
      rw [List.append_nil]
      exact h.step_handle hfew hphase hslot hprocess
  | output hstep hcall => exact h.step_output hlen hstep hcall

theorem serves_new
    (β : Build) (cfg : Config) (k l : Nat) (messages : List Message) :
    Serves β cfg k l messages [] (System.new cfg (2 ^ k) (2 ^ l)) where
  input := ⟨[], Pipeline.delivers_new k messages⟩
  output := Outlet.delivers_new l []
  served := rfl
  earlier := ⟨Engine.new cfg, [], rfl, Nat.zero_le _⟩
  ready hbusy := absurd rfl hbusy
  flushed := Or.inl rfl

theorem serves_of_trail
    (hlen : eventSlots * messages.length < 2 ^ 63)
    (htrail : Trail (Step β messages) (System.new cfg (2 ^ k) (2 ^ l)) trace s) :
    Serves β cfg k l messages trace s :=
  htrail.invariant (P := Serves β cfg k l messages)
    (fun h hstep => hstep.serves hlen h) [] (serves_new β cfg k l messages)

end Serving

end System

end LmaxEngine
