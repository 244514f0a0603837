import LmaxEngine.Results.Delivery

/-!
# Who is in a slot of the input ring

A thread is inside a slot from the moment that it is through its barrier, or its
gate, until it is about to store its sequence.  The producer is never inside a
slot with a consumer, and the business logic processor is never inside one with
the unmarshaller.  The replicator and the journal wait for the producer only, as
the unmarshaller does, and so they may be in the slot that it is writing to.
-/

namespace LmaxEngine

open Sequencing Transition

/-- The threads that write to slots.  A thread is named by its sequence. -/
def Source.Mutates (thread : Source) : Prop :=
  thread = .producer ∨ thread = .consumer .unmarshaller

namespace Pipeline

/-- A thread has access to the slot of `n`. -/
def Inside (s : Pipeline) : Source → Int → Prop
  | .producer, n => s.producer = .claimed n
  | .consumer c, n => (s.consumer c).Accesses n

/-- No thread is inside a slot while another one that writes is inside it. -/
def Exclusive (s : Pipeline) : Prop :=
  ∀ a b m n, a ≠ b → b.Mutates → s.Inside a m → s.Inside b n →
    s.ring.index m ≠ s.ring.index n

/-- A consumer that goes on to the slot of `n` finds the unmarshaller there, or
is the unmarshaller and finds the replicator or the journal. -/
def Overlaps (s : Pipeline) (c : Consumer) (n : Int) : Prop :=
  (c ≠ .unmarshaller ∧ (s.consumer .unmarshaller).Accesses n) ∨
    (c = .unmarshaller ∧ ∃ d, d ≠ .unmarshaller ∧ (s.consumer d).Accesses n)

/-- A step by which no consumer gets into a slot that it overlaps on. -/
def Careful
    (messages : List Message) (s : Pipeline) (es : List (Option (Command × UInt64)))
    (t : Pipeline) : Prop :=
  Step messages s es t ∧
    ∀ c n, ¬ (s.consumer c).Accesses n → (t.consumer c).Accesses n → ¬ s.Overlaps c n

/-- No other consumer is at the number of the unmarshaller. -/
def Apart (s : Pipeline) : Prop :=
  ∀ c n, c ≠ .unmarshaller → (s.consumer c).Accesses n → ¬ (s.consumer .unmarshaller).Accesses n

section Slots

variable {k : Nat} {messages : List Message} {s t : Pipeline} {c : Consumer} {m n : Int}
variable {es : List (Option (Command × UInt64))}

theorem index_ne
    (hseq : Sequenced k messages s) (hk : k < 64)
    (hm : 0 ≤ m) (hn : 0 ≤ n) (hne : m ≠ n) (hmn : m - n < 2 ^ k) (hnm : n - m < 2 ^ k) :
    s.ring.index m ≠ s.ring.index n := by
  rcases Int.lt_or_gt_of_ne hne with hlt | hlt
  · exact RingBuffer.spread_index_of_lt hseq.mask hk (n + 1) m n hm hlt hnm (by omega)
  · exact (RingBuffer.spread_index_of_lt hseq.mask hk (m + 1) n m hn hlt hmn (by omega)).symm

/-- The window of the numbers that consumers are at. -/
theorem Sequenced.accesses_window
    (h : Sequenced k messages s) (hn : (s.consumer c).Accesses n) :
    0 ≤ n ∧ s.sequence (.consumer .businessLogic) < n ∧ n ≤ s.sequence .producer := by
  obtain ⟨hown, hdeps⟩ := h.accesses hn
  have hblp := h.blp_le c
  have hstart := h.start
  have hproducer := h.published hdeps
  omega

/-- The producer is never inside a slot with a consumer. -/
theorem Sequenced.producer_exclusive
    (h : Sequenced k messages s) (hk : k < 64)
    (hm : (s.consumer c).Accesses m) (hn : s.producer = .claimed n) :
    s.ring.index m ≠ s.ring.index n := by
  obtain ⟨hpos, hlo, hhi⟩ := h.accesses_window hm
  have hp := h.producer
  rw [hn] at hp
  obtain ⟨hseq, -, hgate⟩ := hp
  exact index_ne h hk hpos (by omega) (by omega) (by omega) (by omega)

/-- Two consumers inside a slot are there for the same number. -/
theorem Sequenced.index_ne_of_ne
    {c' : Consumer}
    (h : Sequenced k messages s) (hk : k < 64)
    (hm : (s.consumer c).Accesses m) (hn : (s.consumer c').Accesses n) (hne : m ≠ n) :
    s.ring.index m ≠ s.ring.index n := by
  obtain ⟨hmpos, hmlo, hmhi⟩ := h.accesses_window hm
  obtain ⟨hnpos, hnlo, hnhi⟩ := h.accesses_window hn
  have hgate := h.gate
  exact index_ne h hk hmpos hnpos hne (by omega) (by omega)

/-- A state is exclusive when no other consumer is at the number of the
unmarshaller. -/
theorem Sequenced.exclusive_iff
    (h : Sequenced k messages s) (hk : k < 64) :
    s.Exclusive ↔ s.Apart := by
  constructor
  · intro he c n hc hn hu
    refine he (.consumer c) (.consumer .unmarshaller) n n ?_ (Or.inr rfl) hn hu rfl
    exact fun heq => hc (Source.consumer.inj heq)
  · rintro ha a b m n hab (rfl | rfl) hm hn
    · cases a with
      | producer => exact absurd rfl hab
      | consumer c => exact h.producer_exclusive hk hm hn
    · cases a with
      | producer => exact (h.producer_exclusive hk hn hm).symm
      | consumer c =>
          have hc : c ≠ .unmarshaller := fun he => hab (by rw [he])
          refine h.index_ne_of_ne hk hm hn ?_
          rintro rfl
          exact ha c m hc hm hn

theorem not_accesses_waiting
    {next : Int} {scan : Scan Source} :
    ¬ (ConsumerPhase.waiting next scan).Accesses n := by
  simp [ConsumerPhase.Accesses]

/-- A consumer inside a slot was there before the step, or the step let it
through its barrier. -/
theorem Step.accesses_cases
    (hstep : Step messages s es t) (hn : (t.consumer c).Accesses n) :
    (s.consumer c).Accesses n ∨
      ∃ scan, s.consumer c = .waiting n scan ∧ t = s.enter c (.reading n) := by
  -- a consumer that enters a phase without access is not inside
  have hother : ∀ {c' phase}, t.consumer = Function.update s.consumer c' phase →
      (∀ n, phase.Accesses n → (s.consumer c').Accesses n) → (s.consumer c).Accesses n := by
    intro c' phase ht hphase
    rw [ht] at hn
    by_cases hc : c = c'
    · subst hc
      rw [Function.update_self] at hn
      exact hphase n hn
    · rwa [Function.update_of_ne hc] at hn
  cases hstep with
  | spin => exact Or.inl hn
  | claim => exact Or.inl hn
  | writeSlot => exact Or.inl hn
  | storeCursor => exact Or.inl hn
  | publish => exact Or.inl hn
  | begin c' hphase => exact Or.inl (hother rfl fun _ ha => absurd ha not_accesses_waiting)
  | look c' hphase hrest => exact Or.inl (hother rfl fun _ ha => absurd ha not_accesses_waiting)
  | @pass next scan c' hphase hrest hmin =>
      by_cases hc : c = c'
      · subst hc
        have hnext : next = n := by
          simpa [Pipeline.enter, ConsumerPhase.Accesses] using hn
        subst hnext
        exact Or.inr ⟨scan, hphase, rfl⟩
      · left
        simpa only [Pipeline.enter, Function.update_of_ne hc] using hn
  | retry c' hphase hrest hmin =>
      exact Or.inl (hother rfl fun _ ha => absurd ha not_accesses_waiting)
  | @parse next slot hphase hslot =>
      refine Or.inl (hother rfl fun n' ha => Or.inl ?_)
      have hnext : next = n' := by simpa [ConsumerPhase.Accesses] using ha
      rw [hphase, hnext]
  | writeCommand hphase hslot =>
      exact Or.inl (hother rfl fun _ ha => absurd ha (by simp [ConsumerPhase.Accesses]))
  | inspect c' hc hphase hslot =>
      exact Or.inl (hother rfl fun _ ha => absurd ha (by simp [ConsumerPhase.Accesses]))
  | handle hphase hslot =>
      exact Or.inl (hother rfl fun _ ha => absurd ha (by simp [ConsumerPhase.Accesses]))
  | advance c' hphase =>
      exact Or.inl (hother rfl fun _ ha => absurd ha (by simp [ConsumerPhase.Accesses]))

theorem consumer_enter_of_ne
    {c' : Consumer} {phase : ConsumerPhase}
    (h : c' ≠ c) :
    (s.enter c phase).consumer c' = s.consumer c' :=
  Function.update_of_ne h _ _

/-- **Exclusion is lost by a step that gets a consumer into a slot beside the
unmarshaller, or the unmarshaller beside it, and by no other.** -/
theorem Step.apart_iff
    (hstep : Step messages s es t) (h : s.Apart) :
    t.Apart ↔ Careful messages s es t := by
  constructor
  · refine fun ht => ⟨hstep, fun c n hs hn hover => ?_⟩
    rcases hstep.accesses_cases hn with hold | ⟨scan, -, rfl⟩
    · exact hs hold
    · rcases hover with ⟨hc, hu⟩ | ⟨rfl, d, hd, hdn⟩
      · refine ht c n hc hn ?_
        rwa [consumer_enter_of_ne hc.symm]
      · refine ht d n hd ?_ hn
        rwa [consumer_enter_of_ne hd]
  · rintro ⟨-, hcareful⟩ c n hc hn hu
    rcases hstep.accesses_cases hn with hn' | ⟨scan, hphase, he⟩
    · rcases hstep.accesses_cases hu with hu' | ⟨scan', hphase', -⟩
      · exact h c n hc hn' hu'
      · refine hcareful .unmarshaller n ?_ hu (Or.inr ⟨rfl, c, hc, hn'⟩)
        rw [hphase']
        exact not_accesses_waiting
    · have hu' : (s.consumer .unmarshaller).Accesses n := by
        rwa [he, consumer_enter_of_ne hc.symm] at hu
      refine hcareful c n ?_ hn (Or.inl ⟨hc, hu'⟩)
      rw [hphase]
      exact not_accesses_waiting

theorem apart_new
    (capacity : Nat) :
    (Pipeline.new capacity).Apart := by
  intro c n _ hn
  simp [Pipeline.new, ConsumerPhase.Accesses] at hn

end Slots

section Exclusion

variable {k : Nat} {messages : List Message} {s t : Pipeline}
variable {es trace : List (Option (Command × UInt64))}

theorem sequenced_of_trail
    (htrail : Trail (Step messages) (Pipeline.new (2 ^ k)) trace s) :
    Sequenced k messages s :=
  htrail.preserves (P := Sequenced k messages) (fun h hstep => hstep.sequenced h)
    (sequenced_new k messages)

/-- **When slots are exclusive.**  In every state that careful steps lead to, no
thread is inside a slot while another thread that writes is inside it; and a step
from such a state that is not careful loses this. -/
theorem exclusive_iff_careful
    (hk : k < 64) (messages : List Message) :
    (∀ trace s, Trail (Careful messages) (Pipeline.new (2 ^ k)) trace s → s.Exclusive) ∧
    ∀ trace s es t, Trail (Step messages) (Pipeline.new (2 ^ k)) trace s → s.Exclusive →
      Step messages s es t → (t.Exclusive ↔ Careful messages s es t) := by
  constructor
  · intro trace s htrail
    have hseq := sequenced_of_trail (htrail.mono And.left)
    have hapart : s.Apart := htrail.preserves (P := Apart)
      (fun h hstep => (hstep.1.apart_iff h).mpr hstep) (apart_new _)
    exact (hseq.exclusive_iff hk).mpr hapart
  · intro trace s es t htrail he hstep
    have hseq := sequenced_of_trail htrail
    rw [(hstep.sequenced hseq).exclusive_iff hk]
    exact hstep.apart_iff ((hseq.exclusive_iff hk).mp he)

/-- The ring of one slot and one message. -/
theorem exclusive_iff_careful_cancelMessage :
    (∀ trace s, Trail (Careful [cancelMessage]) (Pipeline.new (2 ^ 0)) trace s →
      s.Exclusive) ∧
    ∀ trace s es t, Trail (Step [cancelMessage]) (Pipeline.new (2 ^ 0)) trace s →
      s.Exclusive → Step [cancelMessage] s es t →
        (t.Exclusive ↔ Careful [cancelMessage] s es t) :=
  exclusive_iff_careful (by decide) _

/-- The unmarshaller and the replicator both pass their barriers for the first
message. -/
theorem not_exclusive_cancelMessage :
    ∃ s, Trail (Step [cancelMessage]) (Pipeline.new (2 ^ 0)) [] s ∧ ¬ s.Exclusive := by
  have h0 : Trail (Step [cancelMessage]) (Pipeline.new (2 ^ 0)) [] _ := Trail.refl _
  have h1 := h0.tail (Step.claim rfl (by decide) (by decide))
  have h2 := h1.tail (Step.writeSlot rfl rfl)
  have h3 := h2.tail (Step.storeCursor rfl)
  have h4 := h3.tail (Step.publish rfl)
  have h5 := h4.tail (Step.begin .unmarshaller rfl)
  have h6 := h5.tail (Step.look .unmarshaller rfl rfl)
  have h7 := h6.tail (Step.pass .unmarshaller rfl rfl (by decide))
  have h8 := h7.tail (Step.begin .replicator rfl)
  have h9 := h8.tail (Step.look .replicator rfl rfl)
  have h10 := h9.tail (Step.pass .replicator rfl rfl (by decide))
  refine ⟨_, h10, fun he => ?_⟩
  exact he (.consumer .replicator) (.consumer .unmarshaller) 0 0 (by decide) (Or.inr rfl)
    (Or.inl rfl) (Or.inl rfl) rfl

end Exclusion

end Pipeline
end LmaxEngine
