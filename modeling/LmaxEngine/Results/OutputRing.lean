import LmaxEngine.Lib.Transition
import LmaxEngine.Model.OutputRing

/-!
# Delivery through the output ring

The publisher is never more than the capacity ahead of the consumer, although it
compares with a value of the gate that may be old.  So what the consumer reads is
what was published, in order, whole and once.
-/

namespace LmaxEngine
namespace Outlet

open Sequencing Transition

/-- What the sequences say about the phase of the publisher. -/
def PublisherOk (size calls limit sequence gate : Int) : PublisherPhase → Prop
  | .idle => True
  | .gating next => next = sequence + 1 ∧ calls < limit
  | .claimed next => next = sequence + 1 ∧ calls < limit ∧ next - gate ≤ size
  | .stamping next => next = sequence + 1 ∧ calls < limit ∧ next - gate ≤ size
  | .storing next => next = sequence + 1 ∧ calls < limit ∧ next - gate ≤ size

/-- What the sequences say about the phase of the consumer. -/
def ReaderOk (sequence gate : Int) : ReaderPhase → Prop
  | .idle => True
  | .waiting next scan => next = gate + 1 ∧ scan.Covers dependencies (fun _ => sequence)
  | .reading next => next = gate + 1 ∧ next ≤ sequence
  | .timing next _ => next = gate + 1 ∧ next ≤ sequence
  | .storing next => next = gate + 1 ∧ next ≤ sequence

/-- The invariant of the sequences and the phases. -/
structure Sequenced (k : Nat) (publications : List Publication) (s : Outlet) : Prop where
  mask : s.ring.mask = 2 ^ k - 1
  calls : s.sequence + 1 = s.calls
  bound : s.calls ≤ publications.length
  start : -1 ≤ s.gate
  order : s.gate ≤ s.sequence
  room : s.sequence ≤ s.gate + 2 ^ k
  publisher : PublisherOk (2 ^ k) s.calls publications.length s.sequence s.gate s.publisher
  reader : ReaderOk s.sequence s.gate s.reader

section Sequences

variable {k : Nat} {publications : List Publication} {s t : Outlet}

theorem PublisherOk.mono
    {size calls limit sequence gate gate' : Int} {phase : PublisherPhase}
    (h : PublisherOk size calls limit sequence gate phase) (hle : gate ≤ gate') :
    PublisherOk size calls limit sequence gate' phase := by
  cases phase with
  | idle => trivial
  | gating next => exact h
  | claimed next => exact ⟨h.1, h.2.1, by have := h.2.2; omega⟩
  | stamping next => exact ⟨h.1, h.2.1, by have := h.2.2; omega⟩
  | storing next => exact ⟨h.1, h.2.1, by have := h.2.2; omega⟩

theorem ReaderOk.mono
    {sequence sequence' gate : Int} {phase : ReaderPhase}
    (h : ReaderOk sequence gate phase) (hle : sequence ≤ sequence') :
    ReaderOk sequence' gate phase := by
  cases phase with
  | idle => trivial
  | waiting next scan => exact ⟨h.1, h.2.mono fun _ => hle⟩
  | reading next => exact ⟨h.1, h.2.trans hle⟩
  | timing next event => exact ⟨h.1, h.2.trans hle⟩
  | storing next => exact ⟨h.1, h.2.trans hle⟩

/-- **Every step keeps the sequences in order.** -/
theorem Step.sequenced
    {es : List Reception}
    (hstep : Step publications s es t) (h : Sequenced k publications s) :
    Sequenced k publications t := by
  cases hstep with
  | call hphase hmore =>
      exact { h with publisher := ⟨rfl, by exact_mod_cast hmore⟩ }
  | spin => exact h
  | claim hphase hgate =>
      have hp := h.publisher
      rw [hphase] at hp
      rw [RingBuffer.capacity_eq h.mask] at hgate
      exact { h with publisher := ⟨hp.1, hp.2, hgate⟩ }
  | writeEvent fresh hphase hcall =>
      have hp := h.publisher
      rw [hphase] at hp
      exact { h with mask := h.mask, publisher := hp }
  | writeTimestamp hphase hcall hslot =>
      have hp := h.publisher
      rw [hphase] at hp
      exact { h with mask := h.mask, publisher := hp }
  | publish hphase =>
      have hp := h.publisher
      rw [hphase] at hp
      obtain ⟨hnext, hlt, hgate⟩ := hp
      have hcalls := h.calls
      have horder := h.order
      exact
        { mask := h.mask
          calls := by push_cast; omega
          bound := by dsimp only; omega
          start := h.start
          order := by dsimp only; omega
          room := by dsimp only; omega
          publisher := trivial
          reader := h.reader.mono (by dsimp only; omega) }
  | begin hphase => exact { h with reader := ⟨rfl, Scan.covers_start _ _⟩ }
  | @look next scan d rest hphase hrest =>
      have hr := h.reader
      rw [hphase] at hr
      have hread := hr.2.read hrest
      exact { h with reader := ⟨hr.1, hread⟩ }
  | pass hphase hrest hmin =>
      have hr := h.reader
      rw [hphase] at hr
      exact { h with reader := ⟨hr.1, hr.2.le hrest hmin () (by simp [dependencies])⟩ }
  | retry hphase hrest hmin =>
      have hr := h.reader
      rw [hphase] at hr
      exact { h with reader := ⟨hr.1, Scan.covers_start _ _⟩ }
  | readEvent hphase hslot =>
      have hr := h.reader
      rw [hphase] at hr
      exact { h with reader := hr }
  | readTimestamp hphase hslot =>
      have hr := h.reader
      rw [hphase] at hr
      exact { h with reader := hr }
  | advance hphase =>
      have hr := h.reader
      rw [hphase] at hr
      obtain ⟨hnext, hle⟩ := hr
      have hstart := h.start
      have hroom := h.room
      exact
        { mask := h.mask
          calls := h.calls
          bound := h.bound
          start := by dsimp only; omega
          order := hle
          room := by dsimp only; omega
          publisher := h.publisher.mono (by dsimp only; omega)
          reader := trivial }

theorem sequenced_new
    (k : Nat) (publications : List Publication) :
    Sequenced k publications (Outlet.new (2 ^ k)) where
  mask := rfl
  calls := rfl
  bound := Nat.zero_le _
  start := le_refl _
  order := le_refl _
  room := by
    have : (0 : Int) < 2 ^ k := Int.pow_pos (by decide)
    change (-1 : Int) ≤ -1 + 2 ^ k
    omega
  publisher := trivial
  reader := trivial

end Sequences

/-- The last number whose slot is begun. -/
def top (s : Outlet) : Int :=
  match s.publisher with
  | .stamping next => next
  | .storing next => next
  | _ => s.sequence

/-- The last number whose slot is complete. -/
def stamped (s : Outlet) : Int :=
  match s.publisher with
  | .storing next => next
  | _ => s.sequence

/-- The last number that the consumer is done with. -/
def done (s : Outlet) : Int :=
  match s.reader with
  | .storing next => next
  | _ => s.gate

/-- What the slot of a number holds: the event that was published, and its
timestamp once the slot is complete. -/
def SlotOk (publications : List Publication) (stamped n : Int) (slot : OutputSlot) : Prop :=
  ∃ event timestampNs, publications[n.toNat]? = some (event, timestampNs) ∧
    slot.event = some event ∧ (n ≤ stamped → slot.timestampNs = timestampNs)

/-- What is to be read of a publication. -/
def reception (publication : Publication) : Reception :=
  (some publication.1, publication.2)

/-- The invariant of the slots and of what has been read. -/
structure Delivers
    (k : Nat) (publications : List Publication) (trace : List Reception) (s : Outlet) :
    Prop where
  sequenced : Sequenced k publications s
  cells : Holds s.ring.index s.ring.buffer (max 0 (s.top + 1 - 2 ^ k)) s.top
    (SlotOk publications s.stamped)
  timing : ∀ {next event}, s.reader = .timing next event →
    ∃ publication, publications[next.toNat]? = some publication ∧ event = some publication.1
  read : trace = (publications.take (s.done + 1).toNat).map reception

section Slots

variable {k : Nat} {publications : List Publication} {s t : Outlet}
variable {es trace : List Reception}

/-- The numbers in use fit into the ring. -/
theorem Sequenced.top_bounds
    (h : Sequenced k publications s) :
    s.sequence ≤ s.stamped ∧ s.stamped ≤ s.top ∧ s.top < publications.length ∧
      s.top ≤ s.gate + 2 ^ k := by
  have hp := h.publisher
  have hcalls := h.calls
  have hbound := h.bound
  have hroom := h.room
  unfold top stamped
  cases hphase : s.publisher with
  | idle =>
      dsimp only
      omega
  | gating next =>
      dsimp only
      omega
  | claimed next =>
      dsimp only
      omega
  | stamping next =>
      rw [hphase] at hp
      dsimp only [PublisherOk] at hp ⊢
      omega
  | storing next =>
      rw [hphase] at hp
      dsimp only [PublisherOk] at hp ⊢
      omega

/-- The slot of a number that the consumer reads or is still to read. -/
theorem Delivers.slot
    {n : Int}
    (h : Delivers k publications trace s) (hown : s.gate + 1 ≤ n) (hle : n ≤ s.sequence) :
    ∃ slot event timestampNs, s.ring.slotRef n = some slot ∧
      publications[n.toNat]? = some (event, timestampNs) ∧
      slot.event = some event ∧ slot.timestampNs = timestampNs := by
  obtain ⟨hstamped, htop, -, hgate⟩ := h.sequenced.top_bounds
  have hstart := h.sequenced.start
  obtain ⟨slot, hslot, event, timestampNs, hcall, hevent, htime⟩ :=
    h.cells n (by omega) (by omega)
  exact ⟨slot, event, timestampNs, hslot, hcall, hevent, htime (by omega)⟩

/-- The publisher writes its event over a slot that the consumer is done with. -/
theorem Delivers.writeEvent
    {next : Int} {event : OutputEvent} {timestampNs : UInt64} {slot : OutputSlot}
    (h : Delivers k publications trace s) (hlen : publications.length < 2 ^ 63)
    (hphase : s.publisher = .claimed next)
    (hcall : publications[s.calls]? = some (event, timestampNs)) :
    Delivers k publications trace
      { s with
        ring := s.ring.write next { slot with event := some event }
        publisher := .stamping next } := by
  have hseq := h.sequenced
  have hp := hseq.publisher
  rw [hphase] at hp
  obtain ⟨hnext, hlt, hgate⟩ := hp
  have hcalls := hseq.calls
  have hstart := hseq.start
  have horder := hseq.order
  have hpos : (0 : Int) < 2 ^ k := Int.pow_pos (by decide)
  have htop : s.top = s.sequence := by simp only [top, hphase]
  have hstamped : s.stamped = s.sequence := by simp only [stamped, hphase]
  have hcall' : publications[next.toNat]? = some (event, timestampNs) := by
    rw [← hcall]
    congr 1
    omega
  have hcells := h.cells
  rw [htop, hstamped] at hcells
  have hwrite := hcells.append (a := { slot with event := some event })
    (RingBuffer.spread_index hseq.mask) hpos (by omega) (by omega)
    (by
      rw [← hnext]
      exact ⟨event, timestampNs, hcall', rfl, fun hle => by omega⟩)
  rw [← hnext] at hwrite
  exact
    { sequenced := { hseq with mask := hseq.mask, publisher := ⟨hnext, hlt, hgate⟩ }
      cells := hwrite
      timing := h.timing
      read := h.read }

/-- The publisher completes its slot. -/
theorem Delivers.writeTimestamp
    {next : Int} {event : OutputEvent} {timestampNs : UInt64} {slot : OutputSlot}
    (h : Delivers k publications trace s) (hlen : publications.length < 2 ^ 63)
    (hphase : s.publisher = .stamping next)
    (hcall : publications[s.calls]? = some (event, timestampNs))
    (hslot : s.ring.slotRef next = some slot) :
    Delivers k publications trace
      { s with
        ring := s.ring.write next { slot with timestampNs := timestampNs }
        publisher := .storing next } := by
  have hseq := h.sequenced
  have hp := hseq.publisher
  rw [hphase] at hp
  obtain ⟨hnext, hlt, hgate⟩ := hp
  have hcalls := hseq.calls
  have hstart := hseq.start
  have horder := hseq.order
  have hpos : (0 : Int) < 2 ^ k := Int.pow_pos (by decide)
  have htop : s.top = next := by simp only [top, hphase]
  have hstamped : s.stamped = s.sequence := by simp only [stamped, hphase]
  have hcells := h.cells
  rw [htop, hstamped] at hcells
  obtain ⟨slot', hslot', event', timestampNs', hcall', hevent, -⟩ :=
    hcells next (by omega) (le_refl _)
  obtain rfl : slot = slot' := Option.some.inj (hslot.symm.trans hslot')
  have hindex : next.toNat = s.calls := by omega
  rw [hindex, hcall, Option.some.injEq, Prod.mk.injEq] at hcall'
  obtain ⟨rfl, rfl⟩ := hcall'
  have hwrite : Holds s.ring.index
      (Function.update s.ring.buffer (s.ring.index next)
        (some { slot with timestampNs := timestampNs }))
      (max 0 (next + 1 - 2 ^ k)) next (SlotOk publications next) := by
    refine Holds.rewrite (RingBuffer.spread_index hseq.mask) hcells (by omega) (by omega)
      (le_refl _) (by omega) (by omega) ?_ ?_
    · rintro m b hne ⟨event', timestampNs', hcall', hevent', htime⟩
      refine ⟨event', timestampNs', hcall', hevent', fun hle => htime (by omega)⟩
    · exact ⟨event, timestampNs, by rw [hindex, hcall], hevent, fun _ => rfl⟩
  exact
    { sequenced := { hseq with mask := hseq.mask, publisher := ⟨hnext, hlt, hgate⟩ }
      cells := hwrite
      timing := h.timing
      read := h.read }

/-- A step of the publisher that only goes on, or of the consumer that reads
nothing to the end. -/
theorem Delivers.congr
    (h : Delivers k publications trace s) (hseq : Sequenced k publications t)
    (hring : t.ring = s.ring) (htop : t.top = s.top) (hstamped : t.stamped = s.stamped)
    (hdone : t.done = s.done)
    (htiming : ∀ {next event}, t.reader = .timing next event →
      ∃ publication, publications[next.toNat]? = some publication ∧
        event = some publication.1) :
    Delivers k publications (trace ++ []) t where
  sequenced := hseq
  cells := by
    rw [hring, htop, hstamped]
    exact h.cells
  timing := htiming
  read := by
    rw [List.append_nil, hdone]
    exact h.read

/-- **Every step keeps the deliveries in order.** -/
theorem Step.delivers
    (hstep : Step publications s es t) (hlen : publications.length < 2 ^ 63)
    (h : Delivers k publications trace s) :
    Delivers k publications (trace ++ es) t := by
  have hseq := hstep.sequenced h.sequenced
  cases hstep with
  | call hphase hmore =>
      exact h.congr hseq rfl (by simp only [top, hphase]) (by simp only [stamped, hphase]) rfl
        h.timing
  | spin => rwa [List.append_nil]
  | claim hphase hgate =>
      exact h.congr hseq rfl (by simp only [top, hphase]) (by simp only [stamped, hphase]) rfl
        h.timing
  | writeEvent fresh hphase hcall =>
      rw [List.append_nil]
      exact h.writeEvent hlen hphase hcall
  | writeTimestamp hphase hcall hslot =>
      rw [List.append_nil]
      exact h.writeTimestamp hlen hphase hcall hslot
  | publish hphase =>
      exact h.congr hseq rfl (by simp only [top, hphase]) (by simp only [stamped, hphase]) rfl
        h.timing
  | begin hphase =>
      exact h.congr hseq rfl rfl rfl (by simp only [done, hphase]) (fun ht => by simp at ht)
  | look hphase hrest =>
      exact h.congr hseq rfl rfl rfl (by simp only [done, hphase]) (fun ht => by simp at ht)
  | pass hphase hrest hmin =>
      exact h.congr hseq rfl rfl rfl (by simp only [done, hphase]) (fun ht => by simp at ht)
  | retry hphase hrest hmin =>
      exact h.congr hseq rfl rfl rfl (by simp only [done, hphase]) (fun ht => by simp at ht)
  | readEvent hphase hslot =>
      have hr := h.sequenced.reader
      rw [hphase] at hr
      obtain ⟨slot', event, timestampNs, hslot', hcall, hevent, -⟩ := h.slot hr.1.ge hr.2
      rw [hslot, Option.some.injEq] at hslot'
      subst hslot'
      refine h.congr hseq rfl rfl rfl (by simp only [done, hphase]) fun {next event'} ht => ?_
      obtain ⟨rfl, rfl⟩ := ReaderPhase.timing.inj ht
      exact ⟨_, hcall, hevent⟩
  | @readTimestamp next event slot hphase hslot =>
      have hr := h.sequenced.reader
      rw [hphase] at hr
      obtain ⟨hnext, hle⟩ := hr
      obtain ⟨slot', event', timestampNs, hslot', hcall, -, htime⟩ := h.slot hnext.ge hle
      rw [hslot, Option.some.injEq] at hslot'
      subst hslot'
      obtain ⟨publication, hcall', rfl⟩ := h.timing hphase
      rw [hcall, Option.some.injEq] at hcall'
      subst hcall'
      have hstart := h.sequenced.start
      have hdone : s.done + 1 = next := by
        simp only [done, hphase]
        omega
      have hcount : (next + 1).toNat = next.toNat + 1 := by omega
      refine ⟨hseq, h.cells, fun ht => by simp at ht, ?_⟩
      change trace ++ _ = (publications.take (next + 1).toNat).map reception
      rw [h.read, hdone, hcount, List.take_add_one, hcall, List.map_append, htime]
      rfl
  | advance hphase =>
      exact h.congr hseq rfl rfl rfl (by simp only [done, hphase]) (fun ht => by simp at ht)

theorem delivers_new
    (k : Nat) (publications : List Publication) :
    Delivers k publications [] (Outlet.new (2 ^ k)) where
  sequenced := sequenced_new k publications
  cells n hn hn' := by
    have : (Outlet.new (2 ^ k)).top = -1 := rfl
    omega
  timing ht := by simp [Outlet.new] at ht
  read := rfl

theorem Sequenced.done_le
    (h : Sequenced k publications s) :
    s.done ≤ s.sequence := by
  have hr := h.reader
  have horder := h.order
  unfold done
  cases hphase : s.reader with
  | idle => exact horder
  | waiting next scan => exact horder
  | reading next => exact horder
  | timing next event => exact horder
  | storing next =>
      rw [hphase] at hr
      exact hr.2

/-- What the publisher waits for is read. -/
theorem Sequenced.gate_le_done
    (h : Sequenced k publications s) :
    s.gate ≤ s.done := by
  have hr := h.reader
  unfold done
  cases hphase : s.reader with
  | storing next =>
      rw [hphase] at hr
      have hnext := hr.1
      dsimp only
      omega
  | _ => exact le_refl _

/-- **Delivery through the output ring.**  What the consumer has read is what was
published, in order and from the start: events and timestamps, each once and none
before it was published.  While it reads a slot the slot holds the publication,
whole, and the publisher is at most the capacity ahead. -/
theorem output_delivered
    (hlen : publications.length < 2 ^ 63)
    (htrail : Trail (Step publications) (Outlet.new (2 ^ k)) trace s) :
    (trace <+: publications.map reception ∧ (trace.length : Int) ≤ s.sequence + 1) ∧
    (∀ n, s.reader.Accesses n → ∃ slot event timestampNs, s.ring.slotRef n = some slot ∧
      publications[n.toNat]? = some (event, timestampNs) ∧
      slot.event = some event ∧ slot.timestampNs = timestampNs) ∧
    s.sequence ≤ s.gate + 2 ^ k := by
  have h := htrail.invariant (P := Delivers k publications)
    (fun h hstep => hstep.delivers hlen h) [] (delivers_new k publications)
  rw [List.nil_append] at h
  have hseq := h.sequenced
  have hr := hseq.reader
  refine ⟨⟨?_, ?_⟩, fun n hn => ?_, hseq.room⟩
  · rw [h.read]
    exact (List.take_prefix _ _).map _
  · have hstart := hseq.start
    have horder := hseq.order
    have hdone := hseq.done_le
    rw [h.read, List.length_map, List.length_take]
    omega
  · rcases hn with hphase | ⟨event, hphase⟩
    · rw [hphase] at hr
      exact h.slot hr.1.ge hr.2
    · rw [hphase] at hr
      exact h.slot hr.1.ge hr.2

/-- A rejected cancellation, published at time 7. -/
def rejection : Publication :=
  (.cancelRejected 3 1, 7)

/-- The steps that bring an event to the consumer, on a ring of one slot. -/
theorem exists_trail_rejection :
    ∃ trace s, Trail (Step [rejection]) (Outlet.new (2 ^ 0)) trace s ∧
      trace = [reception rejection] := by
  have h0 : Trail (Step [rejection]) (Outlet.new (2 ^ 0)) [] _ := Trail.refl _
  have h1 := h0.tail (Step.call rfl (by decide))
  have h2 := h1.tail (Step.claim rfl (by decide))
  have h3 := h2.tail (Step.writeEvent { event := none, timestampNs := 0 } rfl rfl)
  have h4 := h3.tail (Step.writeTimestamp rfl rfl rfl)
  have h5 := h4.tail (Step.publish rfl)
  have h6 := h5.tail (Step.begin rfl)
  have h7 := h6.tail (Step.look rfl rfl)
  have h8 := h7.tail (Step.pass rfl rfl (by decide))
  have h9 := h8.tail (Step.readEvent rfl rfl)
  have h10 := h9.tail (Step.readTimestamp rfl rfl)
  exact ⟨_, _, h10, rfl⟩

/-- The event has been delivered. -/
theorem output_delivered_rejection :
    ∃ trace s, Trail (Step [rejection]) (Outlet.new (2 ^ 0)) trace s ∧
      trace = [reception rejection] ∧ trace <+: [rejection].map reception := by
  obtain ⟨trace, s, htrail, htrace⟩ := exists_trail_rejection
  exact ⟨trace, s, htrail, htrace, (output_delivered (by decide) htrail).1.1⟩

end Slots

end Outlet
end LmaxEngine
