import Mathlib.Algebra.GroupWithZero.Nat
import LmaxEngine.Results.Delivery
import LmaxEngine.Results.OutputRing

/-!
# Slots that hold nothing yet

The slots of a new ring are not initialised, and a ring that is dropped drops the
slots of the numbers up to its cursor.  On the input ring these are all slots that
hold something, but for the one that the producer has just written.  On the output
ring nobody stores the cursor, so nothing is dropped, and in the first round the
publisher takes slots for initialised that are not.
-/

namespace LmaxEngine

open Sequencing Transition

namespace RingBuffer

/-- The slots that hold something are those of the numbers up to `top`. -/
def Written {α : Type} (r : RingBuffer α) (top : Int) : Prop :=
  ∀ i : Nat, (r.buffer i).isSome = true ↔ (i : Int) ≤ top ∧ i < r.capacity

section Writes

variable {α : Type} {r : RingBuffer α} {k : Nat} {top seq : Int} {slot : α}

theorem index_eq_mod
    (hmask : r.mask = 2 ^ k - 1) (hpos : 0 ≤ seq) (hlt : seq < 2 ^ 63) :
    r.index seq = seq.toNat % 2 ^ k := by
  rw [index_eq hmask]
  dsimp only
  rw [Nat.and_two_pow_sub_one_eq_mod, Int.emod_eq_of_lt hpos (by omega)]

theorem isSome_write
    (i : Nat) :
    ((r.write seq slot).buffer i).isSome = true ↔ (r.buffer i).isSome = true ∨ i = r.index seq := by
  by_cases hi : i = r.index seq
  · simp [write, hi]
  · simp [write, hi]

theorem Written.write
    (h : r.Written top) (hmask : r.mask = 2 ^ k - 1) (hseq : top + 1 = seq)
    (hpos : 0 ≤ seq) (hlt : seq < 2 ^ 63) :
    (r.write seq slot).Written seq := by
  intro i
  have hcapacity : r.capacity = 2 ^ k := by
    rw [capacity, hmask]
    exact Nat.sub_add_cancel (Nat.two_pow_pos k)
  have hsame : (r.write seq slot).capacity = r.capacity := rfl
  rw [isSome_write, h i, index_eq_mod hmask hpos hlt, hsame, hcapacity]
  have hmod : seq.toNat % 2 ^ k < 2 ^ k := Nat.mod_lt _ (Nat.two_pow_pos k)
  have hle : seq.toNat % 2 ^ k ≤ seq.toNat := Nat.mod_le _ _
  by_cases hfirst : seq.toNat < 2 ^ k
  · have hself : seq.toNat % 2 ^ k = seq.toNat := Nat.mod_eq_of_lt hfirst
    omega
  · omega

theorem Written.rewrite
    (h : r.Written top) (hmask : r.mask = 2 ^ k - 1) (hle : seq ≤ top)
    (hpos : 0 ≤ seq) (hlt : seq < 2 ^ 63) :
    (r.write seq slot).Written top := by
  intro i
  have hcapacity : r.capacity = 2 ^ k := by
    rw [capacity, hmask]
    exact Nat.sub_add_cancel (Nat.two_pow_pos k)
  have hsame : (r.write seq slot).capacity = r.capacity := rfl
  rw [isSome_write, h i, index_eq_mod hmask hpos hlt, hsame, hcapacity]
  have hmod : seq.toNat % 2 ^ k < 2 ^ k := Nat.mod_lt _ (Nat.two_pow_pos k)
  have hle' : seq.toNat % 2 ^ k ≤ seq.toNat := Nat.mod_le _ _
  omega

theorem mem_dropped
    (hlt : r.cursor < 2 ^ 63) {i : Nat} :
    i ∈ r.dropped ↔ (i : Int) ≤ r.cursor ∧ i < r.capacity := by
  unfold dropped
  split_ifs with hneg
  · simp only [List.not_mem_nil, false_iff, not_and]
    omega
  · rw [Int.emod_eq_of_lt (by omega) (by omega), List.mem_range]
    omega

end Writes

end RingBuffer

namespace Pipeline

section Slots

variable {k : Nat} {messages : List Message} {s t : Pipeline}
variable {es trace : List (Option (Command × UInt64))}

/-- The slots that hold something, and the cursor. -/
structure Initialised (s : Pipeline) : Prop where
  written : s.ring.Written s.top
  cursor : s.ring.cursor =
    match s.producer with
    | .marked seq => seq
    | _ => s.sequence .producer

theorem Initialised.enter
    {c : Consumer} {phase : ConsumerPhase} (h : s.Initialised) :
    (s.enter c phase).Initialised :=
  ⟨h.written, h.cursor⟩

theorem Step.initialised
    (hstep : Step messages s es t) (hseq : Sequenced k messages s)
    (hlen : messages.length < 2 ^ 63) (h : s.Initialised) :
    t.Initialised := by
  have hwritten := h.written
  have hcursor := h.cursor
  cases hstep with
  | spin => exact h
  | claim hphase =>
      simp only [top, hphase] at hwritten hcursor
      exact ⟨hwritten, hcursor⟩
  | @writeSlot seq message hphase hmessage =>
      have hp := hseq.producer
      have hbound := hseq.bound
      have hstart := (hseq.start).trans (hseq.le_producer .businessLogic)
      rw [hphase] at hp
      simp only [top, hphase] at hwritten hcursor
      exact ⟨hwritten.write hseq.mask hp.1 (by have := hp.1; omega)
        (by have := hp.2.1; omega), hcursor⟩
  | storeCursor hphase =>
      simp only [top, hphase] at hwritten
      exact ⟨hwritten, rfl⟩
  | @publish seq hphase =>
      simp only [top, hphase] at hwritten hcursor
      refine ⟨?_, ?_⟩
      · simpa [top, store] using hwritten
      · simpa [store] using hcursor
  | begin c => exact h.enter
  | look c => exact h.enter
  | pass c => exact h.enter
  | retry c => exact h.enter
  | parse => exact h.enter
  | @writeCommand next command slot hphase hslot =>
      have haccess : (s.consumer .unmarshaller).Accesses next := Or.inr ⟨command, hphase⟩
      obtain ⟨hown, hdeps⟩ := hseq.accesses haccess
      obtain ⟨hlo, hhi⟩ := hseq.in_window hown hdeps
      have htop := hseq.top_bounds
      exact ⟨hwritten.rewrite hseq.mask hhi (by omega) (by omega), hcursor⟩
  | inspect c => exact h.enter
  | handle => exact h.enter
  | @advance next c hphase =>
      refine ⟨?_, ?_⟩
      · simpa [top, enter, store] using hwritten
      · simpa [enter, store] using hcursor

theorem initialised_new
    (k : Nat) :
    (Pipeline.new (2 ^ k)).Initialised where
  written i := by
    have htop : (Pipeline.new (2 ^ k)).top = -1 := rfl
    have hnone : (Pipeline.new (2 ^ k)).ring.buffer i = none := rfl
    rw [hnone, htop]
    simp only [Option.isSome_none, Bool.false_eq_true, false_iff, not_and]
    omega
  cursor := rfl

/-- **What dropping the input ring drops**, wherever the threads have got to: slots that
hold something, each once, and all of them but the one that the producer has just
written if it is in its first round and has not stored the cursor. -/
theorem input_drops
    (hlen : messages.length < 2 ^ 63)
    (htrail : Trail (Step messages) (Pipeline.new (2 ^ k)) trace s) :
    s.ring.dropped.Nodup ∧
      (∀ i, i ∈ s.ring.dropped → ∃ slot, s.ring.buffer i = some slot) ∧
      ∀ i, ((∃ slot, s.ring.buffer i = some slot) ∧ i ∉ s.ring.dropped) ↔
        s.producer = .written i ∧ i < s.ring.capacity := by
  have hinv := htrail.preserves (P := fun s => Sequenced k messages s ∧ s.Initialised)
    (fun h hstep => ⟨hstep.sequenced h.1, hstep.initialised h.1 hlen h.2⟩)
    ⟨sequenced_new k messages, initialised_new k⟩
  obtain ⟨hseq, hwritten, hcursor⟩ := hinv
  have htop := hseq.top_bounds
  have hp := hseq.producer
  have hbehind : s.ring.cursor ≤ s.top ∧ (s.ring.cursor < s.top →
      ∃ seq, s.producer = .written seq ∧ s.top = seq ∧ s.ring.cursor + 1 = seq) := by
    rw [hcursor]
    cases hphase : s.producer with
    | written seq =>
        rw [hphase] at hp
        have hown := hp.1
        simp only [top, hphase]
        exact ⟨by omega, fun _ => ⟨seq, rfl, rfl, hown⟩⟩
    | _ => simp only [top, hphase, le_refl, lt_irrefl, false_implies, and_self]
  have hdropped : ∀ i, i ∈ s.ring.dropped ↔ (i : Int) ≤ s.ring.cursor ∧ i < s.ring.capacity :=
    fun i => RingBuffer.mem_dropped (by omega)
  refine ⟨?_, fun i hi => ?_, fun i => ?_⟩
  · unfold RingBuffer.dropped
    split_ifs
    · exact List.nodup_nil
    · exact List.nodup_range
  · rw [hdropped] at hi
    exact Option.isSome_iff_exists.mp ((hwritten i).mpr ⟨by omega, hi.2⟩)
  · rw [← Option.isSome_iff_exists, hwritten i, hdropped]
    constructor
    · rintro ⟨⟨hle, hlt⟩, hnot⟩
      obtain ⟨seq, hphase, hseq', hown⟩ := hbehind.2 (by omega)
      obtain rfl : seq = i := by omega
      exact ⟨hphase, hlt⟩
    · rintro ⟨hphase, hlt⟩
      rw [hphase] at hp
      have hown := hp.1
      simp only [hphase] at hcursor
      have hself : s.top = i := by simp only [top, hphase]
      omega

/-- The message that has just been written would not be dropped. -/
theorem input_drops_cancelMessage :
    ∃ s, Trail (Step [cancelMessage]) (Pipeline.new (2 ^ 0)) [] s ∧
      (∃ slot, s.ring.buffer 0 = some slot) ∧ 0 ∉ s.ring.dropped := by
  have h0 : Trail (Step [cancelMessage]) (Pipeline.new (2 ^ 0)) [] _ := Trail.refl _
  have h1 := h0.tail (Step.claim rfl (by decide) (by decide))
  have h2 := h1.tail (Step.writeSlot rfl rfl)
  exact ⟨_, h2, ((input_drops (by decide) h2).2.2 0).mpr ⟨rfl, by decide⟩⟩

end Slots

end Pipeline

namespace Outlet

section Slots

variable {k : Nat} {publications : List Publication} {s t : Outlet}
variable {es trace : List Reception}

/-- The slots that hold something, and the cursor. -/
structure Initialised (s : Outlet) : Prop where
  written : s.ring.Written s.top
  cursor : s.ring.cursor = -1

theorem Step.initialised
    (hstep : Step publications s es t) (hseq : Sequenced k publications s)
    (hlen : publications.length < 2 ^ 63) (h : s.Initialised) :
    t.Initialised := by
  have hwritten := h.written
  have hcursor := h.cursor
  have hstart := hseq.start.trans hseq.order
  have htop := hseq.top_bounds
  have hp := hseq.publisher
  have hcalls := hseq.calls
  cases hstep with
  | call hphase =>
      simp only [top, hphase] at hwritten
      exact ⟨hwritten, hcursor⟩
  | spin => exact h
  | claim hphase =>
      simp only [top, hphase] at hwritten
      exact ⟨hwritten, hcursor⟩
  | writeEvent fresh hphase =>
      rw [hphase] at hp
      obtain ⟨hnext, hlt, -⟩ := hp
      simp only [top, hphase] at hwritten
      exact ⟨hwritten.write hseq.mask hnext.symm (by omega) (by omega), hcursor⟩
  | writeTimestamp hphase =>
      rw [hphase] at hp
      obtain ⟨hnext, hlt, -⟩ := hp
      simp only [top, hphase] at hwritten
      exact ⟨hwritten.rewrite hseq.mask (le_refl _) (by omega) (by omega), hcursor⟩
  | publish hphase =>
      simp only [top, hphase] at hwritten
      exact ⟨hwritten, hcursor⟩
  | begin => exact ⟨hwritten, hcursor⟩
  | look => exact ⟨hwritten, hcursor⟩
  | pass => exact ⟨hwritten, hcursor⟩
  | retry => exact ⟨hwritten, hcursor⟩
  | readEvent => exact ⟨hwritten, hcursor⟩
  | readTimestamp => exact ⟨hwritten, hcursor⟩
  | advance => exact ⟨hwritten, hcursor⟩

theorem initialised_new
    (k : Nat) :
    (Outlet.new (2 ^ k)).Initialised where
  written i := by
    have htop : (Outlet.new (2 ^ k)).top = -1 := rfl
    have hnone : (Outlet.new (2 ^ k)).ring.buffer i = none := rfl
    rw [hnone, htop]
    simp only [Option.isSome_none, Bool.false_eq_true, false_iff, not_and]
    omega
  cursor := rfl

/-- **The output ring is never dropped, and not initialised in its first round.**  The
cursor stays where it was, so `drop` drops nothing; and the slot that the publisher takes
for initialised is not exactly in the first round. -/
theorem output_uninitialised
    (hlen : publications.length < 2 ^ 63)
    (htrail : Trail (Step publications) (Outlet.new (2 ^ k)) trace s) :
    s.ring.dropped = [] ∧
      ∀ next, s.publisher = .claimed next → (s.ring.slotRef next = none ↔ next < 2 ^ k) := by
  have hinv := htrail.preserves (P := fun s => Sequenced k publications s ∧ s.Initialised)
    (fun h hstep => ⟨hstep.sequenced h.1, hstep.initialised h.1 hlen h.2⟩)
    ⟨sequenced_new k publications, initialised_new k⟩
  obtain ⟨hseq, hwritten, hcursor⟩ := hinv
  refine ⟨by rw [RingBuffer.dropped, hcursor]; rfl, fun next hphase => ?_⟩
  have hp := hseq.publisher
  have hstart := hseq.start.trans hseq.order
  have hcalls := hseq.calls
  rw [hphase] at hp
  obtain ⟨hnext, hlt, -⟩ := hp
  have htop : s.top = s.sequence := by simp only [top, hphase]
  have hcapacity : s.ring.capacity = 2 ^ k := by
    rw [RingBuffer.capacity, hseq.mask]
    exact Nat.sub_add_cancel (Nat.two_pow_pos k)
  have hindex := RingBuffer.index_eq_mod hseq.mask (show 0 ≤ next by omega) (by omega)
  have hnone : s.ring.slotRef next = none ↔
      ¬ (s.ring.buffer (s.ring.index next)).isSome = true := by
    simp [RingBuffer.slotRef]
  have hcast : ((2 ^ k : Nat) : Int) = 2 ^ k := by push_cast; rfl
  rw [hnone, hwritten, hindex, htop, hcapacity]
  have hmod : next.toNat % 2 ^ k < 2 ^ k := Nat.mod_lt _ (Nat.two_pow_pos k)
  have hle : next.toNat % 2 ^ k ≤ next.toNat := Nat.mod_le _ _
  by_cases hfirst : next.toNat < 2 ^ k
  · have hself : next.toNat % 2 ^ k = next.toNat := Nat.mod_eq_of_lt hfirst
    omega
  · omega

/-- The first slot that is claimed, on a ring of one slot. -/
theorem output_uninitialised_rejection :
    ∃ s, Trail (Step [rejection]) (Outlet.new (2 ^ 0)) [] s ∧
      s.publisher = .claimed 0 ∧ s.ring.slotRef 0 = none := by
  have h0 : Trail (Step [rejection]) (Outlet.new (2 ^ 0)) [] _ := Trail.refl _
  have h1 := h0.tail (Step.call rfl (by decide))
  have h2 := h1.tail (Step.claim rfl (by decide))
  exact ⟨_, h2, rfl, ((output_uninitialised (by decide) h2).2 0 rfl).mpr (by decide)⟩

end Slots

end Outlet

end LmaxEngine
