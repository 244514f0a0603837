import LmaxEngine.Refinement.BitMap
import Mathlib.Data.Finset.Max

/-!
# The bitmap over runs of calls

The bits of a bitmap are set and cleared in any order, also bits that are set
already and bits that are not set.  After every run of such calls on the empty
bitmap the lowest level has the bits of the set of ticks that the calls leave, the
upper levels summarise the ones below them, and the two scans find the least and
the greatest tick of the set.
-/

namespace LmaxEngine

open Checked Bits

/-- A call that changes a bitmap. -/
inductive BitCall where
  | set (n : Nat)
  | clear (n : Nat)
deriving DecidableEq, Repr

def BitCall.tick : BitCall → Nat
  | .set n => n
  | .clear n => n

/-- What a call does to a set of ticks. -/
def BitCall.onTicks (S : Finset Nat) : BitCall → Finset Nat
  | .set n => insert n S
  | .clear n => S.erase n

/-- The set of ticks that calls leave of a set. -/
def ticksAfter (S : Finset Nat) (calls : List BitCall) : Finset Nat :=
  calls.foldl BitCall.onTicks S

namespace BitMap

def call (m : BitMap) : BitCall → Run BitMap
  | .set n => m.setBit n
  | .clear n => m.clearBit n

/-- The bitmap after a list of calls. -/
def calls (m : BitMap) : List BitCall → Run BitMap
  | [] => .ok m
  | c :: cs => do
      let m ← m.call c
      calls m cs

section Runs

variable {m : BitMap} {S : Finset Nat} {c : BitCall} {cs : List BitCall}

/-- A call on the bitmap is the call on the set. -/
theorem Represents.call
    (h : m.Represents (· ∈ S)) (hc : c.tick < numTicks) :
    ∃ m', m.call c = .ok m' ∧ m'.Represents (· ∈ c.onTicks S) := by
  cases c with
  | set n =>
      obtain ⟨m', hset, h'⟩ := h.setBit hc
      refine ⟨m', hset, { h' with bits := fun t ht => (h'.bits t ht).trans ?_ }⟩
      rw [BitCall.onTicks, Finset.mem_insert, or_comm]
      exact Iff.rfl
  | clear n =>
      obtain ⟨m', hclear, h'⟩ := h.clearBit hc
      refine ⟨m', hclear, { h' with bits := fun t ht => (h'.bits t ht).trans ?_ }⟩
      rw [BitCall.onTicks, Finset.mem_erase, and_comm]
      exact Iff.rfl

/-- Calls on the bitmap are the calls on the set. -/
theorem Represents.calls
    (h : m.Represents (· ∈ S)) (hcs : ∀ c, c ∈ cs → c.tick < numTicks) :
    ∃ m', m.calls cs = .ok m' ∧ m'.Represents (· ∈ ticksAfter S cs) := by
  induction cs generalizing m S with
  | nil => exact ⟨m, rfl, h⟩
  | cons c cs ih =>
      obtain ⟨m₁, hcall, h₁⟩ := h.call (hcs c List.mem_cons_self)
      obtain ⟨m', hcalls, h'⟩ := ih h₁ fun d hd => hcs d (List.mem_cons_of_mem c hd)
      refine ⟨m', ?_, h'⟩
      rw [BitMap.calls, hcall, ok_bind, hcalls]

/-- Calls leave no tick but those of the set and their own. -/
theorem lt_of_mem_ticksAfter
    {t : Nat}
    (hS : ∀ t, t ∈ S → t < numTicks) (hcs : ∀ c, c ∈ cs → c.tick < numTicks)
    (ht : t ∈ ticksAfter S cs) :
    t < numTicks := by
  induction cs generalizing S with
  | nil => exact hS t ht
  | cons c cs ih =>
      refine ih (S := c.onTicks S) (fun n hn => ?_)
        (fun d hd => hcs d (List.mem_cons_of_mem c hd)) ht
      cases c with
      | set k =>
          rcases Finset.mem_insert.mp hn with rfl | hn
          · exact hcs (.set n) List.mem_cons_self
          · exact hS n hn
      | clear k => exact hS n (Finset.mem_of_mem_erase hn)

/-- The word of the top level summarises the middle one. -/
theorem Represents.top_iff
    {T : Nat → Prop} {i : Nat}
    (h : m.Represents T) (hi : i < 64) :
    m.l0.getLsbD i = true ↔ m.l1 i ≠ 0 := by
  have htop := h.top i hi
  rwa [bit, Nat.div_eq_of_lt hi, Nat.mod_eq_of_lt hi, topWords_zero] at htop

/-- A scan that finds the extreme tick of a nonempty set finds nothing only in the
empty one. -/
theorem none_iff_empty
    {o : Option Nat} {P : Nat → Prop}
    (ho : ∀ t, o = some t ↔ P t) (hP : ∀ t, P t → t ∈ S) (hex : S.Nonempty → ∃ t, P t) :
    o = none ↔ S = ∅ := by
  constructor
  · rintro rfl
    refine Finset.not_nonempty_iff_eq_empty.mp fun hne => ?_
    obtain ⟨t, ht⟩ := hex hne
    exact absurd ((ho t).mpr ht) (by simp)
  · rintro rfl
    refine Option.eq_none_iff_forall_ne_some.mpr fun t ht => ?_
    exact absurd (hP t ((ho t).mp ht)) (Finset.notMem_empty t)

/-- **The bitmap is a set of ticks with its least and greatest element.**  After
every list of calls with ticks of the book, made on the empty bitmap, each level
summarises the one below it, and the best ask and the best bid are the least and
the greatest of the ticks that the calls leave; there is none exactly when they
leave no tick. -/
theorem calls_ticks
    (β : Build) (cs : List BitCall) (hcs : ∀ c, c ∈ cs → c.tick < 64 * 64 * 64) :
    ∃ m, new.calls cs = .ok m ∧
      (∀ t, t < 64 * 64 * 64 → (bit m.l2 t = true ↔ t ∈ ticksAfter ∅ cs)) ∧
      (∀ i, i < 64 * 64 → (bit m.l1 i = true ↔ m.l2 i ≠ 0)) ∧
      (∀ i, i < 64 → (m.l0.getLsbD i = true ↔ m.l1 i ≠ 0)) ∧
      (∀ t, m.bestAsk = .ok (some t) ↔ IsLeast (ticksAfter ∅ cs : Set Nat) t) ∧
      (m.bestAsk = .ok none ↔ ticksAfter ∅ cs = ∅) ∧
      (∀ t, m.bestBid β = .ok (some t) ↔ IsGreatest (ticksAfter ∅ cs : Set Nat) t) ∧
      (m.bestBid β = .ok none ↔ ticksAfter ∅ cs = ∅) := by
  rw [← numTicks_eq] at hcs ⊢
  have hnew : new.Represents (· ∈ (∅ : Finset Nat)) := by
    refine { represents_new with bits := fun t ht => (represents_new.bits t ht).trans ?_ }
    simp
  obtain ⟨m, hrun, h⟩ := hnew.calls hcs
  have hlt : ∀ t, t ∈ ticksAfter ∅ cs → t < numTicks :=
    fun t => lt_of_mem_ticksAfter (by simp) hcs
  obtain ⟨ask, hask, hleast⟩ := h.bestAsk
  obtain ⟨bid, hbid, hgreatest⟩ := h.bestBid β
  have hask' : ∀ t, ask = some t ↔ IsLeast (ticksAfter ∅ cs : Set Nat) t := by
    intro t
    rw [hleast]
    exact ⟨fun ⟨_, hs, hmin⟩ => ⟨hs, fun t' ht' => hmin t' (hlt t' ht') ht'⟩,
      fun ⟨hs, hmin⟩ => ⟨hlt t hs, hs, fun t' _ ht' => hmin ht'⟩⟩
  have hbid' : ∀ t, bid = some t ↔ IsGreatest (ticksAfter ∅ cs : Set Nat) t := by
    intro t
    rw [hgreatest]
    exact ⟨fun ⟨_, hs, hmax⟩ => ⟨hs, fun t' ht' => hmax t' (hlt t' ht') ht'⟩,
      fun ⟨hs, hmax⟩ => ⟨hlt t hs, hs, fun t' _ ht' => hmax ht'⟩⟩
  refine ⟨m, hrun, h.bits, h.middle, fun i => h.top_iff, ?_⟩
  rw [hask, hbid]
  simp only [Except.ok.injEq]
  refine ⟨hask', ?_, hbid', ?_⟩
  · exact none_iff_empty hask' (fun t ht => ht.1) fun hne => ⟨_, (ticksAfter ∅ cs).isLeast_min' hne⟩
  · exact none_iff_empty hbid' (fun t ht => ht.1) fun hne =>
      ⟨_, (ticksAfter ∅ cs).isGreatest_max' hne⟩

/-- Three ticks are set, one twice, and two are cleared, one of which is not set. -/
def someCalls : List BitCall :=
  [.set 70, .set 9, .set 70, .clear 9, .set 262143, .clear 5]

theorem calls_ticks_someCalls :
    ∃ m, new.calls someCalls = .ok m ∧ m.bestAsk = .ok (some 70) ∧
      m.bestBid Build.debug = .ok (some 262143) := by
  obtain ⟨m, hrun, -, -, -, hask, -, hbid, -⟩ :=
    calls_ticks Build.debug someCalls (by decide)
  have hticks : ticksAfter ∅ someCalls = {262143, 70} := by decide
  rw [hticks] at hask hbid
  exact ⟨m, hrun, (hask 70).mpr ⟨by simp, by simp⟩, (hbid 262143).mpr ⟨by simp, by simp⟩⟩

end Runs

end BitMap
end LmaxEngine
