import LmaxEngine.Lib.Queues
import LmaxEngine.Model.Book

/-!
# The bitmap as a set of ticks

A bitmap represents a set of ticks when its lowest level has their bits and
each upper level summarises the one below.  Setting and clearing a bit add and
remove a tick, whatever was set before, and the two scans find the least and
the greatest tick.
-/

namespace LmaxEngine
namespace BitMap

open Checked Bits

/-- The single word of the top level as an array of words. -/
def topWords (x : BitVec 64) : Nat → BitVec 64 :=
  Function.update (fun _ => 0) 0 x

structure Represents (m : BitMap) (S : Nat → Prop) : Prop where
  bits : ∀ n, n < numTicks → (bit m.l2 n = true ↔ S n)
  middle : Summary (64 * 64) m.l1 m.l2
  top : Summary 64 (topWords m.l0) m.l1

section Indices

variable {n : Nat}

theorem shift_six :
    n >>> 6 = n / 64 :=
  Nat.shiftRight_eq_div_pow n 6

theorem and_sixty_three :
    n &&& 63 = n % 64 :=
  Nat.and_two_pow_sub_one_eq_mod n 6

theorem shift_twelve :
    n >>> 12 = n / 64 / 64 := by
  rw [Nat.shiftRight_eq_div_pow, Nat.div_div_eq_div_mul]

/-- The index of the word of the lowest level that holds the bit of a tick. -/
theorem word_index :
    n / 64 / 64 * 64 + n / 64 % 64 = n / 64 := by
  omega

theorem div_lt
    (h : n < numTicks) :
    n / 64 < 64 * 64 ∧ n / 64 / 64 < 64 := by
  rw [numTicks_eq] at h
  omega

/-- Three parts of six bits are put together by shifts. -/
theorem join_parts
    {i j k : Nat}
    (hj : j < 64) (hk : k < 64) :
    i <<< 12 ||| j <<< 6 ||| k = (i * 64 + j) * 64 + k := by
  have h1 : i <<< 12 ||| j <<< 6 = (i * 64 + j) <<< 6 := by
    have : j <<< 6 < 2 ^ 12 := by
      rw [Nat.shiftLeft_eq]
      omega
    rw [← Nat.shiftLeft_add_eq_or_of_lt this, Nat.shiftLeft_eq, Nat.shiftLeft_eq,
      Nat.shiftLeft_eq]
    omega
  rw [h1, ← Nat.shiftLeft_add_eq_or_of_lt (by omega : k < 2 ^ 6), Nat.shiftLeft_eq]

end Indices

section TopWord

variable {x y : BitVec 64} {i : Nat}

theorem update_topWords :
    Function.update (topWords x) 0 y = topWords y := by
  rw [topWords, Function.update_idem, topWords]

theorem topWords_zero :
    topWords x 0 = x := by
  simp [topWords]

theorem isLeastBit_topWords
    (h : x ≠ 0) :
    IsLeastBit 1 (topWords x) (trailingZeros x) := by
  obtain ⟨hlt, hone, hmin⟩ := trailingZeros_spec h
  refine ⟨by omega, ?_, fun m hm hbit => ?_⟩
  · have := bit_mul_add (topWords x) (i := 0) hlt
    rw [topWords_zero, hone] at this
    simpa using this
  · have := bit_mul_add (topWords x) (i := 0) (b := m) (by omega)
    rw [topWords_zero] at this
    simp only [Nat.zero_mul, Nat.zero_add] at this
    by_contra hlt'
    rw [this, hmin m (by omega)] at hbit
    exact Bool.noConfusion hbit

theorem isGreatestBit_topWords
    (h : x ≠ 0) :
    IsGreatestBit 1 (topWords x) (63 - leadingZeros x) := by
  obtain ⟨hlt, hone, hmax⟩ := leadingZeros_spec h
  refine ⟨by omega, ?_, fun m hm hbit => ?_⟩
  · have := bit_mul_add (topWords x) (i := 0) (b := 63 - leadingZeros x) (by omega)
    rw [topWords_zero] at this
    simp only [Nat.zero_mul, Nat.zero_add] at this
    rw [this]
    exact hone
  · have := bit_mul_add (topWords x) (i := 0) (b := m) (by omega)
    rw [topWords_zero] at this
    simp only [Nat.zero_mul, Nat.zero_add] at this
    by_contra hlt'
    rw [this, hmax m (by omega)] at hbit
    exact Bool.noConfusion hbit

/-- An empty top word says that every middle word is zero. -/
theorem Represents.empty_of_top
    {m : BitMap} {S : Nat → Prop}
    (h : m.Represents S) (h0 : m.l0 = 0)
    {n : Nat} (hn : n < numTicks) :
    ¬ S n := by
  intro hs
  obtain ⟨h1, h2⟩ := div_lt hn
  have hword := word_ne_zero_of_bit ((h.bits n hn).mpr hs)
  have hmid := word_ne_zero_of_bit ((h.middle _ h1).mpr hword)
  have htop := (h.top _ h2).mpr hmid
  have := word_ne_zero_of_bit htop
  rw [Nat.div_eq_of_lt h2, topWords_zero] at this
  exact this h0

end TopWord

variable {m : BitMap} {S : Nat → Prop} {n : Nat}

theorem represents_new :
    new.Represents (fun _ => False) where
  bits n _ := by simp [new, bit]
  middle i _ := by simp [new, bit]
  top i _ := by
    have : topWords (0#64) = fun _ => 0 := by
      funext j
      by_cases hj : j = 0 <;> simp [topWords, hj]
    simp [new, bit, this]

/-- Setting a bit adds the tick. -/
theorem Represents.setBit
    (h : m.Represents S) (hn : n < numTicks) :
    ∃ m', m.setBit n = .ok m' ∧ m'.Represents (fun t => S t ∨ t = n) := by
  obtain ⟨h1, h2⟩ := div_lt hn
  have heq : m.setBit n = .ok
      { l0 := m.l0 ||| 1#64 <<< (n / 64 / 64)
        l1 := Function.update m.l1 (n / 64 / 64)
          (m.l1 (n / 64 / 64) ||| 1#64 <<< (n / 64 % 64))
        l2 := Function.update m.l2 (n / 64)
          (m.l2 (n / 64) ||| 1#64 <<< (n % 64)) } := by
    unfold BitMap.setBit
    simp only [shift_twelve, shift_six, and_sixty_three, word_index,
      cell_eq h1, setCell_eq h1, cell_eq h2, setCell_eq h2, ok_bind]
  have hor : ∀ (x : BitVec 64) (i : Nat), x ||| 1#64 <<< (i % 64) ≠ 0 := by
    intro x i
    have hi : i % 64 < 64 := Nat.mod_lt i (by omega)
    refine ne_zero_iff_exists_getLsbD.mpr ⟨i % 64, hi, ?_⟩
    rw [BitVec.getLsbD_or, getLsbD_one_shiftLeft hi]
    simp
  refine ⟨_, heq, ⟨fun t ht => ?_, ?_, ?_⟩⟩
  · dsimp only
    rw [bit_update_or m.l2 t (by omega)]
    simp [h.bits t ht]
  · exact summary_update_or h.middle (by omega) (hor _ _)
  · have := summary_update_or h.top (by omega) (hor (m.l1 (n / 64 / 64)) (n / 64))
    rwa [Nat.div_eq_of_lt h2, Nat.mod_eq_of_lt h2, topWords_zero, update_topWords] at this

theorem ne_zero_of_and_ne_zero
    {x y : BitVec 64}
    (h : x &&& y ≠ 0) :
    x ≠ 0 := by
  rintro rfl
  simp at h

/-- Clearing a bit removes the tick. -/
theorem Represents.clearBit
    (h : m.Represents S) (hn : n < numTicks) :
    ∃ m', m.clearBit n = .ok m' ∧ m'.Represents (fun t => S t ∧ t ≠ n) := by
  obtain ⟨h1, h2⟩ := div_lt hn
  set word := m.l2 (n / 64) &&& ~~~(1#64 <<< (n % 64)) with hword
  set upper := m.l1 (n / 64 / 64) &&& ~~~(1#64 <<< (n / 64 % 64)) with hupper
  have hbits : ∀ t, t < numTicks →
      (bit (Function.update m.l2 (n / 64) word) t = true ↔ S t ∧ t ≠ n) := by
    intro t ht
    rw [hword, bit_update_and_not m.l2 t (by omega)]
    simp [h.bits t ht]
  have hunfold : m.clearBit n = .ok
      { l0 :=
          if (if word = 0 then Function.update m.l1 (n / 64 / 64) upper else m.l1)
              (n / 64 / 64) = 0
          then m.l0 &&& ~~~(1#64 <<< (n / 64 / 64)) else m.l0
        l1 := if word = 0 then Function.update m.l1 (n / 64 / 64) upper else m.l1
        l2 := Function.update m.l2 (n / 64) word } := by
    unfold BitMap.clearBit
    simp only [shift_twelve, shift_six, and_sixty_three, word_index,
      cell_eq h1, setCell_eq h1, cell_eq h2, ok_bind, Function.update_self,
      ← hword, ← hupper, setCell_eq h2]
    by_cases hw : word = 0
    · simp only [hw, if_true, Function.update_self]
    · simp only [hw, if_false]
  have hmiddle := summary_update_and_not h.middle (i := n / 64) (by omega)
  have htop := summary_update_and_not h.top (i := n / 64 / 64) (by omega)
  rw [← hupper] at hmiddle
  rw [Nat.div_eq_of_lt h2, Nat.mod_eq_of_lt h2, topWords_zero, update_topWords] at htop
  by_cases hw : word = 0
  · simp only [hw, if_true, Function.update_self] at hunfold hbits
    by_cases hu : upper = 0
    · simp only [hu, if_true] at hunfold hmiddle
      exact ⟨_, hunfold, hbits, hmiddle, htop⟩
    · simp only [hu, if_false] at hunfold
      refine ⟨_, hunfold, hbits, hmiddle, ?_⟩
      exact summary_update_ne_zero h.top (ne_zero_of_and_ne_zero hu) hu
  · have hl2 : m.l2 (n / 64) ≠ 0 := ne_zero_of_and_ne_zero hw
    have hl1 := word_ne_zero_of_bit ((h.middle _ h1).mpr hl2)
    simp only [hw, if_false, hl1] at hunfold
    exact ⟨_, hunfold, hbits, summary_update_ne_zero h.middle hl2 hw, h.top⟩

/-- The scan for the best ask finds the least tick. -/
theorem Represents.bestAsk
    (h : m.Represents S) :
    ∃ o, m.bestAsk = .ok o ∧
      ∀ t, o = some t ↔
        t < numTicks ∧ S t ∧ ∀ t', t' < numTicks → S t' → t ≤ t' := by
  by_cases h0 : m.l0 = 0
  · refine ⟨none, by simp [BitMap.bestAsk, h0], fun t => ?_⟩
    constructor
    · intro he
      exact absurd he (by simp)
    · rintro ⟨ht, hs, -⟩
      exact absurd hs (h.empty_of_top h0 ht)
  · have ht0 := isLeastBit_topWords h0
    have ht1 := isLeastBit_of_summary h.top ht0
    have ht2 := isLeastBit_of_summary h.middle ht1
    set i0 := trailingZeros m.l0 with hi0'
    set i1 := trailingZeros (m.l1 i0) with hi1'
    set i2 := trailingZeros (m.l2 (i0 * 64 + i1)) with hi2'
    have hi0 : i0 < 64 := by have := ht0.1; omega
    have hword1 := (h.top i0 hi0).mp ht0.2.1
    have hi1 : i1 < 64 := (trailingZeros_spec hword1).1
    have hword2 := (h.middle (i0 * 64 + i1) (by omega)).mp ht1.2.1
    have hi2 : i2 < 64 := (trailingZeros_spec hword2).1
    have hlt : (i0 * 64 + i1) * 64 + i2 < numTicks := by
      rw [numTicks_eq]
      omega
    refine ⟨some ((i0 * 64 + i1) * 64 + i2), ?_, fun t => ?_⟩
    · unfold BitMap.bestAsk
      simp only [h0, if_false, ← hi0', cell_eq hi0, ok_bind, ← hi1',
        cell_eq (show i0 * 64 + i1 < 64 * 64 by omega), ← hi2']
      rw [join_parts hi1 hi2]
    · rw [Option.some.injEq]
      constructor
      · rintro rfl
        refine ⟨hlt, (h.bits _ hlt).mp ht2.2.1, fun t' ht' hs => ?_⟩
        exact ht2.2.2 t' (by rwa [numTicks_eq] at ht') ((h.bits t' ht').mpr hs)
      · rintro ⟨ht, hs, hmin⟩
        refine Nat.le_antisymm ?_ (hmin _ hlt ((h.bits _ hlt).mp ht2.2.1))
        exact ht2.2.2 t (by rwa [numTicks_eq] at ht) ((h.bits t ht).mpr hs)

/-- The scan for the best bid finds the greatest tick, and never meets a zero
word. -/
theorem Represents.bestBid
    (β : Build) (h : m.Represents S) :
    ∃ o, m.bestBid β = .ok o ∧
      ∀ t, o = some t ↔
        t < numTicks ∧ S t ∧ ∀ t', t' < numTicks → S t' → t' ≤ t := by
  by_cases h0 : m.l0 = 0
  · refine ⟨none, by simp [BitMap.bestBid, h0], fun t => ?_⟩
    constructor
    · intro he
      exact absurd he (by simp)
    · rintro ⟨ht, hs, -⟩
      exact absurd hs (h.empty_of_top h0 ht)
  · have ht0 := isGreatestBit_topWords h0
    have ht1 := isGreatestBit_of_summary h.top ht0
    have ht2 := isGreatestBit_of_summary h.middle ht1
    have hsub : ∀ x : BitVec 64, x ≠ 0 →
        subUsize β 63 (leadingZeros x) = .ok (63 - leadingZeros x) := by
      intro x hx
      have := (leadingZeros_spec hx).1
      exact subUsize_eq β (by omega)
    set i0 := 63 - leadingZeros m.l0 with hi0'
    set i1 := 63 - leadingZeros (m.l1 i0) with hi1'
    set i2 := 63 - leadingZeros (m.l2 (i0 * 64 + i1)) with hi2'
    have hi0 : i0 < 64 := by omega
    have hi1 : i1 < 64 := by omega
    have hi2 : i2 < 64 := by omega
    have hword1 := (h.top i0 hi0).mp ht0.2.1
    have hword2 := (h.middle (i0 * 64 + i1) (by omega)).mp ht1.2.1
    have hlt : (i0 * 64 + i1) * 64 + i2 < numTicks := by
      rw [numTicks_eq]
      omega
    refine ⟨some ((i0 * 64 + i1) * 64 + i2), ?_, fun t => ?_⟩
    · unfold BitMap.bestBid
      simp only [h0, if_false, hsub _ h0, ← hi0', cell_eq hi0, ok_bind,
        hsub _ hword1, ← hi1', cell_eq (show i0 * 64 + i1 < 64 * 64 by omega),
        hsub _ hword2, ← hi2']
      rw [join_parts hi1 hi2]
    · rw [Option.some.injEq]
      constructor
      · rintro rfl
        refine ⟨hlt, (h.bits _ hlt).mp ht2.2.1, fun t' ht' hs => ?_⟩
        exact ht2.2.2 t' (by rwa [numTicks_eq] at ht') ((h.bits t' ht').mpr hs)
      · rintro ⟨ht, hs, hmax⟩
        refine Nat.le_antisymm (hmax _ hlt ((h.bits _ hlt).mp ht2.2.1)) ?_
        exact ht2.2.2 t (by rwa [numTicks_eq] at ht) ((h.bits t ht).mpr hs)

end BitMap
end LmaxEngine
