import Mathlib.Logic.Function.Basic
import Mathlib.Tactic.Common

/-!
# Sets of indices as arrays of words

An array of `w`-bit words is read as the set of the indices of its one bits:
bit `n % w` of word `n / w` is bit `n` of the array.  A *summary* of an array
is a second array whose bit `i` says whether word `i` of the first is not zero.

The number of trailing zeros of a nonzero word is its least one bit and the
number of leading zeros gives its greatest.  If word `i` is the first nonzero
word of an array, the least one bit of the array is the least one bit of word
`i`; so scans compose along summaries.
-/

namespace LmaxEngine
namespace Bits

section Words

variable {w : Nat}

/-- The number of zero bits below the least one bit, or `w` for a zero word. -/
def trailingZeros (x : BitVec w) : Nat :=
  ((List.range w).find? (fun i => x.getLsbD i)).getD w

/-- The number of zero bits above the greatest one bit, or `w` for a zero word. -/
def leadingZeros (x : BitVec w) : Nat :=
  ((List.range w).find? (fun i => x.getMsbD i)).getD w

/-- The first index below `n` with a property, and nothing before it. -/
theorem find?_range_getD
    {n : Nat} {p : Nat → Bool}
    (h : ∃ i, i < n ∧ p i = true) :
    ∃ k, ((List.range n).find? p).getD n = k ∧
      k < n ∧ p k = true ∧ ∀ j, j < k → p j = false := by
  cases hf : (List.range n).find? p with
  | none =>
      obtain ⟨i, hi, hp⟩ := h
      have := List.find?_eq_none.mp hf i (List.mem_range.mpr hi)
      exact absurd hp this
  | some k =>
      rw [List.find?_range_eq_some] at hf
      obtain ⟨hp, hk, hlt⟩ := hf
      exact ⟨k, rfl, List.mem_range.mp hk, hp, by simpa using hlt⟩

theorem ne_zero_iff_exists_getLsbD
    {x : BitVec w} :
    x ≠ 0 ↔ ∃ i, i < w ∧ x.getLsbD i = true := by
  constructor
  · intro h
    by_contra hn
    push Not at hn
    refine h (BitVec.eq_of_getLsbD_eq fun i hi => ?_)
    simpa using hn i hi
  · rintro ⟨i, -, hi⟩ rfl
    simp at hi

/-- Trailing zeros of a nonzero word count up to its least one bit. -/
theorem trailingZeros_spec
    {x : BitVec w}
    (h : x ≠ 0) :
    trailingZeros x < w ∧ x.getLsbD (trailingZeros x) = true ∧
      ∀ j, j < trailingZeros x → x.getLsbD j = false := by
  obtain ⟨k, hk, hlt, hp, hmin⟩ :=
    find?_range_getD (ne_zero_iff_exists_getLsbD.mp h)
  unfold trailingZeros
  rw [hk]
  exact ⟨hlt, hp, hmin⟩

/-- Leading zeros of a nonzero word count down to its greatest one bit. -/
theorem leadingZeros_spec
    {x : BitVec w}
    (h : x ≠ 0) :
    leadingZeros x < w ∧ x.getLsbD (w - 1 - leadingZeros x) = true ∧
      ∀ j, w - 1 - leadingZeros x < j → x.getLsbD j = false := by
  obtain ⟨i, hi, hx⟩ := ne_zero_iff_exists_getLsbD.mp h
  have hmsb : ∃ k, k < w ∧ x.getMsbD k = true := by
    refine ⟨w - 1 - i, by omega, ?_⟩
    rw [BitVec.getMsbD_eq_getLsbD]
    have : w - 1 - (w - 1 - i) = i := by omega
    simp [this, hx]
    omega
  obtain ⟨k, hk, hlt, hp, hmin⟩ := find?_range_getD hmsb
  unfold leadingZeros
  rw [hk]
  refine ⟨hlt, ?_, fun j hj => ?_⟩
  · rw [BitVec.getMsbD_eq_getLsbD] at hp
    simpa [hlt] using hp
  · by_cases hjw : j < w
    · have := hmin (w - 1 - j) (by omega)
      rw [BitVec.getMsbD_eq_getLsbD] at this
      have e : w - 1 - (w - 1 - j) = j := by omega
      simp [e] at this
      exact this (by omega)
    · exact BitVec.getLsbD_of_ge x j (by omega)

end Words

section Arrays

variable {w : Nat}

/-- Bit `n` of an array of words. -/
def bit (words : Nat → BitVec w) (n : Nat) : Bool :=
  (words (n / w)).getLsbD (n % w)

/-- `upper` has a one bit for each of the first `k` words of `lower` that is
not zero. -/
def Summary (k : Nat) (upper lower : Nat → BitVec w) : Prop :=
  ∀ i, i < k → (bit upper i = true ↔ lower i ≠ 0)

/-- The least one bit of an array of `k` words. -/
def IsLeastBit (k : Nat) (words : Nat → BitVec w) (n : Nat) : Prop :=
  n < k * w ∧ bit words n = true ∧
    ∀ m, m < k * w → bit words m = true → n ≤ m

/-- The greatest one bit of an array of `k` words. -/
def IsGreatestBit (k : Nat) (words : Nat → BitVec w) (n : Nat) : Prop :=
  n < k * w ∧ bit words n = true ∧
    ∀ m, m < k * w → bit words m = true → m ≤ n

theorem bit_mul_add
    (words : Nat → BitVec w) {i b : Nat}
    (hb : b < w) :
    bit words (i * w + b) = (words i).getLsbD b := by
  have hw : 0 < w := by omega
  have hdiv : (i * w + b) / w = i := by
    rw [Nat.mul_comm, Nat.mul_add_div hw, Nat.div_eq_of_lt hb, Nat.add_zero]
  have hmod : (i * w + b) % w = b := by
    rw [Nat.mul_comm, Nat.mul_add_mod, Nat.mod_eq_of_lt hb]
  rw [bit, hdiv, hmod]

theorem word_ne_zero_of_bit
    {words : Nat → BitVec w} {n : Nat}
    (h : bit words n = true) :
    words (n / w) ≠ 0 := by
  intro h0
  simp [bit, h0] at h

/-- A word with one bit set. -/
theorem getLsbD_one_shiftLeft
    {n m : Nat}
    (hn : n < w) :
    (1#w <<< n).getLsbD m = decide (m = n) := by
  rw [BitVec.getLsbD_shiftLeft, BitVec.getLsbD_one]
  by_cases h : m = n
  · subst h
    simp [hn]
    omega
  · by_cases hlt : m < n
    · simp [hlt, h]
    · have : m - n ≠ 0 := by omega
      simp [this, h]

/-- Setting a bit of a word adds its index to the array. -/
theorem bit_update_or
    (words : Nat → BitVec w) {n : Nat} (m : Nat)
    (hw : 0 < w) :
    bit (Function.update words (n / w)
        (words (n / w) ||| 1#w <<< (n % w))) m =
      (bit words m || decide (m = n)) := by
  have hn : n % w < w := Nat.mod_lt n hw
  unfold bit
  by_cases hdiv : m / w = n / w
  · rw [hdiv, Function.update_self, BitVec.getLsbD_or,
      getLsbD_one_shiftLeft hn]
    congr 2
    rw [eq_iff_iff]
    constructor
    · intro h
      rw [← Nat.div_add_mod m w, ← Nat.div_add_mod n w, hdiv, h]
    · rintro rfl
      rfl
  · rw [Function.update_of_ne hdiv]
    have : m ≠ n := fun h => hdiv (by rw [h])
    simp [this]

/-- Clearing a bit of a word removes its index from the array. -/
theorem bit_update_and_not
    (words : Nat → BitVec w) {n : Nat} (m : Nat)
    (hw : 0 < w) :
    bit (Function.update words (n / w)
        (words (n / w) &&& ~~~(1#w <<< (n % w)))) m =
      (bit words m && !decide (m = n)) := by
  have hn : n % w < w := Nat.mod_lt n hw
  have hm : m % w < w := Nat.mod_lt m hw
  unfold bit
  by_cases hdiv : m / w = n / w
  · rw [hdiv, Function.update_self, BitVec.getLsbD_and,
      BitVec.getLsbD_not, getLsbD_one_shiftLeft hn]
    have hiff : m % w = n % w ↔ m = n := by
      constructor
      · intro h
        rw [← Nat.div_add_mod m w, ← Nat.div_add_mod n w, hdiv, h]
      · rintro rfl
        rfl
    simp [hm, hiff]
  · rw [Function.update_of_ne hdiv]
    have : m ≠ n := fun h => hdiv (by rw [h])
    simp [this]

/-- The least one bit of the first nonzero word is the least of the array. -/
theorem isLeastBit_of_summary
    {k : Nat} {upper lower : Nat → BitVec w} {i : Nat}
    (hs : Summary (k * w) upper lower)
    (hi : IsLeastBit k upper i) :
    IsLeastBit (k * w) lower (i * w + trailingZeros (lower i)) := by
  obtain ⟨hik, hbit, hmin⟩ := hi
  obtain ⟨hlt, hone, hfirst⟩ := trailingZeros_spec ((hs i hik).mp hbit)
  refine ⟨?_, by rwa [bit_mul_add lower hlt], fun m hm hbm => ?_⟩
  · calc i * w + trailingZeros (lower i) < i * w + w := by omega
      _ = (i + 1) * w := by rw [Nat.succ_mul]
      _ ≤ k * w * w := Nat.mul_le_mul_right w hik
  · have hw : 0 < w := by omega
    have hmk : m / w < k * w := Nat.div_lt_of_lt_mul (by rwa [Nat.mul_comm])
    have hle : i ≤ m / w := hmin _ hmk ((hs _ hmk).mpr (word_ne_zero_of_bit hbm))
    have hm' : m / w * w + m % w = m := by
      rw [Nat.mul_comm]
      exact Nat.div_add_mod m w
    rcases Nat.lt_or_eq_of_le hle with hlt' | rfl
    · have : (i + 1) * w ≤ m / w * w := Nat.mul_le_mul_right w hlt'
      rw [Nat.succ_mul] at this
      omega
    · by_contra hgt
      have := hfirst (m % w) (by omega)
      rw [bit, this] at hbm
      exact Bool.noConfusion hbm

/-- The greatest one bit of the last nonzero word is the greatest of the
array. -/
theorem isGreatestBit_of_summary
    {k : Nat} {upper lower : Nat → BitVec w} {i : Nat}
    (hs : Summary (k * w) upper lower)
    (hi : IsGreatestBit k upper i) :
    IsGreatestBit (k * w) lower (i * w + (w - 1 - leadingZeros (lower i))) := by
  obtain ⟨hik, hbit, hmax⟩ := hi
  obtain ⟨hlt, hone, hlast⟩ := leadingZeros_spec ((hs i hik).mp hbit)
  refine ⟨?_, by rwa [bit_mul_add lower (by omega)], fun m hm hbm => ?_⟩
  · calc i * w + (w - 1 - leadingZeros (lower i)) < i * w + w := by omega
      _ = (i + 1) * w := by rw [Nat.succ_mul]
      _ ≤ k * w * w := Nat.mul_le_mul_right w hik
  · have hw : 0 < w := by omega
    have hmk : m / w < k * w := Nat.div_lt_of_lt_mul (by rwa [Nat.mul_comm])
    have hle : m / w ≤ i := hmax _ hmk ((hs _ hmk).mpr (word_ne_zero_of_bit hbm))
    have hmw : m % w < w := Nat.mod_lt m hw
    have hm' : m / w * w + m % w = m := by
      rw [Nat.mul_comm]
      exact Nat.div_add_mod m w
    rcases Nat.lt_or_eq_of_le hle with hlt' | rfl
    · have : (m / w + 1) * w ≤ i * w := Nat.mul_le_mul_right w hlt'
      rw [Nat.succ_mul] at this
      omega
    · by_contra hgt
      have := hlast (m % w) (by omega)
      rw [bit, this] at hbm
      exact Bool.noConfusion hbm

/-- A summary stays one when a word gains a bit and its own bit is set. -/
theorem summary_update_or
    {k : Nat} {upper lower : Nat → BitVec w} {i : Nat} {x : BitVec w}
    (hs : Summary k upper lower) (hw : 0 < w)
    (hx : lower i ||| x ≠ 0) :
    Summary k
      (Function.update upper (i / w) (upper (i / w) ||| 1#w <<< (i % w)))
      (Function.update lower i (lower i ||| x)) := by
  intro j hj
  rw [bit_update_or upper j hw]
  by_cases h : j = i
  · subst h
    simpa using hx
  · rw [Function.update_of_ne h]
    simpa [h] using hs j hj

/-- A summary stays one when a word becomes zero and its own bit is cleared. -/
theorem summary_update_and_not
    {k : Nat} {upper lower : Nat → BitVec w} {i : Nat}
    (hs : Summary k upper lower) (hw : 0 < w) :
    Summary k
      (Function.update upper (i / w) (upper (i / w) &&& ~~~(1#w <<< (i % w))))
      (Function.update lower i 0) := by
  intro j hj
  rw [bit_update_and_not upper j hw]
  by_cases h : j = i
  · subst h
    simp
  · rw [Function.update_of_ne h]
    simpa [h] using hs j hj

/-- A summary does not change while its words stay zero or stay nonzero. -/
theorem summary_update_ne_zero
    {k : Nat} {upper lower : Nat → BitVec w} {i : Nat} {x : BitVec w}
    (hs : Summary k upper lower)
    (hl : lower i ≠ 0) (hx : x ≠ 0) :
    Summary k upper (Function.update lower i x) := by
  intro j hj
  by_cases h : j = i
  · subst h
    rw [Function.update_self]
    have := hs j hj
    tauto
  · rw [Function.update_of_ne h]
    exact hs j hj

end Arrays

end Bits
end LmaxEngine
