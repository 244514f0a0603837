import Mathlib.Algebra.GroupWithZero.Nat
import Mathlib.Algebra.Order.Group.Int
import Mathlib.Data.Int.Order.Basic
import Mathlib.Logic.Function.Basic
import Mathlib.Tactic.Common

/-!
# Rings of cells and barriers of counters

Two things that a program on a ring buffer rests on.

Cells are found by a sequence number reduced to an index.  The reduction is
injective on windows no longer than the ring, so while a window of sequence
numbers is in use a write for one of them leaves the cells of the others alone.

A barrier reads counters one after the other and takes the least value.  The
values are old by the time they are compared, but counters only grow, so each is
a lower bound of its counter ever after.
-/

namespace LmaxEngine
namespace Sequencing

universe u

section Windows

/-- Different numbers below `limit` have different indices if they are less than
`size` apart. -/
def Spread (index : Int → Nat) (size limit : Int) : Prop :=
  ∀ m n, 0 ≤ m → m < n → n - m < size → n < limit → index m ≠ index n

/-- The cells of the numbers from `lo` to `hi` hold what `content` asks. -/
def Holds
    {α : Type u} (index : Int → Nat) (cells : Nat → Option α)
    (lo hi : Int) (content : Int → α → Prop) : Prop :=
  ∀ n, lo ≤ n → n ≤ hi → ∃ a, cells (index n) = some a ∧ content n a

variable {α : Type u} {index : Int → Nat} {size limit lo hi : Int}
variable {cells : Nat → Option α} {content content' : Int → α → Prop}

/-- The last `k` bits of a number spread over a ring of `2 ^ k` cells.  A ring
with no more cells than there are machine words takes every number. -/
theorem spread_mask_of_le
    {k : Nat} (hk : k ≤ 64) (limit : Int) :
    Spread (fun n => (n % 2 ^ 64).toNat &&& (2 ^ k - 1)) (2 ^ k) limit := by
  intro m n hm hlt hsize _ heq
  dsimp only at heq
  obtain ⟨a, rfl⟩ := Int.eq_ofNat_of_zero_le hm
  obtain ⟨b, rfl⟩ := Int.eq_ofNat_of_zero_le (show (0 : Int) ≤ n by omega)
  have hword : ∀ c : Nat, ((c : Int) % 2 ^ 64).toNat % 2 ^ k = c % 2 ^ k := by
    intro c
    have hcast : ((c : Int) % 2 ^ 64).toNat = c % 2 ^ 64 := by omega
    rw [hcast, Nat.mod_mod_of_dvd _ (Nat.pow_dvd_pow 2 hk)]
  rw [Nat.and_two_pow_sub_one_eq_mod, Nat.and_two_pow_sub_one_eq_mod, hword, hword] at heq
  have hdvd : 2 ^ k ∣ b - a := Nat.dvd_of_mod_eq_zero (Nat.sub_mod_eq_zero_of_mod_eq heq.symm)
  have hle := Nat.le_of_dvd (by omega) hdvd
  have hcast : ((2 ^ k : Nat) : Int) = 2 ^ k := by push_cast; rfl
  omega

/-- Numbers that fit into a machine word spread over a ring of any size. -/
theorem spread_mask
    (k : Nat) :
    Spread (fun n => (n % 2 ^ 64).toNat &&& (2 ^ k - 1)) (2 ^ k) (2 ^ 63) := by
  intro m n hm hlt hsize hlim heq
  dsimp only at heq
  rw [Nat.and_two_pow_sub_one_eq_mod, Nat.and_two_pow_sub_one_eq_mod,
    Int.emod_eq_of_lt hm (by omega), Int.emod_eq_of_lt (by omega) (by omega)] at heq
  obtain ⟨a, rfl⟩ := Int.eq_ofNat_of_zero_le hm
  obtain ⟨b, rfl⟩ := Int.eq_ofNat_of_zero_le (show (0 : Int) ≤ n by omega)
  simp only [Int.toNat_natCast] at heq
  have hdvd : 2 ^ k ∣ b - a := Nat.dvd_of_mod_eq_zero (Nat.sub_mod_eq_zero_of_mod_eq heq.symm)
  have hle := Nat.le_of_dvd (by omega) hdvd
  have hcast : ((2 ^ k : Nat) : Int) = 2 ^ k := by push_cast; rfl
  omega

/-- **Writing a cell.**  A window that is not longer than the ring is intact
after a write for one of its numbers. -/
theorem Holds.update
    {n : Int} {a : α}
    (hs : Spread index size limit)
    (h : ∀ m, lo ≤ m → m ≤ hi → m ≠ n → ∃ b, cells (index m) = some b ∧ content m b)
    (hpos : 0 ≤ lo) (hlo : lo ≤ n) (hhi : n ≤ hi)
    (hsize : hi - lo < size) (hlim : hi < limit) (ha : content n a) :
    Holds index (Function.update cells (index n) (some a)) lo hi content := by
  intro m hm hm'
  rcases lt_trichotomy m n with hlt | rfl | hlt
  · obtain ⟨b, hb, hc⟩ := h m hm hm' hlt.ne
    have hne := hs m n (by omega) hlt (by omega) (by omega)
    exact ⟨b, by rw [Function.update_of_ne hne, hb], hc⟩
  · exact ⟨a, Function.update_self _ _ _, ha⟩
  · obtain ⟨b, hb, hc⟩ := h m hm hm' hlt.ne'
    have hne := hs n m (by omega) hlt (by omega) (by omega)
    exact ⟨b, by rw [Function.update_of_ne hne.symm, hb], hc⟩

/-- Appending a number to a window: the cell of the number that leaves is used
again. -/
theorem Holds.append
    {a : α}
    (hs : Spread index size limit)
    (h : Holds index cells (max 0 (hi + 1 - size)) hi content)
    (hsize : 0 < size) (hpos : -1 ≤ hi) (hlim : hi + 1 < limit) (ha : content (hi + 1) a) :
    Holds index (Function.update cells (index (hi + 1)) (some a))
      (max 0 (hi + 1 + 1 - size)) (hi + 1) content :=
  Holds.update hs (fun m hm hm' hne => h m (by omega) (by omega))
    (by omega) (by omega) (by omega) (by omega) hlim ha

/-- Rewriting a number of a window. -/
theorem Holds.rewrite
    {n : Int} {a : α}
    (hs : Spread index size limit)
    (h : Holds index cells lo hi content)
    (hpos : 0 ≤ lo) (hlo : lo ≤ n) (hhi : n ≤ hi)
    (hsize : hi - lo < size) (hlim : hi < limit)
    (himp : ∀ m b, m ≠ n → content m b → content' m b) (ha : content' n a) :
    Holds index (Function.update cells (index n) (some a)) lo hi content' := by
  refine Holds.update hs (fun m hm hm' hne => ?_) hpos hlo hhi hsize hlim ha
  obtain ⟨b, hb, hc⟩ := h m hm hm'
  exact ⟨b, hb, himp m b hne hc⟩

end Windows

section Barriers

/-- A pass over counters: the ones still to read and the least value so far. -/
structure Scan (δ : Type u) where
  rest : List δ
  least : Option Int
deriving DecidableEq, Repr

namespace Scan

variable {δ : Type u}

def start (counters : List δ) : Scan δ where
  rest := counters
  least := none

/-- Read the value of the next counter. -/
def read (scan : Scan δ) (value : Int) : Scan δ where
  rest := scan.rest.tail
  least := some (scan.least.elim value (min value))

/-- The counters that have been read are at least the least value. -/
def Covers (scan : Scan δ) (counters : List δ) (value : δ → Int) : Prop :=
  ∀ d, d ∈ counters → d ∈ scan.rest ∨ ∃ m, scan.least = some m ∧ m ≤ value d

variable {scan : Scan δ} {counters rest : List δ} {value value' : δ → Int} {d : δ}

theorem covers_start
    (counters : List δ) (value : δ → Int) :
    (start counters).Covers counters value :=
  fun _ hd => Or.inl hd

theorem Covers.read
    (h : scan.Covers counters value) (hd : scan.rest = d :: rest) :
    (scan.read (value d)).Covers counters value := by
  intro e he
  have hleast : ∀ m, scan.least = some m → scan.least.elim (value d) (min (value d)) =
      min (value d) m := by
    rintro m hm
    rw [hm]
    rfl
  rcases h e he with hrest | ⟨m, hm, hle⟩
  · rw [hd] at hrest
    rcases List.mem_cons.mp hrest with rfl | hrest
    · refine Or.inr ⟨_, rfl, ?_⟩
      cases hm : scan.least with
      | none => exact le_refl _
      | some m => exact min_le_left _ _
    · left
      rw [Scan.read, hd]
      exact hrest
  · refine Or.inr ⟨_, rfl, ?_⟩
    rw [hleast m hm]
    exact (min_le_right _ _).trans hle

/-- Values that were read stay lower bounds while the counters grow. -/
theorem Covers.mono
    (h : scan.Covers counters value) (hle : ∀ d, value d ≤ value' d) :
    scan.Covers counters value' := by
  intro d hd
  rcases h d hd with hrest | ⟨m, hm, hmd⟩
  · exact Or.inl hrest
  · exact Or.inr ⟨m, hm, hmd.trans (hle d)⟩

/-- **What a barrier promises.**  After a pass whose least value is at least `n`
all counters are. -/
theorem Covers.le
    {n top : Int}
    (h : scan.Covers counters value) (hrest : scan.rest = [])
    (hn : n ≤ scan.least.getD top) :
    ∀ d, d ∈ counters → n ≤ value d := by
  intro d hd
  rcases h d hd with hmem | ⟨m, hm, hmd⟩
  · rw [hrest] at hmem
    exact absurd hmem (by simp)
  · rw [hm] at hn
    exact le_trans hn hmd

/-- No value that was read is below `n`, so the pass may end well. -/
def Hopeful (scan : Scan δ) (n : Int) : Prop :=
  ∀ m, scan.least = some m → n ≤ m

instance (scan : Scan δ) (n : Int) : Decidable (scan.Hopeful n) :=
  decidable_of_iff (scan.least.all fun m => decide (n ≤ m)) (by
    cases h : scan.least <;> simp [Hopeful, h])

theorem hopeful_start
    (counters : List δ) (n : Int) :
    (start counters).Hopeful n := by
  intro m hm
  exact absurd hm (by simp [start])

/-- A pass over counters that are large enough stays hopeful. -/
theorem Hopeful.read
    {n v : Int}
    (h : scan.Hopeful n) (hv : n ≤ v) :
    (scan.read v).Hopeful n := by
  intro m hm
  obtain rfl := Option.some.inj hm
  cases hleast : scan.least with
  | none => exact hv
  | some m => exact le_min hv (h m hleast)

/-- A pass is through the barrier when it has stayed hopeful. -/
theorem Hopeful.le
    {n top : Int}
    (h : scan.Hopeful n) (htop : n ≤ top) :
    n ≤ scan.least.getD top := by
  cases hleast : scan.least with
  | none => exact htop
  | some m => exact h m hleast

/-- A pass that is not hopeful has to be made again. -/
theorem lt_of_not_hopeful
    {n top : Int}
    (h : ¬ scan.Hopeful n) :
    scan.least.getD top < n := by
  obtain ⟨m, hm⟩ := not_forall.mp h
  obtain ⟨hm, hlt⟩ := Classical.not_imp.mp hm
  rw [hm]
  exact not_le.mp hlt

/-- The steps that are left of a pass over `size` counters. -/
def toDo (scan : Scan δ) (size : Nat) (n : Int) : Nat :=
  scan.rest.length + if scan.Hopeful n then 0 else size + 1

theorem toDo_start
    (counters : List δ) (size : Nat) (n : Int) :
    (start counters).toDo size n = counters.length := by
  rw [toDo, if_pos (hopeful_start counters n)]
  rfl

/-- After a pass that did not go well there is a whole pass to do, and one step to
begin it. -/
theorem toDo_of_not_hopeful
    {n : Int}
    (h : ¬ scan.Hopeful n) (hrest : scan.rest = []) (size : Nat) :
    scan.toDo size n = size + 1 := by
  rw [toDo, hrest, if_neg h]
  exact Nat.zero_add _

/-- Reading a counter that is large enough is work done. -/
theorem toDo_read_lt
    {n v : Int}
    (size : Nat) (hd : scan.rest = d :: rest) (hv : n ≤ v) :
    (scan.read v).toDo size n < scan.toDo size n := by
  have hrest : (scan.read v).rest = rest := by rw [Scan.read, hd]; rfl
  rw [toDo, toDo, hrest, hd, List.length_cons]
  by_cases h : scan.Hopeful n
  · rw [if_pos h, if_pos (h.read hv)]
    omega
  · rw [if_neg h]
    split_ifs <;> omega

end Scan

end Barriers

end Sequencing
end LmaxEngine
