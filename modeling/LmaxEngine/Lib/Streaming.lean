import Mathlib.Algebra.GroupWithZero.Nat
import Mathlib.Tactic.Common

/-!
# Bytes and readers of a stream

The number that a list of bytes stands for, the low byte first, and the bytes of
a number.  Lists of one length and the numbers below the matching power of 256
are in bijection.

A reader takes the symbols that have arrived and an offset into them.  It has
one error for an end that came too early, and others for symbols that it does
not accept.  On a stream the first of these should be no verdict and the others
should be final.  One reader after the other has these properties if both have,
and if the second can go on from wherever the first may end.
-/

namespace LmaxEngine
namespace Bytes

/-- The number of a list of bytes. -/
def number : List UInt8 → Nat
  | [] => 0
  | b :: bs => b.toNat + 256 * number bs

/-- The `k` low bytes of a number. -/
def lowBytes : Nat → Nat → List UInt8
  | 0, _ => []
  | k + 1, n => UInt8.ofNat n :: lowBytes k (n / 256)

@[simp] theorem length_lowBytes
    (k n : Nat) :
    (lowBytes k n).length = k := by
  induction k generalizing n with
  | zero => rfl
  | succ k ih => rw [lowBytes, List.length_cons, ih]

theorem number_lt
    (bs : List UInt8) :
    number bs < 256 ^ bs.length := by
  induction bs with
  | nil => exact Nat.one_pos
  | cons b bs ih =>
      have hb : b.toNat < 256 := b.toNat_lt
      rw [number, List.length_cons, Nat.pow_succ]
      omega

theorem number_lowBytes
    (k n : Nat) :
    number (lowBytes k n) = n % 256 ^ k := by
  induction k generalizing n with
  | zero => rw [lowBytes, number, Nat.pow_zero, Nat.mod_one]
  | succ k ih =>
      rw [lowBytes, number, ih, Nat.pow_succ', Nat.mod_mul, UInt8.toNat_ofNat']

theorem lowBytes_number
    (bs : List UInt8) :
    lowBytes bs.length (number bs) = bs := by
  induction bs with
  | nil => rfl
  | cons b bs ih =>
      have hb : b.toNat < 256 := b.toNat_lt
      have hlow : UInt8.ofNat (b.toNat + 256 * number bs) = b := by
        rw [← UInt8.toNat_inj, UInt8.toNat_ofNat']
        omega
      have hhigh : (b.toNat + 256 * number bs) / 256 = number bs := by omega
      rw [List.length_cons, number, lowBytes, hlow, hhigh, ih]

end Bytes

namespace Streaming

variable {β ε α ρ : Type} {short : ε}

/-- Verdicts are final, and `short` is the error of what can be completed.  `good`
says what the completed symbols can be made to give. -/
structure Settles
    (short : ε) (good : List β → ρ → Prop) (read : List β → Nat → Except ε ρ) : Prop where
  ok_append : ∀ {buf off r}, off ≤ buf.length → read buf off = .ok r →
    ∀ tail, read (buf ++ tail) off = .ok r
  error_append : ∀ {buf off e}, off ≤ buf.length → read buf off = .error e → e ≠ short →
    ∀ tail, read (buf ++ tail) off = .error e
  completes : ∀ {buf off}, off ≤ buf.length → read buf off = .error short →
    ∃ tail r, read (buf ++ tail) off = .ok r ∧ good (buf ++ tail) r

/-- At the end of any symbols the reader can be given some that it accepts. -/
def Fills (good : List β → ρ → Prop) (read : List β → Nat → Except ε ρ) : Prop :=
  ∀ buf, ∃ tail r, read (buf ++ tail) buf.length = .ok r ∧ good (buf ++ tail) r

/-- The next offset is not beyond the end. -/
def Bounded (read : List β → Nat → Except ε (α × Nat)) : Prop :=
  ∀ buf off a off', off ≤ buf.length → read buf off = .ok (a, off') → off' ≤ buf.length

/-- A value that is as wanted, and the end of the symbols. -/
def AtEnd (want : α → Prop) (buf : List β) (r : α × Nat) : Prop :=
  want r.1 ∧ r.2 = buf.length

/-- All errors of the reader. -/
def Raises (errors : ε → Prop) (read : List β → Nat → Except ε ρ) : Prop :=
  ∀ buf off e, read buf off = .error e → errors e

section Leaves

theorem settles_ok
    {good : List β → ρ → Prop} (f : Nat → ρ) :
    Settles short good (fun _ off => .ok (f off)) where
  ok_append _ h _ := h
  error_append _ h _ _ := absurd h (by simp)
  completes _ h := absurd h (by simp)

theorem settles_error
    {good : List β → ρ → Prop} {e : ε} (he : e ≠ short) :
    Settles short good (fun _ _ => .error e) where
  ok_append _ h _ := h
  error_append _ h _ _ := h
  completes _ h := absurd (Except.error.inj h) he

theorem bounded_ok
    (a : α) :
    Bounded (fun (_ : List β) off => (.ok (a, off) : Except ε (α × Nat))) := by
  intro buf off c off' hle h
  obtain ⟨-, rfl⟩ := Prod.mk.inj (Except.ok.inj h)
  exact hle

theorem bounded_error
    (e : ε) :
    Bounded (fun (_ : List β) _ => (.error e : Except ε (α × Nat))) :=
  fun _ _ _ _ _ h => absurd h (by simp)

theorem fills_ok
    {want : α → Prop} {a : α} (ha : want a) :
    Fills (AtEnd want) (fun (_ : List β) off => (.ok (a, off) : Except ε (α × Nat))) :=
  fun buf => ⟨[], (a, buf.length), rfl, ha, by rw [List.append_nil]⟩

theorem raises_ok
    {errors : ε → Prop} (f : Nat → ρ) :
    Raises errors (fun (_ : List β) off => .ok (f off)) :=
  fun _ _ _ h => absurd h (by simp)

theorem raises_error
    {errors : ε → Prop} {e : ε} (he : errors e) :
    Raises errors (fun (_ : List β) _ => (.error e : Except ε ρ)) := by
  intro buf off e' h
  obtain rfl := Except.error.inj h
  exact he

end Leaves

section Sequence

variable {want : α → Prop} {good : List β → ρ → Prop}
variable {read : List β → Nat → Except ε (α × Nat)}
variable {next : α × Nat → List β → Except ε ρ}

theorem bind_eq_ok
    {x : Except ε α} {f : α → Except ε ρ} {r : ρ}
    (h : (x >>= f) = .ok r) :
    ∃ a, x = .ok a ∧ f a = .ok r := by
  cases x with
  | error e => exact absurd h (by simp [Bind.bind, Except.bind])
  | ok a => exact ⟨a, rfl, h⟩

theorem bind_eq_error
    {x : Except ε α} {f : α → Except ε ρ} {e : ε}
    (h : (x >>= f) = .error e) :
    x = .error e ∨ ∃ a, x = .ok a ∧ f a = .error e := by
  cases x with
  | error e' => exact Or.inl (congrArg Except.error (Except.error.inj h))
  | ok a => exact Or.inr ⟨a, rfl, h⟩

/-- **One reader after the other.** -/
theorem Settles.bind
    (h : Settles short (AtEnd want) read) (hbounded : Bounded read)
    (hnext : ∀ a, Settles short good fun buf off => next (a, off) buf)
    (hfills : ∀ a, want a → Fills good fun buf off => next (a, off) buf) :
    Settles short good fun buf off => read buf off >>= fun p => next p buf where
  ok_append {buf off r} hle hok tail := by
    obtain ⟨⟨a, off'⟩, ha, hr⟩ := bind_eq_ok hok
    rw [h.ok_append hle ha tail]
    exact (hnext a).ok_append (hbounded _ _ _ _ hle ha) hr tail
  error_append {buf off e} hle herror hne tail := by
    obtain he | ⟨⟨a, off'⟩, ha, he⟩ := bind_eq_error herror
    · rw [h.error_append hle he hne tail]
      rfl
    · rw [h.ok_append hle ha tail]
      exact (hnext a).error_append (hbounded _ _ _ _ hle ha) he hne tail
  completes {buf off} hle herror := by
    obtain he | ⟨⟨a, off'⟩, ha, he⟩ := bind_eq_error herror
    · -- The first one ends where the second one has to start from nothing.
      obtain ⟨tail, ⟨a, off'⟩, ha, hwant, rfl⟩ := h.completes hle he
      obtain ⟨tail', r, hr, hgood⟩ := hfills a hwant (buf ++ tail)
      have hlong : off ≤ (buf ++ tail).length := by
        rw [List.length_append]
        exact Nat.le_add_right_of_le hle
      refine ⟨tail ++ tail', r, ?_, by rwa [← List.append_assoc]⟩
      rw [← List.append_assoc, h.ok_append hlong ha tail']
      exact hr
    · obtain ⟨tail, r, hr, hgood⟩ := (hnext a).completes (hbounded _ _ _ _ hle ha) he
      refine ⟨tail, r, ?_, hgood⟩
      rw [h.ok_append hle ha tail]
      exact hr

theorem Fills.bind
    (h : Fills (AtEnd want) read) (hsettles : Settles short (AtEnd want) read)
    (hfills : ∀ a, want a → Fills good fun buf off => next (a, off) buf) :
    Fills good fun buf off => read buf off >>= fun p => next p buf := by
  intro buf
  obtain ⟨tail, ⟨a, off'⟩, ha, hwant, rfl⟩ := h buf
  obtain ⟨tail', r, hr, hgood⟩ := hfills a hwant (buf ++ tail)
  have hlong : buf.length ≤ (buf ++ tail).length := by
    rw [List.length_append]
    exact Nat.le_add_right _ _
  refine ⟨tail ++ tail', r, ?_, by rwa [← List.append_assoc]⟩
  dsimp only
  rw [← List.append_assoc, hsettles.ok_append hlong ha tail']
  exact hr

theorem Bounded.bind
    {γ : Type} {next : α × Nat → List β → Except ε (γ × Nat)}
    (h : Bounded read) (hnext : ∀ a, Bounded fun buf off => next (a, off) buf) :
    Bounded fun buf off => read buf off >>= fun p => next p buf := by
  intro buf off c off₂ hle hok
  obtain ⟨⟨a, off'⟩, ha, hc⟩ := bind_eq_ok hok
  exact hnext a _ _ _ _ (h _ _ _ _ hle ha) hc

theorem Raises.bind
    {errors : ε → Prop} (h : Raises errors read)
    (hnext : ∀ a, Raises errors fun buf off => next (a, off) buf) :
    Raises errors fun buf off => read buf off >>= fun p => next p buf := by
  intro buf off e herror
  obtain he | ⟨⟨a, off'⟩, -, he⟩ := bind_eq_error herror
  · exact h _ _ _ he
  · exact hnext a _ _ _ he

/-- A reader of one or more fields, with all that is needed to read on behind it. -/
structure Streams
    (short : ε) (want : α → Prop) (read : List β → Nat → Except ε (α × Nat)) : Prop where
  settles : Settles short (AtEnd want) read
  bounded : Bounded read
  fills : Fills (AtEnd want) read

theorem Streams.bind
    {γ : Type} {want' : γ → Prop}
    (h : Streams short want read) (next : α × Nat → List β → Except ε (γ × Nat))
    (hsettles : ∀ a, Settles short (AtEnd want') fun buf off => next (a, off) buf)
    (hbounded : ∀ a, Bounded fun buf off => next (a, off) buf)
    (hfills : ∀ a, want a → Fills (AtEnd want') fun buf off => next (a, off) buf) :
    Streams short want' fun buf off => read buf off >>= fun p => next p buf where
  settles := h.settles.bind h.bounded hsettles hfills
  bounded := h.bounded.bind hbounded
  fills := h.fills.bind h.settles hfills

/-- A field that is computed from another one. -/
theorem Streams.map
    {γ : Type} {want' : γ → Prop}
    (h : Streams short want read) (f : α → γ) (hf : ∀ a, want a → want' (f a)) :
    Streams short want' fun buf off => read buf off >>= fun p => .ok (f p.1, p.2) :=
  h.bind (fun p _ => .ok (f p.1, p.2)) (fun a => settles_ok fun off => (f a, off))
    (fun a => bounded_ok (f a)) fun a ha => fills_ok (hf a ha)

/-- The first field of a message, and the rest. -/
structure Starts
    (short : ε) (parse : List β → Nat → Except ε ρ) : Prop where
  settles : Settles short (fun _ _ => True) parse
  fills : Fills (fun _ _ => True) parse

theorem starts_ok
    (r : ρ) :
    Starts short (fun (_ : List β) _ => (.ok r : Except ε ρ)) where
  settles := settles_ok fun _ => r
  fills _ := ⟨[], r, rfl, trivial⟩

theorem Streams.andThen
    (h : Streams short want read)
    (hnext : ∀ a, Starts short fun buf off => next (a, off) buf) :
    Starts short fun buf off => read buf off >>= fun p => next p buf where
  settles := h.settles.bind h.bounded (fun a => (hnext a).settles) fun a _ => (hnext a).fills
  fills := h.fills.bind h.settles fun a _ => (hnext a).fills

end Sequence

end Streaming
end LmaxEngine
