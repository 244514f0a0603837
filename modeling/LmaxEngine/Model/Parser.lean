import Mathlib.Tactic.Common
import LmaxEngine.Lib.Streaming
import LmaxEngine.Model.Order

/-!
# The wire parser

`parse_command` of `consumer/unmarshallerConsumer.rs` and the readers it is
made of.  A reader takes the bytes and an offset and returns a value and the
next offset.  It may reject the bytes with a message, and it would abort if it
looked past their end.
-/

namespace LmaxEngine

inductive ReadError where
  /-- `Err(message)` -/
  | rejected (message : String)
  /-- An index or a slice past the end of the bytes. -/
  | outOfBounds
deriving DecidableEq, Repr

abbrev Parse (α : Type) := Except ReadError α

def underflow : ReadError :=
  .rejected "buffer underflow"

/-- `buf[i]` -/
def byteAt (buf : List UInt8) (i : Nat) : Parse UInt8 :=
  match buf[i]? with
  | some v => .ok v
  | none => .error .outOfBounds

/-- `&buf[i..j]` -/
def sliceOf (buf : List UInt8) (i j : Nat) : Parse (List UInt8) :=
  if i ≤ j ∧ j ≤ buf.length then
    .ok ((buf.take j).drop i)
  else
    .error .outOfBounds

/-- `u64::from_le_bytes` -/
def fromLeBytes (arr : List UInt8) : UInt64 :=
  arr.foldr (fun b n => b.toUInt64 + 256 * n) 0

def readU8 (buf : List UInt8) (off : Nat) : Parse (UInt8 × Nat) :=
  if off + 1 > buf.length then
    .error underflow
  else do
    let v ← byteAt buf off
    .ok (v, off + 1)

/-- The eight bytes that `read_u64` and `read_symbol8` copy. -/
def readArray8 (buf : List UInt8) (off : Nat) : Parse (List UInt8 × Nat) :=
  if off + 8 > buf.length then
    .error underflow
  else do
    let arr ← sliceOf buf off (off + 8)
    .ok (arr, off + 8)

def readU64 (buf : List UInt8) (off : Nat) : Parse (UInt64 × Nat) := do
  let (arr, off) ← readArray8 buf off
  .ok (fromLeBytes arr, off)

def readSymbol8 (buf : List UInt8) (off : Nat) : Parse (Symbol × Nat) := do
  let (arr, off) ← readArray8 buf off
  .ok (Vector.ofFn fun i => arr.getD i 0, off)

def readSide (buf : List UInt8) (off : Nat) : Parse (Side × Nat) := do
  let (v, off) ← readU8 buf off
  match v with
  | 0 => .ok (.buy, off)
  | 1 => .ok (.sell, off)
  | _ => .error (.rejected "invalid side")

def readOrderType (buf : List UInt8) (off : Nat) : Parse (OrderType × Nat) := do
  let (v, off) ← readU8 buf off
  match v with
  | 0 => .ok (.limit, off)
  | 1 => .ok (.market, off)
  | _ => .error (.rejected "invalid order type")

def readTif (buf : List UInt8) (off : Nat) : Parse (TimeInForce × Nat) := do
  let (v, off) ← readU8 buf off
  match v with
  | 0 => .ok (.gtc, off)
  | 1 => .ok (.ioc, off)
  | 2 => .ok (.fok, off)
  | _ => .error (.rejected "invalid time in force")

def readOptionU64 (buf : List UInt8) (off : Nat) : Parse (Option UInt64 × Nat) := do
  let (v, off) ← readU8 buf off
  match v with
  | 0 => .ok (none, off)
  | 1 => do
      let (n, off) ← readU64 buf off
      .ok (some n, off)
  | _ => .error (.rejected "invalid option flag")

def parsePlace (buf : List UInt8) (off : Nat) : Parse Command := do
  let (clientId, off) ← readU64 buf off
  let (clientOrderId, off) ← readU64 buf off
  let (symbol, off) ← readSymbol8 buf off
  let (side, off) ← readSide buf off
  let (orderType, off) ← readOrderType buf off
  let (price, off) ← readOptionU64 buf off
  let (quantity, off) ← readU64 buf off
  let (timeInForce, _) ← readTif buf off
  .ok (.place clientId clientOrderId symbol side orderType price quantity timeInForce)

def parseCancel (buf : List UInt8) (off : Nat) : Parse Command := do
  let (clientId, off) ← readU64 buf off
  let (clientOrderId, _) ← readU64 buf off
  .ok (.cancel clientId clientOrderId)

def parseModify (buf : List UInt8) (off : Nat) : Parse Command := do
  let (clientId, off) ← readU64 buf off
  let (clientOrderId, off) ← readU64 buf off
  let (newPrice, off) ← readOptionU64 buf off
  let (newQty, _) ← readOptionU64 buf off
  .ok (.modify clientId clientOrderId newPrice newQty)

def parseCommand (buf : List UInt8) : Parse Command :=
  if buf.isEmpty then
    .error (.rejected "empty buffer")
  else do
    let tag ← byteAt buf 0
    match tag with
    | 1 => parsePlace buf 1
    | 2 => parseCancel buf 1
    | 3 => parseModify buf 1
    | _ => .error (.rejected "unknown command tag")

section Lookahead

/-- A reader that looks at no byte from `n` bytes after its offset on. -/
def Within {α : Type} (read : List UInt8 → Nat → Parse (α × Nat)) (n : Nat) : Prop :=
  ∀ buf off lim, off + n ≤ lim →
    read (buf.take lim) off = read buf off ∧
      ∀ a off', read buf off = .ok (a, off') → off' ≤ off + n

variable {α γ : Type} {read : List UInt8 → Nat → Parse (α × Nat)} {n off lim : Nat}
variable {buf : List UInt8}

theorem Parse.bind_eq_ok
    {x : Parse α} {f : α → Parse γ} {c : γ}
    (h : (x >>= f) = .ok c) :
    ∃ a, x = .ok a ∧ f a = .ok c :=
  Streaming.bind_eq_ok h

theorem Within.bind_eq
    {f g : α × Nat → Parse γ}
    (h : Within read n) (hle : off + n ≤ lim)
    (hfg : ∀ a off', off' ≤ off + n → f (a, off') = g (a, off')) :
    (read (buf.take lim) off >>= f) = (read buf off >>= g) := by
  obtain ⟨heq, hoff⟩ := h buf off lim hle
  rw [heq]
  cases hr : read buf off with
  | error e => rfl
  | ok p =>
      obtain ⟨a, off'⟩ := p
      exact hfg a off' (hoff a off' hr)

theorem Within.bind
    {m : Nat} {next : α × Nat → List UInt8 → Parse (γ × Nat)}
    (h : Within read n) (hnext : ∀ a, Within (fun buf off => next (a, off) buf) m) :
    Within (fun buf off => read buf off >>= fun p => next p buf) (n + m) := by
  intro buf off lim hle
  constructor
  · refine h.bind_eq (by omega) fun a off' hoff => ?_
    exact (hnext a buf off' lim (by omega)).1
  · intro c off₂ hc
    obtain ⟨⟨a, off'⟩, hr, hc⟩ := Parse.bind_eq_ok hc
    have hoff := (h buf off lim (by omega)).2 a off' hr
    have := (hnext a buf off' (off' + m) (Nat.le_refl _)).2 c off₂ hc
    omega

theorem within_readU8 :
    Within readU8 1 := by
  intro buf off lim hle
  have hlen : (buf.take lim).length = min lim buf.length := List.length_take
  have hbyte : byteAt (buf.take lim) off = byteAt buf off := by
    rw [byteAt, byteAt, List.getElem?_take_of_lt (by omega)]
  constructor
  · unfold readU8
    rw [hbyte]
    exact if_congr (by omega) rfl rfl
  · intro a off' ha
    unfold readU8 at ha
    split_ifs at ha
    obtain ⟨v, -, ha⟩ := Parse.bind_eq_ok ha
    exact Nat.le_of_eq (Prod.mk.inj (Except.ok.inj ha)).2.symm

theorem within_readArray8 :
    Within readArray8 8 := by
  intro buf off lim hle
  have hlen : (buf.take lim).length = min lim buf.length := List.length_take
  constructor
  · unfold readArray8
    refine if_congr (by omega) rfl ?_
    have hslice : sliceOf (buf.take lim) off (off + 8) = sliceOf buf off (off + 8) := by
      unfold sliceOf
      rw [List.take_take, Nat.min_eq_left hle]
      exact if_congr (by omega) rfl rfl
    rw [hslice]
  · intro a off' ha
    unfold readArray8 at ha
    split_ifs at ha
    obtain ⟨arr, -, ha⟩ := Parse.bind_eq_ok ha
    exact Nat.le_of_eq (Prod.mk.inj (Except.ok.inj ha)).2.symm

/-- A reader that turns what another one has read into a value. -/
theorem Within.decode
    {next : α × Nat → Parse (γ × Nat)}
    (h : Within read n)
    (hnext : ∀ a off c off', next (a, off) = .ok (c, off') → off' = off) :
    Within (fun buf off => read buf off >>= next) n :=
  h.bind (m := 0) fun a _ off _ _ => ⟨rfl, fun c off' hc => Nat.le_of_eq (hnext a off c off' hc)⟩

theorem offset_eq
    {a c : γ} {off off' : Nat}
    (h : (.ok (a, off) : Parse (γ × Nat)) = .ok (c, off')) :
    off' = off :=
  (Prod.mk.inj (Except.ok.inj h)).2.symm

theorem within_readU64 :
    Within readU64 8 :=
  within_readArray8.decode fun _ _ _ _ h => offset_eq h

theorem within_readSymbol8 :
    Within readSymbol8 8 :=
  within_readArray8.decode fun _ _ _ _ h => offset_eq h

theorem within_readSide :
    Within readSide 1 := by
  refine within_readU8.decode fun v off c off' h => ?_
  dsimp only at h
  split at h
  · exact offset_eq h
  · exact offset_eq h
  · exact absurd h (by simp)

theorem within_readOrderType :
    Within readOrderType 1 := by
  refine within_readU8.decode fun v off c off' h => ?_
  dsimp only at h
  split at h
  · exact offset_eq h
  · exact offset_eq h
  · exact absurd h (by simp)

theorem within_readTif :
    Within readTif 1 := by
  refine within_readU8.decode fun v off c off' h => ?_
  dsimp only at h
  split at h
  · exact offset_eq h
  · exact offset_eq h
  · exact offset_eq h
  · exact absurd h (by simp)

theorem within_readOptionU64 :
    Within readOptionU64 9 := by
  have hsome : Within (fun buf off => do
      let (n, off) ← readU64 buf off
      .ok (some n, off)) 8 :=
    within_readU64.decode fun _ _ _ _ h => offset_eq h
  refine within_readU8.bind (m := 8) fun v buf off lim hle => ?_
  dsimp only
  split
  · exact ⟨rfl, fun a off' h => by rw [offset_eq h]; omega⟩
  · exact hsome buf off lim hle
  · exact ⟨rfl, fun a off' h => absurd h (by simp)⟩

theorem parsePlace_take
    (hle : off + 44 ≤ lim) :
    parsePlace (buf.take lim) off = parsePlace buf off := by
  refine within_readU64.bind_eq (by omega) fun clientId off₁ h₁ => ?_
  refine within_readU64.bind_eq (by omega) fun clientOrderId off₂ h₂ => ?_
  refine within_readSymbol8.bind_eq (by omega) fun symbol off₃ h₃ => ?_
  refine within_readSide.bind_eq (by omega) fun side off₄ h₄ => ?_
  refine within_readOrderType.bind_eq (by omega) fun orderType off₅ h₅ => ?_
  refine within_readOptionU64.bind_eq (by omega) fun price off₆ h₆ => ?_
  refine within_readU64.bind_eq (by omega) fun quantity off₇ h₇ => ?_
  exact within_readTif.bind_eq (by omega) fun tif off₈ h₈ => rfl

theorem parseCancel_take
    (hle : off + 16 ≤ lim) :
    parseCancel (buf.take lim) off = parseCancel buf off := by
  refine within_readU64.bind_eq (by omega) fun clientId off₁ h₁ => ?_
  exact within_readU64.bind_eq (by omega) fun clientOrderId off₂ h₂ => rfl

theorem parseModify_take
    (hle : off + 34 ≤ lim) :
    parseModify (buf.take lim) off = parseModify buf off := by
  refine within_readU64.bind_eq (by omega) fun clientId off₁ h₁ => ?_
  refine within_readU64.bind_eq (by omega) fun clientOrderId off₂ h₂ => ?_
  refine within_readOptionU64.bind_eq (by omega) fun newPrice off₃ h₃ => ?_
  exact within_readOptionU64.bind_eq (by omega) fun newQty off₄ h₄ => rfl

/-- **A slot holds enough of a message.**  No command is longer than the 256
bytes that a slot has for one. -/
theorem parseCommand_take
    (buf : List UInt8) :
    parseCommand (buf.take 256) = parseCommand buf := by
  cases buf with
  | nil => rfl
  | cons tag rest =>
      have hplace : parsePlace ((tag :: rest).take 256) 1 = parsePlace (tag :: rest) 1 :=
        parsePlace_take (by omega)
      have hcancel : parseCancel ((tag :: rest).take 256) 1 = parseCancel (tag :: rest) 1 :=
        parseCancel_take (by omega)
      have hmodify : parseModify ((tag :: rest).take 256) 1 = parseModify (tag :: rest) 1 :=
        parseModify_take (by omega)
      unfold parseCommand
      rw [hplace, hcancel, hmodify]
      rfl

end Lookahead

end LmaxEngine
