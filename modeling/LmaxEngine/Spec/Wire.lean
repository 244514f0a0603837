import LmaxEngine.Model.Parser

/-!
# The wire format

How a command is written: a tag, numbers in little-endian order, the eight bytes
of a symbol, one byte for a side, an order type or a time in force, and a flag
before a number that may be absent.  The wire has a byte for three of the five
values of `TimeInForce`.

A reader reads a code when it accepts exactly the bytes of the code, from its
offset on, and stops behind them.
-/

namespace LmaxEngine

open Bytes

section Format

/-- `u64::to_le_bytes` -/
def toLeBytes (n : UInt64) : List UInt8 :=
  lowBytes 8 n.toNat

def sideByte : Side → UInt8
  | .buy => 0
  | .sell => 1

def orderTypeByte : OrderType → UInt8
  | .limit => 0
  | .market => 1

def tifByte : TimeInForce → Option UInt8
  | .gtc => some 0
  | .ioc => some 1
  | .fok => some 2
  | .day => none
  | .gtd => none

def optionBytes : Option UInt64 → List UInt8
  | none => [0]
  | some n => 1 :: toLeBytes n

/-- The message of a command, if its time in force has a byte. -/
def encode : Command → Option (List UInt8)
  | .place clientId clientOrderId symbol side orderType price quantity timeInForce =>
      (tifByte timeInForce).map fun tif =>
        1 :: (toLeBytes clientId ++ (toLeBytes clientOrderId ++ (symbol.toList ++
          ([sideByte side] ++ ([orderTypeByte orderType] ++ (optionBytes price ++
            (toLeBytes quantity ++ [tif])))))))
  | .cancel clientId clientOrderId =>
      some (2 :: (toLeBytes clientId ++ toLeBytes clientOrderId))
  | .modify clientId clientOrderId newPrice newQty =>
      some (3 :: (toLeBytes clientId ++ (toLeBytes clientOrderId ++
        (optionBytes newPrice ++ optionBytes newQty))))

/-- The time in force has a byte. -/
def Command.OnWire : Command → Prop
  | .place _ _ _ _ _ _ _ timeInForce =>
      timeInForce = .gtc ∨ timeInForce = .ioc ∨ timeInForce = .fok
  | _ => True

theorem encode_isSome_iff
    (c : Command) :
    (∃ bytes, encode c = some bytes) ↔ c.OnWire := by
  cases c with
  | place clientId clientOrderId symbol side orderType price quantity timeInForce =>
      cases timeInForce <;> simp [encode, tifByte, Command.OnWire]
  | cancel clientId clientOrderId => exact ⟨fun _ => trivial, fun _ => ⟨_, rfl⟩⟩
  | modify clientId clientOrderId newPrice newQty => exact ⟨fun _ => trivial, fun _ => ⟨_, rfl⟩⟩

theorem number_fromLeBytes
    {arr : List UInt8}
    (h : arr.length ≤ 8) :
    (fromLeBytes arr).toNat = number arr := by
  induction arr with
  | nil => rfl
  | cons b bs ih =>
      have hlen : bs.length ≤ 7 := Nat.le_of_succ_le_succ h
      have hlt : number (b :: bs) < 2 ^ 64 :=
        Nat.lt_of_lt_of_le (number_lt _) (Nat.pow_le_pow_right (by decide) h)
      have hih : (fromLeBytes bs).toNat = number bs := ih (by omega)
      rw [number] at hlt ⊢
      change (b.toUInt64 + 256 * fromLeBytes bs).toNat = _
      have h256 : (256 : UInt64).toNat = 256 := rfl
      rw [UInt64.toNat_add, UInt64.toNat_mul, hih, UInt8.toNat_toUInt64, h256,
        Nat.mod_eq_of_lt (a := 256 * number bs) (by omega), Nat.mod_eq_of_lt hlt]

/-- Eight bytes and the number they stand for. -/
theorem eq_toLeBytes_iff
    {arr : List UInt8} {n : UInt64} :
    arr = toLeBytes n ↔ arr.length = 8 ∧ n = fromLeBytes arr := by
  rw [toLeBytes]
  constructor
  · rintro rfl
    have hlen := length_lowBytes 8 n.toNat
    have hlt := n.toNat_lt
    refine ⟨hlen, ?_⟩
    rw [← UInt64.toNat_inj, number_fromLeBytes (Nat.le_of_eq hlen), number_lowBytes]
    exact (Nat.mod_eq_of_lt hlt).symm
  · rintro ⟨hlen, rfl⟩
    rw [number_fromLeBytes (Nat.le_of_eq hlen), ← hlen, lowBytes_number]

end Format

section Readers

variable {α γ : Type}

/-- A reader that never looks past the bytes, and accepts the codes of values. -/
structure Reads
    (read : List UInt8 → Nat → Parse (α × Nat)) (code : α → List UInt8 → Prop) : Prop where
  inBounds : ∀ buf off, read buf off ≠ .error .outOfBounds
  sound : ∀ {buf off a off'}, read buf off = .ok (a, off') →
    ∃ bytes, code a bytes ∧ bytes <+: buf.drop off ∧ off' = off + bytes.length
  complete : ∀ {buf off a bytes}, code a bytes → bytes <+: buf.drop off →
    read buf off = .ok (a, off + bytes.length)

/-- The same for the last part of a message, behind which nothing is read. -/
structure Parses
    (parse : List UInt8 → Nat → Parse α) (code : α → List UInt8 → Prop) : Prop where
  inBounds : ∀ buf off, parse buf off ≠ .error .outOfBounds
  accepts_iff : ∀ {buf off a},
    parse buf off = .ok a ↔ ∃ bytes, code a bytes ∧ bytes <+: buf.drop off

/-- The codes of two values one after the other. -/
def Both
    (code : α → List UInt8 → Prop) (next : α → γ → List UInt8 → Prop) (c : γ)
    (bytes : List UInt8) : Prop :=
  ∃ a front back, code a front ∧ next a c back ∧ bytes = front ++ back

theorem append_prefix_iff
    {front back l : List UInt8} :
    front ++ back <+: l ↔ front <+: l ∧ back <+: l.drop front.length := by
  constructor
  · rintro ⟨t, rfl⟩
    rw [List.append_assoc]
    exact ⟨List.prefix_append _ _, by rw [List.drop_left]; exact List.prefix_append _ _⟩
  · rintro ⟨⟨t, rfl⟩, hback⟩
    rw [List.drop_left] at hback
    exact (List.prefix_append_right_inj front).mpr hback

variable {read : List UInt8 → Nat → Parse (α × Nat)} {code code' : α → List UInt8 → Prop}
variable {parse : List UInt8 → Nat → Parse α}

theorem Reads.congr
    (h : Reads read code) (hcode : ∀ a bytes, code a bytes ↔ code' a bytes) :
    Reads read code' := by
  have : code = code' := funext fun a => funext fun bytes => propext (hcode a bytes)
  rwa [← this]

theorem Parses.congr
    (h : Parses parse code) (hcode : ∀ a bytes, code a bytes ↔ code' a bytes) :
    Parses parse code' := by
  have : code = code' := funext fun a => funext fun bytes => propext (hcode a bytes)
  rwa [← this]

/-- A reader of nothing. -/
theorem reads_ok
    (a : α) :
    Reads (fun _ off => .ok (a, off)) (fun c bytes => c = a ∧ bytes = []) where
  inBounds _ _ := by simp
  sound h := by
    obtain ⟨rfl, rfl⟩ := Prod.mk.inj (Except.ok.inj h)
    exact ⟨[], ⟨rfl, rfl⟩, List.nil_prefix, rfl⟩
  complete h _ := by
    obtain ⟨rfl, rfl⟩ := h
    rfl

theorem parses_ok
    (a : α) :
    Parses (fun _ _ => .ok a) (fun c bytes => c = a ∧ bytes = []) where
  inBounds _ _ := by simp
  accepts_iff {buf off c} := by
    constructor
    · intro h
      exact ⟨[], ⟨(Except.ok.inj h).symm, rfl⟩, List.nil_prefix⟩
    · rintro ⟨bytes, ⟨rfl, -⟩, -⟩
      rfl

theorem reads_rejected
    (message : String) :
    Reads (fun _ _ => (.error (.rejected message) : Parse (α × Nat))) (fun _ _ => False) where
  inBounds _ _ := by simp
  sound h := absurd h (by simp)
  complete h _ := h.elim

theorem bind_inBounds
    {x : Parse α} {f : α → Parse γ}
    (hx : x ≠ .error .outOfBounds)
    (hf : ∀ a, x = .ok a → f a ≠ .error .outOfBounds) :
    (x >>= f) ≠ .error .outOfBounds := by
  cases x with
  | error e =>
      intro h
      obtain rfl := Except.error.inj h
      exact hx rfl
  | ok a => exact hf a rfl

/-- One reader after the other. -/
theorem Reads.bind
    {next : α × Nat → List UInt8 → Parse (γ × Nat)} {code' : α → γ → List UInt8 → Prop}
    (h : Reads read code) (hnext : ∀ a, Reads (fun buf off => next (a, off) buf) (code' a)) :
    Reads (fun buf off => read buf off >>= fun p => next p buf) (Both code code') where
  inBounds buf off :=
    bind_inBounds (h.inBounds buf off) fun p _ => (hnext p.1).inBounds buf p.2
  sound {buf off c off₂} hc := by
    obtain ⟨⟨a, off₁⟩, ha, hc⟩ := Parse.bind_eq_ok hc
    obtain ⟨front, hfront, hpre, rfl⟩ := h.sound ha
    obtain ⟨back, hback, hpre', rfl⟩ := (hnext a).sound hc
    refine ⟨front ++ back, ⟨a, front, back, hfront, hback, rfl⟩, ?_, ?_⟩
    · rw [append_prefix_iff, List.drop_drop]
      exact ⟨hpre, hpre'⟩
    · rw [List.length_append, Nat.add_assoc]
  complete {buf off c bytes} hcode hpre := by
    obtain ⟨a, front, back, hfront, hback, rfl⟩ := hcode
    rw [append_prefix_iff, List.drop_drop] at hpre
    have hc := (hnext a).complete hback hpre.2
    rw [h.complete hfront hpre.1, List.length_append, ← Nat.add_assoc]
    exact hc

/-- A reader before the last part of a message. -/
theorem Reads.andThen
    {next : α × Nat → List UInt8 → Parse γ} {code' : α → γ → List UInt8 → Prop}
    (h : Reads read code) (hnext : ∀ a, Parses (fun buf off => next (a, off) buf) (code' a)) :
    Parses (fun buf off => read buf off >>= fun p => next p buf) (Both code code') where
  inBounds buf off :=
    bind_inBounds (h.inBounds buf off) fun p _ => (hnext p.1).inBounds buf p.2
  accepts_iff {buf off c} := by
    constructor
    · intro hc
      obtain ⟨⟨a, off₁⟩, ha, hc⟩ := Parse.bind_eq_ok hc
      obtain ⟨front, hfront, hpre, rfl⟩ := h.sound ha
      obtain ⟨back, hback, hpre'⟩ := (hnext a).accepts_iff.mp hc
      refine ⟨front ++ back, ⟨a, front, back, hfront, hback, rfl⟩, ?_⟩
      rw [append_prefix_iff, List.drop_drop]
      exact ⟨hpre, hpre'⟩
    · rintro ⟨bytes, ⟨a, front, back, hfront, hback, rfl⟩, hpre⟩
      rw [append_prefix_iff, List.drop_drop] at hpre
      rw [h.complete hfront hpre.1]
      exact (hnext a).accepts_iff.mpr ⟨back, hback, hpre.2⟩

end Readers

section Fields

theorem singleton_prefix_drop_iff
    {buf : List UInt8} {off : Nat} {v : UInt8} :
    [v] <+: buf.drop off ↔ buf[off]? = some v := by
  rw [← List.head?_drop]
  cases buf.drop off with
  | nil => simp
  | cons w ws => simp [List.cons_prefix_cons, eq_comm]

theorem reads_readU8 :
    Reads readU8 (fun v bytes => bytes = [v]) where
  inBounds buf off := by
    rw [readU8]
    split_ifs with hlen
    · simp [underflow]
    · obtain ⟨v, hv⟩ : ∃ v, buf[off]? = some v :=
        ⟨buf[off], List.getElem?_eq_getElem (by omega)⟩
      simp [byteAt, hv, Bind.bind, Except.bind]
  sound {buf off v off'} h := by
    rw [readU8] at h
    split_ifs at h with hlen
    obtain ⟨w, hw, h⟩ := Parse.bind_eq_ok h
    obtain ⟨rfl, rfl⟩ := Prod.mk.inj (Except.ok.inj h)
    refine ⟨[w], rfl, singleton_prefix_drop_iff.mpr ?_, rfl⟩
    rw [byteAt] at hw
    split at hw
    · next hv => rw [hv, Except.ok.inj hw]
    · exact absurd hw (by simp)
  complete {buf off v bytes} h hpre := by
    subst h
    have hv := singleton_prefix_drop_iff.mp hpre
    obtain ⟨hlt, -⟩ := List.getElem?_eq_some_iff.mp hv
    rw [readU8, if_neg (by omega), byteAt, hv]
    rfl

theorem reads_readArray8 :
    Reads readArray8 (fun arr bytes => bytes = arr ∧ arr.length = 8) where
  inBounds buf off := by
    rw [readArray8]
    split_ifs with hlen
    · simp [underflow]
    · rw [sliceOf, if_pos (by omega)]
      simp [Bind.bind, Except.bind]
  sound {buf off arr off'} h := by
    rw [readArray8] at h
    split_ifs at h with hlen
    rw [sliceOf, if_pos (by omega)] at h
    obtain ⟨rfl, rfl⟩ := Prod.mk.inj (Except.ok.inj h)
    rw [List.drop_take, Nat.add_sub_cancel_left]
    have hlength : ((buf.drop off).take 8).length = 8 := by
      rw [List.length_take, List.length_drop]
      omega
    exact ⟨_, ⟨rfl, hlength⟩, List.take_prefix _ _, by rw [hlength]⟩
  complete {buf off arr bytes} h hpre := by
    obtain ⟨rfl, hlength⟩ := h
    have hle := hpre.length_le
    rw [List.length_drop] at hle
    rw [readArray8, if_neg (by omega), sliceOf, if_pos (by omega), List.drop_take,
      Nat.add_sub_cancel_left, ← hlength, ← List.prefix_iff_eq_take.mp hpre]
    rfl

theorem reads_readU64 :
    Reads readU64 (fun n bytes => bytes = toLeBytes n) := by
  refine (reads_readArray8.bind fun arr => reads_ok (fromLeBytes arr)).congr fun n bytes => ?_
  constructor
  · rintro ⟨arr, front, back, ⟨rfl, hlength⟩, ⟨rfl, rfl⟩, rfl⟩
    rw [List.append_nil]
    exact eq_toLeBytes_iff.mpr ⟨hlength, rfl⟩
  · intro h
    obtain ⟨hlength, rfl⟩ := eq_toLeBytes_iff.mp h
    exact ⟨bytes, bytes, [], ⟨rfl, hlength⟩, ⟨rfl, rfl⟩, (List.append_nil _).symm⟩

/-- Eight bytes and the symbol that they are copied to. -/
theorem toList_eq_iff
    {arr : List UInt8} {symbol : Symbol} :
    arr = symbol.toList ↔
      arr.length = 8 ∧ symbol = Vector.ofFn (n := 8) fun i => arr.getD i 0 := by
  constructor
  · rintro rfl
    refine ⟨by simp, ?_⟩
    ext i hi
    simp
  · rintro ⟨hlength, rfl⟩
    refine List.ext_getElem (by simp [hlength]) fun i hi _ => ?_
    simp [List.getElem?_eq_getElem hi]

theorem reads_readSymbol8 :
    Reads readSymbol8 (fun symbol bytes => bytes = symbol.toList) := by
  refine (reads_readArray8.bind fun arr =>
    reads_ok (Vector.ofFn fun i => arr.getD i 0)).congr fun symbol bytes => ?_
  constructor
  · rintro ⟨arr, front, back, ⟨rfl, hlength⟩, ⟨rfl, rfl⟩, rfl⟩
    rw [List.append_nil]
    exact toList_eq_iff.mpr ⟨hlength, rfl⟩
  · intro h
    obtain ⟨hlength, rfl⟩ := toList_eq_iff.mp h
    exact ⟨bytes, bytes, [], ⟨rfl, hlength⟩, ⟨rfl, rfl⟩, (List.append_nil _).symm⟩

/-- A reader of one byte that stands for a value. -/
theorem reads_byte
    {α : Type} {next : UInt8 × Nat → Parse (α × Nat)} {code : α → UInt8 → Prop}
    (hcode : ∀ v, Reads (fun _ off => next (v, off)) (fun a bytes => code a v ∧ bytes = [])) :
    Reads (fun buf off => readU8 buf off >>= next)
      (fun a bytes => ∃ v, code a v ∧ bytes = [v]) := by
  have hbind : Reads (fun buf off => readU8 buf off >>= fun p => next p)
      (Both (fun v bytes => bytes = [v]) (fun v a bytes => code a v ∧ bytes = [])) :=
    reads_readU8.bind hcode
  refine hbind.congr fun a bytes => ?_
  constructor
  · rintro ⟨v, front, back, rfl, ⟨hv, rfl⟩, rfl⟩
    exact ⟨v, hv, rfl⟩
  · rintro ⟨v, hv, rfl⟩
    exact ⟨v, [v], [], rfl, ⟨hv, rfl⟩, rfl⟩

/-- A reader of the byte of a value. -/
theorem reads_byteOf
    {α : Type} {next : UInt8 × Nat → Parse (α × Nat)} {f : α → UInt8}
    (hcode : ∀ v, Reads (fun _ off => next (v, off)) (fun a bytes => v = f a ∧ bytes = [])) :
    Reads (fun buf off => readU8 buf off >>= next) (fun a bytes => bytes = [f a]) := by
  refine (reads_byte hcode).congr fun a bytes => ?_
  simp

theorem reads_readSide :
    Reads readSide (fun side bytes => bytes = [sideByte side]) := by
  refine reads_byteOf fun v => ?_
  dsimp only
  split
  · refine (reads_ok Side.buy).congr fun side bytes => ?_
    cases side <;> simp [sideByte]
  · refine (reads_ok Side.sell).congr fun side bytes => ?_
    cases side <;> simp [sideByte]
  · next h0 h1 =>
      refine (reads_rejected _).congr fun side bytes => ?_
      cases side
      · simpa [sideByte] using fun h : v = 0 => absurd h h0
      · simpa [sideByte] using fun h : v = 1 => absurd h h1

theorem reads_readOrderType :
    Reads readOrderType (fun orderType bytes => bytes = [orderTypeByte orderType]) := by
  refine reads_byteOf fun v => ?_
  dsimp only
  split
  · refine (reads_ok OrderType.limit).congr fun orderType bytes => ?_
    cases orderType <;> simp [orderTypeByte]
  · refine (reads_ok OrderType.market).congr fun orderType bytes => ?_
    cases orderType <;> simp [orderTypeByte]
  · next h0 h1 =>
      refine (reads_rejected _).congr fun orderType bytes => ?_
      cases orderType
      · simpa [orderTypeByte] using fun h : v = 1 => absurd h h1
      · simpa [orderTypeByte] using fun h : v = 0 => absurd h h0

theorem reads_readTif :
    Reads readTif (fun tif bytes => ∃ v, tifByte tif = some v ∧ bytes = [v]) := by
  refine reads_byte fun v => ?_
  dsimp only
  split
  · refine (reads_ok TimeInForce.gtc).congr fun tif bytes => ?_
    cases tif <;> simp [tifByte]
  · refine (reads_ok TimeInForce.ioc).congr fun tif bytes => ?_
    cases tif <;> simp [tifByte]
  · refine (reads_ok TimeInForce.fok).congr fun tif bytes => ?_
    cases tif <;> simp [tifByte]
  · next h0 h1 h2 =>
      refine (reads_rejected _).congr fun tif bytes => ?_
      have hv : tifByte tif ≠ some v := by
        cases tif
        · simp [tifByte]
        · simpa [tifByte] using fun h : 1 = v => h1 h.symm
        · simpa [tifByte] using fun h : 2 = v => h2 h.symm
        · simpa [tifByte] using fun h : 0 = v => h0 h.symm
        · simp [tifByte]
      simp [hv]

theorem reads_readOptionU64 :
    Reads readOptionU64 (fun n bytes => bytes = optionBytes n) := by
  have hsome : Reads (fun buf off => readU64 buf off >>= fun p => .ok (some p.1, p.2))
      (fun n? bytes => ∃ n, n? = some n ∧ bytes = toLeBytes n) := by
    refine (reads_readU64.bind fun n => reads_ok (some n)).congr fun n? bytes => ?_
    constructor
    · rintro ⟨n, front, back, rfl, ⟨rfl, rfl⟩, rfl⟩
      exact ⟨n, rfl, List.append_nil _⟩
    · rintro ⟨n, rfl, rfl⟩
      exact ⟨n, _, [], rfl, ⟨rfl, rfl⟩, (List.append_nil _).symm⟩
  have hbind : Reads readOptionU64 (Both (fun v bytes => bytes = [v])
      (fun v n? bytes => optionBytes n? = v :: bytes)) := by
    refine reads_readU8.bind fun v => ?_
    dsimp only
    split
    · refine (reads_ok none).congr fun n? bytes => ?_
      cases n? <;> simp [optionBytes, eq_comm]
    · refine hsome.congr fun n? bytes => ?_
      cases n? <;> simp [optionBytes, eq_comm]
    · next h0 h1 =>
        refine (reads_rejected _).congr fun n? bytes => ?_
        cases n?
        · simpa [optionBytes] using fun h : 0 = v => absurd h.symm h0
        · simpa [optionBytes] using fun h : 1 = v => absurd h.symm h1
  refine hbind.congr fun n? bytes => ?_
  constructor
  · rintro ⟨v, front, back, rfl, hback, rfl⟩
    exact hback.symm
  · rintro rfl
    cases n? with
    | none => exact ⟨0, [0], [], rfl, rfl, rfl⟩
    | some n => exact ⟨1, [1], toLeBytes n, rfl, rfl, rfl⟩

end Fields

section Messages

theorem parses_parsePlace :
    Parses parsePlace (fun cmd bytes => encode cmd = some (1 :: bytes)) := by
  refine Parses.congr (reads_readU64.andThen fun clientId =>
    reads_readU64.andThen fun clientOrderId =>
    reads_readSymbol8.andThen fun symbol =>
    reads_readSide.andThen fun side =>
    reads_readOrderType.andThen fun orderType =>
    reads_readOptionU64.andThen fun price =>
    reads_readU64.andThen fun quantity =>
    reads_readTif.andThen fun tif =>
    parses_ok (Command.place clientId clientOrderId symbol side orderType price quantity tif))
    fun cmd bytes => ?_
  constructor
  · rintro ⟨clientId, _, _, rfl, ⟨clientOrderId, _, _, rfl, ⟨symbol, _, _, rfl, ⟨side, _, _, rfl,
      ⟨orderType, _, _, rfl, ⟨price, _, _, rfl, ⟨quantity, _, _, rfl, ⟨tif, _, _, ⟨v, hv, rfl⟩,
        ⟨rfl, rfl⟩, rfl⟩, rfl⟩, rfl⟩, rfl⟩, rfl⟩, rfl⟩, rfl⟩, rfl⟩
    rw [encode, hv, List.append_nil]
    rfl
  · intro h
    cases cmd with
    | place clientId clientOrderId symbol side orderType price quantity tif =>
        obtain ⟨v, hv, h⟩ := Option.map_eq_some_iff.mp h
        obtain rfl := (List.cons.inj h).2
        exact ⟨clientId, _, _, rfl, ⟨clientOrderId, _, _, rfl, ⟨symbol, _, _, rfl,
          ⟨side, _, _, rfl, ⟨orderType, _, _, rfl, ⟨price, _, _, rfl, ⟨quantity, _, _, rfl,
            ⟨tif, _, _, ⟨v, hv, rfl⟩, ⟨rfl, rfl⟩, rfl⟩, rfl⟩, rfl⟩, rfl⟩, rfl⟩, rfl⟩, rfl⟩, rfl⟩
    | cancel clientId clientOrderId => simp [encode] at h
    | modify clientId clientOrderId newPrice newQty => simp [encode] at h

theorem parses_parseCancel :
    Parses parseCancel (fun cmd bytes => encode cmd = some (2 :: bytes)) := by
  refine Parses.congr (reads_readU64.andThen fun clientId =>
    reads_readU64.andThen fun clientOrderId =>
    parses_ok (Command.cancel clientId clientOrderId)) fun cmd bytes => ?_
  constructor
  · rintro ⟨clientId, _, _, rfl, ⟨clientOrderId, _, _, rfl, ⟨rfl, rfl⟩, rfl⟩, rfl⟩
    rw [encode, List.append_nil]
  · intro h
    cases cmd with
    | place clientId clientOrderId symbol side orderType price quantity tif =>
        obtain ⟨v, -, h⟩ := Option.map_eq_some_iff.mp h
        simp at h
    | cancel clientId clientOrderId =>
        obtain rfl := (List.cons.inj (Option.some.inj h)).2
        exact ⟨clientId, _, _, rfl, ⟨clientOrderId, _, _, rfl, ⟨rfl, rfl⟩,
          (List.append_nil _).symm⟩, rfl⟩
    | modify clientId clientOrderId newPrice newQty => simp [encode] at h

theorem parses_parseModify :
    Parses parseModify (fun cmd bytes => encode cmd = some (3 :: bytes)) := by
  refine Parses.congr (reads_readU64.andThen fun clientId =>
    reads_readU64.andThen fun clientOrderId =>
    reads_readOptionU64.andThen fun newPrice =>
    reads_readOptionU64.andThen fun newQty =>
    parses_ok (Command.modify clientId clientOrderId newPrice newQty)) fun cmd bytes => ?_
  constructor
  · rintro ⟨clientId, _, _, rfl, ⟨clientOrderId, _, _, rfl, ⟨newPrice, _, _, rfl,
      ⟨newQty, _, _, rfl, ⟨rfl, rfl⟩, rfl⟩, rfl⟩, rfl⟩, rfl⟩
    rw [encode, List.append_nil]
  · intro h
    cases cmd with
    | place clientId clientOrderId symbol side orderType price quantity tif =>
        obtain ⟨v, -, h⟩ := Option.map_eq_some_iff.mp h
        simp at h
    | cancel clientId clientOrderId => simp [encode] at h
    | modify clientId clientOrderId newPrice newQty =>
        obtain rfl := (List.cons.inj (Option.some.inj h)).2
        exact ⟨clientId, _, _, rfl, ⟨clientOrderId, _, _, rfl, ⟨newPrice, _, _, rfl,
          ⟨newQty, _, _, rfl, ⟨rfl, rfl⟩, (List.append_nil _).symm⟩, rfl⟩, rfl⟩, rfl⟩

/-- Every message starts with one of the three tags. -/
theorem tag_of_encode
    {cmd : Command} {bytes : List UInt8}
    (h : encode cmd = some bytes) :
    ∃ tag rest, bytes = tag :: rest ∧ (tag = 1 ∨ tag = 2 ∨ tag = 3) := by
  cases cmd with
  | place clientId clientOrderId symbol side orderType price quantity tif =>
      obtain ⟨v, -, rfl⟩ := Option.map_eq_some_iff.mp h
      exact ⟨1, _, rfl, Or.inl rfl⟩
  | cancel clientId clientOrderId =>
      obtain rfl := Option.some.inj h
      exact ⟨2, _, rfl, Or.inr (Or.inl rfl)⟩
  | modify clientId clientOrderId newPrice newQty =>
      obtain rfl := Option.some.inj h
      exact ⟨3, _, rfl, Or.inr (Or.inr rfl)⟩

/-- The part of a message behind its tag. -/
theorem Parses.tagged
    {parse : List UInt8 → Nat → Parse Command} {tag : UInt8} {rest : List UInt8} {cmd : Command}
    (h : Parses parse (fun cmd bytes => encode cmd = some (tag :: bytes))) :
    parse (tag :: rest) 1 = .ok cmd ↔
      ∃ bytes, encode cmd = some bytes ∧ bytes <+: tag :: rest := by
  rw [h.accepts_iff]
  constructor
  · rintro ⟨bytes, hcode, hpre⟩
    exact ⟨tag :: bytes, hcode, List.cons_prefix_cons.mpr ⟨rfl, hpre⟩⟩
  · rintro ⟨bytes, hcode, hpre⟩
    obtain ⟨tag', back, rfl, -⟩ := tag_of_encode hcode
    obtain ⟨rfl, hback⟩ := List.cons_prefix_cons.mp hpre
    exact ⟨back, hcode, hback⟩

theorem parseCommand_inBounds
    (buf : List UInt8) :
    parseCommand buf ≠ .error .outOfBounds := by
  cases buf with
  | nil => simp [parseCommand]
  | cons tag rest =>
      rw [parseCommand, if_neg (by simp)]
      refine bind_inBounds (by simp [byteAt]) fun tag' _ => ?_
      split
      · exact parses_parsePlace.inBounds _ _
      · exact parses_parseCancel.inBounds _ _
      · exact parses_parseModify.inBounds _ _
      · simp

/-- **The parser accepts the messages of commands,** with anything behind them. -/
theorem parseCommand_eq_ok_iff
    (buf : List UInt8) (cmd : Command) :
    parseCommand buf = .ok cmd ↔ ∃ bytes, encode cmd = some bytes ∧ bytes <+: buf := by
  cases buf with
  | nil =>
      constructor
      · intro h
        simp [parseCommand] at h
      · rintro ⟨bytes, hcode, hpre⟩
        obtain ⟨tag, rest, rfl, -⟩ := tag_of_encode hcode
        exact absurd (List.prefix_nil.mp hpre) (by simp)
  | cons tag rest =>
      rw [parseCommand, if_neg (by simp), show byteAt (tag :: rest) 0 = .ok tag from rfl]
      simp only [bind, Except.bind]
      split
      · exact parses_parsePlace.tagged
      · exact parses_parseCancel.tagged
      · exact parses_parseModify.tagged
      · next h1 h2 h3 =>
          constructor
          · intro h
            exact absurd h (by simp)
          · rintro ⟨bytes, hcode, hpre⟩
            obtain ⟨tag', back, rfl, htag⟩ := tag_of_encode hcode
            obtain ⟨rfl, -⟩ := List.cons_prefix_cons.mp hpre
            rcases htag with rfl | rfl | rfl
            · exact absurd rfl h1
            · exact absurd rfl h2
            · exact absurd rfl h3

end Messages

end LmaxEngine
