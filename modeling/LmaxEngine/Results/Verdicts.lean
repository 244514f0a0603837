import LmaxEngine.Spec.Wire

/-!
# The parser, the wire format and verdicts on a stream

The parser takes a byte string to a command exactly if the string starts with
the message of the command.  Everything else about messages follows: they are
parsed whatever comes behind them, none is the start of another, and cutting a
byte string to the size of a slot changes nothing.

On a stream it matters what the parser says of the bytes that have arrived, against
what it will say of more of them.  An accepted command and a complaint about a byte
stay whatever follows, and `buffer underflow` is the complaint about what can still
become a message.
-/

namespace LmaxEngine

open Streaming

section Messages

variable {cmd cmd' : Command} {bytes bytes' : List UInt8}

theorem parseCommand_encode
    (h : encode cmd = some bytes) (tail : List UInt8) :
    parseCommand (bytes ++ tail) = .ok cmd :=
  (parseCommand_eq_ok_iff _ _).mpr ⟨bytes, h, List.prefix_append _ _⟩

/-- Messages are prefix-free. -/
theorem eq_of_encode_prefix
    (h : encode cmd = some bytes) (h' : encode cmd' = some bytes') (hpre : bytes <+: bytes') :
    cmd = cmd' := by
  have hcmd : parseCommand bytes' = .ok cmd := (parseCommand_eq_ok_iff _ _).mpr ⟨bytes, h, hpre⟩
  have hcmd' : parseCommand bytes' = .ok cmd' :=
    (parseCommand_eq_ok_iff _ _).mpr ⟨bytes', h', List.prefix_rfl⟩
  exact Except.ok.inj (hcmd.symm.trans hcmd')

/-- **The parser accepts exactly the wire format.**  It never reads out of
bounds; it accepts a byte string exactly if that starts with the message of a
command, which the commands have whose time in force the wire has a byte for;
it takes the message of a command with any tail back to the command; messages
of different commands are not prefixes of each other; and the first 256 bytes
of a byte string are parsed as the whole. -/
theorem parseCommand_exact :
    (∀ buf, parseCommand buf ≠ .error .outOfBounds) ∧
    (∀ buf cmd, parseCommand buf = .ok cmd ↔
      ∃ bytes, encode cmd = some bytes ∧ bytes <+: buf) ∧
    (∀ cmd, cmd.OnWire → ∃ bytes, encode cmd = some bytes ∧
      ∀ tail, parseCommand (bytes ++ tail) = .ok cmd) ∧
    (∀ cmd cmd' bytes bytes', encode cmd = some bytes → encode cmd' = some bytes' →
      bytes <+: bytes' → cmd = cmd') ∧
    (∀ buf, parseCommand (buf.take 256) = parseCommand buf) := by
  refine ⟨parseCommand_inBounds, parseCommand_eq_ok_iff, fun cmd hcmd => ?_,
    fun cmd cmd' bytes bytes' h h' hpre => eq_of_encode_prefix h h' hpre, parseCommand_take⟩
  obtain ⟨bytes, h⟩ := (encode_isSome_iff cmd).mpr hcmd
  exact ⟨bytes, h, parseCommand_encode h⟩

/-- A bid for the day. -/
def dayBid : Command :=
  .place 1 0 (Vector.replicate 8 0) .buy .limit (some 100) 1 .day

/-- No bytes are parsed as a bid for the day, so no way of writing commands is
taken back by the parser for all of them. -/
theorem parseCommand_ne_dayBid :
    (∀ buf, parseCommand buf ≠ .ok dayBid) ∧
    ∀ write : Command → List UInt8, ¬ ∀ cmd tail, parseCommand (write cmd ++ tail) = .ok cmd := by
  have hday : ∀ buf, parseCommand buf ≠ .ok dayBid := by
    intro buf h
    obtain ⟨bytes, hcode, -⟩ := (parseCommand_eq_ok_iff _ _).mp h
    simp [dayBid, encode, tifByte] at hcode
  exact ⟨hday, fun write hwrite => hday _ (hwrite dayBid [])⟩

/-- A bid of `make_place_bytes`. -/
example :
    encode (.place 1 7 #v[66, 84, 67, 85, 83, 68, 0, 0] .buy .limit (some 258) 10 .gtc) =
      some ([1] ++ [1, 0, 0, 0, 0, 0, 0, 0] ++ [7, 0, 0, 0, 0, 0, 0, 0] ++
        [66, 84, 67, 85, 83, 68, 0, 0] ++ [0] ++ [0] ++ [1] ++ [2, 1, 0, 0, 0, 0, 0, 0] ++
        [10, 0, 0, 0, 0, 0, 0, 0] ++ [0]) := by
  decide

end Messages

section Readers

variable {α : Type} {read : List UInt8 → Nat → Parse (α × Nat)} {code : α → List UInt8 → Prop}

theorem Reads.ok_append
    (h : Reads read code) {buf : List UInt8} {off : Nat} {r : α × Nat}
    (hle : off ≤ buf.length) (hok : read buf off = .ok r) (tail : List UInt8) :
    read (buf ++ tail) off = .ok r := by
  obtain ⟨a, off'⟩ := r
  obtain ⟨bytes, hcode, hpre, rfl⟩ := h.sound hok
  refine h.complete hcode ?_
  rw [List.drop_append_of_le_length hle]
  exact hpre.trans (List.prefix_append _ _)

theorem Reads.bounded
    (h : Reads read code) :
    Bounded read := by
  intro buf off a off' hle hok
  obtain ⟨bytes, -, hpre, rfl⟩ := h.sound hok
  have := hpre.length_le
  rw [List.length_drop] at this
  omega

/-- A reader whose only complaint is that there are fewer than `n` bytes left. -/
theorem Reads.streams
    {n : Nat} {want : α → Prop}
    (h : Reads read code) (hpos : 0 < n)
    (herror : ∀ buf off e, read buf off = .error e → e = underflow ∧ buf.length < off + n)
    (hcode : ∀ front : List UInt8, front.length < n →
      ∃ tail a, want a ∧ code a (front ++ tail)) :
    Streams underflow want read := by
  have hfills : ∀ buf off, off ≤ buf.length → buf.length < off + n →
      ∃ tail r, read (buf ++ tail) off = .ok r ∧ AtEnd want (buf ++ tail) r := by
    intro buf off hle hlt
    obtain ⟨tail, a, ha, hbytes⟩ := hcode (buf.drop off) (by rw [List.length_drop]; omega)
    have hpre : buf.drop off ++ tail <+: (buf ++ tail).drop off :=
      ⟨[], by rw [List.append_nil, List.drop_append_of_le_length hle]⟩
    refine ⟨tail, _, h.complete hbytes hpre, ha, ?_⟩
    rw [List.length_append, List.length_append, List.length_drop]
    omega
  exact {
    settles :=
      { ok_append := h.ok_append
        error_append := fun _ he hne => absurd (herror _ _ _ he).1 hne
        completes := fun hle he => hfills _ _ hle (herror _ _ _ he).2 }
    bounded := h.bounded
    fills := fun buf => hfills buf buf.length (Nat.le_refl _) (by omega) }

theorem readU8_error
    {buf : List UInt8} {off : Nat} {e : ReadError} (he : readU8 buf off = .error e) :
    e = underflow ∧ buf.length < off + 1 := by
  rw [readU8] at he
  split_ifs at he with hlen
  · exact ⟨(Except.error.inj he).symm, hlen⟩
  · rw [byteAt, List.getElem?_eq_getElem (by omega)] at he
    exact absurd he (by simp [Bind.bind, Except.bind])

theorem readArray8_error
    {buf : List UInt8} {off : Nat} {e : ReadError} (he : readArray8 buf off = .error e) :
    e = underflow ∧ buf.length < off + 8 := by
  rw [readArray8] at he
  split_ifs at he with hlen
  · exact ⟨(Except.error.inj he).symm, hlen⟩
  · rw [sliceOf, if_pos (by omega)] at he
    exact absurd he (by simp [Bind.bind, Except.bind])

theorem streams_readU8
    (v : UInt8) :
    Streams underflow (· = v) readU8 := by
  refine reads_readU8.streams Nat.one_pos (fun _ _ _ => readU8_error) fun front hfront => ?_
  obtain rfl := List.length_eq_zero_iff.mp (Nat.lt_one_iff.mp hfront)
  exact ⟨[v], v, rfl, rfl⟩

theorem streams_readArray8 :
    Streams underflow (fun _ => True) readArray8 := by
  refine reads_readArray8.streams (by decide) (fun _ _ _ => readArray8_error) fun front hfront => ?_
  refine ⟨List.replicate (8 - front.length) 0, _, trivial, rfl, ?_⟩
  rw [List.length_append, List.length_replicate]
  omega

theorem streams_readU64 :
    Streams underflow (fun _ => True) readU64 :=
  streams_readArray8.map fromLeBytes fun _ _ => trivial

theorem streams_readSymbol8 :
    Streams underflow (fun _ => True) readSymbol8 :=
  streams_readArray8.map (fun arr => (Vector.ofFn fun i => arr.getD i 0 : Symbol))
    fun _ _ => trivial

/-- A reader of one byte that stands for a value, `v` being the byte of one. -/
theorem streams_byte
    {next : UInt8 × Nat → List UInt8 → Parse (α × Nat)} (v : UInt8) (a : α)
    (hv : ∀ off buf, next (v, off) buf = .ok (a, off))
    (hsettles : ∀ w, Settles underflow (AtEnd fun _ => True) fun buf off => next (w, off) buf)
    (hbounded : ∀ w, Bounded fun buf off => next (w, off) buf) :
    Streams underflow (fun _ => True) fun buf off => readU8 buf off >>= fun p => next p buf := by
  refine (streams_readU8 v).bind next hsettles hbounded ?_
  rintro w rfl buf
  exact ⟨[], (a, buf.length), hv _ _, trivial, by rw [List.append_nil]⟩

theorem streams_readSide :
    Streams underflow (fun _ => True) readSide := by
  refine streams_byte 0 Side.buy (fun _ _ => rfl) (fun w => ?_) fun w => ?_
  · dsimp only
    split
    · exact settles_ok fun off => (_, off)
    · exact settles_ok fun off => (_, off)
    · exact settles_error (by decide)
  · dsimp only
    split
    · exact bounded_ok _
    · exact bounded_ok _
    · exact bounded_error _

theorem streams_readOrderType :
    Streams underflow (fun _ => True) readOrderType := by
  refine streams_byte 0 OrderType.limit (fun _ _ => rfl) (fun w => ?_) fun w => ?_
  · dsimp only
    split
    · exact settles_ok fun off => (_, off)
    · exact settles_ok fun off => (_, off)
    · exact settles_error (by decide)
  · dsimp only
    split
    · exact bounded_ok _
    · exact bounded_ok _
    · exact bounded_error _

theorem streams_readTif :
    Streams underflow (fun _ => True) readTif := by
  refine streams_byte 0 TimeInForce.gtc (fun _ _ => rfl) (fun w => ?_) fun w => ?_
  · dsimp only
    split
    · exact settles_ok fun off => (_, off)
    · exact settles_ok fun off => (_, off)
    · exact settles_ok fun off => (_, off)
    · exact settles_error (by decide)
  · dsimp only
    split
    · exact bounded_ok _
    · exact bounded_ok _
    · exact bounded_ok _
    · exact bounded_error _

theorem streams_readOptionU64 :
    Streams underflow (fun _ => True) readOptionU64 := by
  have hsome : Streams underflow (fun _ => True)
      fun buf off => readU64 buf off >>= fun p => .ok (some p.1, p.2) :=
    streams_readU64.map some fun _ _ => trivial
  refine streams_byte 0 (none : Option UInt64) (fun _ _ => rfl) (fun w => ?_) fun w => ?_
  · dsimp only
    split
    · exact settles_ok fun off => (_, off)
    · exact hsome.settles
    · exact settles_error (by decide)
  · dsimp only
    split
    · exact bounded_ok _
    · exact hsome.bounded
    · exact bounded_error _

end Readers

section Complaints

/-- What the readers complain of. -/
def Complaint (e : ReadError) : Prop :=
  e = underflow ∨ ∃ message, e = .rejected message ∧
    message ∈ ["invalid side", "invalid order type", "invalid time in force", "invalid option flag"]

theorem complaint_rejected
    {message : String}
    (h : message ∈
      ["invalid side", "invalid order type", "invalid time in force", "invalid option flag"]) :
    Complaint (.rejected message) :=
  Or.inr ⟨message, rfl, h⟩

theorem raises_readU8 :
    Raises Complaint readU8 :=
  fun _ _ _ h => Or.inl (readU8_error h).1

theorem raises_readArray8 :
    Raises Complaint readArray8 :=
  fun _ _ _ h => Or.inl (readArray8_error h).1

theorem raises_readU64 :
    Raises Complaint readU64 :=
  raises_readArray8.bind fun _ => raises_ok _

theorem raises_readSymbol8 :
    Raises Complaint readSymbol8 :=
  raises_readArray8.bind fun _ => raises_ok _

theorem raises_readSide :
    Raises Complaint readSide := by
  refine raises_readU8.bind fun v => ?_
  dsimp only
  split
  · exact raises_ok fun off => (_, off)
  · exact raises_ok fun off => (_, off)
  · exact raises_error (complaint_rejected (by decide))

theorem raises_readOrderType :
    Raises Complaint readOrderType := by
  refine raises_readU8.bind fun v => ?_
  dsimp only
  split
  · exact raises_ok fun off => (_, off)
  · exact raises_ok fun off => (_, off)
  · exact raises_error (complaint_rejected (by decide))

theorem raises_readTif :
    Raises Complaint readTif := by
  refine raises_readU8.bind fun v => ?_
  dsimp only
  split
  · exact raises_ok fun off => (_, off)
  · exact raises_ok fun off => (_, off)
  · exact raises_ok fun off => (_, off)
  · exact raises_error (complaint_rejected (by decide))

theorem raises_readOptionU64 :
    Raises Complaint readOptionU64 := by
  refine raises_readU8.bind fun v => ?_
  dsimp only
  split
  · exact raises_ok fun off => (_, off)
  · exact raises_readU64.bind fun _ => raises_ok _
  · exact raises_error (complaint_rejected (by decide))

end Complaints

section Messages

theorem starts_parsePlace :
    Starts underflow parsePlace :=
  streams_readU64.andThen fun _ => streams_readU64.andThen fun _ =>
    streams_readSymbol8.andThen fun _ => streams_readSide.andThen fun _ =>
      streams_readOrderType.andThen fun _ => streams_readOptionU64.andThen fun _ =>
        streams_readU64.andThen fun _ => streams_readTif.andThen fun _ => starts_ok _

theorem starts_parseCancel :
    Starts underflow parseCancel :=
  streams_readU64.andThen fun _ => streams_readU64.andThen fun _ => starts_ok _

theorem starts_parseModify :
    Starts underflow parseModify :=
  streams_readU64.andThen fun _ => streams_readU64.andThen fun _ =>
    streams_readOptionU64.andThen fun _ => streams_readOptionU64.andThen fun _ => starts_ok _

theorem raises_parsePlace :
    Raises Complaint parsePlace :=
  raises_readU64.bind fun _ => raises_readU64.bind fun _ =>
    raises_readSymbol8.bind fun _ => raises_readSide.bind fun _ =>
      raises_readOrderType.bind fun _ => raises_readOptionU64.bind fun _ =>
        raises_readU64.bind fun _ => raises_readTif.bind fun _ => raises_ok _

theorem raises_parseCancel :
    Raises Complaint parseCancel :=
  raises_readU64.bind fun _ => raises_readU64.bind fun _ => raises_ok _

theorem raises_parseModify :
    Raises Complaint parseModify :=
  raises_readU64.bind fun _ => raises_readU64.bind fun _ =>
    raises_readOptionU64.bind fun _ => raises_readOptionU64.bind fun _ => raises_ok _

/-- The tag chooses the parser of the rest, or is complained of. -/
theorem parseCommand_cons
    (tag : UInt8) :
    (∃ parse, Starts underflow parse ∧ Raises Complaint parse ∧ (tag = 1 ∨ tag = 2 ∨ tag = 3) ∧
      ∀ rest, parseCommand (tag :: rest) = parse (tag :: rest) 1) ∨
    (tag ≠ 1 ∧ tag ≠ 2 ∧ tag ≠ 3 ∧
      ∀ rest, parseCommand (tag :: rest) = .error (.rejected "unknown command tag")) := by
  by_cases h1 : tag = 1
  · subst h1
    exact Or.inl ⟨_, starts_parsePlace, raises_parsePlace, Or.inl rfl, fun _ => rfl⟩
  by_cases h2 : tag = 2
  · subst h2
    exact Or.inl ⟨_, starts_parseCancel, raises_parseCancel, Or.inr (Or.inl rfl), fun _ => rfl⟩
  by_cases h3 : tag = 3
  · subst h3
    exact Or.inl ⟨_, starts_parseModify, raises_parseModify, Or.inr (Or.inr rfl), fun _ => rfl⟩
  refine Or.inr ⟨h1, h2, h3, fun rest => ?_⟩
  rw [parseCommand, if_neg (by simp), show byteAt (tag :: rest) 0 = .ok tag from rfl]
  simp only [bind, Except.bind]

theorem Complaint.ne_rejected
    {e : ReadError} (h : Complaint e) :
    e ≠ .rejected "empty buffer" ∧ e ≠ .rejected "unknown command tag" := by
  obtain rfl | ⟨message, rfl, hmessage⟩ := h
  · exact ⟨by decide, by decide⟩
  · constructor
    · rintro h
      rw [ReadError.rejected.inj h] at hmessage
      exact absurd hmessage (by decide)
    · rintro h
      rw [ReadError.rejected.inj h] at hmessage
      exact absurd hmessage (by decide)

/-- A verdict on one byte or more is final unless it is the underflow. -/
theorem parseCommand_append
    {buf : List UInt8} (hne : buf ≠ []) (hverdict : parseCommand buf ≠ .error underflow)
    (tail : List UInt8) :
    parseCommand (buf ++ tail) = parseCommand buf := by
  obtain ⟨tag, rest, rfl⟩ := List.exists_cons_of_ne_nil hne
  obtain ⟨parse, hstarts, -, -, heq⟩ | ⟨-, -, -, heq⟩ := parseCommand_cons tag
  · rw [List.cons_append, heq, heq]
    rw [heq] at hverdict
    have hle : 1 ≤ (tag :: rest).length := by
      rw [List.length_cons]
      omega
    cases hparse : parse (tag :: rest) 1 with
    | ok cmd => exact hstarts.settles.ok_append hle hparse tail
    | error e =>
        refine hstarts.settles.error_append hle hparse (fun he => hverdict ?_) tail
        rw [hparse, he]
  · rw [List.cons_append, heq, heq]

/-- What underflows can be completed. -/
theorem exists_of_underflow
    {buf : List UInt8} (h : parseCommand buf = .error underflow) :
    ∃ tail cmd, parseCommand (buf ++ tail) = .ok cmd := by
  cases buf with
  | nil => exact absurd h (by decide)
  | cons tag rest =>
      obtain ⟨parse, hstarts, -, -, heq⟩ | ⟨-, -, -, heq⟩ := parseCommand_cons tag
      · rw [heq] at h
        have hle : 1 ≤ (tag :: rest).length := by
          rw [List.length_cons]
          omega
        obtain ⟨tail, cmd, hcmd, -⟩ := hstarts.settles.completes hle h
        exact ⟨tail, cmd, by rw [List.cons_append, heq]; exact hcmd⟩
      · rw [heq] at h
        exact absurd h (by decide)

/-- The underflow is the verdict on the proper beginnings of messages. -/
theorem parseCommand_eq_underflow_iff
    (buf : List UInt8) :
    parseCommand buf = .error underflow ↔
      buf ≠ [] ∧ ∃ cmd bytes, encode cmd = some bytes ∧ buf <+: bytes ∧ buf ≠ bytes := by
  constructor
  · intro h
    refine ⟨by rintro rfl; exact absurd h (by decide), ?_⟩
    obtain ⟨tail, cmd, hcmd⟩ := exists_of_underflow h
    obtain ⟨bytes, hcode, hpre⟩ := (parseCommand_eq_ok_iff _ _).mp hcmd
    have hnot : ¬ bytes <+: buf := by
      intro hbuf
      rw [(parseCommand_eq_ok_iff _ _).mpr ⟨bytes, hcode, hbuf⟩] at h
      exact absurd h (by simp)
    refine ⟨cmd, bytes, hcode, ?_, ?_⟩
    · exact (List.prefix_or_prefix_of_prefix (List.prefix_append buf tail) hpre).resolve_right hnot
    · rintro rfl
      exact hnot List.prefix_rfl
  · rintro ⟨hne, cmd, bytes, hcode, ⟨tail, rfl⟩, hproper⟩
    by_contra hverdict
    -- Otherwise the verdict is that on the whole message, and the beginning is a message.
    have hwhole := parseCommand_append hne hverdict tail
    rw [(parseCommand_eq_ok_iff _ _).mpr ⟨_, hcode, List.prefix_rfl⟩] at hwhole
    obtain ⟨bytes, hcode', hpre⟩ := (parseCommand_eq_ok_iff _ _).mp hwhole.symm
    obtain rfl : bytes = buf ++ tail := Option.some.inj (hcode'.symm.trans hcode)
    have hlen := hpre.length_le
    rw [List.length_append] at hlen
    obtain rfl : tail = [] := List.length_eq_zero_iff.mp (by omega)
    exact hproper (List.append_nil buf).symm

/-- **Verdicts on a stream.**  The buffer is called empty only if it is; the tag is
called unknown only if it is none of the three; the buffer underflows exactly if it is
the beginning of a message, and not all of it; and every other verdict is final. -/
theorem parseCommand_streams :
    (∀ buf, parseCommand buf = .error (.rejected "empty buffer") ↔ buf = []) ∧
    (∀ buf, parseCommand buf = .error (.rejected "unknown command tag") ↔
      ∃ tag rest, buf = tag :: rest ∧ tag ≠ 1 ∧ tag ≠ 2 ∧ tag ≠ 3) ∧
    (∀ buf, parseCommand buf = .error underflow ↔
      buf ≠ [] ∧ ∃ cmd bytes, encode cmd = some bytes ∧ buf <+: bytes ∧ buf ≠ bytes) ∧
    (∀ buf tail, buf ≠ [] → parseCommand buf ≠ .error underflow →
      parseCommand (buf ++ tail) = parseCommand buf) := by
  refine ⟨fun buf => ?_, fun buf => ?_, parseCommand_eq_underflow_iff,
    fun buf tail hne hverdict => parseCommand_append hne hverdict tail⟩
  · cases buf with
    | nil => simp [parseCommand]
    | cons tag rest =>
        simp only [reduceCtorEq, iff_false]
        intro h
        obtain ⟨parse, -, hraises, -, heq⟩ | ⟨-, -, -, heq⟩ := parseCommand_cons tag
        · rw [heq] at h
          exact (hraises _ _ _ h).ne_rejected.1 rfl
        · rw [heq] at h
          exact absurd h (by decide)
  · cases buf with
    | nil => simp [parseCommand]
    | cons tag rest =>
        obtain ⟨parse, -, hraises, htag, heq⟩ | ⟨h1, h2, h3, heq⟩ := parseCommand_cons tag
        · rw [heq]
          constructor
          · intro h
            exact absurd rfl (hraises _ _ _ h).ne_rejected.2
          · rintro ⟨_, _, hcons, h1, h2, h3⟩
            obtain ⟨rfl, rfl⟩ := List.cons.inj hcons
            rcases htag with rfl | rfl | rfl
            · exact absurd rfl h1
            · exact absurd rfl h2
            · exact absurd rfl h3
        · exact ⟨fun _ => ⟨tag, rest, rfl, h1, h2, h3⟩, fun _ => heq rest⟩

end Messages

end LmaxEngine
