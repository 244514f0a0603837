import Mathlib.Algebra.GroupWithZero.Nat
import LmaxEngine.Lib.Wirings
import LmaxEngine.Results.Delivery

/-!
# The input ring, however it is wired

A wiring lets every consumer find its own messages, in all interleavings and for all
messages, exactly if every consumer that runs waits for the producer and is waited
for by it.  The pipeline with a journal and a replicator is wired like this, and the
pipeline of `main` is, but a journal that is merely started beside the threads of
`main` would be left behind and find later messages.

In such a wiring the processor reads the parsed messages in order if it waits for the
unmarshaller, and no interleaving ends in a deadlock if the consumers that run wait in
no circle and for such as run only.
-/

namespace LmaxEngine

open Disruptor Sequencing Transition

instance : Fintype Consumer where
  elems := {.unmarshaller, .replicator, .journal, .businessLogic}
  complete c := by cases c <;> decide

/-- What a slot holds for a message and the consumers that are through with it. -/
def HoldsMessage (through : Consumer → Prop) (message : Message) (slot : InputSlot) : Prop :=
  slot.bytes = message.raw.take 256 ∧ slot.timestampNs = message.timestampNs ∧
    (through .unmarshaller → slot.command = (parseCommand message.raw).toOption)

/-- The command that the unmarshaller is to write is that of the message. -/
def KnowsCommand (c : Consumer) (message : Message) (memory : Memory) : Prop :=
  c = .unmarshaller → ∀ command, memory = some command →
    command = (parseCommand message.raw).toOption

/-- The accesses that a consumer has left at a slot, but for the last one. -/
def accessesLeft (_ : Consumer) : Memory → Nat
  | none => 1
  | some _ => 0

section Machine

variable {wiring : Wiring Consumer} {k : Nat}

theorem inputMachine_size
    (k : Nat) :
    (inputMachine (2 ^ k)).size = 2 ^ k :=
  RingBuffer.capacity_eq (r := (RingBuffer.new (2 ^ k) : RingBuffer InputSlot)) rfl

theorem inputMachine_size_pos
    (k : Nat) :
    0 < (inputMachine (2 ^ k)).size := by
  rw [inputMachine_size]
  exact Int.pow_pos (by decide)

theorem spread_inputMachine
    (k : Nat) :
    Spread (inputMachine (2 ^ k)).index (inputMachine (2 ^ k)).size (2 ^ 63) := by
  rw [inputMachine_size]
  exact RingBuffer.spread_index rfl

theorem halts_inputMachine
    (capacity : Nat) :
    (inputMachine capacity).Halts accessesLeft := by
  intro c memory slot slot' memory' hvisit
  have hmemory : (Consumer.visit c memory slot).2 = some memory' := by
    change (inputMachine capacity).visit c memory slot = _ at hvisit
    exact congrArg Prod.snd hvisit
  cases c <;> cases memory <;> simp [Consumer.visit] at hmemory
  subst hmemory
  exact Nat.zero_lt_one

/-- **The consumers keep the messages in the slots**, and the unmarshaller adds their
commands. -/
theorem rule_inputMachine
    (wiring : Wiring Consumer) (capacity : Nat) :
    Rule wiring (inputMachine capacity) HoldsMessage KnowsCommand where
  fill message := ⟨InputSlot.bytes_ofRaw _ _, rfl, fun hfalse => absurd hfalse id⟩
  start c message := fun _ command hcommand => absurd hcommand (by simp [inputMachine])
  visit {through c message slot slot' memory memory'} hready hgood hknows hvisit := by
    change Consumer.visit c memory slot = _ at hvisit
    cases c <;> cases memory <;> simp [Consumer.visit] at hvisit
    obtain ⟨rfl, rfl⟩ := hvisit
    refine ⟨hgood, fun _ command hcommand => ?_⟩
    rw [Option.some.injEq] at hcommand
    rw [← hcommand, unmarshal, hgood.1, parseCommand_take]
  leave {through c message slot slot' memory} hready hgood hknows hvisit := by
    change Consumer.visit c memory slot = _ at hvisit
    obtain ⟨hbytes, htime, hcommand⟩ := hgood
    cases c with
    | unmarshaller =>
        cases memory with
        | none => simp [Consumer.visit] at hvisit
        | some command =>
            obtain ⟨rfl, -⟩ := Prod.mk.inj hvisit
            exact ⟨hbytes, htime, fun _ => hknows rfl command rfl⟩
    | replicator =>
        obtain ⟨rfl, -⟩ := Prod.mk.inj hvisit
        exact ⟨hbytes, htime, fun h => hcommand (h.resolve_right (by decide))⟩
    | journal =>
        obtain ⟨rfl, -⟩ := Prod.mk.inj hvisit
        exact ⟨hbytes, htime, fun h => hcommand (h.resolve_right (by decide))⟩
    | businessLogic =>
        obtain ⟨rfl, -⟩ := Prod.mk.inj hvisit
        exact ⟨hbytes, htime, fun h => hcommand (h.resolve_right (by decide))⟩

theorem visit_timestampNs
    {c : Consumer} {memory : Memory} {slot slot' : InputSlot} {later : Option Memory}
    {capacity : Nat}
    (hvisit : (inputMachine capacity).visit c memory slot = (slot', later)) :
    slot'.timestampNs = slot.timestampNs := by
  change Consumer.visit c memory slot = _ at hvisit
  cases c <;> cases memory <;>
    (obtain ⟨rfl, -⟩ := Prod.mk.inj hvisit; rfl)

end Machine

section Wirings

/-- The place of a consumer in both wirings. -/
def stage : Consumer → Nat
  | .businessLogic => 1
  | _ => 0

theorem live_pipelineWiring :
    pipelineWiring.Live where
  acyclic := Wiring.acyclic_of_rank stage fun c d hd => by
    cases c <;> simp [pipelineWiring] at hd
    rcases hd with rfl | rfl | rfl <;> exact Nat.zero_lt_one
  closed _ _ := trivial
  gate := trivial

theorem live_mainWiring :
    mainWiring.Live where
  acyclic := Wiring.acyclic_of_rank stage fun c d hd => by
    cases c <;> simp [mainWiring] at hd
    subst hd
    exact Nat.zero_lt_one
  closed {c d} _ hd := by
    cases c <;> simp [mainWiring] at hd
    exact Or.inl hd
  gate := Or.inr rfl

theorem sound_pipelineWiring :
    pipelineWiring.Sound where
  fed c _ := by
    have hfed : pipelineWiring.Fed .unmarshaller :=
      ⟨.unmarshaller, by simp [pipelineWiring], Relation.ReflTransGen.refl⟩
    cases c with
    | unmarshaller => exact hfed
    | replicator => exact ⟨.replicator, by simp [pipelineWiring], Relation.ReflTransGen.refl⟩
    | journal => exact ⟨.journal, by simp [pipelineWiring], Relation.ReflTransGen.refl⟩
    | businessLogic =>
        obtain ⟨d, hnone, hup⟩ := hfed
        exact ⟨d, hnone, hup.tail (by simp [pipelineWiring])⟩
  gated c _ := by
    cases c with
    | businessLogic => exact Relation.ReflTransGen.refl
    | unmarshaller => exact Relation.ReflTransGen.single (by simp [pipelineWiring])
    | replicator => exact Relation.ReflTransGen.single (by simp [pipelineWiring])
    | journal => exact Relation.ReflTransGen.single (by simp [pipelineWiring])

theorem mainWiring_upstream :
    mainWiring.Upstream .unmarshaller .businessLogic :=
  Relation.ReflTransGen.single (by simp [mainWiring])

theorem sound_mainWiring :
    mainWiring.Sound where
  fed c hc := by
    have hnone : none ∈ mainWiring.dependencies .unmarshaller := by simp [mainWiring]
    rcases hc with rfl | rfl
    · exact ⟨.unmarshaller, hnone, Relation.ReflTransGen.refl⟩
    · exact ⟨.unmarshaller, hnone, mainWiring_upstream⟩
  gated c hc := by
    rcases hc with rfl | rfl
    · exact mainWiring_upstream
    · exact Relation.ReflTransGen.refl

/-- The threads of `main`, and a journal beside them. -/
def journaledWiring : Wiring Consumer :=
  { mainWiring with runs := fun c => mainWiring.runs c ∨ c = .journal }

theorem live_journaledWiring :
    journaledWiring.Live where
  acyclic := live_mainWiring.acyclic
  closed {c d} _ hd := by
    cases c <;> simp [journaledWiring, mainWiring] at hd
    exact Or.inl (Or.inl hd)
  gate := Or.inl (Or.inr rfl)

/-- Nobody waits for the journal. -/
theorem not_sound_journaledWiring :
    ¬ journaledWiring.Sound := by
  intro h
  rcases Relation.ReflTransGen.cases_head (h.gated .journal (Or.inr rfl)) with he | ⟨d, hd, -⟩
  · exact absurd he (by decide)
  · cases d <;> simp [journaledWiring, mainWiring] at hd

end Wirings

/-- Every consumer that is at a slot finds the message with the number that it has come
for, whatever the messages and in every interleaving. -/
def ReadsOwn (wiring : Wiring Consumer) (capacity : Nat) : Prop :=
  ∀ {messages : List Message} {hist s c n memory}, messages.length < 2 ^ 63 →
    Trail (Disruptor.Step wiring (inputMachine capacity) messages) State.new hist s →
    s.consumer c = .visiting n memory →
    0 ≤ n ∧ ∃ slot message, s.cells ((inputMachine capacity).index n) = some slot ∧
      messages[n.toNat]? = some message ∧
      slot.bytes = message.raw.take 256 ∧ slot.timestampNs = message.timestampNs

/-- A slot holds the last message that was written there. -/
def Stamped
    (capacity : Nat) (messages : List Message) (s : State Consumer InputSlot Memory) : Prop :=
  ∀ i slot, s.cells i = some slot → ∃ m message, 0 ≤ m ∧ m ≤ s.top ∧
    messages[m.toNat]? = some message ∧ slot.timestampNs = message.timestampNs ∧
    ∀ m', 0 ≤ m' → m' ≤ s.top → (inputMachine capacity).index m' = i → m' ≤ m

section Stamps

variable {wiring : Wiring Consumer} {capacity : Nat} {messages : List Message}
variable {s t : State Consumer InputSlot Memory} {es : List (Visit Consumer InputSlot)}

theorem Stamped.write
    {i : Nat} {slot slot' : InputSlot}
    (h : Stamped capacity messages s) (hcell : s.cells i = some slot)
    (hsame : slot'.timestampNs = slot.timestampNs) :
    Stamped capacity messages (s.write i slot') := by
  intro j found hfound
  by_cases hj : j = i
  · subst hj
    obtain ⟨m, message, hpos, hle, hmessage, htime, hlast⟩ := h j slot hcell
    refine ⟨m, message, hpos, hle, hmessage, ?_, hlast⟩
    have hwritten : found = slot' := by simpa [State.write] using hfound.symm
    rw [hwritten, hsame, htime]
  · have hother : s.cells j = some found := by simpa [State.write, hj] using hfound
    exact h j found hother

theorem Stamped.fill
    {n : Int} {message : Message}
    (h : Stamped capacity messages s) (hord : Ordered wiring (inputMachine capacity) messages s)
    (hphase : s.producer = .claimed n) (hitem : messages[n.toNat]? = some message) :
    Stamped capacity messages
      { s.write ((inputMachine capacity).index n) ((inputMachine capacity).fill message) with
        producer := .written n } := by
  have hp := hord.producer
  rw [hphase] at hp
  have hown := hp.1
  have hstart := hord.start none
  have htop : s.top = n - 1 := by
    have hold : s.top = s.sequence none := by simp only [State.top, hphase]
    omega
  intro j slot hslot
  by_cases hj : j = (inputMachine capacity).index n
  · have hwritten : slot = (inputMachine capacity).fill message := by
      simpa [State.write, hj] using hslot.symm
    refine ⟨n, message, by omega, le_refl n, hitem, ?_, fun m' _ hle _ => hle⟩
    rw [hwritten]
    rfl
  · have hother : s.cells j = some slot := by simpa [State.write, hj] using hslot
    obtain ⟨m, message', hpos, hle, hmessage, htime, hlast⟩ := h j slot hother
    have hle' : m ≤ n := by omega
    refine ⟨m, message', hpos, hle', hmessage, htime, fun m' hpos' hle' hindex => ?_⟩
    have hle' : m' ≤ n := hle'
    refine hlast m' hpos' ?_ hindex
    have hne : m' ≠ n := fun he => hj (he ▸ hindex.symm)
    omega

/-- Every step keeps the last message in a slot. -/
theorem step_stamped
    (hstep : Disruptor.Step wiring (inputMachine capacity) messages s es t)
    (hord : Ordered wiring (inputMachine capacity) messages s)
    (h : Stamped capacity messages s) :
    Stamped capacity messages t := by
  cases hstep with
  | claim hphase =>
      intro j slot hslot
      have hout := h j slot hslot
      simpa only [State.top, hphase] using hout
  | fill hphase hitem => exact h.fill hord hphase hitem
  | publish hphase =>
      intro j slot hslot
      have hout := h j slot hslot
      simp only [State.top, hphase] at hout
      simpa [State.top, State.store] using hout
  | begin c => exact h
  | look c => exact h
  | pass c => exact h
  | retry c => exact h
  | visit c hphase hcell hvisit => exact h.write hcell (visit_timestampNs hvisit)
  | leave c hphase hcell hvisit => exact h.write hcell (visit_timestampNs hvisit)
  | @advance n c hphase =>
      intro j slot hslot
      have hout := h j slot hslot
      simpa [State.top, State.enter, State.store] using hout

end Stamps

section Exactness

variable {wiring : Wiring Consumer} {k : Nat}

/-- Messages that are told apart by their times. -/
def numbered (count : Nat) : List Message :=
  (List.range count).map fun i => { raw := [], timestampNs := UInt64.ofNat i }

theorem numbered_eq_of_timestampNs
    {count i j : Nat} {m m' : Message}
    (hcount : count < 2 ^ 63) (hi : (numbered count)[i]? = some m)
    (hj : (numbered count)[j]? = some m') (htime : m.timestampNs = m'.timestampNs) :
    i = j := by
  simp only [numbered, List.getElem?_map, Option.map_eq_some_iff] at hi hj
  obtain ⟨i', hi, rfl⟩ := hi
  obtain ⟨j', hj, rfl⟩ := hj
  simp only [List.getElem?_eq_some_iff, List.length_range, List.getElem_range,
    exists_prop] at hi hj
  obtain ⟨hi, rfl⟩ := hi
  obtain ⟨hj, rfl⟩ := hj
  have hnat := congrArg UInt64.toNat htime
  simp only [UInt64.toNat_ofNat'] at hnat
  omega

/-- The slot of a number is used again a round later. -/
theorem index_add_size
    {n : Int}
    (hpos : 0 ≤ n) (hlt : n + 2 ^ k < 2 ^ 63) :
    (inputMachine (2 ^ k)).index (n + 2 ^ k) = (inputMachine (2 ^ k)).index n := by
  have hpow : (0 : Int) < 2 ^ k := Int.pow_pos (by decide)
  change (RingBuffer.new (2 ^ k) : RingBuffer InputSlot).index _ =
    (RingBuffer.new (2 ^ k) : RingBuffer InputSlot).index _
  rw [RingBuffer.index_eq (k := k) rfl]
  obtain ⟨m, rfl⟩ := Int.eq_ofNat_of_zero_le hpos
  dsimp only
  rw [Nat.and_two_pow_sub_one_eq_mod, Nat.and_two_pow_sub_one_eq_mod,
    Int.emod_eq_of_lt (by omega) (by omega), Int.emod_eq_of_lt (by omega) (by omega)]
  have hcast : ((m : Int) + 2 ^ k).toNat = m + 2 ^ k := by
    have hnat : ((2 ^ k : Nat) : Int) = 2 ^ k := by push_cast; rfl
    omega
  rw [hcast, Int.toNat_natCast, Nat.add_mod_right]

/-- In a sound wiring a consumer finds the message that it has come for. -/
theorem readsOwn_of_sound
    (hsound : wiring.Sound) (k : Nat) :
    ReadsOwn wiring (2 ^ k) := by
  intro messages hist s c n memory hlen htrail hphase
  have h := lawful_of_trail (rule_inputMachine wiring (2 ^ k)) hsound (spread_inputMachine k)
    (by omega) (inputMachine_size_pos k) htrail
  obtain ⟨-, message, slot, hmessage, hslot, ⟨hbytes, htime, -⟩, -⟩ :=
    h.stored.visiting h.ordered hsound hphase
  exact ⟨(h.ordered.in_window hsound hphase).1, slot, message, hslot, hmessage, hbytes, htime⟩

/-- If consumers find the messages of a round and one more, the wiring is sound. -/
theorem sound_of_readsOwn
    (hlive : wiring.Live) (hk : k ≤ 62) (hreads : ReadsOwn wiring (2 ^ k)) :
    wiring.Sound := by
  have hpow : (2 : Nat) ^ k ≤ 2 ^ 62 := Nat.pow_le_pow_right (by decide) hk
  have hcast : ((2 ^ k : Nat) : Int) = 2 ^ k := by push_cast; rfl
  have hpos : (0 : Int) < 2 ^ k := Int.pow_pos (by decide)
  have hcount : (numbered (2 ^ k + 1)).length = 2 ^ k + 1 := by simp [numbered]
  have htop : ((numbered (2 ^ k + 1)).length : Int) ≤ i64Max := by
    rw [hcount, i64Max]
    omega
  have hmore : (inputMachine (2 ^ k)).size < (numbered (2 ^ k + 1)).length := by
    rw [inputMachine_size, hcount]
    omega
  have hsafe : Safe wiring (inputMachine (2 ^ k)) (numbered (2 ^ k + 1)) := by
    intro hist s c n memory htrail hphase
    have hinv := htrail.preserves
      (P := fun s => Ordered wiring (inputMachine (2 ^ k)) (numbered (2 ^ k + 1)) s ∧
        Stamped (2 ^ k) (numbered (2 ^ k + 1)) s)
      (fun h hstep => ⟨hstep.ordered h.1, step_stamped hstep h.1 h.2⟩)
      ⟨ordered_new (inputMachine_size_pos k).le, fun i slot hslot => absurd hslot (by
        simp [State.new])⟩
    obtain ⟨hord, hstamped⟩ := hinv
    obtain ⟨hn, slot, message, hslot, hmessage, -, htime⟩ :=
      hreads (hcount.trans_lt (by omega)) htrail hphase
    obtain ⟨m, message', hmpos, hmle, hmessage', htime', hlast⟩ := hstamped _ _ hslot
    have hsame : m.toNat = n.toNat := numbered_eq_of_timestampNs (by omega) hmessage' hmessage
      (htime'.symm.trans htime)
    refine ⟨hn, by omega, ?_⟩
    have htop := hord.top_bounds.2.1
    rw [inputMachine_size]
    by_contra hlate
    have hagain := hlast (n + 2 ^ k) (by omega) (by omega)
      (index_add_size hn (by omega))
    omega
  exact (safe_iff hlive (halts_inputMachine _) htop (inputMachine_size_pos k) hmore).mp hsafe

/-- **Which wirings are right**: where the consumers that run wait for such as run only,
the gate runs and nobody waits in a circle, a consumer always finds the message that it
has come for exactly if every consumer that runs is between the producer and the gate. -/
theorem readsOwn_iff
    (hlive : wiring.Live) (hk : k ≤ 62) :
    ReadsOwn wiring (2 ^ k) ↔ wiring.Sound :=
  ⟨sound_of_readsOwn hlive hk, fun hsound => readsOwn_of_sound hsound k⟩

/-- The threads of the pipeline and those of `main` find their own messages, on a ring
of 1024 slots; a journal that is started beside those of `main` would not. -/
theorem readsOwn_iff_main :
    ReadsOwn pipelineWiring (2 ^ 10) ∧ ReadsOwn mainWiring (2 ^ 10) ∧
      ¬ ReadsOwn journaledWiring (2 ^ 10) :=
  ⟨(readsOwn_iff live_pipelineWiring (by decide)).mpr sound_pipelineWiring,
    (readsOwn_iff live_mainWiring (by decide)).mpr sound_mainWiring,
    fun h => not_sound_journaledWiring ((readsOwn_iff live_journaledWiring (by decide)).mp h)⟩

end Exactness

section Delivery

variable {wiring : Wiring Consumer} {k : Nat} {messages : List Message}
variable {s : State Consumer InputSlot Memory} {hist : List (Visit Consumer InputSlot)}

theorem lawful_inputMachine
    (hsound : wiring.Sound) (hlen : messages.length < 2 ^ 63)
    (htrail : Trail (Disruptor.Step wiring (inputMachine (2 ^ k)) messages) State.new hist s) :
    Lawful wiring (inputMachine (2 ^ k)) messages HoldsMessage KnowsCommand hist s :=
  lawful_of_trail (rule_inputMachine wiring (2 ^ k)) hsound (spread_inputMachine k)
    (by omega) (inputMachine_size_pos k) htrail

/-- What the processor has read, where it waits for the unmarshaller. -/
theorem deliveries_eq
    (h : Lawful wiring (inputMachine (2 ^ k)) messages HoldsMessage KnowsCommand hist s)
    (hparse : wiring.Upstream .unmarshaller .businessLogic) :
    deliveries hist = (messages.take (s.done .businessLogic + 1).toNat).map Pipeline.delivery := by
  refine h.map_found (f := InputSlot.delivered) fun hready hgood => ?_
  have hparsed := hready.2.2 .unmarshaller hparse (by decide)
  rw [InputSlot.delivered, Pipeline.delivery, hgood.2.2 hparsed, hgood.2.1]

/-- **Delivery in any sound wiring.**  However the threads interleave, the processor has
read the parsed messages one by one if it waits for the unmarshaller, every consumer has
seen the bytes of the messages one by one, and what the processor has read the consumers
that it waits for are through with. -/
theorem wired_delivers
    (hsound : wiring.Sound) (hparse : wiring.Upstream .unmarshaller .businessLogic)
    (hlen : messages.length < 2 ^ 63)
    (htrail : Trail (Disruptor.Step wiring (inputMachine (2 ^ k)) messages) State.new hist s) :
    deliveries hist = (messages.take (s.done .businessLogic + 1).toNat).map Pipeline.delivery ∧
      (∀ c, (visitsOf c hist).map (fun v => (v.found.bytes, v.found.timestampNs)) =
        (messages.take (s.done c + 1).toNat).map fun m => (m.raw.take 256, m.timestampNs)) ∧
      ∀ c, c ≠ .businessLogic → wiring.Upstream c .businessLogic →
        s.done .businessLogic ≤ s.sequence (some c) := by
  have h := lawful_inputMachine hsound hlen htrail
  refine ⟨deliveries_eq h hparse, fun c => ?_, fun c hne hup => ?_⟩
  · refine h.map_found (f := fun slot => (slot.bytes, slot.timestampNs)) fun hready hgood => ?_
    rw [hgood.1, hgood.2.1]
  · have hc := h.ordered.consumer .businessLogic
    unfold State.done
    cases hphase : s.consumer .businessLogic with
    | idle => exact h.ordered.upstream_le hup
    | waiting next scan => exact h.ordered.upstream_le hup
    | visiting n memory => exact h.ordered.upstream_le hup
    | leaving n =>
        rw [hphase] at hc
        exact h.ordered.le_of_upstream hup hne hc.2.2

/-- A whole run of the threads of `main` on the messages of the trade. -/
theorem wired_delivers_main :
    ∃ hist s, Trail (Disruptor.Step mainWiring (inputMachine (2 ^ 10))
        Pipeline.tradeMessages) State.new hist s ∧
      s.done .businessLogic = 3 ∧
      deliveries hist = Pipeline.tradeMessages.map Pipeline.delivery := by
  have hnew : Trail (Disruptor.Step mainWiring (inputMachine (2 ^ 10))
      Pipeline.tradeMessages) State.new [] State.new := Trail.refl State.new
  obtain ⟨hist, s, htrail, hdrained⟩ := exists_trail_drained live_mainWiring
    sound_mainWiring.fed (halts_inputMachine _) (by decide) (inputMachine_size_pos 10) hnew
  have hord := htrail.preserves
    (P := Ordered mainWiring (inputMachine (2 ^ 10)) Pipeline.tradeMessages)
    (fun h hstep => hstep.ordered h) (ordered_new (inputMachine_size_pos 10).le)
  have hdone : s.done .businessLogic = 3 := by
    have hcount : Pipeline.tradeMessages.length = 4 := rfl
    have hbounds := hord.done_bounds sound_mainWiring .businessLogic
    have hnone := hdrained.1
    have hown := hdrained.2 .businessLogic (Or.inr rfl)
    rw [hcount] at hnone hown
    omega
  have hreads := (wired_delivers sound_mainWiring mainWiring_upstream (by decide) htrail).1
  rw [hdone] at hreads
  exact ⟨hist, s, htrail, hdone, hreads⟩

/-- **No deadlock in any sound wiring**, where the consumers that run wait for such as run
only and nobody waits in a circle, and the processor runs and waits for the unmarshaller:
wherever the threads have got to, they can go on until the processor has read all
messages. -/
theorem wired_drains
    (hsound : wiring.Sound) (hlive : wiring.Live)
    (hparse : wiring.Upstream .unmarshaller .businessLogic)
    (hruns : wiring.runs .businessLogic) (hlen : messages.length < 2 ^ 63)
    (htrail : Trail (Disruptor.Step wiring (inputMachine (2 ^ k)) messages) State.new hist s) :
    ∃ es t, Trail (Disruptor.Step wiring (inputMachine (2 ^ k)) messages) s es t ∧
      Disruptor.Drained wiring messages t ∧
      deliveries (hist ++ es) = messages.map Pipeline.delivery := by
  have htop : (messages.length : Int) ≤ i64Max := by
    rw [i64Max]
    omega
  obtain ⟨es, t, hmore, hdrained⟩ := exists_trail_drained hlive hsound.fed
    (halts_inputMachine _) htop (inputMachine_size_pos k) htrail
  have h := lawful_inputMachine hsound hlen (htrail.trans hmore)
  have hbounds := h.ordered.done_bounds hsound .businessLogic
  have hown := hdrained.2 .businessLogic hruns
  have hnone := hdrained.1
  have hcount : (t.done .businessLogic + 1).toNat = messages.length := by omega
  have hreads := deliveries_eq h hparse
  rw [hcount, List.take_length] at hreads
  exact ⟨es, t, hmore, hdrained, hreads⟩

/-- The threads of `main` can read the messages of the trade. -/
theorem wired_drains_main :
    ∃ es t, Trail (Disruptor.Step mainWiring (inputMachine (2 ^ 10))
        Pipeline.tradeMessages) State.new es t ∧
      Disruptor.Drained mainWiring Pipeline.tradeMessages t ∧
      deliveries ([] ++ es) = Pipeline.tradeMessages.map Pipeline.delivery :=
  wired_drains sound_mainWiring live_mainWiring mainWiring_upstream (Or.inr rfl) (by decide)
    (Trail.refl State.new)

end Delivery

end LmaxEngine
