import LmaxEngine.Model.System
import LmaxEngine.Refinement.Commands
import LmaxEngine.Spec.Wire

/-!
# The system as one thread

What the system is for: it parses the messages, handles the commands and publishes
the events, one message after the other.

What goes into it are byte strings, each with the time at which it was taken on.  Some
start with the wire format of a command, and these are the requests.  What comes out
are the first sixteen events of each, with its time.
-/

namespace LmaxEngine

open Checked

/-- The slot of a message, parsed. -/
def Message.slot (message : Message) : InputSlot :=
  { InputSlot.ofRaw message.raw message.timestampNs with
    command := (parseCommand message.raw).toOption }

/-- Messages served one by one: the engine after them, and all that is published. -/
def Engine.serve (β : Build) (e : Engine) :
    List Message → Run (Engine × List Publication)
  | [] => .ok (e, [])
  | message :: messages => do
      let (e, published) ← e.process β message.slot
      let (e, later) ← e.serve β messages
      .ok (e, published ++ later)

/-- The commands of the messages that are well formed. -/
def commandsOf (messages : List Message) : List Command :=
  messages.filterMap fun message => (parseCommand message.raw).toOption

/-- The first sixteen events of each command, with the timestamp of its message. -/
def publicationsOf :
    List Message → List (List OutputEvent) → List Publication
  | [], _ => []
  | message :: messages, evs =>
      match (parseCommand message.raw).toOption, evs with
      | none, evs => publicationsOf messages evs
      | some _, [] => []
      | some _, es :: evs =>
          (es.take eventSlots).map (fun event => (event, message.timestampNs)) ++
            publicationsOf messages evs

section Serving

variable {β : Build} {e e' : Engine} {messages : List Message} {published : List Publication}
variable {message : Message} {c : Command} {es : List OutputEvent} {evs : List (List OutputEvent)}

theorem commandsOf_none
    (h : (parseCommand message.raw).toOption = none) (messages : List Message) :
    commandsOf (message :: messages) = commandsOf messages :=
  List.filterMap_cons_none h

theorem commandsOf_some
    (h : (parseCommand message.raw).toOption = some c) (messages : List Message) :
    commandsOf (message :: messages) = c :: commandsOf messages :=
  List.filterMap_cons_some h

theorem publicationsOf_none
    (h : (parseCommand message.raw).toOption = none)
    (messages : List Message) (evs : List (List OutputEvent)) :
    publicationsOf (message :: messages) evs = publicationsOf messages evs := by
  simp only [publicationsOf, h]

theorem publicationsOf_some
    (h : (parseCommand message.raw).toOption = some c)
    (messages : List Message) (es : List OutputEvent) (evs : List (List OutputEvent)) :
    publicationsOf (message :: messages) (es :: evs) =
      (es.take eventSlots).map (fun event => (event, message.timestampNs)) ++
        publicationsOf messages evs := by
  simp only [publicationsOf, h]

/-- Of a slot only the command and the timestamp matter. -/
theorem Engine.process_congr
    {slot slot' : InputSlot}
    (hcommand : slot.command = slot'.command) (htime : slot.timestampNs = slot'.timestampNs) :
    e.process β slot = e.process β slot' := by
  rw [Engine.process, Engine.process, hcommand, htime]

/-- One more message is served by one more round of the loop. -/
theorem Engine.serve_snoc
    {e'' : Engine} {later : List Publication}
    (h : e.serve β messages = .ok (e', published))
    (hnext : e'.process β message.slot = .ok (e'', later)) :
    e.serve β (messages ++ [message]) = .ok (e'', published ++ later) := by
  induction messages generalizing e published with
  | nil =>
      obtain ⟨rfl, rfl⟩ := Prod.mk.inj (Except.ok.inj h)
      simp only [List.nil_append, Engine.serve, hnext, ok_bind, List.append_nil]
  | cons first rest ih =>
      rw [Engine.serve] at h
      obtain ⟨⟨e₁, now⟩, hfirst, h⟩ := bind_eq_ok.mp h
      obtain ⟨⟨e₂, after⟩, hrest, h⟩ := bind_eq_ok.mp h
      obtain ⟨rfl, rfl⟩ := Prod.mk.inj (Except.ok.inj h)
      simp only [List.cons_append, Engine.serve, hfirst, ok_bind, ih hrest, List.append_assoc]

/-- What is served in two parts. -/
theorem Engine.serve_append
    {front back : List Message}
    (h : e.serve β (front ++ back) = .ok (e', published)) :
    ∃ e₁ early late, e.serve β front = .ok (e₁, early) ∧ e₁.serve β back = .ok (e', late) ∧
      published = early ++ late := by
  induction front generalizing e published with
  | nil => exact ⟨e, [], published, rfl, h, rfl⟩
  | cons first rest ih =>
      rw [List.cons_append, Engine.serve] at h
      obtain ⟨⟨e₁, now⟩, hfirst, h⟩ := bind_eq_ok.mp h
      obtain ⟨⟨e₂, after⟩, hrest, h⟩ := bind_eq_ok.mp h
      obtain ⟨rfl, rfl⟩ := Prod.mk.inj (Except.ok.inj h)
      obtain ⟨e₃, early, late, hearly, hlate, rfl⟩ := ih hrest
      refine ⟨e₃, now ++ early, late, ?_, hlate, (List.append_assoc _ _ _).symm⟩
      simp only [Engine.serve, hfirst, ok_bind, hearly]

/-- A round of the loop publishes the first sixteen events of the command. -/
theorem Engine.process_eq_ok
    {slot : InputSlot} :
    e.process β slot = .ok (e', published) ↔
      (slot.command = none ∧ e' = e ∧ published = []) ∨
      ∃ c es, slot.command = some c ∧ e.handle β c = .ok (e', es) ∧
        published = (es.take eventSlots).map fun event => (event, slot.timestampNs) := by
  cases hslot : slot.command with
  | none =>
      simp only [Engine.process, hslot, Except.ok.injEq, Prod.mk.injEq, true_and,
        reduceCtorEq, false_and, exists_false, or_false]
      exact and_congr eq_comm eq_comm
  | some c =>
      simp only [Engine.process, hslot, EventBuffer.published_foldl, reduceCtorEq, false_and,
        false_or, Option.some.injEq, exists_and_left, exists_eq_left']
      rw [bind_eq_ok]
      constructor
      · rintro ⟨⟨e₁, es⟩, he, hout⟩
        obtain ⟨rfl, rfl⟩ := Prod.mk.inj (Except.ok.inj hout)
        exact ⟨es, he, rfl⟩
      · rintro ⟨es, he, rfl⟩
        exact ⟨(e', es), he, rfl⟩

/-- **What is served** is a run of the commands, and what is published are the first
sixteen events of each. -/
theorem Engine.run_of_serve
    (h : e.serve β messages = .ok (e', published)) :
    ∃ evs, e.run β (commandsOf messages) = .ok (e', evs) ∧
      published = publicationsOf messages evs := by
  induction messages generalizing e published with
  | nil =>
      obtain ⟨rfl, rfl⟩ := Prod.mk.inj (Except.ok.inj h)
      exact ⟨[], rfl, rfl⟩
  | cons message rest ih =>
      rw [Engine.serve] at h
      obtain ⟨⟨e₁, now⟩, hfirst, h⟩ := bind_eq_ok.mp h
      obtain ⟨⟨e₂, after⟩, hrest, h⟩ := bind_eq_ok.mp h
      obtain ⟨rfl, rfl⟩ := Prod.mk.inj (Except.ok.inj h)
      obtain ⟨evs, hrun, rfl⟩ := ih hrest
      rcases process_eq_ok.mp hfirst with ⟨hnone, rfl, rfl⟩ | ⟨c, es, hsome, he, rfl⟩
      · exact ⟨evs, (commandsOf_none hnone rest).symm ▸ hrun,
          (publicationsOf_none hnone rest evs).symm⟩
      · refine ⟨es :: evs, ?_, (publicationsOf_some hsome rest es evs).symm⟩
        rw [commandsOf_some hsome, Engine.run]
        simp only [he, ok_bind, hrun]

/-- A run of the commands serves the messages. -/
theorem Engine.serve_of_run
    (h : e.run β (commandsOf messages) = .ok (e', evs)) :
    e.serve β messages = .ok (e', publicationsOf messages evs) := by
  induction messages generalizing e evs with
  | nil =>
      obtain ⟨rfl, rfl⟩ := Prod.mk.inj (Except.ok.inj h)
      rfl
  | cons message rest ih =>
      rw [Engine.serve]
      cases hcommand : (parseCommand message.raw).toOption with
      | none =>
          rw [commandsOf_none hcommand] at h
          have hfirst : e.process β message.slot = .ok (e, []) :=
            process_eq_ok.mpr (Or.inl ⟨hcommand, rfl, rfl⟩)
          simp only [hfirst, ok_bind, ih h, List.nil_append, publicationsOf_none hcommand]
      | some c =>
          rw [commandsOf_some hcommand, Engine.run] at h
          obtain ⟨⟨e₁, es⟩, he, h⟩ := bind_eq_ok.mp h
          obtain ⟨⟨e₂, later⟩, hrest, h⟩ := bind_eq_ok.mp h
          obtain ⟨rfl, rfl⟩ := Prod.mk.inj (Except.ok.inj h)
          have hfirst : e.process β message.slot =
              .ok (e₁, (es.take eventSlots).map fun event => (event, message.timestampNs)) :=
            process_eq_ok.mpr (Or.inr ⟨c, es, hcommand, he, rfl⟩)
          simp only [hfirst, ok_bind, ih hrest, publicationsOf_some hcommand]

theorem Engine.length_serve_le
    (h : e.serve β messages = .ok (e', published)) :
    published.length ≤ eventSlots * messages.length := by
  induction messages generalizing e published with
  | nil =>
      obtain ⟨rfl, rfl⟩ := Prod.mk.inj (Except.ok.inj h)
      exact Nat.zero_le _
  | cons message rest ih =>
      rw [Engine.serve] at h
      obtain ⟨⟨e₁, now⟩, hfirst, h⟩ := bind_eq_ok.mp h
      obtain ⟨⟨e₂, after⟩, hrest, h⟩ := bind_eq_ok.mp h
      obtain ⟨rfl, rfl⟩ := Prod.mk.inj (Except.ok.inj h)
      have hlater := ih hrest
      have hnow : now.length ≤ eventSlots := by
        rcases process_eq_ok.mp hfirst with ⟨-, -, rfl⟩ | ⟨c, es, -, -, rfl⟩
        · exact Nat.zero_le _
        · rw [List.length_map, List.length_take]
          exact Nat.min_le_left _ _
      rw [List.length_append, List.length_cons, Nat.mul_succ]
      omega

end Serving

/-- A command and the time at which it was taken on. -/
abbrev Request := Command × UInt64

/-- The messages carry these requests, in this order, and noise. -/
inductive Carry : List Message → List Request → Prop
  | nil : Carry [] []
  | request {message : Message} {c : Command} {bytes : List UInt8}
      {messages : List Message} {requests : List Request}
      (hcode : encode c = some bytes) (hpre : bytes <+: message.raw)
      (hrest : Carry messages requests) :
      Carry (message :: messages) ((c, message.timestampNs) :: requests)
  | noise {message : Message} {messages : List Message} {requests : List Request}
      (hnone : ∀ c bytes, encode c = some bytes → ¬ bytes <+: message.raw)
      (hrest : Carry messages requests) :
      Carry (message :: messages) requests

/-- The first sixteen events of each command, with the time of its request. -/
def answers (requests : List Request) (evs : List (List OutputEvent)) :
    List Publication :=
  (requests.zip evs).flatMap fun (request, es) =>
    (es.take 16).map fun event => (event, request.2)

theorem parseCommand_toOption_eq_some_iff
    {buf : List UInt8} {c : Command} :
    (parseCommand buf).toOption = some c ↔ ∃ bytes, encode c = some bytes ∧ bytes <+: buf := by
  rw [← parseCommand_eq_ok_iff]
  cases parseCommand buf with
  | ok c' => rw [Except.toOption, Option.some.injEq, Except.ok.injEq]
  | error e => exact iff_of_false nofun nofun

section Carry

variable {messages : List Message} {requests : List Request}

/-- The requests are what the unmarshaller makes of the messages, and the answers are
what is published for them. -/
theorem Carry.served
    (h : Carry messages requests) (evs : List (List OutputEvent)) :
    commandsOf messages = requests.map Prod.fst ∧
      publicationsOf messages evs = answers requests evs := by
  induction h generalizing evs with
  | nil => exact ⟨rfl, rfl⟩
  | @request message c bytes messages requests hcode hpre hrest ih =>
      have hsome := parseCommand_toOption_eq_some_iff.mpr ⟨bytes, hcode, hpre⟩
      refine ⟨?_, ?_⟩
      · rw [commandsOf_some hsome, (ih []).1, List.map_cons]
      · cases evs with
        | nil => simp [publicationsOf, hsome, answers]
        | cons es evs =>
            rw [publicationsOf_some hsome, (ih evs).2, answers, answers, List.zip_cons_cons,
              List.flatMap_cons]
            rfl
  | @noise message messages requests hnone hrest ih =>
      have hparse : (parseCommand message.raw).toOption = none := by
        refine Option.eq_none_iff_forall_ne_some.mpr fun c hc => ?_
        obtain ⟨bytes, hcode, hpre⟩ := parseCommand_toOption_eq_some_iff.mp hc
        exact hnone c bytes hcode hpre
      rw [commandsOf_none hparse, publicationsOf_none hparse]
      exact ih evs

end Carry

end LmaxEngine
