import Mathlib.Algebra.GroupWithZero.Nat
import LmaxEngine.Refinement.Builds
import LmaxEngine.Results.Progress
import LmaxEngine.Spec.Conservation

/-!
# Backpressure from end to end

Every command is answered by an event at least.  So a consumer of the output ring
that stops holds up the processor when the output ring is full, the processor holds
up the producer when the input ring is full, and the producer is never more than the
two rings and one message ahead of what has been read.
-/

namespace LmaxEngine

open Checked PriceTime Queues Sequencing Transition

section Answers

variable {cfg : Config} {s : State} {cs : List Command}

/-- A placement that has ended has reported something. -/
theorem PriceTime.Ended.ne_nil
    {p : Placement} {r : State × List OutputEvent}
    (h : Ended cfg s p r) (hqty : p.leavesQty ≠ 0) :
    r.2 ≠ [] := by
  cases h with
  | filled htraded =>
      rintro hnil
      have hsum := htraded.sum
      dsimp only at hnil
      rw [hnil, filled_nil] at hsum
      exact hqty (UInt64.toNat_inj.mp (by simpa using hsum.symm))
  | cancelled => simp
  | rested => simp
  | full => simp

theorem PriceTime.cancel_ne_nil
    (s : State) (clientId clientOrderId : UInt64) :
    (cancel s clientId clientOrderId).2 ≠ [] := by
  unfold cancel
  split
  · simp
  · split
    · simp
    · split_ifs <;> simp

theorem PriceTime.modify_ne_nil
    (cfg : Config) (s : State) (clientId clientOrderId : UInt64) (newPrice newQty : Option UInt64) :
    (modify cfg s clientId clientOrderId newPrice newQty).2 ≠ [] := by
  have hrequeue : ∀ l x price leaves, (modifyRequeue cfg s l clientId x price leaves).2 ≠ [] := by
    intro l x price leaves
    unfold modifyRequeue
    dsimp only
    split
    · simp
    · split_ifs <;> simp
  unfold modify
  split
  · simp
  · dsimp only
    split
    · simp
    · split_ifs
      · simp
      · simp
      · simp
      · exact hrequeue _ _ _ _

/-- **Every command is answered.** -/
theorem PriceTime.handle_ne_nil
    (hc : Consistent cfg s) (c : Command) :
    (handle cfg s c).2 ≠ [] := by
  cases c with
  | place clientId clientOrderId symbol side orderType price quantity tif =>
      rw [handle]
      rcases place_endings hc clientId clientOrderId symbol side orderType price quantity with
        ⟨reason, s', -, hp⟩ | ⟨haccepted, hended⟩
      · rw [hp]
        simp
      · exact hended.ne_nil haccepted.1
  | cancel clientId clientOrderId => exact cancel_ne_nil s clientId clientOrderId
  | modify clientId clientOrderId newPrice newQty =>
      exact modify_ne_nil cfg s clientId clientOrderId newPrice newQty

theorem PriceTime.run_ne_nil
    (hc : Consistent cfg s) (cs : List Command) :
    (run cfg s cs).2.length = cs.length ∧ ∀ es, es ∈ (run cfg s cs).2 → es ≠ [] := by
  induction cs generalizing s with
  | nil => exact ⟨rfl, fun es hes => absurd hes (by simp [run])⟩
  | cons c cs ih =>
      obtain ⟨hlen, hne⟩ := ih (handle_consistent hc c)
      rw [run]
      refine ⟨congrArg Nat.succ hlen, fun es hes => ?_⟩
      rcases List.mem_cons.mp hes with rfl | hes
      · exact handle_ne_nil hc c
      · exact hne es hes

/-- In any build that gets through a run, its commands are answered. -/
theorem Engine.run_answers
    {β : Build} {e : Engine} {evs : List (List OutputEvent)}
    (hpos : 1 ≤ cfg.capacity) (hlt : cfg.capacity < 2 ^ 32)
    (hrun : (Engine.new cfg).run β cs = .ok (e, evs)) :
    evs.length = cs.length ∧ ∀ es, es ∈ evs → es ≠ [] := by
  have hsame := (run_guards (Build.covers_release β) (Engine.new cfg) cs).eq
    fun k => by rw [hrun]; exact nofun
  obtain ⟨-, rfl⟩ := Engine.simulates_of_run Build.wrapping_release hpos hlt (hsame ▸ hrun)
  exact run_ne_nil (consistent_new cfg) cs

/-- Of commands that are answered no fewer events are published than there are. -/
theorem length_commandsOf_le
    {messages : List Message} {evs : List (List OutputEvent)}
    (hlen : evs.length = (commandsOf messages).length) (hne : ∀ es, es ∈ evs → es ≠ []) :
    (commandsOf messages).length ≤ (publicationsOf messages evs).length := by
  induction messages generalizing evs with
  | nil => exact Nat.le_refl _
  | cons message messages ih =>
      cases hcommand : (parseCommand message.raw).toOption with
      | none =>
          rw [commandsOf_none hcommand] at hlen ⊢
          rw [publicationsOf_none hcommand]
          exact ih hlen hne
      | some c =>
          rw [commandsOf_some hcommand] at hlen ⊢
          cases evs with
          | nil => exact absurd hlen (by simp)
          | cons es evs =>
              have hrest := ih (Nat.succ.inj hlen) fun es' hes' =>
                hne es' (List.mem_cons_of_mem es hes')
              have hfirst : 0 < es.length :=
                List.length_pos_of_ne_nil (hne es List.mem_cons_self)
              rw [publicationsOf_some hcommand, List.length_append, List.length_map,
                List.length_take, List.length_cons, eventSlots]
              omega

theorem length_commandsOf_take_le
    (messages : List Message) {m n d : Nat} (hle : m ≤ n + d) :
    (commandsOf (messages.take m)).length ≤ (commandsOf (messages.take n)).length + d := by
  have hprefix : (commandsOf (messages.take m)).length ≤
      (commandsOf (messages.take (n + d))).length := by
    have htake : messages.take m = (messages.take (n + d)).take m := by
      rw [List.take_take, Nat.min_eq_left hle]
    rw [htake]
    exact ((List.take_sublist m _).filterMap _).length_le
  have hrest : (commandsOf ((messages.drop n).take d)).length ≤ d :=
    (List.length_filterMap_le _ _).trans (List.length_take_le _ _)
  have hsplit : commandsOf (messages.take (n + d)) =
      commandsOf (messages.take n) ++ commandsOf ((messages.drop n).take d) := by
    rw [List.take_add]
    exact List.filterMap_append
  rw [hsplit, List.length_append] at hprefix
  exact hprefix.trans (Nat.add_le_add_left hrest _)

end Answers

/-- The producer has claimed no more than the ring ahead of the processor, and one. -/
theorem Pipeline.Sequenced.nextSeq_le
    {k : Nat} {messages : List Message} {s : Pipeline}
    (h : Pipeline.Sequenced k messages s) :
    s.nextSeq ≤ s.sequence (.consumer .businessLogic) + 2 ^ k + 1 := by
  have hp := h.producer
  have hgate := h.gate
  cases hphase : s.producer with
  | claiming =>
      rw [hphase] at hp
      dsimp only [Pipeline.ProducerOk] at hp
      omega
  | claimed seq =>
      rw [hphase] at hp
      dsimp only [Pipeline.ProducerOk] at hp
      omega
  | written seq =>
      rw [hphase] at hp
      dsimp only [Pipeline.ProducerOk] at hp
      omega
  | marked seq =>
      rw [hphase] at hp
      dsimp only [Pipeline.ProducerOk] at hp
      omega

namespace System

section Backpressure

variable {β : Build} {cfg : Config} {k l : Nat} {messages : List Message}
variable {s : System} {trace : List Reception}

/-- What has been read and what fits into the output ring is all that the messages
before the last one handled have been answered with. -/
theorem Serves.length_commandsOf_le
    (h : Serves β cfg k l messages trace s)
    (hpos : 1 ≤ cfg.capacity) (hlt : cfg.capacity < 2 ^ 32) :
    (commandsOf (messages.take (s.input.done .businessLogic).toNat)).length ≤
      trace.length + 2 ^ l := by
  obtain ⟨e, old, hold, hle⟩ := h.earlier
  obtain ⟨evs, hrun, rfl⟩ := Engine.run_of_serve hold
  obtain ⟨hlen, hne⟩ := Engine.run_answers hpos hlt hrun
  have hanswers := LmaxEngine.length_commandsOf_le hlen hne
  have hseq := h.output.sequenced
  have hcalls := hseq.calls
  have hbound := hseq.bound
  have hroom := hseq.room
  have hgate := hseq.gate_le_done
  have hdone := hseq.done_le
  have htrace : trace.length = (s.output.done + 1).toNat := by
    rw [h.output.read, List.length_map, List.length_take]
    omega
  have hcast : ((2 ^ l : Nat) : Int) = 2 ^ l := by push_cast; rfl
  omega

/-- **Backpressure from end to end.**  Of the well-formed messages that the producer has
claimed, no more than fit into the two rings, and one, are not answered by an event
that has been read. -/
theorem system_backpressure
    (hpos : 1 ≤ cfg.capacity) (hlt : cfg.capacity < 2 ^ 32)
    (hlen : eventSlots * messages.length < 2 ^ 63)
    (htrail : Trail (Step β messages) (System.new cfg (2 ^ k) (2 ^ l)) trace s) :
    (commandsOf (messages.take s.input.nextSeq.toNat)).length ≤
      trace.length + 2 ^ l + 2 ^ k + 1 := by
  have h := serves_of_trail hlen htrail
  have hanswered := h.length_commandsOf_le hpos hlt
  obtain ⟨reads, hdelivers⟩ := h.input
  have hdone := (hdelivers.sequenced.done_bounds .businessLogic).1
  have hahead := hdelivers.sequenced.nextSeq_le
  have hcast : ((2 ^ k : Nat) : Int) = 2 ^ k := by push_cast; rfl
  have hpow : (0 : Int) < 2 ^ k := Int.pow_pos (by decide)
  have hstart := hdelivers.sequenced.start
  have hcount : s.input.nextSeq.toNat ≤
      (s.input.done .businessLogic).toNat + (2 ^ k + 1) := by omega
  have hmore := length_commandsOf_take_le messages hcount
  omega

/-- The four messages of the trade, and the four events that have been read. -/
theorem system_backpressure_trade :
    ∃ s, Trail (Step Build.release Pipeline.tradeMessages)
        (System.new smallConfig (2 ^ 0) (2 ^ 1)) tradeTrace s ∧
      s.Drained Pipeline.tradeMessages ∧
      (commandsOf (Pipeline.tradeMessages.take s.input.nextSeq.toNat)).length ≤
        tradeTrace.length + 2 ^ 1 + 2 ^ 0 + 1 := by
  obtain ⟨s, htrail, hdrained⟩ := exists_trail_trade 0 1
  exact ⟨s, htrail, hdrained,
    system_backpressure (by decide) (by decide) (by decide) htrail⟩

end Backpressure

section Faults

variable {β : Build} {cfg : Config} {k l : Nat} {messages : List Message}
variable {s : System} {trace : List Reception}

/-- **A fault stops the system and breaks nothing.**  If the command of message `n` aborts
the processor, then in every interleaving the messages before `n` are handled at most,
the producer gets no further than the ring beyond it, and what is published and read
is what the messages before `n` are answered with. -/
theorem system_stops_at_fault
    {n : Nat} {message : Message} {e : Engine} {old : List Publication} {fault : Fault Check}
    (hlen : eventSlots * messages.length < 2 ^ 63)
    (hold : (Engine.new cfg).serve β (messages.take n) = .ok (e, old))
    (hmessage : messages[n]? = some message)
    (hfault : e.process β message.slot = .error fault)
    (htrail : Trail (Step β messages) (System.new cfg (2 ^ k) (2 ^ l)) trace s) :
    s.input.sequence (.consumer .businessLogic) < n ∧ s.input.nextSeq ≤ n + 2 ^ k ∧
      s.publications <+: old ∧ trace <+: old.map Outlet.reception := by
  have h := serves_of_trail hlen htrail
  obtain ⟨reads, hdelivers⟩ := h.input
  have hseq := hdelivers.sequenced
  have hstart := hseq.start
  have hdone := (hseq.done_bounds .businessLogic).1
  have hahead := hseq.nextSeq_le
  have hserved := h.served
  have hbefore : s.input.done .businessLogic < n := by
    by_contra hge
    -- Then message `n` has been served.
    obtain ⟨d, hd⟩ : ∃ d, (s.input.done .businessLogic + 1).toNat = n + 1 + d :=
      ⟨(s.input.done .businessLogic + 1).toNat - (n + 1), by omega⟩
    rw [hd, List.take_add, List.take_add_one, hmessage, List.append_assoc] at hserved
    obtain ⟨e₁, early, late, hearly, hlate, -⟩ := Engine.serve_append hserved
    obtain ⟨rfl, rfl⟩ := Prod.mk.inj (Except.ok.inj (hold.symm.trans hearly))
    rw [Option.toList_some, List.singleton_append, Engine.serve, hfault] at hlate
    exact absurd hlate (by simp)
  have hpublished : s.publications <+: old := by
    obtain ⟨d, hd⟩ : ∃ d, n = (s.input.done .businessLogic + 1).toNat + d :=
      ⟨n - (s.input.done .businessLogic + 1).toNat, by omega⟩
    rw [hd, List.take_add] at hold
    obtain ⟨e₁, early, late, hearly, -, rfl⟩ := Engine.serve_append hold
    obtain ⟨rfl, rfl⟩ := Prod.mk.inj (Except.ok.inj (hserved.symm.trans hearly))
    exact List.prefix_append _ _
  have hread : trace <+: s.publications.map Outlet.reception := by
    rw [h.output.read]
    exact (List.take_prefix _ _).map _
  exact ⟨by omega, by omega, hpublished, hread.trans (hpublished.map _)⟩

/-- A configuration without ticks. -/
def flatConfig : Config where
  basePrice := 100
  tickSize := 0
  capacity := 4

/-- An order at any price, as bytes. -/
def marketMessage : Message where
  raw := [1] ++ List.replicate 25 0 ++ [1, 0] ++ (1 :: List.replicate 7 0) ++ [0]
  timestampNs := 6

/-- The third message is a limit order, for which the processor divides by the tick
size. -/
def faultMessages : List Message :=
  [marketMessage, Pipeline.cancelMessage, Pipeline.placeMessage 0 0 8]

/-- What the first two are answered with. -/
def faultAnswers : List Publication :=
  [(.orderCancelled 1 0 1, 6), (.cancelRejected 0 0, 7)]

theorem exists_serve_faultMessages :
    ∃ e, (Engine.new flatConfig).serve Build.release (faultMessages.take 2) =
        .ok (e, faultAnswers) ∧
      e.process Build.release (Pipeline.placeMessage 0 0 8).slot = .error .divisionByZero := by
  obtain ⟨⟨e, old⟩, hold, hp⟩ := exists_of_yields
    (x := (Engine.new flatConfig).serve Build.release (faultMessages.take 2))
    (p := fun r => decide (r.2 = faultAnswers) && decide (fault?
      (r.1.process Build.release (Pipeline.placeMessage 0 0 8).slot) = some .divisionByZero))
    (by decide +kernel)
  rw [Bool.and_eq_true, decide_eq_true_eq, decide_eq_true_eq] at hp
  obtain ⟨rfl, hfault⟩ := hp
  exact ⟨e, hold, eq_error_of_fault? hfault⟩

/-- The processor is about to read the limit order.  What is behind it is never
claimed, and two events are published at most. -/
theorem system_stops_at_fault_faultMessages :
    ∃ trace s, Trail (Step Build.release faultMessages)
        (System.new flatConfig (2 ^ 0) (2 ^ 1)) trace s ∧
      s.input.consumer .businessLogic = .reading 2 ∧
      s.input.sequence (.consumer .businessLogic) < 2 ∧ s.input.nextSeq ≤ 2 + 2 ^ 0 ∧
      s.publications <+: faultAnswers ∧ trace <+: faultAnswers.map Outlet.reception := by
  obtain ⟨e, hold, hfault⟩ := exists_serve_faultMessages
  obtain ⟨trace, s, htrail, hphase⟩ := exists_trail_reading (n := 2) (by decide) (by decide)
    ⟨_, hold⟩ (Trail.refl (System.new flatConfig (2 ^ 0) (2 ^ 1)))
    (show (-1 : Int) < 2 by decide)
  exact ⟨trace, s, htrail, hphase,
    system_stops_at_fault (n := 2) (by decide) hold rfl hfault htrail⟩

end Faults

end System

end LmaxEngine
