import LmaxEngine.Refinement.Builds
import LmaxEngine.Results.Feed
import LmaxEngine.Results.Progress
import LmaxEngine.Spec.Placing

/-!
# The book that the reader of the output ring knows

What the reader of the output ring has read tells it the book of the engine, when it
has read all that was published, as long as no command evicts an order and none
emits more events than the array of the processor holds.
-/

namespace LmaxEngine

open Checked PriceTime Queues Transition

/-- No command of a run evicts an order, or emits more events than are published. -/
def Legible (cfg : Config) (cs : List Command) : Prop :=
  ∀ pre c post e evs e' es, cs = pre ++ c :: post →
    (Engine.new cfg).run Build.release pre = .ok (e, evs) →
    e.handle Build.release c = .ok (e', es) → ¬ e.EvictsBy c ∧ es.length ≤ eventSlots

section Publications

variable {cfg : Config} {e : Engine} {cs : List Command} {evs : List (List OutputEvent)}

theorem Legible.of_append
    {rest : List Command} (h : Legible cfg (cs ++ rest)) :
    Legible cfg cs := by
  rintro pre c post e evs e' es rfl hrun he
  refine h pre c (post ++ rest) e evs e' es ?_ hrun he
  rw [List.append_assoc]
  rfl

/-- What a legible run leads to. -/
theorem Legible.mirrored
    (h : Legible cfg cs)
    (hpos : 1 ≤ cfg.capacity) (hlt : cfg.capacity < 2 ^ 32) (hlen : cs.length < 2 ^ 64)
    (hrun : (Engine.new cfg).run Build.release cs = .ok (e, evs)) :
    e.Mirrored cfg evs.flatten ∧ ∀ es, es ∈ evs → es.length ≤ eventSlots := by
  refine Engine.run_induction (P := fun cs e _ evs => Legible cfg cs → cs.length < 2 ^ 64 →
    e.Mirrored cfg evs.flatten ∧ ∀ es, es ∈ evs → es.length ≤ eventSlots) hpos hlt hrun ?_ ?_
    h hlen
  · exact fun _ _ => ⟨Engine.mirrored_new hpos hlt, fun _ hes => absurd hes List.not_mem_nil⟩
  · intro cs e s evs c e' es hrun _ _ he ih hlegible hlen
    rw [List.length_append, List.length_singleton] at hlen
    obtain ⟨hkept, hfew⟩ := ih hlegible.of_append (by omega)
    obtain ⟨hno, hle⟩ := hlegible cs c [] e evs e' es rfl hrun he
    constructor
    · rw [List.flatten_append, List.flatten_singleton]
      refine (hkept.handle_iff hpos hlt hrun he ?_).mpr hno
      have := List.countP_le_length (p := Command.isPlace) (l := cs ++ [c])
      rw [List.length_append, List.length_singleton] at this
      omega
    · intro es' hes'
      rcases List.mem_append.mp hes' with hes' | hes'
      · exact hfew es' hes'
      · rw [List.mem_singleton.mp hes']
        exact hle

/-- A command emits one event more than orders can rest, at most. -/
theorem PriceTime.run_events_le
    {s : State} (hc : Consistent cfg s) (cs : List Command) :
    ∀ es, es ∈ (PriceTime.run cfg s cs).2 → es.length ≤ cfg.capacity + 1 := by
  induction cs generalizing s with
  | nil => exact fun es hes => absurd hes (by simp [PriceTime.run])
  | cons c cs ih =>
      have hhits : ∀ side limit, s.hitCount cfg side limit ≤ cfg.capacity := by
        intro side limit
        refine (weigh_mono fun x => ?_).trans hc.room
        split_ifs
        · exact Nat.le_refl _
        · exact Nat.zero_le _
      have hfirst : s.hitBy cfg c ≤ cfg.capacity := by
        unfold State.hitBy
        split
        · exact hhits _ _
        · exact hhits _ _
        · exact Nat.zero_le _
      intro es hes
      rw [PriceTime.run] at hes
      rcases List.mem_cons.mp hes with rfl | hes
      · exact (handle_events_le hc c).trans (Nat.succ_le_succ hfirst)
      · exact ih (handle_consistent hc c) es hes

/-- In any build that gets through a run. -/
theorem Engine.run_events_le
    {β : Build}
    (hpos : 1 ≤ cfg.capacity) (hlt : cfg.capacity < 2 ^ 32)
    (hrun : (Engine.new cfg).run β cs = .ok (e, evs)) :
    ∀ es, es ∈ evs → es.length ≤ cfg.capacity + 1 := by
  have hsame := (run_guards (Build.covers_release β) (Engine.new cfg) cs).eq
    fun k => by rw [hrun]; exact nofun
  obtain ⟨-, rfl⟩ := Engine.simulates_of_run Build.wrapping_release hpos hlt (hsame ▸ hrun)
  exact PriceTime.run_events_le (consistent_new cfg) cs

/-- The events of what is published. -/
theorem events_publicationsOf
    {messages : List Message}
    (hlen : evs.length = (commandsOf messages).length) :
    (publicationsOf messages evs).map Prod.fst = (evs.map (List.take eventSlots)).flatten := by
  induction messages generalizing evs with
  | nil =>
      obtain rfl := List.length_eq_zero_iff.mp hlen
      rfl
  | cons message messages ih =>
      cases hcommand : (parseCommand message.raw).toOption with
      | none =>
          rw [commandsOf_none hcommand] at hlen
          rw [publicationsOf_none hcommand]
          exact ih hlen
      | some c =>
          rw [commandsOf_some hcommand, List.length_cons] at hlen
          obtain ⟨es, evs, rfl⟩ := List.exists_cons_of_length_eq_add_one hlen
          rw [publicationsOf_some hcommand, List.map_append, List.map_map,
            ih (by simpa using hlen), List.map_cons, List.flatten_cons]
          congr 1
          exact List.map_id _

/-- Lists that are cut make a whole exactly if none of them is too long. -/
theorem flatten_map_take_eq_iff
    {α : Type} {n : Nat} {xss : List (List α)} :
    (xss.map (List.take n)).flatten = xss.flatten ↔ ∀ xs, xs ∈ xss → xs.length ≤ n := by
  have hle : ∀ xss : List (List α),
      (xss.map (List.take n)).flatten.length ≤ xss.flatten.length := by
    intro xss
    induction xss with
    | nil => exact Nat.le_refl _
    | cons xs xss ih =>
        simp only [List.map_cons, List.flatten_cons, List.length_append, List.length_take]
        omega
  constructor
  · intro h
    induction xss with
    | nil => exact fun _ hxs => absurd hxs List.not_mem_nil
    | cons xs xss ih =>
        rw [List.map_cons, List.flatten_cons, List.flatten_cons] at h
        have hlong := congrArg List.length h
        have hrest := hle xss
        rw [List.length_append, List.length_append, List.length_take] at hlong
        have hfirst : xs.length ≤ n := by omega
        rw [List.take_of_length_le hfirst] at h
        intro xs' hxs'
        rcases List.mem_cons.mp hxs' with rfl | hxs'
        · exact hfirst
        · exact ih (List.append_cancel_left h) xs' hxs'
  · intro h
    rw [List.map_congr_left fun xs hxs => List.take_of_length_le (h xs hxs), List.map_id']

end Publications

namespace System

section Readers

variable {cfg : Config} {k l : Nat} {messages : List Message} {s : System}
variable {trace : List Reception}

theorem filterMap_reception
    (publications : List Publication) :
    (publications.map Outlet.reception).filterMap Prod.fst = publications.map Prod.fst := by
  rw [List.filterMap_map, ← List.filterMap_eq_map]
  rfl

/-- **The reader knows the book.**  Whatever the interleaving has been, once the reader of
the output ring has read all that is published, the list that it has kept of the events
is the book of the engine, if the commands are legible. -/
theorem system_reader_mirrors
    (hpos : 1 ≤ cfg.capacity) (hlt : cfg.capacity < 2 ^ 32)
    (hlen : eventSlots * messages.length < 2 ^ 63)
    (hlegible : Legible cfg (commandsOf messages))
    (htrail : Trail (Step Build.release messages) (System.new cfg (2 ^ k) (2 ^ l)) trace s)
    (hread : trace.length = s.publications.length) :
    s.engine.Mirrored cfg (trace.filterMap Prod.fst) := by
  have h := serves_of_trail hlen htrail
  obtain ⟨evs, hrun, hpublications⟩ := Engine.run_of_serve h.served
  generalize hhandled : messages.take (s.input.done .businessLogic + 1).toNat = handled
    at hrun hpublications
  have hsplit : commandsOf messages = commandsOf handled ++
      commandsOf (messages.drop (s.input.done .businessLogic + 1).toNat) := by
    rw [← hhandled, commandsOf, commandsOf, commandsOf, ← List.filterMap_append,
      List.take_append_drop]
  have hcount : (commandsOf handled).length ≤ messages.length := by
    have hfilter : (commandsOf messages).length ≤ messages.length := List.length_filterMap_le _ _
    rw [hsplit, List.length_append] at hfilter
    omega
  rw [hsplit] at hlegible
  obtain ⟨hmirrored, hfew⟩ := hlegible.of_append.mirrored hpos hlt
    (by unfold eventSlots at hlen; omega) hrun
  have htrace : trace = s.publications.map Outlet.reception := by
    have hall := h.output.read
    rw [hall, List.length_map] at hread
    rw [hall, List.take_of_length_le (by rw [List.length_take] at hread; omega)]
  rw [htrace, filterMap_reception, hpublications, events_publicationsOf (Engine.length_events hrun),
    flatten_map_take_eq_iff.mpr hfew]
  exact hmirrored

/-- Commands that modify nothing are legible in a book of fifteen orders at most. -/
theorem legible_of_small
    {cs : List Command}
    (hpos : 1 ≤ cfg.capacity) (hsmall : cfg.capacity ≤ 15)
    (hcs : ∀ c, c ∈ cs → ∀ e : Engine, ¬ e.EvictsBy c) :
    Legible cfg cs := by
  rintro pre c post e evs e' es rfl hrun he
  refine ⟨hcs c (List.mem_append_right _ List.mem_cons_self) e, ?_⟩
  have hrun' : (Engine.new cfg).run Build.release (pre ++ [c]) = .ok (e', evs ++ [es]) := by
    rw [Engine.run_snoc]
    simp only [hrun, ok_bind, he]
  exact (Engine.run_events_le hpos (by omega) hrun' es
    (List.mem_append_right _ (List.mem_singleton_self es))).trans (Nat.succ_le_succ hsmall)

theorem legible_trade :
    Legible smallConfig (commandsOf Pipeline.tradeMessages) := by
  have hcommands : commandsOf Pipeline.tradeMessages =
      [bidOne 0 100, bidOne 2 100, askOne 1 100, .cancel 0 0] := by decide
  refine legible_of_small (by decide) (by decide) fun c hc e => ?_
  rw [hcommands] at hc
  simp only [List.mem_cons, List.not_mem_nil, or_false] at hc
  rcases hc with rfl | rfl | rfl | rfl <;> exact id

/-- After the trade the list of the reader holds the second bid, as the book does. -/
theorem system_reader_mirrors_trade :
    ∃ s, Trail (Step Build.release Pipeline.tradeMessages)
        (System.new smallConfig (2 ^ 0) (2 ^ 1)) tradeTrace s ∧
      s.Drained Pipeline.tradeMessages ∧
      s.engine.Mirrored smallConfig (tradeTrace.filterMap Prod.fst) ∧
      (Feed.tapeOf (tradeTrace.filterMap Prod.fst)).map Quote.orderId = [2] := by
  obtain ⟨s, htrail, hdrained⟩ := exists_trail_trade 0 1
  have hread : tradeTrace.length = s.publications.length := by
    rw [(serves_of_trail (by decide) htrail).trace_eq hdrained, List.length_map]
  exact ⟨s, htrail, hdrained, system_reader_mirrors (by decide) (by decide) (by decide)
    legible_trade htrail hread, by decide⟩

/-- **What the reader loses.**  When nothing is left to do, the reader has read the events
of all commands, all of them exactly if no command has emitted more than sixteen.  In a
book of fifteen orders at most none does. -/
theorem system_lossless_iff
    {β : Build}
    (hpos : 1 ≤ cfg.capacity) (hlt : cfg.capacity < 2 ^ 32)
    (hlen : eventSlots * messages.length < 2 ^ 63)
    (htrail : Trail (Step β messages) (System.new cfg (2 ^ k) (2 ^ l)) trace s)
    (hdrained : s.Drained messages) :
    ∃ evs, (Engine.new cfg).run β (commandsOf messages) = .ok (s.engine, evs) ∧
      (trace.filterMap Prod.fst = evs.flatten ↔ ∀ es, es ∈ evs → es.length ≤ 16) ∧
      (cfg.capacity ≤ 15 → trace.filterMap Prod.fst = evs.flatten) := by
  obtain ⟨evs, hrun, hread⟩ := (serves_of_trail hlen htrail).read_all hdrained
  have hevents : trace.filterMap Prod.fst = (evs.map (List.take 16)).flatten := by
    rw [hread, filterMap_reception, events_publicationsOf (Engine.length_events hrun)]
    rfl
  rw [hevents]
  refine ⟨evs, hrun, flatten_map_take_eq_iff, fun hsmall => ?_⟩
  exact flatten_map_take_eq_iff.mpr fun es hes =>
    (Engine.run_events_le hpos hlt hrun es hes).trans (Nat.succ_le_succ hsmall)

/-- The book of four slots loses nothing of the trade. -/
theorem system_lossless_iff_trade :
    ∃ s evs, Trail (Step Build.release Pipeline.tradeMessages)
        (System.new smallConfig (2 ^ 0) (2 ^ 1)) tradeTrace s ∧
      (Engine.new smallConfig).run Build.release (commandsOf Pipeline.tradeMessages) =
        .ok (s.engine, evs) ∧
      tradeTrace.filterMap Prod.fst = evs.flatten := by
  obtain ⟨s, htrail, hdrained⟩ := exists_trail_trade 0 1
  obtain ⟨evs, hrun, -, hall⟩ :=
    system_lossless_iff (by decide) (by decide) (by decide) htrail hdrained
  exact ⟨s, evs, htrail, hrun, hall (by decide)⟩

end Readers

end System

end LmaxEngine
