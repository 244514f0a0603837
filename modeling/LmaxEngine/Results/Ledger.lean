import LmaxEngine.Results.Book
import LmaxEngine.Spec.Ledger

/-!
# The event stream is a ledger

What the events of a run say about an order id agrees with the order that rests
under it, and nothing is said about an id any more once it is cancelled or
filled.
-/

namespace LmaxEngine

open Checked Arena PriceTime Ledger

/-- What was announced for an order id last, and what was filled since then. -/
def ledgerOf (i : UInt64) (evs : List OutputEvent) : Tally :=
  tally i (evs.flatMap notesOf)

/-- The event is a fill, an accept, a modification or a cancellation with the id. -/
def Carries (i : UInt64) : OutputEvent → Prop
  | .orderAccepted orderId _ _ _ _ _ _ => orderId = i
  | .fill aggressorOrderId restingOrderId _ _ _ _ _ _ =>
      aggressorOrderId = i ∨ restingOrderId = i
  | .orderCancelled orderId _ _ => orderId = i
  | .orderModified orderId _ _ _ => orderId = i
  | _ => False

/-- The event cancels the id, or is the fill that brings what is left of it to
zero. -/
def Ends (i : UInt64) (evs : List OutputEvent) : OutputEvent → Prop
  | .orderCancelled orderId _ _ => orderId = i
  | .fill a r c d symbol price quantity side =>
      r = i ∧ (ledgerOf i (evs ++ [.fill a r c d symbol price quantity side])).Owes 0
  | _ => False

section Events

variable {i : UInt64} {ev : OutputEvent} {evs pre post : List OutputEvent}

theorem exists_note_of_carries
    (h : Carries i ev) :
    ∃ n, n ∈ notesOf ev ∧ n.id = i := by
  cases ev with
  | fill a r c d symbol price quantity side =>
      rcases h with rfl | rfl
      · exact ⟨_, List.mem_cons_self, rfl⟩
      · exact ⟨_, List.mem_cons_of_mem _ List.mem_cons_self, rfl⟩
  | orderAccepted => exact ⟨_, List.mem_cons_self, h⟩
  | orderCancelled => exact ⟨_, List.mem_cons_self, h⟩
  | orderModified => exact ⟨_, List.mem_cons_self, h⟩
  | _ => exact h.elim

/-- The note by which an event ends an id is its last one. -/
theorem exists_closes_of_ends
    (h : Ends i evs ev) :
    ∃ ns n, notesOf ev = ns ++ [n] ∧ Closes i (evs.flatMap notesOf ++ ns) n := by
  cases ev with
  | fill a r c d symbol price quantity side =>
      obtain ⟨rfl, howes⟩ := h
      refine ⟨[.mention a], .spend r quantity.toNat, rfl, rfl, ?_⟩
      rw [ledgerOf, List.flatMap_append, List.flatMap_singleton] at howes
      rw [List.append_assoc]
      exact howes
  | orderCancelled => exact ⟨[], _, rfl, h⟩
  | _ => exact h.elim

/-- After an event that ends an id no event of a balanced history carries it. -/
theorem not_carries_of_ends
    {v : View UInt64}
    (hb : Balanced (evs.flatMap notesOf) v)
    (hsplit : evs = pre ++ ev :: post) (hend : Ends i pre ev) :
    ∀ ev', ev' ∈ post → ¬ Carries i ev' := by
  intro ev' hev' hcarries
  obtain ⟨ns, n, hnotes, hcloses⟩ := exists_closes_of_ends hend
  obtain ⟨n', hn', hid⟩ := exists_note_of_carries hcarries
  refine hb.silent i (pre.flatMap notesOf ++ ns) n (post.flatMap notesOf) ?_ hcloses n' ?_ hid
  · rw [hsplit, List.flatMap_append, List.flatMap_cons, hnotes]
    simp
  · exact List.mem_flatMap.mpr ⟨ev', hev', hn'⟩

end Events

section Reached

variable {cfg : Config} {e : Engine} {cs : List Command} {evs : List (List OutputEvent)}

/-- A cancellation on the plain book reports the quantity left of the order. -/
theorem cancel_owes
    {s : State} {c k i d q : UInt64} {hist : List (Note UInt64)}
    (hc : Consistent cfg s) (hb : Balanced hist (Moment.view ⟨s, none⟩))
    (h : .orderCancelled i d q ∈ (cancel s c k).2) :
    (tally i hist).Owes q.toNat := by
  rcases cancel_outcomes hc c k with ⟨-, hcancel⟩ | ⟨l, x, hx, -, -, hcancel⟩
  · rw [hcancel, List.mem_singleton] at h
    exact absurd h (by simp)
  · rw [hcancel, List.mem_singleton, OutputEvent.orderCancelled.injEq] at h
    obtain ⟨rfl, -, rfl⟩ := h
    exact hb.owes _ _ ⟨l, x, hx, rfl, rfl⟩

/-- **The event stream is a correct ledger.**  In every run with fewer than
`2 ^ 64` placements the quantity left of a resting order and what was filled
since it was last announced add up to what was announced; a cancellation by
the owner reports the quantity left; no event carries an id any more after the
one that cancels or completely fills it; and at no time is more filled than
announced. -/
theorem run_ledger
    (hpos : 1 ≤ cfg.capacity) (hlt : cfg.capacity < 2 ^ 32)
    (hcs : cs.countP Command.isPlace < 2 ^ 64)
    (hrun : (Engine.new cfg).run Build.release cs = .ok (e, evs)) :
    (∀ idx o, e.book.arena.orderAt idx = some o →
      (ledgerOf o.orderId evs.flatten).Owes o.leavesQty.toNat) ∧
    (∀ c k e' es i d q, e.handle Build.release (.cancel c k) = .ok (e', es) →
      .orderCancelled i d q ∈ es → (ledgerOf i evs.flatten).Owes q.toNat) ∧
    (∀ i pre ev post, evs.flatten = pre ++ ev :: post → Ends i pre ev →
      ∀ ev', ev' ∈ post → ¬ Carries i ev') ∧
    (∀ i pre post, evs.flatten = pre ++ post →
      (ledgerOf i pre).spent ≤ (ledgerOf i pre).announced.getD 0) := by
  obtain ⟨hs, rfl⟩ := Engine.simulates_of_run Build.wrapping_release hpos hlt hrun
  have hc := run_consistent (consistent_new cfg) cs
  have hb := run_balanced cfg cs hcs
  refine ⟨fun idx o ho => ?_, fun c k e' es i d q he hev => ?_,
    fun i pre ev post hsplit hend => not_carries_of_ends hb hsplit hend,
    fun i pre post hsplit => ?_⟩
  · obtain ⟨loc, free, h⟩ := hs
    rw [orderAt_eq] at ho
    obtain ⟨k, hk⟩ := h.book.arena.covered ho
    obtain ⟨x, hx, he⟩ := List.mem_map.mp hk
    obtain ⟨-, rfl⟩ := Prod.mk.inj he
    exact hb.owes _ _ ⟨k, x, hx, rfl, rfl⟩
  · rcases Engine.handle_agrees Build.wrapping_release hs hc (.cancel c k) with
      ⟨e'', h', -⟩ | ⟨-, h'⟩
    · rw [he, Except.ok.injEq, Prod.mk.injEq] at h'
      obtain ⟨-, rfl⟩ := h'
      exact cancel_owes hc hb hev
    · rw [he] at h'
      exact absurd h' (by simp)
  · refine hb.spent i (pre.flatMap notesOf) (post.flatMap notesOf) ?_
    rw [hsplit, List.flatMap_append]

/-- The ledger after the session. -/
theorem run_ledger_session :
    ∃ e, (Engine.new smallConfig).run Build.release session = .ok (e, sessionEvents) ∧
      (∀ idx o, e.book.arena.orderAt idx = some o →
        (ledgerOf o.orderId sessionEvents.flatten).Owes o.leavesQty.toNat) ∧
      (∀ c k e' es i d q, e.handle Build.release (.cancel c k) = .ok (e', es) →
        .orderCancelled i d q ∈ es → (ledgerOf i sessionEvents.flatten).Owes q.toNat) ∧
      (∀ i pre ev post, sessionEvents.flatten = pre ++ ev :: post → Ends i pre ev →
        ∀ ev', ev' ∈ post → ¬ Carries i ev') ∧
      (∀ i pre post, sessionEvents.flatten = pre ++ post →
        (ledgerOf i pre).spent ≤ (ledgerOf i pre).announced.getD 0) := by
  obtain ⟨e, hrun⟩ := exists_run_session
  exact ⟨e, hrun, run_ledger (by decide) (by decide) (by decide) hrun⟩

end Reached

end LmaxEngine
