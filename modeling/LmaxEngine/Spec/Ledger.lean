import LmaxEngine.Lib.Ledger
import LmaxEngine.Spec.Commands

/-!
# The events of the plain book as a ledger

`OrderAccepted` and `OrderModified` announce a quantity for an order id, a
`Fill` mentions the aggressor and spends from the resting order, and
`OrderCancelled` closes an order id.  The steps of the plain book keep to the
rules of ledgers, so its events are balanced after every run.
-/

namespace LmaxEngine
namespace PriceTime

open Queues Transition Ledger

/-- What an event notes about order ids. -/
def notesOf : OutputEvent → List (Note UInt64)
  | .orderAccepted orderId _ _ _ _ _ quantity => [.announce orderId quantity.toNat]
  | .orderModified orderId _ _ newQty => [.announce orderId newQty.toNat]
  | .fill aggressorOrderId restingOrderId _ _ _ _ quantity _ =>
      [.mention aggressorOrderId, .spend restingOrderId quantity.toNat]
  | .orderCancelled orderId _ _ => [.close orderId]
  | .orderRejected .. => []
  | .cancelRejected .. => []
  | .modifyRejected .. => []

/-- The ids of the resting orders rest; the id of the placement under way and
the ids that are not handed out yet are pending. -/
def Moment.view (m : Moment) : View UInt64 where
  rests i r := ∃ k x, x ∈ m.state.queue k ∧ x.order.orderId = i ∧ x.order.leavesQty.toNat = r
  pending i := m.state.nextNum ≤ i.toNat ∨
    ∃ p, m.active = some p ∧ UInt64.ofNat p.num = i

section Views

variable {cfg : Config} {m : Moment} {s : State} {k k' : Level} {x y : Entry} {p : Placement}
variable {i : UInt64} {r : Nat}

theorem notesOf_rejection
    {ev : OutputEvent} (h : IsRejection ev) :
    notesOf ev = [] := by
  cases ev <;> first | rfl | exact h.elim

theorem rests_of_mem
    (hx : x ∈ m.state.queue k) :
    m.view.rests x.order.orderId x.order.leavesQty.toNat :=
  ⟨k, x, hx, rfl, rfl⟩

theorem pending_active
    (h : m.active = some p) :
    m.view.pending (UInt64.ofNat p.num) :=
  Or.inr ⟨p, h, rfl⟩

/-- Between commands the pending ids are those not handed out yet. -/
theorem le_of_pending
    (h : (Moment.view ⟨s, none⟩).pending i) :
    s.nextNum ≤ i.toNat := by
  rcases h with h | ⟨p, hp, -⟩
  · exact h
  · exact absurd hp (by simp)

/-- While a placement is filled the same ids are pending. -/
theorem pending_of_num_eq
    {s' : State} {p' : Placement}
    (h : (Moment.view ⟨s', some p'⟩).pending i)
    (hnext : s'.nextNum = s.nextNum) (hnum : p'.num = p.num) :
    (Moment.view ⟨s, some p⟩).pending i := by
  rcases h with h | ⟨q, hq, hi⟩
  · rw [hnext] at h
    exact Or.inl h
  · obtain rfl := Option.some.inj hq
    exact Or.inr ⟨p, rfl, by rw [← hnum, hi]⟩

/-- The id of a placement under way, as a number. -/
theorem toNat_ofNat_num
    (hm : MomentOk cfg m) (hnum : m.state.nextNum ≤ 2 ^ 64) (h : m.active = some p) :
    (UInt64.ofNat p.num).toNat = p.num := by
  rw [UInt64.toNat_ofNat']
  exact Nat.mod_eq_of_lt (lt_of_lt_of_le (hm.num h) hnum)

theorem orderId_ne
    (hc : Consistent cfg s) (hnum : s.nextNum ≤ 2 ^ 64)
    (hx : x ∈ s.queue k) (hy : y ∈ s.queue k') (hne : y.num ≠ x.num) :
    y.order.orderId ≠ x.order.orderId :=
  fun h => hne (by rw [eq_of_orderId_eq hc hnum hy hx h])

/-- A pending id is not the id of a resting order. -/
theorem ne_of_pending
    (hm : MomentOk cfg m) (hnum : m.state.nextNum ≤ 2 ^ 64)
    (hx : x ∈ m.state.queue k) (hi : m.view.pending i) :
    i ≠ x.order.orderId := by
  rintro rfl
  have hid := toNat_orderId hm.consistent hnum hx
  rcases hi with hi | ⟨p, hp, hi⟩
  · have := (hm.consistent.entry hx).num
    omega
  · rw [← hi, toNat_ofNat_num hm hnum hp] at hid
    exact hm.fresh hp hx hid.symm

/-- The view after an entry has left. -/
theorem rests_leave
    (active : Option Placement)
    (hc : Consistent cfg s) (hnum : s.nextNum ≤ 2 ^ 64) (hx : x ∈ s.queue k)
    (h : (Moment.view ⟨s.leave k x, active⟩).rests i r) :
    i ≠ x.order.orderId ∧ (Moment.view ⟨s, active⟩).rests i r := by
  obtain ⟨k', y, hy, rfl, rfl⟩ := h
  obtain ⟨hy, hne⟩ := (hc.distinct.mem_discard hx).mp hy
  exact ⟨orderId_ne hc hnum hx hy hne, rests_of_mem (m := ⟨s, active⟩) hy⟩

/-- The view after an order has changed in place. -/
theorem rests_change
    (active : Option Placement) {f : Order → Order}
    (hc : Consistent cfg s) (hnum : s.nextNum ≤ 2 ^ 64) (hx : x ∈ s.queue k) (hf : Keeps f)
    (h : (Moment.view ⟨s.change k x f, active⟩).rests i r) :
    (i ≠ x.order.orderId ∧ (Moment.view ⟨s, active⟩).rests i r) ∨
      (i = x.order.orderId ∧ r = (f x.order).leavesQty.toNat) := by
  obtain ⟨k', y, hy, rfl, rfl⟩ := h
  rcases (mem_change hc.distinct hx).mp hy with ⟨hy, hne⟩ | ⟨rfl, rfl⟩
  · exact Or.inl ⟨orderId_ne hc hnum hx hy hne, rests_of_mem (m := ⟨s, active⟩) hy⟩
  · exact Or.inr ⟨hf.orderId _, rfl⟩

end Views

section Rules

variable {cfg : Config} {m m' : Moment} {es : List OutputEvent}

/-- A step never lowers the next number. -/
theorem Step.nextNum_le
    (h : Step cfg m es m') :
    m.state.nextNum ≤ m'.state.nextNum := by
  cases h with
  | number => exact Nat.le_succ _
  | _ => exact Nat.le_refl _

theorem nextNum_le_handle
    {s : State}
    (hc : Consistent cfg s) (c : Command) :
    s.nextNum ≤ (handle cfg s c).1.nextNum :=
  (handle_trail hc c).preserves (P := fun m => s.nextNum ≤ m.state.nextNum)
    (fun h hstep => h.trans hstep.nextNum_le) le_rfl

/-- A fill mentions the placement under way and spends from the order that it
meets. -/
theorem fill_rules
    {s s' : State} {p p' : Placement} {k : Level} {x : Entry} {q : UInt64}
    (hm : MomentOk cfg ⟨s, some p⟩) (hnum : s.nextNum ≤ 2 ^ 64) (hx : x ∈ s.queue k)
    (hle : q.toNat ≤ x.order.leavesQty.toNat)
    (hnext : s'.nextNum = s.nextNum) (hsame : p'.num = p.num)
    (hrests : ∀ i r, (Moment.view ⟨s', some p'⟩).rests i r →
      (i ≠ x.order.orderId ∧ (Moment.view ⟨s, some p⟩).rests i r) ∨
        (i = x.order.orderId ∧ q.toNat < x.order.leavesQty.toNat ∧
          r = x.order.leavesQty.toNat - q.toNat)) :
    Trail Rule (Moment.view ⟨s, some p⟩)
      [.mention (UInt64.ofNat p.num), .spend x.order.orderId q.toNat]
      (Moment.view ⟨s', some p'⟩) := by
  refine Trail.head (Rule.mention (pending_active rfl)) (Trail.single ?_)
  refine Rule.spend (rests_of_mem (m := ⟨s, some p⟩) hx) hle hrests ?_
  intro i hi
  have hi' : (Moment.view ⟨s, some p⟩).pending i := pending_of_num_eq hi hnext hsame
  exact ⟨hi', ne_of_pending hm hnum hx hi'⟩

/-- **The steps of the plain book keep to the rules of ledgers.** -/
theorem Step.rules
    (h : Step cfg m es m') (hm : MomentOk cfg m) (hnum : m'.state.nextNum ≤ 2 ^ 64) :
    Trail Rule m.view (es.flatMap notesOf) m'.view := by
  have hnum' : m.state.nextNum ≤ 2 ^ 64 := h.nextNum_le.trans hnum
  have hc := hm.consistent
  cases h with
  | account c => exact Trail.single (Rule.quiet (fun _ _ hr => hr) fun _ hp => hp)
  | @number s p hp hlimit hqty hleaves =>
      refine Trail.single (Rule.quiet (fun _ _ hr => hr) fun i hi => Or.inl ?_)
      rcases hi with hi | ⟨p', hp', rfl⟩
      · exact (Nat.le_succ _).trans hi
      · obtain rfl := Option.some.inj hp'
        have hlt : p.num < 2 ^ 64 := by
          rw [hp]
          exact hnum
        rw [UInt64.toNat_ofNat', Nat.mod_eq_of_lt hlt, hp]
  | @fillWhole s p t x hbest hcross hle =>
      have hx := State.best_mem hbest
      refine fill_rules hm hnum' hx (Nat.le_refl _) rfl rfl fun i r hr => ?_
      exact Or.inl (rests_leave (some p) hc hnum' hx hr)
  | @fillPart s p t x hbest hcross hpos hlt =>
      have hx := State.best_mem hbest
      have hlt' : p.leavesQty.toNat < x.order.leavesQty.toNat :=
        UInt64.lt_iff_toNat_lt.mp hlt
      refine fill_rules hm hnum' hx hlt'.le rfl rfl fun i r hr => ?_
      rcases rests_change (some p) hc hnum' hx (keeps_filledBy _) hr with hr | ⟨rfl, rfl⟩
      · exact Or.inl hr
      · refine Or.inr ⟨rfl, hlt', ?_⟩
        exact UInt64.toNat_sub_of_le _ _ (UInt64.le_of_lt hlt)
  | @rest s p price t hlimit htick hpos hswept hroom =>
      refine Trail.single (Rule.announce (Or.inl (pending_active rfl)) ?_ ?_)
      · rintro j r ⟨k, y, hy, rfl, rfl⟩
        rcases mem_push.mp hy with hy | ⟨-, rfl⟩
        · refine Or.inl ⟨?_, rests_of_mem (m := ⟨s, some p⟩) hy⟩
          exact (ne_of_pending hm hnum' hy (pending_active rfl)).symm
        · exact Or.inr ⟨rfl, rfl⟩
      · exact fun j hj => Or.inl (le_of_pending hj)
  | @leftover s p hlimit =>
      refine Trail.single (Rule.close (Or.inl (pending_active rfl)) ?_ ?_)
      · rintro j r ⟨k, y, hy, rfl, rfl⟩
        refine ⟨?_, rests_of_mem (m := ⟨s, some p⟩) hy⟩
        exact (ne_of_pending hm hnum' hy (pending_active rfl)).symm
      · intro j hj
        have hj' := le_of_pending hj
        refine ⟨Or.inl hj', ?_⟩
        rintro rfl
        have h1 := hm.num (p := p) rfl
        have h2 := toNat_ofNat_num hm hnum' (p := p) rfl
        dsimp only at h1
        omega
  | finish =>
      exact Trail.single (Rule.quiet (fun _ _ hr => hr) fun j hj => Or.inl (le_of_pending hj))
  | reject hev =>
      rw [List.flatMap_singleton, notesOf_rejection hev]
      exact Trail.single (Rule.quiet (fun _ _ hr => hr) fun j hj => Or.inl (le_of_pending hj))
  | @cancel s k x hx hindex =>
      refine Trail.single (Rule.close (Or.inr ⟨_, rests_of_mem (m := ⟨s, none⟩) hx⟩) ?_ ?_)
      · intro j r hr
        exact rests_leave none hc hnum' hx hr
      · intro j hj
        exact ⟨hj, ne_of_pending hm hnum' hx hj⟩
  | @reduce s k x target hx hindex hpos hle =>
      refine Trail.single (Rule.announce (Or.inr ⟨_, rests_of_mem (m := ⟨s, none⟩) hx⟩) ?_
        fun _ hp => hp)
      intro j r hr
      exact rests_change none hc hnum' hx (keeps_reducedTo target) hr
  | @move s k x price target t hx hindex hpos htick hmoved =>
      refine Trail.single (Rule.announce (Or.inr ⟨_, rests_of_mem (m := ⟨s, none⟩) hx⟩) ?_
        fun _ hp => hp)
      rintro j r ⟨k', y, hy, rfl, rfl⟩
      rcases mem_push.mp hy with hy | ⟨-, rfl⟩
      · exact Or.inl (rests_leave none hc hnum' hx ⟨k', y, hy, rfl, rfl⟩)
      · exact Or.inr ⟨rfl, rfl⟩
  | @evict s k x hx hindex =>
      refine Trail.single (Rule.quiet ?_ fun _ hp => hp)
      intro j r hr
      exact (rests_leave none hc hnum' hx hr).2

/-- **The events of every run of the plain book are balanced.** -/
theorem run_balanced
    (cfg : Config) (cs : List Command) (hcs : cs.countP Command.isPlace < 2 ^ 64) :
    Balanced ((run cfg State.new cs).2.flatten.flatMap notesOf)
      (Moment.view ⟨(run cfg State.new cs).1, none⟩) := by
  have hc := consistent_new cfg
  have hlen := run_nextNum_le cfg State.new cs
  have hnew : State.new.nextNum = 1 := rfl
  have htrail := run_trail hc cs
  have hinv := htrail.invariant
    (P := fun hist m => MomentOk cfg m ∧
      (m.state.nextNum ≤ 2 ^ 64 → Balanced (hist.flatMap notesOf) m.view))
    (fun {hist m es m'} ⟨hm, hb⟩ hstep => ⟨hstep.momentOk hm, fun hnum => by
      have hb' := hb (hstep.nextNum_le.trans hnum)
      rw [List.flatMap_append]
      exact (hstep.rules hm hnum).invariant (P := Balanced)
        (fun hbal hrule => hbal.step hrule) _ hb'⟩)
    [] ⟨hc.moment, fun _ => Balanced.empty fun i r hr => by
      obtain ⟨k, x, hx, -⟩ := hr
      simp [State.new] at hx⟩
  exact hinv.2 (by
    dsimp only
    omega)

end Rules

end PriceTime
end LmaxEngine
