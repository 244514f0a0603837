import LmaxEngine.Lib.Transition
import LmaxEngine.Spec.Consistency

/-!
# The steps of the plain book

Every command is a sequence of elementary steps: an account is opened, a
number is handed out, a resting order is filled in whole or in part, an order
rests, leaves, is reduced or moves.  Each step makes one change to the state
and emits at most one event.  What holds along runs is proved of the steps.

Between the step that hands out a number and the step that ends its placement
the state comes with the placement under way.
-/

namespace LmaxEngine
namespace PriceTime

open Queues Transition

/-- A placement under way: its arguments and what is left of its quantity. -/
structure Placement where
  num : Nat
  clientId : UInt64
  clientOrderId : UInt64
  symbol : Symbol
  side : Side
  limitPrice : Option UInt64
  quantity : UInt64
  leavesQty : UInt64

/-- A state between two steps. -/
structure Moment where
  state : State
  active : Option Placement

/-- The limit order that a placement leaves in the book. -/
def Placement.order (p : Placement) (price : UInt64) : Order :=
  restingOrder (UInt64.ofNat p.num) p.clientId p.clientOrderId p.symbol p.side
    price p.quantity p.leavesQty (p.quantity - p.leavesQty)

/-- The entry of that order. -/
def Placement.entry (p : Placement) (price : UInt64) : Entry where
  num := p.num
  order := p.order price

/-- The event of a fill of a placement against a resting order. -/
def Placement.fill (p : Placement) (resting : Order) (qty : UInt64) : OutputEvent :=
  fillEvent p.num p.clientId p.symbol p.side resting qty

/-- A placement after a part of it is filled. -/
def Placement.less (p : Placement) (qty : UInt64) : Placement :=
  { p with leavesQty := p.leavesQty - qty }

/-- An event that reports a rejection. -/
def IsRejection : OutputEvent → Prop
  | .orderRejected .. => True
  | .cancelRejected .. => True
  | .modifyRejected .. => True
  | _ => False

/-- The locator of an entry in the queue of a level. -/
def Entry.locator (x : Entry) (k : Level) : Locator where
  num := x.num
  tick := k.2
  side := k.1

section Steps

variable (cfg : Config)

/-- The opposite side has nothing left that the placement crosses. -/
def Swept (s : State) (p : Placement) : Prop :=
  ∀ {t x}, s.best p.side.opposite = some (t, x) →
    crossesTick cfg p.side p.limitPrice t = false

inductive Step : Moment → List OutputEvent → Moment → Prop
  | account {s : State} (c : UInt64) :
      Step ⟨s, none⟩ [] ⟨s.account c, none⟩
  | number {s : State} {p : Placement}
      (hnum : p.num = s.nextNum)
      (hlimit : openOrders s.clients p.clientId < 1000)
      (hqty : p.quantity ≠ 0)
      (hleaves : p.leavesQty = p.quantity) :
      Step ⟨s, none⟩ [] ⟨s.number, some p⟩
  | fillWhole {s : State} {p : Placement} {t : Nat} {x : Entry}
      (hbest : s.best p.side.opposite = some (t, x))
      (hcross : crossesTick cfg p.side p.limitPrice t = true)
      (hle : x.order.leavesQty ≤ p.leavesQty) :
      Step ⟨s, some p⟩ [p.fill x.order x.order.leavesQty]
        ⟨s.leave (p.side.opposite, t) x, some (p.less x.order.leavesQty)⟩
  | fillPart {s : State} {p : Placement} {t : Nat} {x : Entry}
      (hbest : s.best p.side.opposite = some (t, x))
      (hcross : crossesTick cfg p.side p.limitPrice t = true)
      (hpos : p.leavesQty ≠ 0)
      (hlt : p.leavesQty < x.order.leavesQty) :
      Step ⟨s, some p⟩ [p.fill x.order p.leavesQty]
        ⟨s.change (p.side.opposite, t) x (filledBy p.leavesQty),
          some (p.less p.leavesQty)⟩
  | rest {s : State} {p : Placement} {price : UInt64} {t : Nat}
      (hlimit : p.limitPrice = some price)
      (htick : tickOf cfg price = some t)
      (hpos : 0 < p.leavesQty)
      (hswept : Swept cfg s p)
      (hroom : s.resting < cfg.capacity) :
      Step ⟨s, some p⟩
        [.orderAccepted (UInt64.ofNat p.num) p.clientId p.clientOrderId p.symbol p.side
          price p.leavesQty]
        ⟨s.rest (p.side, t) (p.entry price), none⟩
  | leftover {s : State} {p : Placement}
      (hlimit : p.limitPrice = none) :
      Step ⟨s, some p⟩ [.orderCancelled (UInt64.ofNat p.num) p.clientId p.leavesQty]
        ⟨s, none⟩
  | finish {s : State} {p : Placement} :
      Step ⟨s, some p⟩ [] ⟨s, none⟩
  | reject {s : State} {active : Option Placement} {ev : OutputEvent}
      (hev : IsRejection ev) :
      Step ⟨s, active⟩ [ev] ⟨s, none⟩
  | cancel {s : State} {k : Level} {x : Entry}
      (hx : x ∈ s.queue k)
      (hindex : s.index x.order.key = some (x.locator k)) :
      Step ⟨s, none⟩ [.orderCancelled x.order.orderId x.order.clientId x.order.leavesQty]
        ⟨s.leave k x, none⟩
  | reduce {s : State} {k : Level} {x : Entry} {target : UInt64}
      (hx : x ∈ s.queue k)
      (hindex : s.index x.order.key = some (x.locator k))
      (hpos : target ≠ 0)
      (hle : target ≤ x.order.leavesQty) :
      Step ⟨s, none⟩
        [.orderModified x.order.orderId x.order.clientId x.order.price target]
        ⟨s.change k x (reducedTo target), none⟩
  | move {s : State} {k : Level} {x : Entry} {price target : UInt64} {t : Nat}
      (hx : x ∈ s.queue k)
      (hindex : s.index x.order.key = some (x.locator k))
      (hpos : target ≠ 0)
      (htick : tickOf cfg price = some t)
      (hmoved : ¬ (price = x.order.price ∧ target ≤ x.order.leavesQty)) :
      Step ⟨s, none⟩
        [.orderModified x.order.orderId x.order.clientId price target]
        ⟨s.move k x (x.order.side, t) (requeuedAs price target x.order), none⟩
  | evict {s : State} {k : Level} {x : Entry}
      (hx : x ∈ s.queue k)
      (hindex : s.index x.order.key = some (x.locator k)) :
      Step ⟨s, none⟩ [.modifyRejected x.order.orderId x.order.clientId]
        ⟨s.leave k x, none⟩

end Steps

section Consistency

variable {cfg : Config} {m m' : Moment} {s : State} {es : List OutputEvent}

/-- A consistent state, with a placement under way that has a fresh number and
room for one more open order. -/
structure MomentOk (cfg : Config) (m : Moment) : Prop where
  consistent : Consistent cfg m.state
  num : ∀ {p}, m.active = some p → p.num < m.state.nextNum
  fresh : ∀ {p k y}, m.active = some p → y ∈ m.state.queue k → y.num ≠ p.num
  limit : ∀ {p}, m.active = some p → openOrders m.state.clients p.clientId < 1000

theorem Consistent.moment
    (h : Consistent cfg s) :
    MomentOk cfg ⟨s, none⟩ where
  consistent := h
  num hp := by simp at hp
  fresh hp := by simp at hp
  limit hp := by simp at hp

/-- A placement under way, by what its moment asks of it. -/
theorem Consistent.active
    {p : Placement}
    (h : Consistent cfg s) (hnum : p.num < s.nextNum)
    (hfresh : ∀ k y, y ∈ s.queue k → y.num ≠ p.num)
    (hlimit : openOrders s.clients p.clientId < 1000) :
    MomentOk cfg ⟨s, some p⟩ where
  consistent := h
  num hp := Option.some.inj hp ▸ hnum
  fresh hp hy := Option.some.inj hp ▸ hfresh _ _ hy
  limit hp := Option.some.inj hp ▸ hlimit

theorem State.best_mem
    {side : Side} {t : Nat} {x : Entry}
    (h : s.best side = some (t, x)) :
    x ∈ s.queue (side, t) := by
  unfold State.best at h
  obtain ⟨t', -, ht'⟩ := Option.bind_eq_some_iff.mp h
  obtain ⟨y, hy, he⟩ := Option.map_eq_some_iff.mp ht'
  obtain ⟨rfl, rfl⟩ := Prod.mk.inj he
  exact List.mem_of_head? hy

/-- A best tick has a best entry. -/
theorem best_ne_none
    {side : Side} {t : Nat}
    (h : s.bestTick side = some t) :
    s.best side ≠ none := by
  have hne : s.queue (side, t) ≠ [] := by
    cases side with
    | buy => exact (highest_eq_some_iff.mp h).2.1
    | sell => exact (lowest_eq_some_iff.mp h).2.1
  obtain ⟨y, ys, hq⟩ := List.exists_cons_of_ne_nil hne
  simp [State.best, h, hq]

/-- Closing an account opens none. -/
theorem openOrders_closeAccount_le
    {clients : Clients} {c c' : UInt64} :
    openOrders (closeAccount clients c) c' ≤ openOrders clients c' := by
  by_cases h : c' = c
  · subst h
    by_cases hpos : 0 < openOrders clients c'
    · have := openOrders_closeAccount_self hpos
      omega
    · unfold closeAccount
      cases hc : clients c' with
      | none => exact le_refl _
      | some ac =>
          have hac : accountOf clients c' = ac := by simp [accountOf, hc]
          rw [openOrders, hac] at hpos
          have hlt : ac.openOrders < 1 := by
            rw [UInt32.lt_iff_toNat_lt]
            simp only [UInt32.toNat_one]
            omega
          rw [openOrders, accountOf_update]
          simp [hlt]
  · rw [openOrders_closeAccount_of_ne h]

/-- Every step keeps the state consistent. -/
theorem Step.momentOk
    (h : Step cfg m es m') (hm : MomentOk cfg m) :
    MomentOk cfg m' := by
  have hc := hm.consistent
  cases h with
  | account c => exact (hc.account c).moment
  | @number s p hnum hlimit hqty hleaves =>
      refine hc.number.active ?_ (fun k y hy => ?_) hlimit
      · rw [hnum]
        exact Nat.lt_succ_self s.nextNum
      · rw [hnum]
        exact (hc.entry hy).num.ne
  | @fillWhole s p t x hbest hcross hle =>
      have hx := State.best_mem hbest
      refine (hc.leave hx).active (hm.num (p := p) rfl) (fun k y hy => ?_) ?_
      · exact hm.fresh (p := p) rfl (mem_discard.mp hy).1
      · exact lt_of_le_of_lt openOrders_closeAccount_le (hm.limit (p := p) rfl)
  | @fillPart s p t x hbest hcross hpos hlt =>
      have hx := State.best_mem hbest
      refine (hc.filledBy hx hlt).active (hm.num (p := p) rfl) (fun k y hy => ?_)
        (hm.limit (p := p) rfl)
      rcases (mem_change hc.distinct hx).mp hy with ⟨hy, -⟩ | ⟨rfl, rfl⟩
      · exact hm.fresh (p := p) rfl hy
      · exact hm.fresh (p := p) (y := x) rfl hx
  | @rest s p price t hlimit htick hpos hswept hroom =>
      refine (hc.rest ?_ (fun _ _ hy => hm.fresh rfl hy) hroom (hm.limit rfl)).moment
      exact
        { tick := htick
          side := rfl
          leaves := hpos
          id := rfl
          num := hm.num rfl }
  | leftover => exact hc.moment
  | finish => exact hc.moment
  | reject => exact hc.moment
  | cancel hx => exact (hc.leave hx).moment
  | @reduce s k x target hx hindex hpos hle =>
      refine (hc.change hx (keeps_reducedTo target) ?_).moment
      exact UInt64.pos_iff_ne_zero.mpr hpos
  | @move s k x price target t hx hindex hpos htick hmoved =>
      refine (hc.move (o := requeuedAs price target x.order) hx ?_ rfl).moment
      exact
        { tick := htick
          side := rfl
          leaves := UInt64.pos_iff_ne_zero.mpr hpos
          id := (hc.entry hx).id
          num := (hc.entry hx).num }
  | evict hx => exact (hc.leave hx).moment

end Consistency

end PriceTime
end LmaxEngine
