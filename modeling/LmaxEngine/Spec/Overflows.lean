import LmaxEngine.Spec.Executions

/-!
# The sums of quantities

The engine adds quantities in three places: to the total of a level when an order
comes to it, to the counter of a resting order when a part of it is filled, and
to the counter of an order that is reduced in place.  What these sums come to is
known before the command is handled.
-/

namespace LmaxEngine
namespace PriceTime

open Queues Transition

/-- The quantity that a queue holds. -/
def State.held (s : State) (k : Level) : Nat :=
  weigh {k} s.queue Entry.leaves

/-- A placement that comes to rest at a level that cannot take what is left of
it. -/
def Overloads
    (cfg : Config) (s : State)
    (clientId : UInt64) (side : Side) (price quantity : UInt64) : Prop :=
  Rests cfg s clientId side price quantity ∧ ∃ t, tickOf cfg price = some t ∧
    2 ^ 64 ≤ s.held (side, t) + (quantity.toNat - s.across cfg side (some price))

/-- A command that takes a sum of quantities beyond 64 bits: the counter of an
order that is filled in part, the total of the level at which a placement or a
moved order rests, or the counter of an order that is reduced in place. -/
def Overflows (cfg : Config) (s : State) : Command → Prop
  | .place clientId clientOrderId symbol side orderType price quantity _ =>
      Accepted cfg s clientId orderType price quantity ∧
        (Overfills cfg s
            (s.placement clientId clientOrderId symbol side (limitOf orderType price) quantity) ∨
          ∃ limit, orderType = .limit ∧ price = some limit ∧
            Overloads cfg s clientId side limit quantity)
  | .modify clientId clientOrderId newPrice newQty =>
      ∃ k x, x ∈ s.queue k ∧ s.index (clientId, clientOrderId) = some (x.locator k) ∧
        newQty.getD x.order.leavesQty ≠ 0 ∧
        ((newPrice.getD x.order.price = x.order.price ∧
            newQty.getD x.order.leavesQty ≤ x.order.leavesQty ∧
            2 ^ 64 ≤ x.order.filledQty.toNat +
              (x.order.leavesQty.toNat - (newQty.getD x.order.leavesQty).toNat)) ∨
          (¬ (newPrice.getD x.order.price = x.order.price ∧
              newQty.getD x.order.leavesQty ≤ x.order.leavesQty) ∧
            ∃ t, tickOf cfg (newPrice.getD x.order.price) = some t ∧
              2 ^ 64 ≤ (s.leave k x).held (x.order.side, t) +
                (newQty.getD x.order.leavesQty).toNat))
  | _ => False

section Fits

variable {cfg : Config} {s : State} {p : Placement} {x : Entry} {t : Nat}

/-- Matching that is over overfills nothing. -/
theorem not_overfills
    (hc : Consistent cfg s) (hstop : p.leavesQty = 0 ∨ Swept cfg s p) :
    ¬ Overfills cfg s p := by
  rintro ⟨k, y, hy, -, hover⟩
  have := y.order.filledQty.toNat_lt
  rw [offer_stop hc hstop hy] at hover
  omega

/-- A round that fills the best entry in whole overfills nothing. -/
theorem overfills_leave_iff
    (hc : Consistent cfg s) (hb : s.best p.side.opposite = some (t, x))
    (hcross : crossesTick cfg p.side p.limitPrice t = true)
    (hle : x.order.leavesQty ≤ p.leavesQty) :
    Overfills cfg (s.leave (p.side.opposite, t) x) (p.less x.order.leavesQty) ↔
      Overfills cfg s p := by
  constructor
  · rintro ⟨k, y, hy, hlt, hover⟩
    obtain ⟨hy, hne⟩ := (hc.distinct.mem_discard (State.best_mem hb)).mp hy
    rw [offer_leave hc hb hle hne] at hlt hover
    exact ⟨k, y, hy, hlt, hover⟩
  · rintro ⟨k, y, hy, hlt, hover⟩
    have hne : y.num ≠ x.num := by
      intro hnum
      obtain rfl := hc.distinct.eq hy (State.best_mem hb) hnum
      rw [offer_best hc hb hcross] at hlt
      exact absurd (UInt64.le_iff_toNat_le.mp hle) (Nat.not_le.mpr hlt)
    rw [← offer_leave hc hb hle hne] at hlt hover
    exact ⟨k, y, (hc.distinct.mem_discard (State.best_mem hb)).mpr ⟨hy, hne⟩, hlt, hover⟩

/-- Filling the best entry in part overfills its counter or none. -/
theorem overfills_part_iff
    (hc : Consistent cfg s) (hb : s.best p.side.opposite = some (t, x))
    (hcross : crossesTick cfg p.side p.limitPrice t = true)
    (hlt : p.leavesQty < x.order.leavesQty) :
    Overfills cfg s p ↔ 2 ^ 64 ≤ x.order.filledQty.toNat + p.leavesQty.toNat := by
  constructor
  · rintro ⟨k, y, hy, -, hover⟩
    by_cases hnum : y.num = x.num
    · obtain rfl := hc.distinct.eq hy (State.best_mem hb) hnum
      rwa [offer_best hc hb hcross] at hover
    · have := y.order.filledQty.toNat_lt
      rw [offer_behind hc hb (UInt64.le_of_lt hlt) hnum] at hover
      omega
  · intro hover
    refine ⟨_, x, State.best_mem hb, ?_, ?_⟩
    · rw [offer_best hc hb hcross]
      exact UInt64.lt_iff_toNat_lt.mp hlt
    · rwa [offer_best hc hb hcross]

/-- Matching leaves the queues of its own side as they are. -/
theorem held_sweep
    (cfg : Config) (s : State) (p : Placement) (t fuel : Nat) :
    (p.sweep cfg fuel s).1.held (p.side, t) = s.held (p.side, t) := by
  simp only [State.held, weigh, Finset.sum_singleton, sweep_own]

/-- What matching leaves of a placement is too much for the level to which it
comes. -/
theorem overloads_iff
    {price : UInt64}
    (hm : MomentOk cfg ⟨s, some p⟩)
    (hleaves : p.leavesQty = p.quantity) (hlimit : p.limitPrice = some price)
    (htick : tickOf cfg price = some t) (hqty : p.quantity ≠ 0) :
    Overloads cfg s p.clientId p.side price p.quantity ↔
      0 < (p.sweep cfg (s.resting + 1) s).2.1 ∧
      (p.sweep cfg (s.resting + 1) s).1.resting ≠ cfg.capacity ∧
      2 ^ 64 ≤ s.held (p.side, t) + (p.sweep cfg (s.resting + 1) s).2.1.toNat := by
  have hleft := sweep_left hm (Nat.lt_add_one s.resting)
  have hacross := sweep_left_pos_iff hm
  have hfree := sweep_resting_ne_iff hm
  rw [hleaves, hlimit] at hleft hacross
  rw [hlimit] at hfree
  rw [hleft]
  constructor
  · rintro ⟨hrests, t', ht', hover⟩
    obtain rfl : t = t' := Option.some.inj (htick.symm.trans ht')
    have hpos := hacross.mpr hrests.left
    exact ⟨hpos, (hfree (UInt64.pos_iff_ne_zero.mp hpos)).mpr hrests.room, hover⟩
  · rintro ⟨hpos, hroom, hover⟩
    refine ⟨⟨hqty, hm.limit rfl, ?_, hacross.mp hpos,
      (hfree (UInt64.pos_iff_ne_zero.mp hpos)).mp hroom⟩, t, htick, hover⟩
    rw [htick]
    rfl

theorem overfills_number
    (s : State) (c : UInt64) (p : Placement) :
    Overfills cfg (s.account c).number p ↔ Overfills cfg s p := Iff.rfl

theorem overloads_number
    {clientId price quantity : UInt64} {side : Side} :
    Overloads cfg (s.account clientId).number clientId side price quantity ↔
      Overloads cfg s clientId side price quantity := by
  have hopen : openOrders (s.account clientId).number.clients clientId =
      openOrders s.clients clientId := by
    change openOrders (s.account clientId).clients clientId = _
    rw [openOrders, accountOf_account, openOrders]
  refine and_congr ?_ Iff.rfl
  constructor
  · exact fun hr => ⟨hr.qty, hopen ▸ hr.limit, hr.tick, hr.left, hr.room⟩
  · exact fun hr => ⟨hr.qty, hopen.symm ▸ hr.limit, hr.tick, hr.left, hr.room⟩

end Fits

end PriceTime
end LmaxEngine
