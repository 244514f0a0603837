import LmaxEngine.Lib.Greedy
import LmaxEngine.Spec.Priority

/-!
# Matching is a greedy walk

Matching walks the line of the other side and takes from each entry that is hit as
much as it holds, until the placement is used up.  So after as many rounds as the
line has entries, and one more, it has come to its end.
-/

namespace LmaxEngine
namespace PriceTime

open Queues Greedy

/-- May matching take from the entry? -/
def Placement.meets (cfg : Config) (p : Placement) (x : Entry) : Bool :=
  hits cfg p.side p.limitPrice x.order

/-- What is taken from the entries of the line by a placement. -/
def State.takes (cfg : Config) (s : State) (p : Placement) : List (Entry × Nat) :=
  Greedy.takes Entry.leaves (p.meets cfg) p.leavesQty.toNat (s.line p.side.opposite)

/-- The entries of the line that a placement lets stay. -/
def State.stays (cfg : Config) (s : State) (p : Placement) : List Entry :=
  Greedy.stays Entry.leaves (p.meets cfg) (fun n x => x.filled n) p.leavesQty.toNat
    (s.line p.side.opposite)

/-- The fill of an entry. -/
def Placement.fillOf (p : Placement) (f : Entry × Nat) : OutputEvent :=
  p.fill f.1.order (UInt64.ofNat f.2)

section Walks

variable {cfg : Config} {s : State} {p : Placement} {t fuel : Nat} {x : Entry} {xs : List Entry}

/-- Where matching stops the walk does. -/
theorem walk_stop
    (hc : Consistent cfg s) (hstop : p.leavesQty = 0 ∨ Swept cfg s p) :
    s.takes cfg p = [] ∧ s.stays cfg p = s.line p.side.opposite := by
  have hzero : p.leavesQty = 0 → p.leavesQty.toNat = 0 := by
    intro h0
    rw [h0]
    rfl
  rw [State.takes, State.stays]
  cases hline : s.line p.side.opposite with
  | nil => exact ⟨takes_nil, stays_nil⟩
  | cons x xs =>
      have hhead : p.leavesQty.toNat = 0 ∨ p.meets cfg x = false := by
        refine hstop.imp hzero fun hswept => ?_
        obtain ⟨k, -, hx⟩ := (mem_state_line hc).mp (hline ▸ List.mem_cons_self)
        exact hswept.not_hits hc hx
      exact ⟨takes_of_stop hhead, stays_of_stop hhead⟩

/-- The line after its first entry is filled in part. -/
theorem line_change_best
    {side : Side} {k : Level} {f : Order → Order}
    (hc : Consistent cfg s) (hx : x ∈ s.queue k) (hline : s.line side = x :: xs) :
    (s.change k x f).line side = { x with order := f x.order } :: xs := by
  have hnd := line_nodup hc side
  rw [hline, List.map_cons, List.nodup_cons] at hnd
  rw [line_change hc hx, hline, List.map_cons, if_pos rfl]
  congr 1
  conv_rhs => rw [← List.map_id xs]
  refine List.map_congr_left fun y hy => if_neg fun hnum => hnd.1 ?_
  rw [← hnum]
  exact List.mem_map_of_mem hy

/-- An entry that is filled in whole is walked past. -/
theorem walk_whole
    (hc : Consistent cfg s) (h0 : p.leavesQty ≠ 0)
    (hb : s.best p.side.opposite = some (t, x))
    (hcross : crossesTick cfg p.side p.limitPrice t = true)
    (hle : x.order.leavesQty ≤ p.leavesQty) :
    s.takes cfg p = (x, x.leaves) ::
        (s.leave (p.side.opposite, t) x).takes cfg (p.less x.order.leavesQty) ∧
      s.stays cfg p =
        (s.leave (p.side.opposite, t) x).stays cfg (p.less x.order.leavesQty) := by
  obtain ⟨xs, hline⟩ := line_best hb
  have hleave : (s.leave (p.side.opposite, t) x).line
      (p.less x.order.leavesQty).side.opposite = xs :=
    line_leave_best hc (State.best_mem hb) hline
  have h0' : p.leavesQty.toNat ≠ 0 := fun h => h0 (UInt64.toNat_inj.mp h)
  have hmeets : p.meets cfg x = true := hits_best hc hb hcross
  have hle' : x.leaves ≤ p.leavesQty.toNat := UInt64.le_iff_toNat_le.mp hle
  have hless : (p.less x.order.leavesQty).leavesQty.toNat = p.leavesQty.toNat - x.leaves :=
    UInt64.toNat_sub_of_le _ _ hle
  rw [State.takes, State.takes, State.stays, State.stays, hleave, hless, hline]
  constructor
  · rw [takes_of_meets h0' hmeets, Nat.min_eq_right hle']
    rfl
  · rw [stays_of_le h0' hmeets hle']
    rfl

/-- The walk ends with an entry that is filled in part. -/
theorem walk_part
    (hc : Consistent cfg s) (h0 : p.leavesQty ≠ 0)
    (hb : s.best p.side.opposite = some (t, x))
    (hcross : crossesTick cfg p.side p.limitPrice t = true)
    (hlt : p.leavesQty < x.order.leavesQty) :
    s.takes cfg p = [(x, p.leavesQty.toNat)] ∧
      s.stays cfg p =
        (s.change (p.side.opposite, t) x (filledBy p.leavesQty)).line p.side.opposite := by
  obtain ⟨xs, hline⟩ := line_best hb
  have h0' : p.leavesQty.toNat ≠ 0 := fun h => h0 (UInt64.toNat_inj.mp h)
  have hmeets : p.meets cfg x = true := hits_best hc hb hcross
  have hlt' : p.leavesQty.toNat < x.leaves := UInt64.lt_iff_toNat_lt.mp hlt
  rw [State.takes, State.stays, line_change_best hc (State.best_mem hb) hline, hline]
  constructor
  · rw [takes_of_meets h0' hmeets, Nat.min_eq_left hlt'.le, Nat.sub_eq_zero_of_le hlt'.le,
      takes_zero]
  · rw [stays_of_lt h0' hmeets hlt', Entry.filled, UInt64.ofNat_toNat]

/-- **Matching is the greedy walk of the line.** -/
theorem sweep_walk
    (hc : Consistent cfg s) (hfuel : (s.line p.side.opposite).length < fuel) :
    (p.sweep cfg fuel s).2.2 = (s.takes cfg p).map p.fillOf ∧
      (p.sweep cfg fuel s).1.line p.side.opposite = s.stays cfg p ∧
      (p.sweep cfg fuel s).2.1.toNat + ((s.takes cfg p).map Prod.snd).sum =
        p.leavesQty.toNat := by
  induction fuel generalizing p s with
  | zero => omega
  | succ fuel ih =>
      rcases sweep_cases cfg p s with hstop | ⟨t, x, h0, hb, hcross, hle | hlt⟩
      · obtain ⟨htakes, hstays⟩ := walk_stop hc hstop
        rw [sweep_stop hstop, htakes, hstays]
        exact ⟨rfl, rfl, rfl⟩
      · have hx := State.best_mem hb
        obtain ⟨xs, hline⟩ := line_best hb
        have hleave := line_leave_best hc hx hline
        obtain ⟨htakes, hstays⟩ := walk_whole hc h0 hb hcross hle
        have hle' : x.order.leavesQty.toNat ≤ p.leavesQty.toNat := UInt64.le_iff_toNat_le.mp hle
        have hless : (p.less x.order.leavesQty).leavesQty.toNat =
            p.leavesQty.toNat - x.order.leavesQty.toNat :=
          UInt64.toNat_sub_of_le _ _ hle
        rw [hline, List.length_cons] at hfuel
        obtain ⟨hev, hstay, hleft⟩ := ih (p := p.less x.order.leavesQty) (hc.leave hx)
          (by rw [show (p.less x.order.leavesQty).side = p.side from rfl, hleave]; omega)
        rw [sweep_whole h0 hb hcross hle, htakes, hstays, List.map_cons, List.map_cons,
          List.sum_cons, Placement.fillOf, Entry.leaves, UInt64.ofNat_toNat]
        refine ⟨congrArg _ hev, hstay, ?_⟩
        dsimp only
        omega
      · obtain ⟨htakes, hstays⟩ := walk_part hc h0 hb hcross hlt
        rw [sweep_part h0 hb hcross hlt, htakes, hstays, List.map_singleton, Placement.fillOf,
          UInt64.ofNat_toNat]
        exact ⟨rfl, rfl, Nat.zero_add _⟩

end Walks

end PriceTime
end LmaxEngine
