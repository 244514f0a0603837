import LmaxEngine.Spec.Bystanders
import LmaxEngine.Spec.Conservation

/-!
# A modification and a new order in its place

An order that is modified to another price, or to a larger quantity, goes to the end
of a queue as a new order would.  What it does not do is trade.  So to cancel it and
to place it anew comes to the same, as long as the new price crosses no resting order.
-/

namespace LmaxEngine
namespace PriceTime

open Queues

/-- The same orders in the same queues, but for the ids that the engine has handed
out, and the same open orders of every client. -/
structure SameBook (s s' : State) : Prop where
  queues : ∀ k, (s.queue k).map (fun x => x.order.quote.anonymous) =
    (s'.queue k).map (fun x => x.order.quote.anonymous)
  accounts : ∀ c, accountOf s.clients c = accountOf s'.clients c

section Replacing

variable {cfg : Config} {s s' : State} {k : Level} {x : Entry} {p : Placement}

/-- Books that are the same hold the same on a side. -/
theorem SameBook.sideQty
    (h : SameBook s s') (side : Side) :
    s.sideQty side = s'.sideQty side := by
  have hweight : ∀ x : Entry,
      (if x.order.side = side then x.order.leavesQty.toNat else 0) =
        if x.order.quote.anonymous.side = side then
          x.order.quote.anonymous.leavesQty.toNat else 0 := fun _ => rfl
  have hsum : ∀ xs : List Entry,
      (xs.map fun x => if x.order.side = side then x.order.leavesQty.toNat else 0).sum =
        ((xs.map fun x => x.order.quote.anonymous).map
          fun r => if r.side = side then r.leavesQty.toNat else 0).sum := by
    intro xs
    rw [List.map_map]
    exact congrArg List.sum (List.map_congr_left fun x _ => hweight x)
  refine Finset.sum_congr rfl fun k _ => ?_
  rw [hsum, hsum, h.queues]

/-- The side of a placement gains at most what matching has left. -/
theorem placeLimit_sideQty_le
    {price : UInt64} {t : Nat}
    (hm : MomentOk cfg ⟨s, some p⟩) (hleaves : p.leavesQty = p.quantity)
    (hlimit : p.limitPrice = some price) (ht : t < numTicks) :
    (placeLimit cfg s p.num p.clientId p.clientOrderId p.symbol p.side price p.quantity
        t).1.sideQty p.side ≤
      s.sideQty p.side + (p.sweep cfg (s.resting + 1) s).2.1.toNat := by
  have hown := (sweep_sideQty hm (s.resting + 1)).2
  unfold placeLimit
  rw [matchAll_eq_sweep hleaves hlimit]
  dsimp only
  split_ifs
  · exact hown.le.trans (Nat.le_add_right _ _)
  · rw [sideQty_rest ht, hown]
    refine Nat.add_le_add_left ?_ _
    split_ifs
    · exact Nat.le_refl _
    · exact Nat.zero_le _
  · exact hown.le.trans (Nat.le_add_right _ _)

/-- A placement that hits nothing comes to rest. -/
theorem placeLimit_no_hits
    {price : UInt64} {t : Nat}
    (hm : MomentOk cfg ⟨s, some p⟩) (hleaves : p.leavesQty = p.quantity)
    (hlimit : p.limitPrice = some price) (hqty : p.quantity ≠ 0)
    (hroom : s.resting ≠ cfg.capacity)
    (hmiss : ∀ k x, x ∈ s.queue k → hits cfg p.side p.limitPrice x.order = false) :
    (placeLimit cfg s p.num p.clientId p.clientOrderId p.symbol p.side price p.quantity t).1 =
      s.rest (p.side, t) (p.entry price) := by
  unfold placeLimit
  rw [matchAll_eq_sweep hleaves hlimit, sweep_no_hits hm hmiss]
  dsimp only
  rw [if_pos (hleaves ▸ UInt64.pos_iff_ne_zero.mpr hqty), if_neg hroom]
  rfl

/-- A client that gives up one order may place another. -/
theorem Consistent.limit_leave
    (hc : Consistent cfg s) (hx : x ∈ s.queue k) :
    ¬ maxOpenOrders ≤ (accountOf (s.leave k x).clients x.order.clientId).openOrders := by
  have hself := openOrders_closeAccount_self (hc.openOrders_pos hx)
  have hlimit := hc.limit x.order.clientId
  have hclients : (s.leave k x).clients = closeAccount s.clients x.order.clientId := rfl
  rw [not_limit_iff, hclients]
  omega

/-- The placement that takes the place of an order. -/
def replacement (s : State) (k : Level) (x : Entry) (price target : UInt64) : Placement :=
  (s.leave k x).placement x.order.clientId x.order.clientOrderId x.order.symbol x.order.side
    (some price) target

/-- The state in which that placement is matched. -/
def vacated (s : State) (k : Level) (x : Entry) : State :=
  ((s.leave k x).account x.order.clientId).number

/-- Closing and opening an order leaves the accounts as they are. -/
theorem Consistent.reopened
    (hc : Consistent cfg s) (hx : x ∈ s.queue k) (c : UInt64) :
    accountOf (openAccount (vacated s k x).clients x.order.clientId) c =
      accountOf s.clients c := by
  have hpos : 0 < (accountOf s.clients x.order.clientId).openOrders.toNat :=
    hc.openOrders_pos hx
  have hlt : ¬ (accountOf s.clients x.order.clientId).openOrders < 1 := by
    rw [UInt32.lt_iff_toNat_lt, UInt32.toNat_one]
    omega
  have hvacated : ∀ c', accountOf (vacated s k x).clients c' =
      accountOf (closeAccount s.clients x.order.clientId) c' := fun _ => accountOf_account
  rw [accountOf_openAccount, hvacated, hvacated, accountOf_closeAccount, accountOf_closeAccount,
    if_pos rfl]
  by_cases h : c = x.order.clientId
  · rw [if_pos h, h, if_neg hlt, UInt32.sub_add_cancel]
  · rw [if_neg h, if_neg h]

/-- The placement may be matched. -/
theorem Consistent.replacement_ok
    {price target : UInt64}
    (hc : Consistent cfg s) (hx : x ∈ s.queue k) (hqty : target ≠ 0) :
    MomentOk cfg ⟨vacated s k x, some (replacement s k x price target)⟩ :=
  started_ok (hc.leave hx) hqty (Consistent.limit_leave hc hx) x.order.clientOrderId
    x.order.symbol x.order.side (some price)

/-- An order that a placement in its place hits is another one. -/
theorem Consistent.mem_vacated
    {price : UInt64} {k' : Level} {y : Entry}
    (hc : Consistent cfg s) (hx : x ∈ s.queue k) (hy : y ∈ s.queue k')
    (hhit : hits cfg x.order.side (some price) y.order = true) :
    y ∈ (vacated s k x).queue k' := by
  refine mem_discard.mpr ⟨hy, fun h => ?_⟩
  obtain rfl := hc.distinct.eq hy hx h.2
  obtain ⟨hside, -⟩ := (hits_iff hc hy).mp hhit
  rw [← (hc.entry hy).side] at hside
  cases hs : y.order.side <;> rw [hs] at hside <;> exact absurd hside (by decide)

/-- What is moved stands on its side with its whole quantity. -/
theorem move_sideQty
    {price target : UInt64} {t : Nat}
    (ht : t < numTicks) :
    (s.move k x (x.order.side, t) (requeuedAs price target x.order)).sideQty x.order.side =
      (vacated s k x).sideQty x.order.side + target.toNat := by
  refine (weigh_push (g := fun z : Entry =>
    if z.order.side = x.order.side then z.order.leavesQty.toNat else 0)
    (PriceTime.mem_levels.mpr ht)).trans ?_
  exact congrArg _ (if_pos rfl)

/-- A placement that hits an order leaves less of itself on its side than the
modification. -/
theorem not_hits_of_sameBook_move
    {price target : UInt64} {t : Nat} {k' : Level} {y : Entry}
    (hc : Consistent cfg s) (hx : x ∈ s.queue k) (hqty : target ≠ 0) (ht : t < numTicks)
    (h : SameBook (s.move k x (x.order.side, t) (requeuedAs price target x.order))
      (placeLimit cfg (vacated s k x) (s.leave k x).nextNum x.order.clientId
        x.order.clientOrderId x.order.symbol x.order.side price target t).1)
    (hy : y ∈ s.queue k') :
    hits cfg x.order.side (some price) y.order = false := by
  by_contra hhit
  rw [Bool.not_eq_false] at hhit
  have hm : MomentOk cfg ⟨vacated s k x, some (replacement s k x price target)⟩ :=
    Consistent.replacement_ok hc hx hqty
  have hacross : 0 < (vacated s k x).across cfg x.order.side (some price) :=
    (across_pos_iff hm.consistent).mpr ⟨k', y, Consistent.mem_vacated hc hx hy hhit, hhit⟩
  have hleft := sweep_left hm (Nat.lt_add_one _)
  have hle := placeLimit_sideQty_le hm rfl rfl ht
  have hpos : 0 < target.toNat := UInt64.lt_iff_toNat_lt.mp (UInt64.pos_iff_ne_zero.mpr hqty)
  have htotal : (vacated s k x).sideQty x.order.side + target.toNat ≤
      (vacated s k x).sideQty x.order.side +
        (target.toNat - (vacated s k x).across cfg x.order.side (some price)) := by
    rw [← move_sideQty ht, h.sideQty x.order.side]
    exact hle.trans (Nat.add_le_add_left hleft.le _)
  omega

theorem sameBook_move_of_not_hits
    {price target : UInt64} {t : Nat}
    (hc : Consistent cfg s) (hx : x ∈ s.queue k) (hqty : target ≠ 0)
    (hmiss : ∀ k' y, y ∈ s.queue k' → hits cfg x.order.side (some price) y.order = false) :
    SameBook (s.move k x (x.order.side, t) (requeuedAs price target x.order))
      (placeLimit cfg (vacated s k x) (s.leave k x).nextNum x.order.clientId
        x.order.clientOrderId x.order.symbol x.order.side price target t).1 := by
  have hplaced : (placeLimit cfg (vacated s k x) (s.leave k x).nextNum x.order.clientId
      x.order.clientOrderId x.order.symbol x.order.side price target t).1 =
        (vacated s k x).rest (x.order.side, t)
          ((replacement s k x price target).entry price) :=
    placeLimit_no_hits (Consistent.replacement_ok hc hx hqty) rfl rfl hqty
      (resting_leave_ne_capacity hc hx) fun k' y hy => hmiss k' y (mem_discard.mp hy).1
  rw [hplaced]
  refine ⟨fun k' => ?_, fun c => (Consistent.reopened hc hx c).symm⟩
  have hpush : image (fun z : Entry => z.order.quote.anonymous)
      (s.move k x (x.order.side, t) (requeuedAs price target x.order)).queue =
        image (fun z : Entry => z.order.quote.anonymous)
          ((vacated s k x).rest (x.order.side, t)
            ((replacement s k x price target).entry price)).queue := by
    dsimp only [State.move, State.rest]
    rw [image_push, image_push]
    rfl
  exact congrFun hpush k'

/-- **When a modification is a new order in its place.**  Exactly if the new price
crosses no resting order. -/
theorem sameBook_move_iff
    {price target : UInt64} {t : Nat}
    (hc : Consistent cfg s) (hx : x ∈ s.queue k) (hqty : target ≠ 0)
    (htick : tickOf cfg price = some t) :
    SameBook (s.move k x (x.order.side, t) (requeuedAs price target x.order))
        (place cfg (s.leave k x) x.order.clientId x.order.clientOrderId x.order.symbol
          x.order.side .limit (some price) target).1 ↔
      ∀ k' y, y ∈ s.queue k' → hits cfg x.order.side (some price) y.order = false := by
  rw [place_limit hqty (Consistent.limit_leave hc hx) htick]
  exact ⟨fun h _ _ hy => not_hits_of_sameBook_move hc hx hqty (tickOf_lt htick) h hy,
    sameBook_move_of_not_hits hc hx hqty⟩

end Replacing

end PriceTime
end LmaxEngine
