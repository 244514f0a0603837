import LmaxEngine.Lib.Lines
import LmaxEngine.Spec.Sweep

/-!
# Price-time priority

The orders of a side stand in line: the queues of its ticks one after the other,
the best tick first.  A placement is offered to the hit orders in this order.
What an order is offered is what is left of the placement when the orders ahead
of it have taken theirs.  Matching does to every order what its offer says.
-/

namespace LmaxEngine

open Queues Transition PriceTime

/-- Higher for bids, lower for asks. -/
def Side.Better (side : Side) (t t' : Nat) : Prop :=
  match side with
  | .buy => t' < t
  | .sell => t < t'

/-- The levels of a side, the best one first. -/
def Side.ranked (side : Side) : List Level :=
  match side with
  | .buy => (List.range numTicks).reverse.map (fun t => (side, t))
  | .sell => (List.range numTicks).map (fun t => (side, t))

section Ranks

variable {side : Side} {k k' : Level}

theorem mem_ranked :
    k ∈ side.ranked ↔ k.1 = side ∧ k.2 < numTicks := by
  obtain ⟨sd, t⟩ := k
  cases side <;> simp [Side.ranked, and_comm, eq_comm]

theorem ranked_pairwise
    (side : Side) :
    side.ranked.Pairwise (fun k k' => side.Better k.2 k'.2) := by
  cases side with
  | buy =>
      rw [Side.ranked, List.pairwise_map, List.pairwise_reverse]
      exact List.pairwise_lt_range
  | sell =>
      rw [Side.ranked, List.pairwise_map]
      exact List.pairwise_lt_range

theorem Side.Better.asymm
    {t t' : Nat}
    (h : side.Better t t') :
    ¬ side.Better t' t := by
  cases side <;> exact Nat.lt_asymm h

theorem ranked_nodup
    (side : Side) :
    side.ranked.Nodup := by
  refine (ranked_pairwise side).imp fun {k k'} h => ?_
  rintro rfl
  exact h.asymm h

/-- Of two levels in line the first is better. -/
theorem pair_sublist_ranked :
    [k, k'].Sublist side.ranked ↔
      k ∈ side.ranked ∧ k' ∈ side.ranked ∧ side.Better k.2 k'.2 :=
  pair_sublist_iff (fun _ _ h => h.asymm) (ranked_pairwise side)

end Ranks

namespace PriceTime

/-- The entries of a side in the order of their priority. -/
def State.line (s : State) (side : Side) : List Entry :=
  Queues.line side.ranked s.queue

/-- The quantity left of an entry. -/
def Entry.leaves (x : Entry) : Nat :=
  x.order.leavesQty.toNat

/-- The quantity that the entries ahead of a number hold together. -/
def State.aheadQty (s : State) (side : Side) (n : Nat) : Nat :=
  ahead Entry.num Entry.leaves n (s.line side)

/-- What is left of a placement for an entry. -/
def offer (cfg : Config) (s : State) (p : Placement) (x : Entry) : Nat :=
  if hits cfg p.side p.limitPrice x.order then
    p.leavesQty.toNat - s.aheadQty p.side.opposite x.num
  else 0

section Lines

variable {cfg : Config} {s : State} {k : Level} {x y : Entry} {side : Side} {t : Nat}
variable {f : Order → Order}

theorem mem_state_line
    (hc : Consistent cfg s) :
    x ∈ s.line side ↔ ∃ k, k.1 = side ∧ x ∈ s.queue k := by
  rw [State.line, mem_line]
  constructor
  · rintro ⟨k, hk, hx⟩
    exact ⟨k, (mem_ranked.mp hk).1, hx⟩
  · rintro ⟨k, hside, hx⟩
    exact ⟨k, mem_ranked.mpr ⟨hside, tickOf_lt (hc.entry hx).tick⟩, hx⟩

theorem line_nodup
    (hc : Consistent cfg s) (side : Side) :
    ((s.line side).map Entry.num).Nodup :=
  hc.distinct.line_nodup (ranked_nodup side)

theorem line_length_le
    (s : State) (side : Side) :
    (s.line side).length ≤ s.resting :=
  length_line_le (ranked_nodup side) fun _ hk => mem_levels.mpr (mem_ranked.mp hk).2

/-- The best entry is the first one in line. -/
theorem line_best
    (h : s.best side = some (t, x)) :
    ∃ xs, s.line side = x :: xs := by
  unfold State.best at h
  obtain ⟨t', htick, ht'⟩ := Option.bind_eq_some_iff.mp h
  obtain ⟨y, hy, he⟩ := Option.map_eq_some_iff.mp ht'
  obtain ⟨rfl, rfl⟩ := Prod.mk.inj he
  obtain ⟨xs, hq⟩ := List.head?_eq_some_iff.mp hy
  have hbest : t' < numTicks ∧
      ∀ u, u < numTicks → s.queue (side, u) ≠ [] → ¬ side.Better u t' := by
    cases side with
    | buy =>
        obtain ⟨hlt, -, hle⟩ := highest_eq_some_iff.mp htick
        exact ⟨hlt, fun u hu hne => Nat.not_lt.mpr (hle u hu hne)⟩
    | sell =>
        obtain ⟨hlt, -, hle⟩ := lowest_eq_some_iff.mp htick
        exact ⟨hlt, fun u hu hne => Nat.not_lt.mpr (hle u hu hne)⟩
  have hmem : (side, t') ∈ side.ranked := mem_ranked.mpr ⟨rfl, hbest.1⟩
  obtain ⟨ks₁, ks₂, hks⟩ := List.append_of_mem hmem
  have hpair := ranked_pairwise side
  rw [hks] at hpair
  refine ⟨xs ++ Queues.line ks₂ s.queue, ?_⟩
  rw [State.line, hks]
  refine line_cons (fun k' hk' => ?_) hq
  have hbetter := (List.pairwise_append.mp hpair).2.2 k' hk' _ List.mem_cons_self
  have hmem' : k' ∈ side.ranked := by
    rw [hks]
    exact List.mem_append_left _ hk'
  obtain ⟨hside, hlt⟩ := mem_ranked.mp hmem'
  by_contra hne
  have hk'' : k' = (side, k'.2) := by rw [← hside]
  rw [hk''] at hne
  exact hbest.2 k'.2 hlt hne hbetter

theorem line_leave
    (hc : Consistent cfg s) (hx : x ∈ s.queue k) :
    (s.leave k x).line side = (s.line side).filter (fun y => decide (y.num ≠ x.num)) :=
  hc.distinct.line_discard hx

theorem line_change
    (hc : Consistent cfg s) (hx : x ∈ s.queue k) :
    (s.change k x f).line side =
      (s.line side).map (fun y => if y.num = x.num then { y with order := f y.order } else y) :=
  hc.distinct.line_revise hx

/-- When the first entry leaves, the others are the line. -/
theorem line_leave_best
    {xs : List Entry}
    (hc : Consistent cfg s) (hx : x ∈ s.queue k) (hline : s.line side = x :: xs) :
    (s.leave k x).line side = xs := by
  have hnd := line_nodup hc side
  rw [hline, List.map_cons, List.nodup_cons] at hnd
  rw [line_leave hc hx, hline, List.filter_cons_of_neg (by simp)]
  refine List.filter_eq_self.mpr fun y hy => decide_eq_true fun hnum => hnd.1 ?_
  rw [← hnum]
  exact List.mem_map_of_mem hy

end Lines

section Offers

variable {cfg : Config} {s : State} {k : Level} {x y : Entry} {p : Placement} {t : Nat}

/-- Nothing is offered once a placement is used up or its side is swept. -/
theorem offer_stop
    (hc : Consistent cfg s) (hstop : p.leavesQty = 0 ∨ Swept cfg s p) (hx : x ∈ s.queue k) :
    offer cfg s p x = 0 := by
  rw [offer]
  rcases hstop with h0 | hswept
  · rw [h0]
    split_ifs <;> simp
  · rw [hswept.not_hits hc hx]
    rfl

/-- The best entry is offered all that is left. -/
theorem offer_best
    (hc : Consistent cfg s) (hb : s.best p.side.opposite = some (t, x))
    (hcross : crossesTick cfg p.side p.limitPrice t = true) :
    offer cfg s p x = p.leavesQty.toNat := by
  obtain ⟨xs, hline⟩ := line_best hb
  rw [offer, if_pos (hits_best hc hb hcross), State.aheadQty, hline, ahead_cons_self,
    Nat.sub_zero]

theorem aheadQty_of_best
    {side : Side}
    (hb : s.best side = some (t, x)) (hc : Consistent cfg s) (hy : y.num ≠ x.num) :
    s.aheadQty side y.num = x.leaves + (s.leave (side, t) x).aheadQty side y.num := by
  obtain ⟨xs, hline⟩ := line_best hb
  rw [State.aheadQty, State.aheadQty, line_leave_best hc (State.best_mem hb) hline, hline,
    ahead_cons_of_ne (Ne.symm hy)]

/-- What the others are offered does not change when the best entry is filled. -/
theorem offer_leave
    (hc : Consistent cfg s) (hb : s.best p.side.opposite = some (t, x))
    (hle : x.order.leavesQty ≤ p.leavesQty) (hy : y.num ≠ x.num) :
    offer cfg (s.leave (p.side.opposite, t) x) (p.less x.order.leavesQty) y =
      offer cfg s p y := by
  have hless : (p.less x.order.leavesQty).leavesQty.toNat = p.leavesQty.toNat - x.leaves :=
    UInt64.toNat_sub_of_le _ _ hle
  rw [offer, offer, hless, aheadQty_of_best hb hc hy, Nat.sub_sub]
  rfl

/-- Nothing is left for the others when the best entry takes all. -/
theorem offer_behind
    (hc : Consistent cfg s) (hb : s.best p.side.opposite = some (t, x))
    (hle : p.leavesQty ≤ x.order.leavesQty) (hy : y.num ≠ x.num) :
    offer cfg s p y = 0 := by
  rw [UInt64.le_iff_toNat_le] at hle
  have hahead := aheadQty_of_best hb hc hy
  rw [Entry.leaves] at hahead
  rw [offer]
  split_ifs
  · omega
  · rfl

end Offers

section Sweeps

variable {cfg : Config} {s : State} {k : Level} {x y : Entry} {p : Placement} {fuel : Nat}

/-- An entry after a quantity of it is filled. -/
def Entry.filled (x : Entry) (qty : Nat) : Entry :=
  { x with order := filledBy (UInt64.ofNat qty) x.order }

theorem Entry.filled_zero
    (x : Entry) :
    x.filled 0 = x := by
  simp [Entry.filled, filledBy]

/-- **What matching leaves.**  The entries that are offered less than they hold
are left, with what they were offered filled. -/
theorem mem_sweep_iff
    (hm : MomentOk cfg ⟨s, some p⟩) (hfuel : s.resting < fuel) :
    y ∈ (p.sweep cfg fuel s).1.queue k ↔
      ∃ x, x ∈ s.queue k ∧ offer cfg s p x < x.leaves ∧ y = x.filled (offer cfg s p x) := by
  induction fuel generalizing p s with
  | zero => omega
  | succ fuel ih =>
      have hc : Consistent cfg s := hm.consistent
      rcases sweep_cases cfg p s with hstop | ⟨t, z, h0, hb, hcross, hle | hlt⟩
      · rw [sweep_stop hstop]
        constructor
        · intro hy
          refine ⟨y, hy, ?_, ?_⟩
          · rw [offer_stop hc hstop hy]
            exact UInt64.lt_iff_toNat_lt.mp (hc.entry hy).leaves
          · rw [offer_stop hc hstop hy, Entry.filled_zero]
        · rintro ⟨x, hx, -, rfl⟩
          rwa [offer_stop hc hstop hx, Entry.filled_zero]
      · have hz := State.best_mem hb
        have hstep : Step cfg ⟨s, some p⟩ _ _ := Step.fillWhole hb hcross hle
        have hrest : (s.leave (p.side.opposite, t) z).resting + 1 = s.resting :=
          hc.resting_leave hz
        have hle' := UInt64.le_iff_toNat_le.mp hle
        rw [sweep_whole h0 hb hcross hle]
        refine (ih (p := p.less z.order.leavesQty) (hstep.momentOk hm) (by omega)).trans ?_
        constructor
        · rintro ⟨x, hx, hlt, rfl⟩
          obtain ⟨hx, hne⟩ := (hc.distinct.mem_discard hz).mp hx
          rw [offer_leave hc hb hle hne] at hlt ⊢
          exact ⟨x, hx, hlt, rfl⟩
        · rintro ⟨x, hx, hlt, rfl⟩
          have hne : x.num ≠ z.num := by
            intro hnum
            obtain rfl := hc.distinct.eq hx hz hnum
            rw [offer_best hc hb hcross, Entry.leaves] at hlt
            omega
          rw [← offer_leave hc hb hle hne] at hlt ⊢
          exact ⟨x, (hc.distinct.mem_discard hz).mpr ⟨hx, hne⟩, hlt, rfl⟩
      · have hz := State.best_mem hb
        have hlt' := UInt64.lt_iff_toNat_lt.mp hlt
        have hbehind : ∀ x : Entry, x.num ≠ z.num → offer cfg s p x = 0 :=
          fun x hne => offer_behind hc hb (UInt64.le_of_lt hlt) hne
        rw [sweep_part h0 hb hcross hlt]
        refine (mem_change hc.distinct hz).trans ?_
        constructor
        · rintro (⟨hy, hne⟩ | ⟨rfl, rfl⟩)
          · refine ⟨y, hy, ?_, ?_⟩
            · rw [hbehind y hne]
              exact UInt64.lt_iff_toNat_lt.mp (hc.entry hy).leaves
            · rw [hbehind y hne, Entry.filled_zero]
          · refine ⟨z, hz, ?_, ?_⟩
            · rw [offer_best hc hb hcross]
              exact hlt'
            · rw [offer_best hc hb hcross, Entry.filled, UInt64.ofNat_toNat]
        · rintro ⟨x, hx, -, rfl⟩
          by_cases hne : x.num = z.num
          · obtain rfl := hc.distinct.eq hx hz hne
            obtain rfl := hc.distinct.same_key hx hz rfl
            right
            rw [offer_best hc hb hcross, Entry.filled, UInt64.ofNat_toNat]
            exact ⟨rfl, rfl⟩
          · left
            rw [hbehind x hne, Entry.filled_zero]
            exact ⟨hx, hne⟩

/-- **What matching reports.**  There is a fill for every entry that is offered
something, of what it takes. -/
theorem mem_sweep_events_iff
    {ev : OutputEvent}
    (hm : MomentOk cfg ⟨s, some p⟩) (hfuel : s.resting < fuel) :
    ev ∈ (p.sweep cfg fuel s).2.2 ↔
      ∃ k x, x ∈ s.queue k ∧ 0 < offer cfg s p x ∧
        ev = p.fill x.order (UInt64.ofNat (min (offer cfg s p x) x.leaves)) := by
  induction fuel generalizing p s with
  | zero => omega
  | succ fuel ih =>
      have hc : Consistent cfg s := hm.consistent
      rcases sweep_cases cfg p s with hstop | ⟨t, z, h0, hb, hcross, hle | hlt⟩
      · rw [sweep_stop hstop]
        refine iff_of_false List.not_mem_nil ?_
        rintro ⟨k, x, hx, hpos, -⟩
        rw [offer_stop hc hstop hx] at hpos
        exact absurd hpos (Nat.lt_irrefl 0)
      · have hz := State.best_mem hb
        have hstep : Step cfg ⟨s, some p⟩ _ _ := Step.fillWhole hb hcross hle
        have hrest : (s.leave (p.side.opposite, t) z).resting + 1 = s.resting :=
          hc.resting_leave hz
        have hpos : 0 < p.leavesQty.toNat :=
          UInt64.lt_iff_toNat_lt.mp (UInt64.pos_iff_ne_zero.mpr h0)
        have htake : UInt64.ofNat (min p.leavesQty.toNat z.leaves) = z.order.leavesQty := by
          rw [Entry.leaves, Nat.min_eq_right (UInt64.le_iff_toNat_le.mp hle), UInt64.ofNat_toNat]
        rw [sweep_whole h0 hb hcross hle, List.mem_cons,
          ih (p := p.less z.order.leavesQty) (hstep.momentOk hm) (by omega)]
        constructor
        · rintro (rfl | ⟨k, x, hx, hoffer, rfl⟩)
          · refine ⟨_, z, hz, ?_, ?_⟩
            · rwa [offer_best hc hb hcross]
            · rw [offer_best hc hb hcross, htake]
          · obtain ⟨hx, hne⟩ := (hc.distinct.mem_discard hz).mp hx
            rw [offer_leave hc hb hle hne] at hoffer ⊢
            exact ⟨k, x, hx, hoffer, rfl⟩
        · rintro ⟨k, x, hx, hoffer, rfl⟩
          by_cases hne : x.num = z.num
          · obtain rfl := hc.distinct.eq hx hz hne
            left
            rw [offer_best hc hb hcross, htake]
          · right
            rw [← offer_leave hc hb hle hne] at hoffer ⊢
            exact ⟨k, x, (hc.distinct.mem_discard hz).mpr ⟨hx, hne⟩, hoffer, rfl⟩
      · have hz := State.best_mem hb
        have hlt' := UInt64.lt_iff_toNat_lt.mp hlt
        have hpos : 0 < p.leavesQty.toNat :=
          UInt64.lt_iff_toNat_lt.mp (UInt64.pos_iff_ne_zero.mpr h0)
        have htake : UInt64.ofNat (min p.leavesQty.toNat z.leaves) = p.leavesQty := by
          rw [Entry.leaves, Nat.min_eq_left hlt'.le, UInt64.ofNat_toNat]
        rw [sweep_part h0 hb hcross hlt, List.mem_singleton]
        constructor
        · rintro rfl
          refine ⟨_, z, hz, ?_, ?_⟩
          · rwa [offer_best hc hb hcross]
          · rw [offer_best hc hb hcross, htake]
        · rintro ⟨k, x, hx, hoffer, rfl⟩
          have hnum : x.num = z.num := by
            by_contra hne
            rw [offer_behind hc hb (UInt64.le_of_lt hlt) hne] at hoffer
            exact absurd hoffer (Nat.lt_irrefl 0)
          obtain rfl := hc.distinct.eq hx hz hnum
          rw [offer_best hc hb hcross, htake]

end Sweeps

/-- The limit that matching gets. -/
def limitOf (orderType : OrderType) (price : Option UInt64) : Option UInt64 :=
  match orderType with
  | .market => none
  | .limit => price

/-- A placement that passes all checks. -/
structure Accepted
    (cfg : Config) (s : State)
    (clientId : UInt64) (orderType : OrderType) (price : Option UInt64)
    (quantity : UInt64) : Prop where
  qty : quantity ≠ 0
  limit : openOrders s.clients clientId < 1000
  tick : orderType = .limit → (price.bind (tickOf cfg)).isSome = true

/-- What a placement does once it is under way. -/
inductive Placed (cfg : Config) (s : State) (p : Placement) : State × List OutputEvent → Prop
  | matched {es : List OutputEvent}
      (hes : ∀ ev, ev ∈ es → IsRejection ev ∨
        ev = .orderCancelled (UInt64.ofNat p.num) p.clientId
          (p.sweep cfg (s.resting + 1) s).2.1) :
      Placed cfg s p
        ((p.sweep cfg (s.resting + 1) s).1, (p.sweep cfg (s.resting + 1) s).2.2 ++ es)
  | rested {price left : UInt64} {t : Nat}
      (hlimit : p.limitPrice = some price)
      (htick : tickOf cfg price = some t)
      (hleft : left = (p.sweep cfg (s.resting + 1) s).2.1)
      (hpos : 0 < left) :
      Placed cfg s p
        ((p.sweep cfg (s.resting + 1) s).1.rest (p.side, t)
            (Placement.entry { p with leavesQty := left } price),
          (p.sweep cfg (s.resting + 1) s).2.2 ++
            [.orderAccepted (UInt64.ofNat p.num) p.clientId p.clientOrderId p.symbol p.side
              price left])

section Outcomes

variable {cfg : Config} {s : State} {p : Placement}

theorem placeMarket_placed
    (hleaves : p.leavesQty = p.quantity) (hlimit : p.limitPrice = none) :
    Placed cfg s p
      (PriceTime.placeMarket cfg s p.num p.clientId p.symbol p.side p.quantity) := by
  rw [PriceTime.placeMarket]
  simp only [matchAll_eq_sweep hleaves hlimit]
  split_ifs
  · exact Placed.matched fun ev hev => Or.inr (List.mem_singleton.mp hev)
  · have hmatched : Placed cfg s p ((p.sweep cfg (s.resting + 1) s).1,
        (p.sweep cfg (s.resting + 1) s).2.2 ++ []) :=
      Placed.matched fun ev hev => absurd hev List.not_mem_nil
    rwa [List.append_nil] at hmatched

theorem placeLimit_placed
    {price : UInt64} {t : Nat}
    (hleaves : p.leavesQty = p.quantity) (hlimit : p.limitPrice = some price)
    (htick : tickOf cfg price = some t) :
    Placed cfg s p (PriceTime.placeLimit cfg s p.num p.clientId p.clientOrderId p.symbol p.side
      price p.quantity t) := by
  rw [PriceTime.placeLimit]
  simp only [matchAll_eq_sweep hleaves hlimit]
  split_ifs with hpos
  · refine Placed.matched fun ev hev => Or.inl ?_
    obtain rfl := List.mem_singleton.mp hev
    trivial
  · exact Placed.rested hlimit htick rfl hpos
  · have hmatched : Placed cfg s p ((p.sweep cfg (s.resting + 1) s).1,
        (p.sweep cfg (s.resting + 1) s).2.2 ++ []) :=
      Placed.matched fun ev hev => absurd hev List.not_mem_nil
    rwa [List.append_nil] at hmatched

/-- What a placement comes to: a rejection, or what it does under way. -/
theorem place_outcomes
    (cfg : Config) (s : State) (clientId clientOrderId : UInt64) (symbol : Symbol) (side : Side)
    (orderType : OrderType) (price : Option UInt64) (quantity : UInt64) :
    (¬ Accepted cfg s clientId orderType price quantity ∧
        (place cfg s clientId clientOrderId symbol side orderType price quantity).1.queue =
          s.queue ∧
        ∀ ev, ev ∈ (place cfg s clientId clientOrderId symbol side orderType price quantity).2 →
          IsRejection ev) ∨
      (Accepted cfg s clientId orderType price quantity ∧
        Placed cfg (s.account clientId).number
          (s.placement clientId clientOrderId symbol side (limitOf orderType price) quantity)
          (place cfg s clientId clientOrderId symbol side orderType price quantity)) := by
  have hrejected : ∀ {s' : State} {ev : OutputEvent}, IsRejection ev → s'.queue = s.queue →
      (s', [ev]).1.queue = s.queue ∧ ∀ ev', ev' ∈ (s', [ev]).2 → IsRejection ev' := by
    rintro s' ev hev hqueue
    refine ⟨hqueue, fun ev' hev' => ?_⟩
    rwa [List.mem_singleton.mp hev']
  rcases place_cases cfg s clientId clientOrderId symbol side quantity orderType price with
    ⟨hqty, hp⟩ | ⟨hlimit, hp⟩ |
      ⟨hqty, hlimit, ⟨htype, hprice, hp⟩ | ⟨htype, hp⟩ | ⟨limit, t, htype, hprice, htick, hp⟩⟩
  · rw [hp]
    exact Or.inl ⟨fun h => h.qty hqty, hrejected trivial rfl⟩
  · rw [hp]
    exact Or.inl ⟨fun h => not_limit_iff.mpr h.limit hlimit, hrejected trivial rfl⟩
  · rw [hp]
    refine Or.inl ⟨fun h => ?_, hrejected trivial rfl⟩
    have htick := h.tick htype
    rw [hprice] at htick
    exact absurd htick (by simp)
  · rw [hp]
    subst htype
    exact Or.inr ⟨⟨hqty, not_limit_iff.mp hlimit, by simp⟩, placeMarket_placed rfl rfl⟩
  · rw [hp]
    subst htype hprice
    refine Or.inr ⟨⟨hqty, not_limit_iff.mp hlimit, fun _ => ?_⟩,
      placeLimit_placed rfl rfl htick⟩
    rw [Option.bind_some, htick]
    rfl

/-- The moment at which an accepted placement is under way. -/
theorem Accepted.started
    {clientId quantity : UInt64} {orderType : OrderType} {price : Option UInt64}
    (h : Accepted cfg s clientId orderType price quantity) (hc : Consistent cfg s)
    (clientOrderId : UInt64) (symbol : Symbol) (side : Side) :
    MomentOk cfg ⟨(s.account clientId).number,
      some (s.placement clientId clientOrderId symbol side (limitOf orderType price)
        quantity)⟩ :=
  started_ok hc h.qty (not_limit_iff.mpr h.limit) _ _ _ _

end Outcomes

end PriceTime
end LmaxEngine
