import LmaxEngine.Spec.Commands

/-!
# What matching leaves

An order of the book is *hit* by a placement when it stands on the other side
at a tick that crosses.  Matching fills hit orders only, and what is left of
the placement is what the hit orders together do not hold.
-/

namespace LmaxEngine
namespace PriceTime

open Queues Transition

/-- Is the order hit by a placement on this side with this limit? -/
def hits (cfg : Config) (side : Side) (limitPrice : Option UInt64) (o : Order) : Bool :=
  decide (o.side = side.opposite) &&
    (tickOf cfg o.price).any (crossesTick cfg side limitPrice)

/-- The quantity of an order if it is hit. -/
def hitQty (cfg : Config) (side : Side) (limitPrice : Option UInt64) (o : Order) : Nat :=
  if hits cfg side limitPrice o then o.leavesQty.toNat else 0

/-- The quantity that the hit orders of a state hold together. -/
noncomputable def State.across
    (cfg : Config) (s : State) (side : Side) (limitPrice : Option UInt64) : Nat :=
  weigh levels s.queue (fun x => hitQty cfg side limitPrice x.order)

/-- The number of orders that are hit. -/
noncomputable def State.hitCount
    (cfg : Config) (s : State) (side : Side) (limitPrice : Option UInt64) : Nat :=
  weigh levels s.queue (fun x => if hits cfg side limitPrice x.order then 1 else 0)

section Hits

variable {cfg : Config} {s : State} {k : Level} {x : Entry} {p : Placement} {t : Nat}
variable {side : Side} {limitPrice : Option UInt64}

theorem hits_iff
    (hc : Consistent cfg s) (hx : x ∈ s.queue k) :
    hits cfg side limitPrice x.order = true ↔
      k.1 = side.opposite ∧ crossesTick cfg side limitPrice k.2 = true := by
  have hok := hc.entry hx
  simp [hits, hok.side, hok.tick]

/-- Prices of ticks that hold orders grow with the tick. -/
theorem priceOf_le
    {price price' : UInt64} {t t' : Nat}
    (h : tickOf cfg price = some t) (h' : tickOf cfg price' = some t') (hle : t ≤ t') :
    priceOf cfg t ≤ priceOf cfg t' := by
  rw [UInt64.le_iff_toNat_le, toNat_priceOf h, toNat_priceOf h']
  exact Nat.add_le_add_left (Nat.mul_le_mul_right _ hle) _

/-- If any order of a side is hit, the best one is. -/
theorem crossesTick_best
    {y : Entry}
    (hc : Consistent cfg s) (hb : s.best side.opposite = some (t, x))
    (hy : y ∈ s.queue k) (hhit : hits cfg side limitPrice y.order = true) :
    crossesTick cfg side limitPrice t = true := by
  obtain ⟨hside, hcross⟩ := (hits_iff hc hy).mp hhit
  have hx := State.best_mem hb
  have htx := (hc.entry hx).tick
  have hty := (hc.entry hy).tick
  have hlt := tickOf_lt hty
  obtain ⟨sd, t'⟩ := k
  obtain rfl : sd = side.opposite := hside
  cases limitPrice with
  | none => rfl
  | some price =>
      unfold State.best at hb
      obtain ⟨t'', htick, ht''⟩ := Option.bind_eq_some_iff.mp hb
      obtain ⟨z, -, he⟩ := Option.map_eq_some_iff.mp ht''
      obtain ⟨rfl, rfl⟩ := Prod.mk.inj he
      have hne : s.queue (side.opposite, t') ≠ [] := List.ne_nil_of_mem hy
      cases side with
      | buy =>
          have hle := (lowest_eq_some_iff.mp htick).2.2 t' hlt hne
          simp only [crossesTick, crosses, decide_eq_true_eq] at hcross ⊢
          exact UInt64.le_trans (priceOf_le htx hty hle) hcross
      | sell =>
          have hle := (highest_eq_some_iff.mp htick).2.2 t' hlt hne
          simp only [crossesTick, crosses, decide_eq_true_eq] at hcross ⊢
          exact UInt64.le_trans hcross (priceOf_le hty htx hle)

/-- Once the side is swept no order is hit. -/
theorem Swept.not_hits
    (hc : Consistent cfg s) (h : Swept cfg s p) (hx : x ∈ s.queue k) :
    hits cfg p.side p.limitPrice x.order = false := by
  cases hhit : hits cfg p.side p.limitPrice x.order with
  | false => rfl
  | true =>
      obtain ⟨hside, -⟩ := (hits_iff hc hx).mp hhit
      cases hb : s.best p.side.opposite with
      | none =>
          have hne : s.bestTick p.side.opposite ≠ none := by
            obtain ⟨sd, t'⟩ := k
            obtain rfl : sd = p.side.opposite := hside
            have hlt := tickOf_lt (hc.entry hx).tick
            intro hnone
            refine List.ne_nil_of_mem hx ?_
            cases hs : p.side with
            | buy =>
                rw [hs] at hnone
                exact lowest_eq_none_iff.mp hnone t' hlt
            | sell =>
                rw [hs] at hnone
                exact highest_eq_none_iff.mp hnone t' hlt
          obtain ⟨t'', ht''⟩ := Option.ne_none_iff_exists'.mp hne
          exact absurd hb (best_ne_none ht'')
      | some tx =>
          obtain ⟨t'', y⟩ := tx
          have := crossesTick_best hc hb hx hhit
          rw [h hb] at this
          exact this.symm

theorem across_eq_zero
    (hc : Consistent cfg s) (h : Swept cfg s p) :
    s.across cfg p.side p.limitPrice = 0 := by
  unfold State.across weigh
  refine Finset.sum_eq_zero fun k _ => List.sum_eq_zero_iff.mpr fun n hn => ?_
  obtain ⟨x, hx, rfl⟩ := List.mem_map.mp hn
  simp [hitQty, h.not_hits hc hx]

/-- The hit orders hold something together when there is one. -/
theorem across_pos_iff
    (hc : Consistent cfg s) :
    0 < s.across cfg side limitPrice ↔
      ∃ k y, y ∈ s.queue k ∧ hits cfg side limitPrice y.order = true := by
  constructor
  · intro hpos
    by_contra hcon
    have hmiss : ∀ k y, y ∈ s.queue k → hits cfg side limitPrice y.order = false :=
      fun k y hy => Bool.eq_false_iff.mpr fun hhit => hcon ⟨k, y, hy, hhit⟩
    refine Nat.pos_iff_ne_zero.mp hpos ?_
    rw [State.across, weigh]
    refine Finset.sum_eq_zero fun k _ => List.sum_eq_zero_iff.mpr fun n hn => ?_
    obtain ⟨y, hy, rfl⟩ := List.mem_map.mp hn
    rw [hitQty, hmiss k y hy, if_neg Bool.false_ne_true]
  · rintro ⟨k, y, hy, hhit⟩
    have hle := le_weigh (g := fun x : Entry => hitQty cfg side limitPrice x.order)
      (hc.entry hy).mem_levels hy
    have hpos := UInt64.lt_iff_toNat_lt.mp (hc.entry hy).leaves
    rw [hitQty, if_pos hhit] at hle
    exact lt_of_lt_of_le hpos hle

/-- The best entry is hit when its tick crosses. -/
theorem hits_best
    (hc : Consistent cfg s) (hb : s.best p.side.opposite = some (t, x))
    (hcross : crossesTick cfg p.side p.limitPrice t = true) :
    hits cfg p.side p.limitPrice x.order = true :=
  (hits_iff hc (State.best_mem hb)).mpr ⟨rfl, hcross⟩

end Hits

/-- The index names every resting order under its key. -/
def State.Complete (s : State) : Prop :=
  ∀ k x, x ∈ s.queue k → s.index x.order.key = some (x.locator k)

section Completeness

variable {cfg : Config} {s : State} {k k' : Level} {x y : Entry}

theorem State.Complete.leave
    (hindex : s.Complete) (hx : x ∈ s.queue k) :
    (s.leave k x).Complete := by
  intro k' y hy
  obtain ⟨hy, hne⟩ := mem_discard.mp hy
  have hyx : y.order.key ≠ x.order.key := by
    intro hkey
    have h1 := hindex k' y hy
    rw [hkey, hindex k x hx, Option.some.injEq, Entry.locator, Entry.locator] at h1
    obtain ⟨hnum, htick, hside⟩ := Locator.mk.inj h1
    exact hne ⟨Prod.ext hside.symm htick.symm, hnum.symm⟩
  exact (Function.update_of_ne hyx _ _).trans (hindex k' y hy)

theorem State.Complete.change
    {f : Order → Order}
    (hindex : s.Complete)
    (hd : Distinct Entry.num s.queue) (hf : Keeps f) (hx : x ∈ s.queue k) :
    (s.change k x f).Complete := by
  intro k' y hy
  rcases (mem_change hd hx).mp hy with ⟨hy, -⟩ | ⟨rfl, rfl⟩
  · exact hindex k' y hy
  · dsimp only
    rw [hf.key]
    exact hindex k' x hx

end Completeness

section Sweeps

variable {cfg : Config} {s : State} {k : Level} {x : Entry} {p : Placement} {fuel : Nat}

/-- The quantity across goes down with the best entry. -/
theorem across_leave
    (side : Side) (limitPrice : Option UInt64)
    (hc : Consistent cfg s) (hx : x ∈ s.queue k) :
    (s.leave k x).across cfg side limitPrice + hitQty cfg side limitPrice x.order =
      s.across cfg side limitPrice :=
  weigh_discard (g := fun y : Entry => hitQty cfg side limitPrice y.order)
    hc.distinct (hc.entry hx).mem_levels hx

/-- **What is left of a placement** is what the hit orders do not hold. -/
theorem sweep_left
    (hm : MomentOk cfg ⟨s, some p⟩) (hfuel : s.resting < fuel) :
    (p.sweep cfg fuel s).2.1.toNat =
      p.leavesQty.toNat - s.across cfg p.side p.limitPrice := by
  induction fuel generalizing p s with
  | zero => omega
  | succ fuel ih =>
      have hc : Consistent cfg s := hm.consistent
      rcases sweep_cases cfg p s with hstop | ⟨t, x, h0, hb, hcross, hle | hlt⟩
      · rw [sweep_stop hstop]
        rcases hstop with h0 | hswept
        · simp [h0]
        · rw [across_eq_zero hc hswept, Nat.sub_zero]
      · have hx := State.best_mem hb
        have hstep : Step cfg ⟨s, some p⟩ _ _ := Step.fillWhole hb hcross hle
        have hrest : (s.leave (p.side.opposite, t) x).resting + 1 = s.resting :=
          hc.resting_leave hx
        have hacross := across_leave p.side p.limitPrice hc hx
        rw [hitQty, if_pos (hits_best hc hb hcross)] at hacross
        rw [sweep_whole h0 hb hcross hle]
        dsimp only
        rw [ih (p := p.less x.order.leavesQty) (hstep.momentOk hm) (by omega)]
        change (p.leavesQty - x.order.leavesQty).toNat -
          (s.leave (p.side.opposite, t) x).across cfg p.side p.limitPrice = _
        rw [UInt64.toNat_sub_of_le _ _ hle]
        omega
      · have hx := State.best_mem hb
        have hge := le_weigh (g := fun y : Entry => hitQty cfg p.side p.limitPrice y.order)
          (hc.entry hx).mem_levels hx
        rw [UInt64.lt_iff_toNat_lt] at hlt
        simp only [hitQty, if_pos (hits_best hc hb hcross)] at hge
        rw [sweep_part h0 hb hcross (UInt64.lt_iff_toNat_lt.mpr hlt)]
        change 0 = p.leavesQty.toNat -
          weigh levels s.queue (fun x => hitQty cfg p.side p.limitPrice x.order)
        simp only [hitQty]
        omega

/-- **The rule of matching.**  A relation of books holds of those before and after
matching if it holds of a book and itself, goes back over the leaving of a best
entry that is hit, and holds where such an entry is filled in part. -/
theorem sweep_states
    {R : State → State → Prop}
    (hm : MomentOk cfg ⟨s, some p⟩)
    (hrefl : ∀ s, R s s)
    (hleave : ∀ {s s' t x}, Consistent cfg s → s.best p.side.opposite = some (t, x) →
      crossesTick cfg p.side p.limitPrice t = true →
      R (s.leave (p.side.opposite, t) x) s' → R s s')
    (hchange : ∀ {s t x} (qty : UInt64), Consistent cfg s →
      s.best p.side.opposite = some (t, x) → crossesTick cfg p.side p.limitPrice t = true →
      R s (s.change (p.side.opposite, t) x (filledBy qty)))
    (fuel : Nat) :
    R s (p.sweep cfg fuel s).1 := by
  induction fuel generalizing p s with
  | zero => exact hrefl s
  | succ fuel ih =>
      have hc : Consistent cfg s := hm.consistent
      rcases sweep_cases cfg p s with hstop | ⟨t, x, h0, hb, hcross, hle | hlt⟩
      · rw [sweep_stop hstop]
        exact hrefl s
      · have hstep : Step cfg ⟨s, some p⟩ _ _ := Step.fillWhole hb hcross hle
        rw [sweep_whole h0 hb hcross hle]
        exact hleave hc hb hcross
          (ih (p := p.less x.order.leavesQty) (hstep.momentOk hm) hleave hchange)
      · rw [sweep_part h0 hb hcross hlt]
        exact hchange p.leavesQty hc hb hcross

/-- Matching leaves the entries alone that are not hit. -/
theorem sweep_keeps
    (hm : MomentOk cfg ⟨s, some p⟩)
    (hx : x ∈ s.queue k) (hmiss : hits cfg p.side p.limitPrice x.order = false) :
    x ∈ (p.sweep cfg fuel s).1.queue k := by
  -- the best entry is another one, since it is hit
  have hne : ∀ {s : State} {t : Nat} {y : Entry}, Consistent cfg s →
      s.best p.side.opposite = some (t, y) → crossesTick cfg p.side p.limitPrice t = true →
      x ∈ s.queue k → x.num ≠ y.num := by
    intro s t y hc hb hcross hx hnum
    obtain rfl := hc.distinct.eq hx (State.best_mem hb) hnum
    rw [hits_best hc hb hcross] at hmiss
    exact absurd hmiss (by simp)
  refine sweep_states (R := fun s s' => x ∈ s.queue k → x ∈ s'.queue k) hm (fun _ => id)
    ?_ ?_ fuel hx
  · intro s s' t y hc hb hcross hrest hx
    exact hrest ((hc.distinct.mem_discard (State.best_mem hb)).mpr ⟨hx, hne hc hb hcross hx⟩)
  · intro s t y qty hc hb hcross hx
    exact (mem_change hc.distinct (State.best_mem hb)).mpr (Or.inl ⟨hx, hne hc hb hcross hx⟩)

/-- Matching that does not use up the placement adds no entry and changes none. -/
theorem sweep_mem
    (hm : MomentOk cfg ⟨s, some p⟩)
    (hleft : (p.sweep cfg fuel s).2.1 ≠ 0) (hx : x ∈ (p.sweep cfg fuel s).1.queue k) :
    x ∈ s.queue k := by
  induction fuel generalizing p s with
  | zero => exact hx
  | succ fuel ih =>
      rcases sweep_cases cfg p s with hstop | ⟨t, y, h0, hb, hcross, hle | hlt⟩
      · rwa [sweep_stop hstop] at hx
      · have hstep : Step cfg ⟨s, some p⟩ _ _ := Step.fillWhole hb hcross hle
        rw [sweep_whole h0 hb hcross hle] at hleft hx
        exact (mem_discard.mp (ih (p := p.less y.order.leavesQty) (hstep.momentOk hm) hleft hx)).1
      · rw [sweep_part h0 hb hcross hlt] at hleft
        exact absurd rfl hleft

theorem sweep_complete
    (hm : MomentOk cfg ⟨s, some p⟩) (hindex : s.Complete) :
    (p.sweep cfg fuel s).1.Complete := by
  refine sweep_states (R := fun s s' => s.Complete → s'.Complete) hm (fun _ => id) ?_ ?_ fuel
    hindex
  · intro s s' t y hc hb _ hrest hindex
    exact hrest (hindex.leave (State.best_mem hb))
  · intro s t y qty hc hb _ hindex
    exact hindex.change hc.distinct (keeps_filledBy _) (State.best_mem hb)

/-- Matching adds no entry to the book. -/
theorem sweep_resting_le
    (fuel : Nat) (hm : MomentOk cfg ⟨s, some p⟩) :
    (p.sweep cfg fuel s).1.resting ≤ s.resting := by
  refine sweep_states (R := fun s s' => s'.resting ≤ s.resting) hm (fun _ => Nat.le_refl _)
    ?_ ?_ fuel
  · intro s s' t y hc hb _ hle
    have hrest := hc.resting_leave (State.best_mem hb)
    omega
  · intro s t y qty hc hb _
    have hsame := hc.weigh_change (f := filledBy qty) (g := fun _ => 1) (State.best_mem hb)
    exact (Nat.add_right_cancel hsame).le

/-- Matching that does not use up the placement takes the hit entries out. -/
theorem sweep_resting_lt
    (hm : MomentOk cfg ⟨s, some p⟩)
    (hleft : (p.sweep cfg (fuel + 1) s).2.1 ≠ 0)
    (hx : x ∈ s.queue k) (hhit : hits cfg p.side p.limitPrice x.order = true) :
    (p.sweep cfg (fuel + 1) s).1.resting < s.resting := by
  have hc : Consistent cfg s := hm.consistent
  rcases sweep_cases cfg p s with hstop | ⟨t, y, h0, hb, hcross, hle | hlt⟩
  · rw [sweep_stop hstop] at hleft
    have hswept : Swept cfg s p := hstop.resolve_left hleft
    rw [hswept.not_hits hc hx] at hhit
    exact absurd hhit (by simp)
  · have hstep : Step cfg ⟨s, some p⟩ _ _ := Step.fillWhole hb hcross hle
    have hrest : (s.leave (p.side.opposite, t) y).resting + 1 = s.resting :=
      hc.resting_leave (State.best_mem hb)
    have hless : (s.leave (p.side.opposite, t) y).resting < s.resting := by omega
    rw [sweep_whole h0 hb hcross hle]
    exact lt_of_le_of_lt (sweep_resting_le fuel (hstep.momentOk hm)) hless
  · rw [sweep_part h0 hb hcross hlt] at hleft
    exact absurd rfl hleft

/-- A placement that hits nothing changes nothing. -/
theorem sweep_no_hits
    (hm : MomentOk cfg ⟨s, some p⟩)
    (hmiss : ∀ k x, x ∈ s.queue k → hits cfg p.side p.limitPrice x.order = false) :
    p.sweep cfg (fuel + 1) s = (s, p.leavesQty, []) := by
  have hc : Consistent cfg s := hm.consistent
  refine sweep_stop (Or.inr fun {t x} hb => ?_)
  cases hcross : crossesTick cfg p.side p.limitPrice t with
  | false => rfl
  | true =>
      have hhit := hits_best hc hb hcross
      rw [hmiss _ x (State.best_mem hb)] at hhit
      exact absurd hhit (by simp)

/-- After matching that does not use up the placement the entries that are not
hit are left. -/
theorem sweep_mem_iff
    (hm : MomentOk cfg ⟨s, some p⟩) (hfuel : s.resting < fuel)
    (hleft : (p.sweep cfg fuel s).2.1 ≠ 0) :
    x ∈ (p.sweep cfg fuel s).1.queue k ↔
      x ∈ s.queue k ∧ hits cfg p.side p.limitPrice x.order = false := by
  constructor
  · intro hx
    have hend := (sweep_trail fuel hm).preserves (fun hs hstep => hstep.momentOk hs) hm
    have hswept : Swept cfg (p.sweep cfg fuel s).1 p := (sweep_swept hm hfuel).resolve_left hleft
    exact ⟨sweep_mem hm hleft hx, hswept.not_hits hend.consistent hx⟩
  · rintro ⟨hx, hmiss⟩
    exact sweep_keeps hm hx hmiss

/-- Matching fills no more orders than are hit. -/
theorem sweep_events_le
    (fuel : Nat) (hm : MomentOk cfg ⟨s, some p⟩) :
    (p.sweep cfg fuel s).2.2.length ≤ s.hitCount cfg p.side p.limitPrice := by
  induction fuel generalizing p s with
  | zero => exact Nat.zero_le _
  | succ fuel ih =>
      have hc : Consistent cfg s := hm.consistent
      rcases sweep_cases cfg p s with hstop | ⟨t, y, h0, hb, hcross, hle | hlt⟩
      · rw [sweep_stop hstop]
        exact Nat.zero_le _
      · have hy := State.best_mem hb
        have hstep : Step cfg ⟨s, some p⟩ _ _ := Step.fillWhole hb hcross hle
        have hcount := weigh_discard (x := y)
          (g := fun x : Entry => if hits cfg p.side p.limitPrice x.order then 1 else 0)
          hc.distinct (hc.entry hy).mem_levels hy
        rw [if_pos (hits_best hc hb hcross)] at hcount
        have hrest : (s.leave (p.side.opposite, t) y).hitCount cfg p.side p.limitPrice + 1 =
            s.hitCount cfg p.side p.limitPrice := hcount
        have := ih (p := p.less y.order.leavesQty) (hstep.momentOk hm)
        rw [sweep_whole h0 hb hcross hle, List.length_cons]
        exact (Nat.succ_le_succ this).trans hrest.le
      · have hy := State.best_mem hb
        have hpos := le_weigh
          (g := fun x : Entry => if hits cfg p.side p.limitPrice x.order then 1 else 0)
          (hc.entry hy).mem_levels hy
        rw [if_pos (hits_best hc hb hcross)] at hpos
        rw [sweep_part h0 hb hcross hlt]
        exact hpos

/-- Every entry that matching leaves was there, with the same side and the
same price. -/
theorem sweep_origin
    (hm : MomentOk cfg ⟨s, some p⟩) (hx : x ∈ (p.sweep cfg fuel s).1.queue k) :
    ∃ y, y ∈ s.queue k ∧ y.order.side = x.order.side ∧ y.order.price = x.order.price := by
  refine sweep_states (R := fun s s' => x ∈ s'.queue k → ∃ y, y ∈ s.queue k ∧
    y.order.side = x.order.side ∧ y.order.price = x.order.price) hm
    (fun _ hx => ⟨x, hx, rfl, rfl⟩) ?_ ?_ fuel hx
  · intro s s' t y hc hb _ hrest hx
    obtain ⟨z, hz, hside, hprice⟩ := hrest hx
    exact ⟨z, (mem_discard.mp hz).1, hside, hprice⟩
  · intro s t y qty hc hb _ hx
    rcases (mem_change hc.distinct (State.best_mem hb)).mp hx with ⟨hx, -⟩ | ⟨rfl, rfl⟩
    · exact ⟨x, hx, rfl, rfl⟩
    · exact ⟨y, State.best_mem hb, rfl, rfl⟩

/-- Matching leaves the side of the placement alone. -/
theorem sweep_own
    (cfg : Config) (p : Placement) (fuel : Nat) (s : State) (t : Nat) :
    (p.sweep cfg fuel s).1.queue (p.side, t) = s.queue (p.side, t) := by
  have hne : ∀ t', ((p.side, t) : Level) ≠ (p.side.opposite, t') := by
    intro t' h
    have hside : p.side = p.side.opposite := congrArg Prod.fst h
    cases hs : p.side <;> simp [hs, Side.opposite] at hside
  induction fuel generalizing p s with
  | zero => rfl
  | succ fuel ih =>
      rcases sweep_cases cfg p s with hstop | ⟨t', x, h0, hb, hcross, hle | hlt⟩
      · rw [sweep_stop hstop]
      · rw [sweep_whole h0 hb hcross hle]
        exact (ih (p.less x.order.leavesQty) _ hne).trans (discard_of_ne (hne t'))
      · rw [sweep_part h0 hb hcross hlt]
        exact revise_of_ne (hne t')

end Sweeps

end PriceTime
end LmaxEngine
