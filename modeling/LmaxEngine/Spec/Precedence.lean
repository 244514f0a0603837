import LmaxEngine.Spec.Breaches
import LmaxEngine.Spec.Frame
import LmaxEngine.Spec.Greedy

/-!
# Who is ahead stays ahead

Of two entries in line the first stays ahead of the second as long as both rest
and neither is moved.  A placement that leaves the first one resting does not get
to the second, and one that gets to the second has filled the first in whole
before.
-/

namespace LmaxEngine

open Queues Greedy Transition PriceTime

/-- The order id of the resting order of a fill. -/
def OutputEvent.resting? : OutputEvent → Option UInt64
  | .fill _ restingOrderId _ _ _ _ _ _ => some restingOrderId
  | _ => none

namespace PriceTime

theorem resting?_rejection
    {ev : OutputEvent} (h : IsRejection ev) :
    ev.resting? = none := by
  cases ev <;> first | rfl | exact h.elim

/-- The numbers of the entries of a side in the order of their priority. -/
def State.nums (s : State) (side : Side) : List Nat :=
  (s.line side).map Entry.num

/-- Two entries of a side, the first one ahead. -/
def State.Before (s : State) (side : Side) (a b : Nat) : Prop :=
  [a, b].Sublist (s.nums side)

/-- A modification that puts the entry with a number into another queue. -/
def Requeues (s : State) : Command → Nat → Prop
  | .modify clientId clientOrderId newPrice newQty, n =>
      ∃ k x, x ∈ s.queue k ∧ x.num = n ∧
        s.index (clientId, clientOrderId) = some (x.locator k) ∧
        newQty.getD x.order.leavesQty ≠ 0 ∧
        ¬ (newPrice.getD x.order.price = x.order.price ∧
          newQty.getD x.order.leavesQty ≤ x.order.leavesQty)
  | _, _ => False

section Lines

variable {cfg : Config} {s s' : State} {side : Side} {a b n : Nat} {k k' : Level} {x y : Entry}

theorem mem_nums
    (hc : Consistent cfg s) :
    n ∈ s.nums side ↔ ∃ k x, x ∈ s.queue k ∧ k.1 = side ∧ x.num = n := by
  rw [State.nums, List.mem_map]
  constructor
  · rintro ⟨x, hx, rfl⟩
    obtain ⟨k, hside, hx⟩ := (mem_state_line hc).mp hx
    exact ⟨k, x, hx, hside, rfl⟩
  · rintro ⟨k, x, hx, hside, rfl⟩
    exact ⟨x, (mem_state_line hc).mpr ⟨k, hside, hx⟩, rfl⟩

theorem nums_congr
    (h : s'.queue = s.queue) :
    s'.nums side = s.nums side := by
  rw [State.nums, State.line, h]
  rfl

theorem nums_leave
    (hc : Consistent cfg s) (hx : x ∈ s.queue k) :
    (s.leave k x).nums side = (s.nums side).filter (fun m => decide (m ≠ x.num)) := by
  rw [State.nums, line_leave hc hx, State.nums, List.filter_map]
  rfl

theorem nums_change
    {f : Order → Order}
    (hc : Consistent cfg s) (hx : x ∈ s.queue k) :
    (s.change k x f).nums side = s.nums side := by
  rw [State.nums, line_change hc hx, State.nums, List.map_map]
  refine List.map_congr_left fun y _ => ?_
  by_cases hy : y.num = x.num
  · simp [hy]
  · simp [hy]

theorem nums_rest_sublist :
    (s.nums side).Sublist ((s.rest k x).nums side) :=
  line_push.map Entry.num

theorem nums_move_sublist
    {o : Order}
    (hc : Consistent cfg s) (hx : x ∈ s.queue k) :
    ((s.nums side).filter (fun m => decide (m ≠ x.num))).Sublist
      ((s.move k x k' o).nums side) := by
  have hleave : (s.leave k x).nums side = (s.nums side).filter (fun m => decide (m ≠ x.num)) :=
    nums_leave hc hx
  rw [← hleave]
  exact line_push.map Entry.num

/-- Matching takes entries out of the line and leaves the others in their
order. -/
theorem sweep_nums_sublist
    {p : Placement}
    (hm : MomentOk cfg ⟨s, some p⟩) (fuel : Nat) (side : Side) :
    ((p.sweep cfg fuel s).1.nums side).Sublist (s.nums side) := by
  refine sweep_states (R := fun s s' => (s'.nums side).Sublist (s.nums side)) hm
    (fun _ => List.Sublist.refl _) ?_ ?_ fuel
  · intro s s' t z hc hb _ hrest
    rw [nums_leave hc (State.best_mem hb)] at hrest
    exact hrest.trans List.filter_sublist
  · intro s t z qty hc hb _
    exact (nums_change hc (State.best_mem hb)).symm ▸ List.Sublist.refl _

theorem State.Before.mem
    (hc : Consistent cfg s) (h : s.Before side a b) :
    (∃ k x, x ∈ s.queue k ∧ k.1 = side ∧ x.num = a) ∧
      ∃ k y, y ∈ s.queue k ∧ k.1 = side ∧ y.num = b :=
  ⟨(mem_nums hc).mp (h.subset (by simp)), (mem_nums hc).mp (h.subset (by simp))⟩

/-- Two entries that are left in a line stay in their order. -/
theorem State.Before.of_sublist
    (hc : Consistent cfg s) (h : s.Before side a b)
    (hsub : (s'.nums side).Sublist (s.nums side))
    (ha : a ∈ s'.nums side) (hb : b ∈ s'.nums side) :
    s'.Before side a b :=
  pair_sublist_of_sublist (line_nodup hc side) h hsub ha hb

theorem mem_nums_rest
    (h : n ∈ (s.rest k x).nums side) :
    n ∈ s.nums side ∨ n = x.num := by
  obtain ⟨y, hy, rfl⟩ := List.mem_map.mp h
  obtain ⟨k', hk', hy⟩ := mem_line.mp hy
  rcases mem_push.mp hy with hy | ⟨-, rfl⟩
  · exact Or.inl (List.mem_map_of_mem (mem_line.mpr ⟨k', hk', hy⟩))
  · exact Or.inr rfl

/-- A placement keeps the order of two entries that it leaves resting. -/
theorem Placed.before
    {p : Placement} {r : State × List OutputEvent}
    (hm : MomentOk cfg ⟨s, some p⟩) (hout : Placed cfg s p r) (h : s.Before side a b)
    (ha : a ∈ r.1.nums side) (hb : b ∈ r.1.nums side) :
    r.1.Before side a b := by
  have hc : Consistent cfg s := hm.consistent
  have hsub := sweep_nums_sublist hm (s.resting + 1) side
  cases hout with
  | matched => exact h.of_sublist hc hsub ha hb
  | rested hlimit htick hleft hpos =>
      obtain ⟨⟨ka, x, hx, -, rfl⟩, kb, y, hy, -, rfl⟩ := h.mem hc
      -- the new entry has another number than the two
      have hold := (mem_nums_rest ha).resolve_right (hm.fresh (p := p) rfl hx)
      have hold' := (mem_nums_rest hb).resolve_right (hm.fresh (p := p) rfl hy)
      exact (h.of_sublist hc hsub hold hold').trans nums_rest_sublist

/-- **Every command keeps the order** of two entries that it leaves resting and
does not move. -/
theorem handle_before
    (hc : Consistent cfg s) (c : Command) (h : s.Before side a b)
    (ha : a ∈ (handle cfg s c).1.nums side) (hb : b ∈ (handle cfg s c).1.nums side)
    (hna : ¬ Requeues s c a) (hnb : ¬ Requeues s c b) :
    (handle cfg s c).1.Before side a b := by
  cases c with
  | place clientId clientOrderId symbol side' orderType price quantity tif =>
      rw [handle] at ha hb ⊢
      rcases place_outcomes cfg s clientId clientOrderId symbol side' orderType price quantity with
        ⟨-, hqueue, -⟩ | ⟨haccepted, hout⟩
      · rw [State.Before, nums_congr hqueue]
        exact h
      · have hm := haccepted.started hc clientOrderId symbol side'
        exact hout.before hm h ha hb
  | cancel clientId clientOrderId =>
      rw [handle] at ha hb ⊢
      rcases cancel_outcomes hc clientId clientOrderId with ⟨-, he⟩ | ⟨k, z, hz, -, -, he⟩
      · rw [he]
        exact h
      · rw [he] at ha hb ⊢
        refine h.of_sublist hc ?_ ha hb
        rw [nums_leave hc hz]
        exact List.filter_sublist
  | modify clientId clientOrderId newPrice newQty =>
      rw [handle] at ha hb ⊢
      rcases modify_outcomes hc clientId clientOrderId newPrice newQty with
        ⟨-, he⟩ | ⟨k, z, hz, hkey, hindex, hout⟩
      · rw [he]
        exact h
      · generalize modify cfg s clientId clientOrderId newPrice newQty = r at ha hb hout ⊢
        cases hout with
        | refused => exact h
        | kept =>
            rw [State.Before, nums_change hc hz]
            exact h
        | evicted =>
            refine h.of_sublist hc ?_ ha hb
            rw [nums_leave hc hz]
            exact List.filter_sublist
        | moved hpos hmoved htick =>
            rw [hkey] at hindex
            have hne : ∀ n, ¬ Requeues s (.modify clientId clientOrderId newPrice newQty) n →
                n ≠ z.num := by
              rintro n hn rfl
              exact hn ⟨k, z, hz, rfl, hindex, hpos, hmoved⟩
            have hfilter := List.Sublist.filter (fun m => decide (m ≠ z.num)) h
            rw [List.filter_eq_self.mpr (by simp [hne a hna, hne b hnb])] at hfilter
            exact hfilter.trans (nums_move_sublist hc hz)

end Lines

section Fills

variable {cfg : Config} {s : State} {side : Side} {a n : Nat} {k : Level} {x y : Entry}
variable {p : Placement}

/-- Who is ahead of a hit entry is hit too. -/
theorem hits_of_before
    {side' : Side} {limitPrice : Option UInt64}
    (hc : Consistent cfg s) (h : [x, y].Sublist (s.line side))
    (hy : hits cfg side' limitPrice y.order = true) :
    hits cfg side' limitPrice x.order = true := by
  rcases pair_sublist_line.mp h with ⟨k, -, hxy⟩ | ⟨k, k', hkk', hxk, hyk⟩
  · have hx : x ∈ s.queue k := hxy.subset (by simp)
    have hy' : y ∈ s.queue k := hxy.subset (by simp)
    exact (hits_iff hc hx).mpr ((hits_iff hc hy').mp hy)
  · obtain ⟨hk, hk', hbetter⟩ := pair_sublist_ranked.mp hkk'
    obtain ⟨hside, hcross⟩ := (hits_iff hc hyk).mp hy
    obtain ⟨hkside, -⟩ := mem_ranked.mp hk
    obtain ⟨hkside', -⟩ := mem_ranked.mp hk'
    refine (hits_iff hc hxk).mpr ⟨by rw [hkside, ← hkside', hside], ?_⟩
    have htx := (hc.entry hxk).tick
    have hty := (hc.entry hyk).tick
    cases limitPrice with
    | none => rfl
    | some price =>
        have hopp : side = side'.opposite := by rw [← hkside', hside]
        subst hopp
        cases side' with
        | buy =>
            simp only [crossesTick, crosses, decide_eq_true_eq] at hcross ⊢
            exact UInt64.le_trans (priceOf_le htx hty (Nat.le_of_lt hbetter)) hcross
        | sell =>
            simp only [crossesTick, crosses, decide_eq_true_eq] at hcross ⊢
            exact UInt64.le_trans hcross (priceOf_le hty htx (Nat.le_of_lt hbetter))

/-- What does not fill an entry is not offered to those behind it. -/
theorem offer_eq_zero_of_before
    (hc : Consistent cfg s) (h : [x, y].Sublist (s.line side))
    (hleft : offer cfg s p x < x.leaves) :
    offer cfg s p y = 0 := by
  rw [offer]
  split_ifs with hy
  · have hx := hits_of_before hc h hy
    have hmem : y ∈ s.line side := h.subset (by simp)
    obtain ⟨ky, hky, hyk⟩ := (mem_state_line hc).mp hmem
    have hside : side = p.side.opposite := by
      rw [← hky]
      exact ((hits_iff hc hyk).mp hy).1
    subst hside
    have hahead := ahead_add_le (g := Entry.leaves) (line_nodup hc _) h
    rw [offer, if_pos hx, State.aheadQty] at hleft
    rw [State.aheadQty]
    omega
  · rfl

theorem State.Before.exists_entries
    (hc : Consistent cfg s) (h : s.Before side a y.num) (hy : y ∈ s.queue k) :
    ∃ k x, x ∈ s.queue k ∧ x.num = a ∧ [x, y].Sublist (s.line side) := by
  obtain ⟨l, hsub, hl⟩ := List.sublist_map_iff.mp h
  rcases l with - | ⟨x, - | ⟨z, - | ⟨w, l⟩⟩⟩
  · simp at hl
  · simp at hl
  · simp only [List.map_cons, List.map_nil, List.cons.injEq, and_true] at hl
    obtain ⟨kx, -, hx⟩ := (mem_state_line hc).mp (hsub.subset List.mem_cons_self)
    obtain ⟨kz, -, hz⟩ := (mem_state_line hc).mp
      (hsub.subset (List.mem_cons_of_mem _ List.mem_cons_self))
    obtain rfl := hc.distinct.eq hy hz hl.2
    exact ⟨kx, x, hx, hl.1.symm, hsub⟩
  · simp at hl

/-- An entry that a placement leaves is not filled by it in whole. -/
theorem Placed.offer_lt
    {r : State × List OutputEvent}
    (hm : MomentOk cfg ⟨s, some p⟩) (hout : Placed cfg s p r)
    (hx : x ∈ s.queue k) (hleft : x.num ∈ r.1.nums side) :
    offer cfg s p x < x.leaves := by
  have hc : Consistent cfg s := hm.consistent
  have hsweep : x.num ∈ (p.sweep cfg (s.resting + 1) s).1.nums side := by
    cases hout with
    | matched => exact hleft
    | rested => exact (mem_nums_rest hleft).resolve_right (hm.fresh (p := p) rfl hx)
  obtain ⟨y, hy, hnum⟩ := List.mem_map.mp hsweep
  obtain ⟨k', -, hy⟩ := mem_line.mp hy
  obtain ⟨z, hz, hlt, rfl⟩ := (mem_sweep_iff hm (Nat.lt_succ_self _)).mp hy
  obtain rfl := hc.distinct.eq hz hx hnum
  exact hlt

/-- **A placement spares** who stands behind an entry that it leaves. -/
theorem Placed.spares
    {r : State × List OutputEvent}
    (hm : MomentOk cfg ⟨s, some p⟩) (hout : Placed cfg s p r)
    (h : s.Before side a y.num) (hy : y ∈ s.queue k) (ha : a ∈ r.1.nums side) :
    y ∈ r.1.queue k ∧
      ∀ ev, ev ∈ r.2 → ev.resting? = some y.order.orderId →
        ∃ k z, z ∈ s.queue k ∧ z.num ≠ y.num ∧ z.order.orderId = y.order.orderId := by
  have hc : Consistent cfg s := hm.consistent
  obtain ⟨kx, x, hx, rfl, hxy⟩ := h.exists_entries hc hy
  have hzero : offer cfg s p y = 0 :=
    offer_eq_zero_of_before hc hxy (hout.offer_lt hm hx ha)
  have hkept : y ∈ (p.sweep cfg (s.resting + 1) s).1.queue k := by
    refine (mem_sweep_iff hm (Nat.lt_succ_self _)).mpr ⟨y, hy, ?_, ?_⟩
    · rw [hzero]
      exact UInt64.lt_iff_toNat_lt.mp (hc.entry hy).leaves
    · rw [hzero, Entry.filled_zero]
  have hfills : ∀ ev, ev ∈ (p.sweep cfg (s.resting + 1) s).2.2 →
      ev.resting? = some y.order.orderId →
      ∃ k z, z ∈ s.queue k ∧ z.num ≠ y.num ∧ z.order.orderId = y.order.orderId := by
    intro ev hev hid
    obtain ⟨k', z, hz, hpos, rfl⟩ := (mem_sweep_events_iff hm (Nat.lt_succ_self _)).mp hev
    refine ⟨k', z, hz, fun hnum => ?_, Option.some.inj hid⟩
    obtain rfl := hc.distinct.eq hz hy hnum
    rw [hzero] at hpos
    exact absurd hpos (Nat.lt_irrefl 0)
  cases hout with
  | matched hes =>
      refine ⟨hkept, fun ev hev hid => ?_⟩
      rcases List.mem_append.mp hev with hev | hev
      · exact hfills ev hev hid
      · rcases hes ev hev with hrej | rfl
        · rw [resting?_rejection hrej] at hid
          exact absurd hid (by simp)
        · exact absurd hid (by simp [OutputEvent.resting?])
  | rested hlimit htick hleft hpos =>
      refine ⟨mem_push.mpr (Or.inl hkept), fun ev hev hid => ?_⟩
      rcases List.mem_append.mp hev with hev | hev
      · exact hfills ev hev hid
      · obtain rfl := List.mem_singleton.mp hev
        exact absurd hid (by simp [OutputEvent.resting?])

end Fills

section Origins

variable {cfg : Config} {s : State} {k k' : Level} {x y : Entry}

/-- An entry has the number of an old one, or it is new and the others of its
side are still there. -/
theorem handle_origin
    (hc : Consistent cfg s) (c : Command) (hy : y ∈ (handle cfg s c).1.queue k) :
    (∃ k' x, x ∈ s.queue k' ∧ x.num = y.num) ∨
      ∀ k' x, x ∈ s.queue k' → k'.1 = k.1 → x ∈ (handle cfg s c).1.queue k' := by
  cases c with
  | place clientId clientOrderId symbol side orderType price quantity tif =>
      rw [handle] at hy ⊢
      rcases place_outcomes cfg s clientId clientOrderId symbol side orderType price quantity with
        ⟨-, hqueue, -⟩ | ⟨haccepted, hout⟩
      · rw [hqueue] at hy
        exact Or.inl ⟨k, y, hy, rfl⟩
      · have hm := haccepted.started hc clientOrderId symbol side
        have hold : ∀ k y, y ∈ ((s.placement clientId clientOrderId symbol side
              (limitOf orderType price) quantity).sweep cfg
                ((s.account clientId).number.resting + 1) (s.account clientId).number).1.queue k →
            ∃ k' x, x ∈ s.queue k' ∧ x.num = y.num := by
          intro k y hy
          obtain ⟨x, hx, -, rfl⟩ := (mem_sweep_iff hm (Nat.lt_succ_self _)).mp hy
          exact ⟨k, x, hx, rfl⟩
        generalize place cfg s clientId clientOrderId symbol side orderType price quantity = r
          at hy hout ⊢
        cases hout with
        | matched => exact Or.inl (hold k y hy)
        | rested =>
            rcases mem_push.mp hy with hy | ⟨rfl, rfl⟩
            · exact Or.inl (hold k y hy)
            · refine Or.inr fun k' x hx hside => mem_push.mpr (Or.inl ?_)
              obtain ⟨side', t⟩ := k'
              obtain rfl : side' = side := hside
              exact (sweep_own _ _ _ _ t).symm ▸ hx
  | cancel clientId clientOrderId =>
      rw [handle] at hy
      rcases cancel_touches clientId clientOrderId hc with he | ⟨k', x, hx, -, ht⟩
      · rw [he] at hy
        exact Or.inl ⟨k, y, hy, rfl⟩
      · exact Or.inl (ht.origin hy)
  | modify clientId clientOrderId newPrice newQty =>
      rw [handle] at hy
      rcases modify_touches clientId clientOrderId hc newPrice newQty with
        he | ⟨k', x, hx, -, ht⟩
      · rw [he] at hy
        exact Or.inl ⟨k, y, hy, rfl⟩
      · exact Or.inl (ht.origin hy)

/-- A cancellation or a modification reports no fill. -/
theorem handle_resting?
    (hc : Consistent cfg s) {c : Command} (hplace : c.isPlace = false) {ev : OutputEvent}
    (hev : ev ∈ (handle cfg s c).2) :
    ev.resting? = none := by
  cases c with
  | place => exact absurd hplace (by simp [Command.isPlace])
  | cancel clientId clientOrderId =>
      rw [handle] at hev
      rcases cancel_outcomes hc clientId clientOrderId with ⟨-, he⟩ | ⟨k, x, -, -, -, he⟩
      · rw [he] at hev
        obtain rfl := List.mem_singleton.mp hev
        rfl
      · rw [he] at hev
        obtain rfl := List.mem_singleton.mp hev
        rfl
  | modify clientId clientOrderId newPrice newQty =>
      rw [handle] at hev
      rcases modify_outcomes hc clientId clientOrderId newPrice newQty with
        ⟨-, he⟩ | ⟨k, x, -, -, -, hout⟩
      · rw [he] at hev
        obtain rfl := List.mem_singleton.mp hev
        rfl
      · generalize modify cfg s clientId clientOrderId newPrice newQty = r at hev hout
        cases hout with
        | refused =>
            obtain rfl := List.mem_singleton.mp hev
            rfl
        | kept =>
            obtain rfl := List.mem_singleton.mp hev
            rfl
        | evicted =>
            obtain rfl := List.mem_singleton.mp hev
            rfl
        | moved =>
            obtain rfl := List.mem_singleton.mp hev
            rfl

/-- **A command spares** who stands behind an entry that it leaves. -/
theorem handle_spares
    {side : Side} {a : Nat}
    (hc : Consistent cfg s) (c : Command) (h : s.Before side a y.num) (hy : y ∈ s.queue k)
    (ha : a ∈ (handle cfg s c).1.nums side) :
    (c.isPlace = true → y ∈ (handle cfg s c).1.queue k) ∧
      ∀ ev, ev ∈ (handle cfg s c).2 → ev.resting? = some y.order.orderId →
        ∃ k z, z ∈ s.queue k ∧ z.num ≠ y.num ∧ z.order.orderId = y.order.orderId := by
  cases hplace : c.isPlace with
  | false =>
      refine ⟨by simp, fun ev hev hid => ?_⟩
      rw [handle_resting? hc hplace hev] at hid
      exact absurd hid (by simp)
  | true =>
      cases c with
      | cancel => exact absurd hplace (by simp [Command.isPlace])
      | modify => exact absurd hplace (by simp [Command.isPlace])
      | place clientId clientOrderId symbol side' orderType price quantity tif =>
          rw [handle] at ha ⊢
          rcases place_outcomes cfg s clientId clientOrderId symbol side' orderType price quantity
            with ⟨-, hqueue, hrej⟩ | ⟨haccepted, hout⟩
          · refine ⟨fun _ => by rw [hqueue]; exact hy, fun ev hev hid => ?_⟩
            rw [resting?_rejection (hrej ev hev)] at hid
            exact absurd hid (by simp)
          · have hm := haccepted.started hc clientOrderId symbol side'
            obtain ⟨hkept, hfills⟩ := hout.spares hm h hy ha
            exact ⟨fun _ => hkept, hfills⟩

end Origins

section Turns

variable {cfg : Config} {s : State} {side : Side} {k : Level} {x y : Entry} {p : Placement}
variable {fuel : Nat} {front back : List OutputEvent} {ev : OutputEvent}

/-- Matching fills an entry after the one ahead of it, and that one in whole. -/
theorem sweep_in_turn
    (hc : Consistent cfg s) (hfuel : (s.line p.side.opposite).length < fuel)
    (h : [x, y].Sublist (s.line side))
    (hid : ∀ k z, z ∈ s.queue k → z.order.orderId = y.order.orderId → z.num = y.num)
    (hes : (p.sweep cfg fuel s).2.2 = front ++ ev :: back)
    (hev : ev.resting? = some y.order.orderId) :
    p.fill x.order x.order.leavesQty ∈ front := by
  obtain ⟨hwalk, -, -⟩ := sweep_walk (p := p) hc hfuel
  obtain ⟨fs, rest, htakes, rfl, hrest⟩ := List.map_eq_append_iff.mp (hwalk.symm.trans hes)
  obtain ⟨⟨z, m⟩, gs, rfl, rfl, -⟩ := List.map_eq_cons_iff.mp hrest
  have hz : z ∈ s.line p.side.opposite :=
    mem_of_takes (f := (z, m)) (htakes ▸ List.mem_append_right fs List.mem_cons_self)
  obtain ⟨k, hk, hzk⟩ := (mem_state_line hc).mp hz
  obtain ⟨k', hk', hyk⟩ := (mem_state_line hc).mp (h.subset (by simp : y ∈ [x, y]))
  obtain rfl : z = y := hc.distinct.eq hzk hyk (hid k z hzk (Option.some.inj hev))
  obtain rfl := hc.distinct.same_key hzk hyk rfl
  rw [← hk', hk] at h
  have hfirst : (x, x.leaves) ∈ fs :=
    takes_before (List.Nodup.of_map _ (line_nodup hc _)) h htakes
  have hfill : p.fillOf (x, x.leaves) = p.fill x.order x.order.leavesQty := by
    rw [Placement.fillOf, Entry.leaves, UInt64.ofNat_toNat]
  rw [← hfill]
  exact List.mem_map_of_mem hfirst

theorem Placed.in_turn
    {r : State × List OutputEvent}
    (hc : Consistent cfg s) (hout : Placed cfg s p r) (h : [x, y].Sublist (s.line side))
    (hid : ∀ k z, z ∈ s.queue k → z.order.orderId = y.order.orderId → z.num = y.num)
    (hes : r.2 = front ++ ev :: back) (hev : ev.resting? = some y.order.orderId) :
    p.fill x.order x.order.leavesQty ∈ front := by
  have hlen := Nat.lt_succ_of_le (line_length_le s p.side.opposite)
  cases hout with
  | matched htail =>
      obtain ⟨back', hsweep⟩ := append_split hes fun hmem => by
        rcases htail ev hmem with hrej | rfl
        · rw [resting?_rejection hrej] at hev
          exact absurd hev (by simp)
        · exact absurd hev (by simp [OutputEvent.resting?])
      exact sweep_in_turn hc hlen h hid hsweep hev
  | rested =>
      obtain ⟨back', hsweep⟩ := append_split hes fun hmem => by
        obtain rfl := List.mem_singleton.mp hmem
        exact absurd hev (by simp [OutputEvent.resting?])
      exact sweep_in_turn hc hlen h hid hsweep hev

/-- A command that reports a fill is a placement that gets under way. -/
theorem handle_filling
    {c : Command} {id : UInt64}
    (hc : Consistent cfg s) (hmem : ev ∈ (handle cfg s c).2) (hev : ev.resting? = some id) :
    ∃ s' p, s'.queue = s.queue ∧ MomentOk cfg ⟨s', some p⟩ ∧ Placed cfg s' p (handle cfg s c) := by
  cases c with
  | place clientId clientOrderId symbol side orderType price quantity tif =>
      rw [handle] at hmem ⊢
      rcases place_outcomes cfg s clientId clientOrderId symbol side orderType price quantity
        with ⟨-, -, hrej⟩ | ⟨haccepted, hout⟩
      · rw [resting?_rejection (hrej ev hmem)] at hev
        exact absurd hev (by simp)
      · exact ⟨(s.account clientId).number, _, rfl,
          haccepted.started hc clientOrderId symbol side, hout⟩
  | cancel =>
      rw [handle_resting? hc rfl hmem] at hev
      exact absurd hev (by simp)
  | modify =>
      rw [handle_resting? hc rfl hmem] at hev
      exact absurd hev (by simp)

/-- **A command takes two entries in turn:** before it fills the second, it has
filled the first in whole. -/
theorem handle_in_turn
    {a : Nat}
    (hc : Consistent cfg s) (c : Command) (h : s.Before side a y.num) (hy : y ∈ s.queue k)
    (hid : ∀ k z, z ∈ s.queue k → z.order.orderId = y.order.orderId → z.num = y.num)
    (hes : (handle cfg s c).2 = front ++ ev :: back)
    (hev : ev.resting? = some y.order.orderId) :
    ∃ k x, x ∈ s.queue k ∧ x.num = a ∧ ∃ p : Placement,
      p.fill x.order x.order.leavesQty ∈ front := by
  have hmem : ev ∈ (handle cfg s c).2 := hes ▸ List.mem_append_right front List.mem_cons_self
  obtain ⟨s', p, hqueue, hm, hout⟩ := handle_filling hc hmem hev
  obtain ⟨kx, x, hx, hnum, hxy⟩ := h.exists_entries hc hy
  have hline : s'.line side = s.line side := by rw [State.line, hqueue, State.line]
  rw [← hline] at hxy
  rw [← hqueue] at hid
  exact ⟨kx, x, hx, hnum, p, hout.in_turn hm.consistent hxy hid hes hev⟩

end Turns

end PriceTime
end LmaxEngine
