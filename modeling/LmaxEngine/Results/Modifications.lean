import LmaxEngine.Results.Frame

/-!
# What a modification does to its order

A modification of a resting order is carried out exactly when its quantity is
positive and its price has a tick.  The order then keeps its id, its side and its
slot, and keeps its place or goes to the end of the queue of its new price.  If it
is rejected nothing changes, but for one case: the price is looked at after the
order has been taken out of the book, so an order whose new price has no tick is
gone.
-/

namespace LmaxEngine

open Checked Queues Arena PriceTime

def OutputEvent.IsModifyRejected : OutputEvent → Prop
  | .modifyRejected .. => True
  | _ => False

/-- The resting orders, their places in the queues, the index and the open orders
of every client are the same. -/
structure Engine.Unchanged (e e' : Engine) : Prop where
  orders : ∀ i, e'.book.arena.orderAt i = e.book.arena.orderAt i
  queues : ∀ side t, t < numTicks → e'.book.slots side t = e.book.slots side t
  index : ∀ key, e'.orderIndex key = e.orderIndex key
  openOrders : ∀ c,
    (accountOf e'.clients c).openOrders = (accountOf e.clients c).openOrders

theorem Engine.unchanged_refl
    (e : Engine) :
    e.Unchanged e :=
  ⟨fun _ => rfl, fun _ _ _ => rfl, fun _ => rfl, fun _ => rfl⟩

/-- If a modification is rejected nothing has changed, and the order that its
client named is still there to be cancelled. -/
def Engine.RejectsUnchanged
    (e e' : Engine) (clientId clientOrderId : UInt64) (es : List OutputEvent) : Prop :=
  (∃ ev, ev ∈ es ∧ ev.IsModifyRejected) →
    e.Unchanged e' ∧
      ∀ i o, e.Names (clientId, clientOrderId) i o →
        e'.Names (clientId, clientOrderId) i o ∧ ∃ e'',
          e'.handle Build.release (.cancel clientId clientOrderId) =
            .ok (e'', [.orderCancelled o.orderId clientId o.leavesQty])

/-- The key names a resting order, and the modification asks for a positive
quantity at a price that has no tick. -/
def Engine.Evicts
    (e : Engine) (clientId clientOrderId : UInt64) (newPrice newQty : Option UInt64) : Prop :=
  ∃ i o, e.Names (clientId, clientOrderId) i o ∧ newQty.getD o.leavesQty ≠ 0 ∧
    e.book.priceToTick (newPrice.getD o.price) = .ok none

/-- The order of slot `i` with its new price and quantity: in its old place if the
price is the old one and the quantity has not grown, else at the end of the queue
of tick `t`. -/
structure Engine.Modifies
    (e e' : Engine) (key : Key) (i : Nat) (o : Order) (price target : UInt64) (t : Nat) :
    Prop where
  order : ∃ o', e'.Names key i o' ∧ o'.orderId = o.orderId ∧ o'.side = o.side ∧
    o'.symbol = o.symbol ∧ o'.price = price ∧ o'.leavesQty = target
  kept : price = o.price → target ≤ o.leavesQty →
    ∀ side u, u < numTicks → e'.book.slots side u = e.book.slots side u
  requeued : ¬ (price = o.price ∧ target ≤ o.leavesQty) →
    ∀ side u, u < numTicks →
      e'.book.slots side u =
        (e.book.slots side u).filter (fun j => decide (j ≠ i)) ++
          if (side, u) = (o.side, t) then [i] else []
  openOrders : (accountOf e'.clients key.1).openOrders = (accountOf e.clients key.1).openOrders

section Rejections

variable {cfg : Config} {e e' : Engine} {s : State} {loc : Nat → Nat} {free : List Nat}
variable {clientId clientOrderId : UInt64} {newPrice newQty : Option UInt64}
variable {es : List OutputEvent} {k : Level} {x : Entry}

/-- A modification under a key that the index does not have. -/
theorem Engine.Refines.modify_unknown
    (h : Engine.Refines cfg e s loc free) (hl : s.index (clientId, clientOrderId) = none)
    (he : e.handle Build.release (.modify clientId clientOrderId newPrice newQty) =
      .ok (e', es)) :
    e' = e := by
  rw [Engine.handle, processModify] at he
  simp only [h.lookup_none hl] at he
  exact (Prod.mk.inj (Except.ok.inj he)).1.symm

/-- A modification to a quantity of zero. -/
theorem Engine.Refines.modify_zero
    (h : Engine.Refines cfg e s loc free) (hc : Consistent cfg s)
    (hx : x ∈ s.queue k) (hindex : s.index (clientId, clientOrderId) = some (x.locator k))
    (hzero : newQty.getD x.order.leavesQty = 0)
    (he : e.handle Build.release (.modify clientId clientOrderId newPrice newQty) =
      .ok (e', es)) :
    e' = e := by
  obtain ⟨y, oid, slot, prev, next, -, hy, hkey, hnum, hidx, hvalid, hslot, hstate⟩ :=
    h.lookup hc hindex
  obtain rfl : y = x := hc.distinct.eq hy hx hnum
  have hclient : y.order.clientId = clientId := congrArg Prod.fst hkey
  rw [Engine.handle, processModify] at he
  simp only [hidx, hvalid, ok_bind, ix_eq hslot, hstate, hclient, ne_eq, not_true_eq_false,
    if_false, hzero, if_true] at he
  exact (Prod.mk.inj (Except.ok.inj he)).1.symm

/-- In a state that a run reaches an order that its key names can be cancelled. -/
theorem Engine.Refines.cancels
    {i : Nat} {o : Order}
    (h : Engine.Refines cfg e s loc free) (hc : Consistent cfg s)
    (hn : e.Names (clientId, clientOrderId) i o) :
    ∃ e', e.handle Build.release (.cancel clientId clientOrderId) =
      .ok (e', [.orderCancelled o.orderId clientId o.leavesQty]) := by
  obtain ⟨k, x, hx, hindex, -, rfl⟩ := (h.names_iff hc).mp hn
  obtain ⟨y, -, -, -, -, -, hy, hkey, hnum, -⟩ := h.lookup hc hindex
  obtain rfl : y = x := hc.distinct.eq hy hx hnum
  obtain ⟨rfl, rfl⟩ := Prod.mk.inj hkey
  rw [← cancel_events hc hx hindex]
  exact h.handle_ok hc (ne_zero_of_tickOf (hc.entry hx).tick) _

theorem Engine.Refines.rejectsUnchanged_refl
    (h : Engine.Refines cfg e s loc free) (hc : Consistent cfg s) :
    e.RejectsUnchanged e clientId clientOrderId es :=
  fun _ => ⟨e.unchanged_refl, fun _ _ hn => ⟨hn, h.cancels hc hn⟩⟩

/-- The order that would be evicted is the one that the index has under the key. -/
theorem Engine.Refines.evicts_iff
    (h : Engine.Refines cfg e s loc free) (hc : Consistent cfg s)
    (hx : x ∈ s.queue k) (hindex : s.index (clientId, clientOrderId) = some (x.locator k)) :
    e.Evicts clientId clientOrderId newPrice newQty ↔
      newQty.getD x.order.leavesQty ≠ 0 ∧ tickOf cfg (newPrice.getD x.order.price) = none := by
  have htick : ∀ price, e.book.priceToTick price = .ok none ↔ tickOf cfg price = none := by
    intro price
    rcases h.book.priceToTick price with hp | ⟨hz, -⟩
    · rw [hp, Except.ok.injEq]
    · exact absurd hz (ne_zero_of_tickOf (hc.entry hx).tick)
  constructor
  · rintro ⟨i, o, hn, hqty, hnone⟩
    obtain ⟨k', y, hy, hindex', -, rfl⟩ := (h.names_iff hc).mp hn
    rw [hindex, Option.some.injEq] at hindex'
    obtain rfl := eq_of_locator_eq hc hx hy hindex'
    exact ⟨hqty, (htick _).mp hnone⟩
  · rintro ⟨hqty, hnone⟩
    exact ⟨_, _, (h.names_iff hc).mpr ⟨k, x, hx, hindex, rfl, rfl⟩, hqty, (htick _).mpr hnone⟩

/-- An order that is evicted is named no more. -/
theorem Engine.Refines.not_rejectsUnchanged
    {s' : State} {loc' : Nat → Nat} {free' : List Nat}
    (h : Engine.Refines cfg e s loc free) (hc : Consistent cfg s)
    (hx : x ∈ s.queue k) (hindex : s.index (clientId, clientOrderId) = some (x.locator k))
    (h' : Engine.Refines cfg e' s' loc' free') (hgone : s'.index (clientId, clientOrderId) = none)
    (hes : ∃ ev, ev ∈ es ∧ ev.IsModifyRejected) :
    ¬ e.RejectsUnchanged e' clientId clientOrderId es := by
  intro hr
  obtain ⟨-, hnames⟩ := hr hes
  have hn : e.Names (clientId, clientOrderId) (loc x.num) x.order :=
    (h.names_iff hc).mpr ⟨k, x, hx, hindex, rfl, rfl⟩
  obtain ⟨⟨locator, hidx, -⟩, -⟩ := hnames _ _ hn
  rw [h'.lookup_none hgone] at hidx
  exact absurd hidx (by simp)

end Rejections

section Requeues

variable {cfg : Config} {e e' : Engine} {s : State} {loc loc' : Nat → Nat}
variable {free free' : List Nat} {clientId clientOrderId target : UInt64} {k : Level} {x : Entry}

/-- An order that is changed keeps its place. -/
theorem Engine.Refines.slots_change
    {side : Side} {t : Nat} {f : Order → Order}
    (h : Engine.Refines cfg e s loc free) (hc : Consistent cfg s)
    (h' : Engine.Refines cfg e' (s.change k x f) loc' free')
    (hloc : ∀ m, m < s.nextNum → loc' m = loc m) (ht : t < numTicks) :
    e'.book.slots side t = e.book.slots side t := by
  have hnums : ((s.change k x f).queue (side, t)).map Entry.num =
      (s.queue (side, t)).map Entry.num := by
    dsimp only [State.change]
    by_cases hk : (side, t) = k
    · rw [hk, revise_self, List.map_map]
      refine List.map_congr_left fun y _ => ?_
      by_cases hy : y.num = x.num <;> simp [hy]
    · rw [revise_of_ne hk]
  have hmap : ∀ (g : Nat → Nat) (xs : List Entry),
      xs.map (fun y => g y.num) = (xs.map Entry.num).map g := by
    intro g xs
    rw [List.map_map]
    rfl
  rw [h'.slots_eq ht, h.slots_eq ht, hmap, hmap, hnums]
  refine List.map_congr_left fun n hn => ?_
  obtain ⟨y, hy, rfl⟩ := List.mem_map.mp hn
  exact hloc _ (hc.entry hy).num

/-- An order that is moved leaves its place and goes to the end of its queue. -/
theorem Engine.Refines.slots_move
    {side : Side} {t : Nat} {k' : Level} {o : Order}
    (h : Engine.Refines cfg e s loc free) (hc : Consistent cfg s) (hx : x ∈ s.queue k)
    (h' : Engine.Refines cfg e' (s.move k x k' o) loc' free')
    (hloc : ∀ m, m < s.nextNum → loc' m = loc m) (ht : t < numTicks) :
    e'.book.slots side t =
      (e.book.slots side t).filter (fun j => decide (j ≠ loc x.num)) ++
        if (side, t) = k' then [loc x.num] else [] := by
  have hothers : (e.book.slots side t).filter (fun j => decide (j ≠ loc x.num)) =
      (discard Entry.num s.queue k x.num (side, t)).map (fun y => loc' y.num) := by
    rw [hc.distinct.discard_eq_filter hx, h.slots_others ht fun y hy =>
      ⟨fun hnum => congrArg loc hnum, fun hslot => by rw [h.loc_inj hy hx hslot]⟩]
    refine List.map_congr_left fun y hy => (hloc _ ?_).symm
    exact (hc.entry (List.mem_of_mem_filter hy)).num
  rw [h'.slots_eq ht, hothers]
  dsimp only [State.move]
  by_cases hk : (side, t) = k'
  · rw [if_pos hk, hk, push_self, List.map_append, List.map_singleton,
      hloc x.num (hc.entry hx).num]
  · rw [if_neg hk, push_of_ne hk, List.append_nil]

/-- The order that a modification carried out leaves under the key. -/
theorem Engine.Refines.modified
    {s' : State} {k' : Level} {y : Entry}
    (hc : Consistent cfg s) (hx : x ∈ s.queue k)
    (h' : Engine.Refines cfg e' s' loc' free') (hc' : Consistent cfg s')
    (hloc : ∀ m, m < s.nextNum → loc' m = loc m)
    (hy : y ∈ s'.queue k') (hnum : y.num = x.num)
    (hindex : s'.index (clientId, clientOrderId) = some (y.locator k')) :
    e'.Names (clientId, clientOrderId) (loc x.num) y.order := by
  refine (h'.names_iff hc').mpr ⟨k', y, hy, hindex, ?_, rfl⟩
  rw [hnum]
  exact hloc _ (hc.entry hx).num

end Requeues

section Results

variable {cfg : Config} {e e' : Engine} {cs : List Command} {evs : List (List OutputEvent)}
variable {es : List OutputEvent} {clientId clientOrderId : UInt64}
variable {newPrice newQty : Option UInt64}

/-- **When a rejected modification changes nothing.**  In every state that a run
reaches, a modification that is rejected leaves everything as it was exactly if it
does not ask for a positive quantity of a resting order at a price without a
tick. -/
theorem run_modify_rejects_iff
    (hpos : 1 ≤ cfg.capacity) (hlt : cfg.capacity < 2 ^ 32)
    (hrun : (Engine.new cfg).run Build.release cs = .ok (e, evs))
    (he : e.handle Build.release (.modify clientId clientOrderId newPrice newQty) =
      .ok (e', es)) :
    e.RejectsUnchanged e' clientId clientOrderId es ↔
      ¬ e.Evicts clientId clientOrderId newPrice newQty := by
  obtain ⟨⟨loc, free, h⟩, -⟩ := Engine.simulates_of_run Build.wrapping_release hpos hlt hrun
  have hc := run_consistent (consistent_new cfg) cs
  generalize (PriceTime.run cfg State.new cs).1 = s at h hc
  rcases modify_outcomes hc clientId clientOrderId newPrice newQty with
    ⟨hl, -⟩ | ⟨k, x, hx, hkey, hindex, hout⟩
  · obtain rfl := h.modify_unknown hl he
    refine iff_of_true (h.rejectsUnchanged_refl hc) ?_
    rintro ⟨i, o, ⟨locator, hidx, -⟩, -⟩
    rw [h.lookup_none hl] at hidx
    exact absurd hidx (by simp)
  · rw [hkey] at hindex
    rw [h.evicts_iff hc hx hindex]
    obtain ⟨hes, loc', free', h', -⟩ := h.handle_loc hc he
    rw [PriceTime.handle] at hes h'
    generalize PriceTime.modify cfg s clientId clientOrderId newPrice newQty = r at hout hes h'
    -- what is carried out is not rejected
    have hdone : ∀ {orderId price qty : UInt64},
        es = [.orderModified orderId clientId price qty] →
        e.RejectsUnchanged e' clientId clientOrderId es := by
      rintro orderId price qty rfl ⟨ev, hev, hrej⟩
      rw [List.mem_singleton.mp hev] at hrej
      exact absurd hrej id
    have hclient : x.order.clientId = clientId := congrArg Prod.fst hkey
    cases hout with
    | refused hzero =>
        obtain rfl := h.modify_zero hc hx hindex hzero he
        exact iff_of_true (h.rejectsUnchanged_refl hc) fun hbad => hbad.1 hzero
    | kept hpos hprice hle =>
        refine iff_of_true (hdone (hclient ▸ hes)) fun hbad => ?_
        rw [hprice, (hc.entry hx).tick] at hbad
        exact absurd hbad.2 (by simp)
    | evicted hpos hmoved htick =>
        refine iff_of_false ?_ fun hbad => hbad ⟨hpos, htick⟩
        refine h.not_rejectsUnchanged hc hx hindex h' ?_
          ⟨.modifyRejected x.order.orderId x.order.clientId, by simp [hes], trivial⟩
        rw [← hkey]
        exact Function.update_self _ _ _
    | moved hpos hmoved htick =>
        refine iff_of_true (hdone (hclient ▸ hes)) fun hbad => ?_
        rw [htick] at hbad
        exact absurd hbad.2 (by simp)

/-- After the session a modification to no quantity is rejected. -/
theorem run_modify_rejects_iff_session :
    ∃ e e', (Engine.new smallConfig).run Build.release session = .ok (e, sessionEvents) ∧
      e.handle Build.release (.modify 3 0 none (some 0)) = .ok (e', [.modifyRejected 3 3]) ∧
      (e.RejectsUnchanged e' 3 0 [.modifyRejected 3 3] ↔ ¬ e.Evicts 3 0 none (some 0)) := by
  obtain ⟨e, hrun, hstep⟩ := exists_session_of
    (p := fun e => yields (e.handle Build.release (.modify 3 0 none (some 0)))
      fun r => decide (r.2 = [.modifyRejected 3 3])) (by decide +kernel)
  obtain ⟨⟨e', es⟩, he, hes⟩ := exists_of_yields hstep
  obtain rfl := of_decide_eq_true hes
  exact ⟨e, e', hrun, he, run_modify_rejects_iff (by decide) (by decide) hrun he⟩

/-- The new price 99 is below the range of the book: the modification of the bid is
rejected, and the bid is gone. -/
theorem evicted_bidOne :
    ∃ e evs e', (Engine.new smallConfig).run Build.release [bidOne 1 100] = .ok (e, evs) ∧
      e.handle Build.release (.modify 1 0 (some 99) none) =
        .ok (e', [.modifyRejected 1 1]) ∧
      (e.book.arena.orderAt 0).isSome = true ∧ e'.book.arena.orderAt 0 = none ∧
      ¬ e.RejectsUnchanged e' 1 0 [.modifyRejected 1 1] := by
  obtain ⟨⟨e, evs⟩, hrun, hstep⟩ := exists_of_yields
    (x := (Engine.new smallConfig).run Build.release [bidOne 1 100])
    (p := fun r => (r.1.book.arena.orderAt 0).isSome &&
      yields (r.1.handle Build.release (.modify 1 0 (some 99) none)) (fun r' =>
        decide (r'.1.book.arena.orderAt 0 = none) && decide (r'.2 = [.modifyRejected 1 1])))
    (by decide +kernel)
  rw [Bool.and_eq_true] at hstep
  obtain ⟨hthere, hstep⟩ := hstep
  obtain ⟨⟨e', es⟩, he, hgone⟩ := exists_of_yields hstep
  simp only [Bool.and_eq_true, decide_eq_true_eq] at hgone
  obtain ⟨hgone, rfl⟩ := hgone
  refine ⟨e, evs, e', hrun, he, hthere, hgone, fun hr => ?_⟩
  obtain ⟨hsame, -⟩ := hr ⟨.modifyRejected 1 1, by simp, trivial⟩
  rw [← hsame.orders, hgone] at hthere
  exact absurd hthere (by simp)

/-- **A valid modification is carried out.**  In every state that a run reaches,
under every key that the index has, a modification to a positive quantity at a
price with a tick reports the order's own id with its new price and quantity.  The
order stays in its slot and in its place, or goes to the end of the queue of its
price. -/
theorem run_modifies
    {locator : OrderLocator}
    (hpos : 1 ≤ cfg.capacity) (hlt : cfg.capacity < 2 ^ 32)
    (hrun : (Engine.new cfg).run Build.release cs = .ok (e, evs))
    (hkey : e.orderIndex (clientId, clientOrderId) = some locator) :
    ∃ i o, e.Names (clientId, clientOrderId) i o ∧
      ∀ newPrice newQty t, newQty.getD o.leavesQty ≠ 0 →
        e.book.priceToTick (newPrice.getD o.price) = .ok (some t) → ∃ e',
        e.handle Build.release (.modify clientId clientOrderId newPrice newQty) =
            .ok (e', [.orderModified o.orderId clientId (newPrice.getD o.price)
              (newQty.getD o.leavesQty)]) ∧
          e.Modifies e' (clientId, clientOrderId) i o (newPrice.getD o.price)
            (newQty.getD o.leavesQty) t := by
  obtain ⟨⟨loc, free, h⟩, -⟩ := Engine.simulates_of_run Build.wrapping_release hpos hlt hrun
  have hc := run_consistent (consistent_new cfg) cs
  generalize (PriceTime.run cfg State.new cs).1 = s at h hc
  obtain ⟨l, hl⟩ : ∃ l, s.index (clientId, clientOrderId) = some l := by
    refine Option.ne_none_iff_exists'.mp fun hnone => ?_
    rw [h.lookup_none hnone] at hkey
    exact absurd hkey (by simp)
  obtain ⟨x, -, hx, hxkey, hloc, -⟩ := hc.find hl
  rw [← hloc] at hl
  have hclient : x.order.clientId = clientId := congrArg Prod.fst hxkey
  refine ⟨loc x.num, x.order, (h.names_iff hc).mpr ⟨_, x, hx, hl, rfl, rfl⟩, ?_⟩
  intro newPrice newQty t hqty htick
  rw [h.priceToTick_iff] at htick
  obtain ⟨e', he⟩ := h.handle_ok hc (ne_zero_of_tickOf htick)
    (.modify clientId clientOrderId newPrice newQty)
  have hc' := handle_consistent hc (.modify clientId clientOrderId newPrice newQty)
  obtain ⟨-, loc', free', h', hloc'⟩ := h.handle_loc hc he
  obtain ⟨-, hout⟩ := modified_of_index newPrice newQty hc hx hl
  rw [PriceTime.handle] at he h' hc'
  generalize PriceTime.modify cfg s clientId clientOrderId newPrice newQty = r
    at hout he h' hc'
  cases hout with
  | refused hzero => exact absurd hzero hqty
  | evicted hpos hmoved hnone =>
      rw [htick] at hnone
      exact absurd hnone (by simp)
  | kept hpos hprice hle =>
      have hy : { x with order := reducedTo (newQty.getD x.order.leavesQty) x.order } ∈
          (s.change l.level x (reducedTo (newQty.getD x.order.leavesQty))).queue l.level :=
        (mem_change hc.distinct hx).mpr (Or.inr ⟨rfl, rfl⟩)
      refine ⟨e', hclient ▸ he, ?_⟩
      exact
        { order := ⟨_, h'.modified hc hx hc' hloc' hy rfl hl, rfl, rfl, rfl, hprice.symm, rfl⟩
          kept := fun _ _ side u hu => h.slots_change hc h' hloc' hu
          requeued := fun hmoved => absurd ⟨hprice, hle⟩ hmoved
          openOrders := by rw [h'.clients, h.clients]; rfl }
  | moved hpos hmoved htick' =>
      rw [htick, Option.some.injEq] at htick'
      subst htick'
      have hindex : Function.update s.index x.order.key
          (some (Locator.mk x.num t x.order.side)) (clientId, clientOrderId) =
            some (Locator.mk x.num t x.order.side) := by
        rw [← hxkey, Function.update_self]
      refine ⟨e', hclient ▸ he, ?_⟩
      exact
        { order := ⟨_, h'.modified hc hx hc' hloc' (mem_push.mpr (Or.inr ⟨rfl, rfl⟩)) rfl hindex,
            rfl, rfl, rfl, rfl, rfl⟩
          kept := fun hprice hle => absurd ⟨hprice, hle⟩ hmoved
          requeued := fun _ side u hu => h.slots_move hc hx h' hloc' hu
          openOrders := by rw [h'.clients, h.clients]; rfl }

/-- The better of the bids that the session leaves. -/
theorem run_modifies_session :
    ∃ e, (Engine.new smallConfig).run Build.release session = .ok (e, sessionEvents) ∧
      ∃ i o, e.Names (3, 0) i o ∧
        ∀ newPrice newQty t, newQty.getD o.leavesQty ≠ 0 →
          e.book.priceToTick (newPrice.getD o.price) = .ok (some t) → ∃ e',
          e.handle Build.release (.modify 3 0 newPrice newQty) =
              .ok (e', [.orderModified o.orderId 3 (newPrice.getD o.price)
                (newQty.getD o.leavesQty)]) ∧
            e.Modifies e' (3, 0) i o (newPrice.getD o.price) (newQty.getD o.leavesQty) t := by
  obtain ⟨e, hrun, hkey⟩ := exists_session_of
    (p := fun e => (e.orderIndex (3, 0)).isSome) (by decide +kernel)
  obtain ⟨locator, hkey⟩ := Option.isSome_iff_exists.mp hkey
  exact ⟨e, hrun, run_modifies (by decide) (by decide) hrun hkey⟩

end Results

end LmaxEngine
