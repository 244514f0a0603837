import LmaxEngine.Results.Faults
import LmaxEngine.Spec.Priority

/-!
# The queues that the slots form

The queue of a level is found by walking from its head along the links of the
slots.  In every reachable state it has the slots of the entries that the plain
book has in the queue of the level, in the same order.
-/

namespace LmaxEngine

open Checked Queues Arena PriceTime

/-- The slots from one on, along their links. -/
def Arena.walk (a : Arena) : Nat → Option Nat → List Nat
  | 0, _ => []
  | _ + 1, none => []
  | fuel + 1, some i =>
      match a.orderStore[i]? with
      | some { state := .occupied _ _ next, .. } => i :: walk a fuel next
      | _ => []

/-- The slots of a level, from head to tail. -/
def OrderBook.slots (b : OrderBook) (side : Side) (tick : Nat) : List Nat :=
  match (b.half side).priceLevels tick with
  | none => []
  | some pl => b.arena.walk b.arena.orderStore.size pl.head

/-- The slots of a side, the best level first. -/
def Engine.line (e : Engine) (side : Side) : List Nat :=
  Queues.line side.ranked (fun k => e.book.slots k.1 k.2)

/-- The quantity left of the order of a slot. -/
def Engine.leavesAt (e : Engine) (i : Nat) : Nat :=
  (e.book.arena.orderAt i).elim 0 (fun o => o.leavesQty.toNat)

/-- The quantity that the orders ahead of a slot hold together. -/
def Engine.aheadQty (e : Engine) (side : Side) (i : Nat) : Nat :=
  ahead id e.leavesAt i (e.line side)

/-- What is left of a placement for the order of a slot. -/
def Engine.offer
    (cfg : Config) (e : Engine) (side : Side) (limitPrice : Option UInt64) (quantity : UInt64)
    (i : Nat) : Nat :=
  match e.book.arena.orderAt i with
  | none => 0
  | some o =>
      if hits cfg side limitPrice o then quantity.toNat - e.aheadQty side.opposite i else 0

/-- A placement that passes all checks. -/
structure Engine.Accepts
    (e : Engine) (clientId : UInt64) (orderType : OrderType) (price : Option UInt64)
    (quantity : UInt64) : Prop where
  qty : quantity ≠ 0
  limit : (accountOf e.clients clientId).openOrders < maxOpenOrders
  tick : orderType = .limit →
    ∃ limit t, price = some limit ∧ e.book.priceToTick limit = .ok (some t)

section Walks

variable {a : Arena} {xs : List Nat}

/-- A walk along linked slots finds them all. -/
theorem Arena.walk_eq
    (hlinked : ∀ n i, xs[n]? = some i → ∃ generation order prev,
      a.orderStore[i]? = some (Slot.mk generation (.occupied order prev xs[n + 1]?)))
    {fuel n : Nat} (hfuel : xs.length ≤ n + fuel) :
    a.walk fuel xs[n]? = xs.drop n := by
  induction fuel generalizing n with
  | zero => rw [walk, List.drop_eq_nil_of_le (by omega)]
  | succ fuel ih =>
      cases hn : xs[n]? with
      | none => rw [walk, List.drop_eq_nil_of_le (List.getElem?_eq_none_iff.mp hn)]
      | some i =>
          obtain ⟨generation, order, prev, hslot⟩ := hlinked n i hn
          obtain ⟨hlt, hi⟩ := List.getElem?_eq_some_iff.mp hn
          rw [walk]
          simp only [hslot]
          rw [ih (by omega), List.drop_eq_getElem_cons hlt, hi]

theorem PriceLevel.Linked.length_le
    {pl : PriceLevel}
    (h : pl.Linked a xs) :
    xs.length ≤ a.orderStore.size := by
  have hsub : xs ⊆ List.range a.orderStore.size := by
    intro i hi
    obtain ⟨n, hn⟩ := List.mem_iff_getElem?.mp hi
    obtain ⟨generation, order, hslot⟩ := h.linked n i hn
    obtain ⟨hlt, -⟩ := Array.getElem?_eq_some_iff.mp hslot
    exact List.mem_range.mpr hlt
  have hle := (h.nodup.subperm hsub).length_le
  rwa [List.length_range] at hle

theorem PriceLevel.Linked.walk_eq
    {pl : PriceLevel}
    (h : pl.Linked a xs) :
    a.walk a.orderStore.size pl.head = xs := by
  have hlinked : ∀ n i, xs[n]? = some i → ∃ generation order prev,
      a.orderStore[i]? = some (Slot.mk generation (.occupied order prev xs[n + 1]?)) := by
    intro n i hn
    obtain ⟨generation, order, hslot⟩ := h.linked n i hn
    exact ⟨generation, order, _, hslot⟩
  have hle := h.length_le
  have hwalk : a.walk a.orderStore.size xs[0]? = xs.drop 0 :=
    Arena.walk_eq hlinked (by omega)
  rwa [← List.head?_eq_getElem?, ← h.head, List.drop_zero] at hwalk

end Walks

section Reached

variable {cfg : Config} {e : Engine} {s : State} {loc : Nat → Nat} {free : List Nat}
variable {side : Side} {t : Nat}

/-- **The queue of a level is that of the plain book.** -/
theorem Engine.Refines.slots_eq
    (h : Engine.Refines cfg e s loc free) (ht : t < numTicks) :
    e.book.slots side t = (s.queue (side, t)).map (fun x => loc x.num) := by
  have hmap : slotsOf (image (Engine.cellOf loc) s.queue (side, t)) =
      (s.queue (side, t)).map (fun x => loc x.num) := by
    rw [slotsOf, image, List.map_map]
    rfl
  have hlevel : LevelHolds ((e.book.half side).priceLevels t)
      (image (Engine.cellOf loc) s.queue (side, t)) :=
    (h.book.half side).level t ht
  rw [← hmap, OrderBook.slots]
  cases hl : (e.book.half side).priceLevels t with
  | none =>
      rw [hl] at hlevel
      have hnil : image (Engine.cellOf loc) s.queue (side, t) = [] := hlevel
      rw [hnil]
      rfl
  | some pl =>
      rw [hl] at hlevel
      exact (hlevel.2.lists h.book.arena).toLinked.walk_eq

/-- The slots of a level but one are those of the entries but the one with its
number. -/
theorem Engine.Refines.slots_others
    {i n : Nat}
    (h : Engine.Refines cfg e s loc free) (ht : t < numTicks)
    (hslot : ∀ x, x ∈ s.queue (side, t) → (x.num = n ↔ loc x.num = i)) :
    (e.book.slots side t).filter (fun j => decide (j ≠ i)) =
      ((s.queue (side, t)).filter (fun x => decide (x.num ≠ n))).map (fun x => loc x.num) := by
  rw [h.slots_eq ht, List.filter_map]
  congr 1
  exact List.filter_congr fun x hx => decide_eq_decide.mpr (not_congr (hslot x hx).symm)

/-- There is a level where there is a queue. -/
theorem Engine.Refines.level_iff
    (h : Engine.Refines cfg e s loc free) (hc : Consistent cfg s) (ht : t < numTicks) :
    ((e.book.half side).priceLevels t).isSome = true ↔ e.book.slots side t ≠ [] := by
  rw [(h.wellFormed hc).nonempty side t ht, h.slots_eq ht, slotsOf, image]
  simp

/-- The slots of a side in line are those of the entries in line. -/
theorem Engine.Refines.line_eq
    (h : Engine.Refines cfg e s loc free) (side : Side) :
    e.line side = (s.line side).map (fun x => loc x.num) := by
  rw [Engine.line, State.line, Queues.line, Queues.line, List.map_flatMap]
  refine List.flatMap_congr fun k hk => ?_
  exact h.slots_eq (mem_ranked.mp hk).2

theorem Engine.Refines.aheadQty_eq
    {k : Level} {x : Entry}
    (h : Engine.Refines cfg e s loc free) (hc : Consistent cfg s) (hx : x ∈ s.queue k)
    (side : Side) :
    e.aheadQty side (loc x.num) = s.aheadQty side x.num := by
  rw [Engine.aheadQty, State.aheadQty, h.line_eq]
  refine ahead_map (fun y hy => ?_) fun y hy => ?_
  · obtain ⟨k', -, hy⟩ := (mem_state_line hc).mp hy
    refine ⟨fun hloc => ?_, fun hnum => by rw [hnum]; rfl⟩
    rw [h.loc_inj hy hx hloc]
  · obtain ⟨k', -, hy⟩ := (mem_state_line hc).mp hy
    rw [Engine.leavesAt, h.orderAt hy]
    rfl

/-- **An order is offered what its entry is offered.** -/
theorem Engine.Refines.offer_eq
    {k : Level} {x : Entry} {p : Placement}
    (h : Engine.Refines cfg e s loc free) (hc : Consistent cfg s) (hx : x ∈ s.queue k) :
    e.offer cfg p.side p.limitPrice p.leavesQty (loc x.num) = PriceTime.offer cfg s p x := by
  rw [Engine.offer, h.orderAt hx, PriceTime.offer, h.aheadQty_eq hc hx]

theorem Engine.Refines.accepts_iff
    {clientId quantity : UInt64} {orderType : OrderType} {price : Option UInt64}
    (h : Engine.Refines cfg e s loc free) :
    e.Accepts clientId orderType price quantity ↔
      Accepted cfg s clientId orderType price quantity := by
  have htick : (∃ limit t, price = some limit ∧ e.book.priceToTick limit = .ok (some t)) ↔
      (price.bind (tickOf cfg)).isSome = true := by
    cases price with
    | none => simp
    | some limit =>
        rw [Option.bind_some, ← h.tick_iff]
        constructor
        · rintro ⟨limit', t, hl, ht⟩
          exact ⟨t, Option.some.inj hl ▸ ht⟩
        · exact fun ⟨t, ht⟩ => ⟨limit, t, rfl, ht⟩
  constructor
  · exact fun ha =>
      ⟨ha.qty, h.openOrders_lt_iff.mp ha.limit, fun htype => htick.mp (ha.tick htype)⟩
  · exact fun ha =>
      ⟨ha.qty, h.openOrders_lt_iff.mpr ha.limit, fun htype => htick.mpr (ha.tick htype)⟩

end Reached

end LmaxEngine
