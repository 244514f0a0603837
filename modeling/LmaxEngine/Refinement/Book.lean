import LmaxEngine.Refinement.Arena
import LmaxEngine.Refinement.BitMap
import LmaxEngine.Spec.Consistency

/-!
# The order book as a family of queues

A half-book represents the queues of its side when its bitmap has the ticks of
the nonempty ones and its price levels are there for exactly these.  The two
half-books and the arena together represent one family of queues of slots.
Every operation of the book is the operation on queues that it stands for.
-/

namespace LmaxEngine

open Checked Queues Arena

/-- The price level of a queue, absent when the queue is empty. -/
def LevelHolds (level : Option PriceLevel) (xs : List (Nat × Order)) : Prop :=
  match level with
  | none => xs = []
  | some pl => xs ≠ [] ∧ LevelRepresents pl xs

theorem levelRepresents_new :
    LevelRepresents PriceLevel.new [] :=
  ⟨rfl, rfl, rfl⟩

theorem BitMap.Represents.congr
    {m : BitMap} {S S' : Nat → Prop}
    (h : m.Represents S) (heq : ∀ n, S n ↔ S' n) :
    m.Represents S' :=
  { h with bits := fun n hn => (h.bits n hn).trans (heq n) }

namespace HalfBook

/-- The total of the level of a tick. -/
def total (hb : HalfBook) (t : Nat) : UInt64 :=
  (hb.priceLevels t).elim 0 PriceLevel.totalQty

theorem total_update
    {bitmap : BitMap} {hb : HalfBook} {t : Nat} {level : Option PriceLevel} :
    total { bitmap := bitmap, priceLevels := Function.update hb.priceLevels t level } =
      Function.update hb.total t (level.elim 0 PriceLevel.totalQty) := by
  funext t'
  rw [total]
  by_cases h : t' = t
  · subst h
    simp only [Function.update_self]
  · simp only [Function.update_of_ne h]
    rfl

structure Represents (hb : HalfBook) (qs : Family Nat (Nat × Order)) : Prop where
  bitmap : hb.bitmap.Represents (fun t => qs t ≠ [])
  level : ∀ t, t < numTicks → LevelHolds (hb.priceLevels t) (qs t)

section Operations

variable {β : Build} {hb : HalfBook} {qs qs' : Family Nat (Nat × Order)}
variable {q : Cells} {free : List Nat} {arena : Arena} {side : Side} {t i : Nat} {o : Order}

/-- A half-book with one price level changed. -/
theorem Represents.update
    {bitmap : BitMap} {level : Option PriceLevel}
    (h : hb.Represents qs)
    (hbitmap : bitmap.Represents (fun t => qs' t ≠ []))
    (hlevel : LevelHolds level (qs' t))
    (heq : ∀ t', t' ≠ t → qs' t' = qs t') :
    Represents { bitmap := bitmap, priceLevels := Function.update hb.priceLevels t level }
      qs' where
  bitmap := hbitmap
  level t' ht' := by
    by_cases hne : t' = t
    · subst hne
      simpa using hlevel
    · rw [heq t' hne]
      simpa [hne] using h.level t' ht'

/-- A half-book knows the slots of its queues only. -/
theorem Represents.congr
    (h : hb.Represents qs) (heq : ∀ t, slotsOf (qs' t) = slotsOf (qs t)) :
    hb.Represents qs' := by
  have hnil : ∀ t, qs' t = [] ↔ qs t = [] := by
    intro t
    have := congrArg List.length (heq t)
    rw [slotsOf, slotsOf, List.length_map, List.length_map] at this
    rw [← List.length_eq_zero_iff, this, List.length_eq_zero_iff]
  refine ⟨h.bitmap.congr fun t => (not_congr (hnil t)).symm, fun t ht => ?_⟩
  have hlevel := h.level t ht
  cases hl : hb.priceLevels t with
  | none =>
      rw [hl] at hlevel
      exact (hnil t).mpr hlevel
  | some pl =>
      rw [hl] at hlevel
      obtain ⟨hne, hpl⟩ := hlevel
      refine ⟨mt (hnil t).mp hne, by rw [heq]; exact hpl.head, by rw [heq]; exact hpl.tail, ?_⟩
      have := congrArg List.length (heq t)
      rw [slotsOf, slotsOf, List.length_map, List.length_map] at this
      rw [this]
      exact hpl.orderCount

/-- `add_order` first makes sure that there is a price level. -/
theorem Represents.ensureLevel
    (h : hb.Represents qs) (ht : t < numTicks) :
    ∃ pl, LevelRepresents pl (qs t) ∧ pl.totalQty = hb.total t ∧
      (if (hb.priceLevels t).isNone then
          .ok (Function.update hb.priceLevels t (some PriceLevel.new))
        else .ok hb.priceLevels : Run (Nat → Option PriceLevel)) =
          .ok (Function.update hb.priceLevels t (some pl)) ∧
      Function.update hb.priceLevels t (if pl.orderCount = 0 then none else some pl) =
        hb.priceLevels := by
  have hlevel := h.level t ht
  cases hl : hb.priceLevels t with
  | none =>
      rw [hl] at hlevel
      refine ⟨PriceLevel.new, ?_, by rw [total, hl]; rfl, ?_, ?_⟩
      · rw [show qs t = [] from hlevel]
        exact levelRepresents_new
      · rfl
      · rw [if_pos (by rfl), ← hl, Function.update_eq_self]
  | some pl =>
      rw [hl] at hlevel
      obtain ⟨hne, hpl⟩ := hlevel
      refine ⟨pl, hpl, by rw [total, hl]; rfl, ?_, ?_⟩
      · rw [← hl, Function.update_eq_self, hl]
        rfl
      · have hcount : pl.orderCount ≠ 0 := by
          intro h0
          have := hpl.orderCount
          rw [h0] at this
          exact hne (List.length_eq_zero_iff.mp this.symm)
        rw [if_neg hcount, ← hl, Function.update_eq_self]

theorem Represents.addOrder_full
    (h : hb.Represents (fun t => q (side, t))) (ha : arena.Represents q [])
    (ht : t < numTicks) :
    hb.addOrder β t o arena = .ok (.error o, hb, arena) := by
  obtain ⟨pl, -, -, hset, hback⟩ := h.ensureLevel ht
  unfold HalfBook.addOrder
  simp only [cell_eq ht, ok_bind, hset, Function.update_self, unwrap_some,
    ha.allocOrder_full, setCell_eq ht, Function.update_idem]
  by_cases hzero : pl.orderCount = 0
  · rw [if_pos hzero] at hback
    simp only [hzero, if_true, hback, ok_bind]
  · rw [if_neg hzero] at hback
    simp only [hzero, if_false, hback, ok_bind]

theorem Represents.addOrder
    {fr : List Nat} (hβ : β .counterOverflow = false)
    (h : hb.Represents (fun t => q (side, t))) (ha : arena.Represents q (i :: fr))
    (ht : t < numTicks) :
    ∃ generation hb' arena',
      hb.addOrder β t o arena = (do
        let _ ← addQty β (hb.total t) o.leavesQty
        .ok (.ok { index := UInt32.ofNat i, generation := generation }, hb', arena')) ∧
      hb'.Represents (fun t' => push q (side, t) (i, o) (side, t')) ∧
      arena'.Represents (push q (side, t) (i, o)) fr ∧
      hb'.total = Function.update hb.total t (hb.total t + o.leavesQty) ∧
      (shape arena.orderStore).generation i = some generation ∧
      (shape arena'.orderStore).generation = (shape arena.orderStore).generation := by
  obtain ⟨pl, hpl, htotal, hset, -⟩ := h.ensureLevel ht
  have hk : (side, t) ∈ PriceTime.levels := PriceTime.mem_levels.mpr ht
  obtain ⟨generation, arena', pl', halloc, ha', hpl', hgen, hgens⟩ :=
    ha.allocOrder (o := o) hβ hk hpl
  obtain ⟨bitmap, hbit, hrep⟩ := h.bitmap.setBit ht
  refine ⟨generation,
    { bitmap := bitmap
      priceLevels := Function.update hb.priceLevels t
        (some { pl' with totalQty := hb.total t + o.leavesQty }) },
    arena', ?_, ?_, ha', ?_, hgen, hgens⟩
  · unfold HalfBook.addOrder
    simp only [cell_eq ht, ok_bind, hset, Function.update_self, unwrap_some,
      halloc, setCell_eq ht, Function.update_idem, hbit]
    rw [bind_assoc, htotal, addQty_bind]
    rfl
  · refine h.update (hrep.congr fun t' => ?_) ?_ fun t' hne => ?_
    · by_cases hne : t' = t
      · subst hne
        simp
      · simp [push_of_ne (show (side, t') ≠ (side, t) by simpa using hne), hne]
    · rw [push_self]
      exact ⟨by simp, hpl' _⟩
    · exact push_of_ne (by simpa using hne)
  · rw [total_update, Option.elim_some]

theorem Represents.removeOrder
    (hβ : β .counterOverflow = false) (hsat : β.Holds (hb.total t) o.leavesQty)
    (h : hb.Represents (fun t => q (side, t))) (ha : arena.Represents q free)
    (hc : (i, o) ∈ q (side, t)) :
    ∃ hb' arena',
      hb.removeOrder β t i arena = .ok (hb', arena') ∧
      hb'.Represents (fun t' => discard Prod.fst q (side, t) i (side, t')) ∧
      arena'.Represents (discard Prod.fst q (side, t) i) (i :: free) ∧
      hb'.total = Function.update hb.total t
        (if discard Prod.fst q (side, t) i (side, t) = [] then 0
          else satSub (hb.total t) o.leavesQty) ∧
      (shape arena'.orderStore).generation =
        Function.update (shape arena.orderStore).generation i
          (((shape arena.orderStore).generation i).map (· + 1)) := by
  have ht : t < numTicks := PriceTime.mem_levels.mp (ha.level hc)
  have hlevel := h.level t ht
  cases hl : hb.priceLevels t with
  | none =>
      rw [hl] at hlevel
      rw [show q (side, t) = [] from hlevel] at hc
      simp at hc
  | some pl =>
      rw [hl] at hlevel
      obtain ⟨-, hpl⟩ := hlevel
      rw [total, hl, Option.elim_some] at hsat
      obtain ⟨arena', pl', hfree, ha', hpl', htotal, hgens⟩ := ha.freeOrder hβ hsat hc hpl
      obtain ⟨bitmap, hbit, hrep⟩ := h.bitmap.clearBit ht
      have hother : ∀ t', t' ≠ t →
          discard Prod.fst q (side, t) i (side, t') = q (side, t') :=
        fun t' hne => discard_of_ne (by simpa using hne)
      have hcount : pl'.orderCount = 0 ↔ discard Prod.fst q (side, t) i (side, t) = [] := by
        rw [← List.length_eq_zero_iff, ← hpl'.orderCount, ← UInt32.toNat_inj]
        rfl
      by_cases hzero : pl'.orderCount = 0
      · refine ⟨{ bitmap := bitmap, priceLevels := Function.update hb.priceLevels t none },
          arena', ?_, ?_, ha', ?_, hgens⟩
        · unfold HalfBook.removeOrder
          simp only [cell_eq ht, ok_bind, hl, hfree, setCell_eq ht, Function.update_idem,
            hzero, if_true, hbit]
        · have hempty := hcount.mp hzero
          refine h.update (hrep.congr fun t' => ?_) hempty hother
          by_cases hne : t' = t
          · subst hne
            simp only [hempty]
            simp
          · simp [hother t' hne, hne]
        · rw [total_update, if_pos (hcount.mp hzero), Option.elim_none]
      · refine ⟨{ bitmap := hb.bitmap, priceLevels := Function.update hb.priceLevels t (some pl') },
          arena', ?_, ?_, ha', ?_, hgens⟩
        · unfold HalfBook.removeOrder
          simp only [cell_eq ht, ok_bind, hl, hfree, setCell_eq ht, hzero, if_false]
        · have hne' := mt hcount.mpr hzero
          refine h.update (h.bitmap.congr fun t' => ?_) ⟨hne', hpl'⟩ hother
          by_cases hne : t' = t
          · subst hne
            exact ⟨fun _ => hne', fun _ => List.ne_nil_of_mem hc⟩
          · rw [hother t' hne]
        · rw [total_update, if_neg (mt hcount.mpr hzero), Option.elim_some, htotal, total, hl,
            Option.elim_some]

/-- The total of a level is not a part of what it represents. -/
theorem Represents.reduceTotal
    {qty : UInt64}
    (hsat : β.Holds (hb.total t) qty)
    (h : hb.Represents qs) (ht : t < numTicks) (hne : qs t ≠ []) :
    ∃ hb', hb.reduceTotal β t qty = .ok hb' ∧ hb'.Represents qs ∧
      hb'.total = Function.update hb.total t (satSub (hb.total t) qty) := by
  have hlevel := h.level t ht
  cases hl : hb.priceLevels t with
  | none =>
      rw [hl] at hlevel
      exact absurd hlevel hne
  | some pl =>
      rw [hl] at hlevel
      rw [total, hl, Option.elim_some] at hsat
      have hlevel' : LevelHolds (some { pl with totalQty := satSub pl.totalQty qty }) (qs t) :=
        ⟨hne, hlevel.2.head, hlevel.2.tail, hlevel.2.orderCount⟩
      refine ⟨_, ?_, h.update (t := t) h.bitmap hlevel' fun _ _ => rfl, ?_⟩
      · unfold HalfBook.reduceTotal
        simp only [cell_eq ht, ok_bind, hl, saturatingSubTotal_eq hsat, setCell_eq ht]
      · rw [total_update, total, hl]
        rfl

end Operations

end HalfBook

namespace OrderBook

structure Represents
    (cfg : Config) (b : OrderBook) (q : Cells) (free : List Nat) : Prop where
  half : ∀ side, (b.half side).Represents (fun t => q (side, t))
  arena : b.arena.Represents q free
  basePrice : b.basePrice = cfg.basePrice
  tickSize : b.tickSize = cfg.tickSize
  capacity : b.arena.orderStore.size = cfg.capacity

section Halves

variable {b : OrderBook} {side side' : Side} {hb : HalfBook} {a : Arena}

@[simp] theorem half_withHalf_self :
    (b.withHalf side hb a).half side = hb := by
  cases side <;> rfl

theorem half_withHalf_of_ne
    (h : side' ≠ side) :
    (b.withHalf side hb a).half side' = b.half side' := by
  cases side <;> cases side' <;> first | rfl | exact absurd rfl h

@[simp] theorem arena_withHalf :
    (b.withHalf side hb a).arena = a := by
  cases side <;> rfl

@[simp] theorem basePrice_withHalf :
    (b.withHalf side hb a).basePrice = b.basePrice := by
  cases side <;> rfl

@[simp] theorem tickSize_withHalf :
    (b.withHalf side hb a).tickSize = b.tickSize := by
  cases side <;> rfl

theorem withHalf_self :
    b.withHalf side (b.half side) b.arena = b := by
  cases side <;> rfl

/-- The total of a level. -/
def total (b : OrderBook) (k : PriceTime.Level) : UInt64 :=
  (b.half k.1).total k.2

/-- A book with the total of one level changed. -/
theorem total_withHalf
    {t : Nat} {v : UInt64}
    (h : hb.total = Function.update (b.half side).total t v) :
    (b.withHalf side hb a).total = Function.update b.total (side, t) v := by
  funext k
  rw [total]
  by_cases hs : k.1 = side
  · rw [hs, half_withHalf_self, h]
    by_cases ht : k.2 = t
    · rw [ht, Function.update_self, ← hs, ← ht, Function.update_self]
    · rw [Function.update_of_ne ht, Function.update_of_ne fun hk => ht (by rw [hk]), total, hs]
  · rw [half_withHalf_of_ne hs, Function.update_of_ne fun hk => hs (by rw [hk]), total]

end Halves

/-- The quantity that a queue of cells holds. -/
def held (q : Cells) (k : PriceTime.Level) : Nat :=
  weigh {k} q (fun c => c.2.leavesQty.toNat)

/-- The total of every level is what its queue holds. -/
def Tallies (b : OrderBook) (q : Cells) : Prop :=
  ∀ k : PriceTime.Level, k.2 < numTicks → (b.total k).toNat = held q k

section Totals

variable {b b' : OrderBook} {q q' : Cells} {k : PriceTime.Level} {v : UInt64}

theorem held_congr
    (h : q' k = q k) :
    held q' k = held q k := by
  simp only [held, weigh, Finset.sum_singleton, h]

/-- The totals stay right when one level changes and its total with it. -/
theorem Tallies.update
    (h : b.Tallies q) (htotal : b'.total = Function.update b.total k v)
    (hself : k.2 < numTicks → v.toNat = held q' k) (hother : ∀ k', k' ≠ k → q' k' = q k') :
    b'.Tallies q' := by
  intro k' hk'
  rw [htotal]
  by_cases hne : k' = k
  · subst hne
    rw [Function.update_self]
    exact hself hk'
  · rw [Function.update_of_ne hne, h k' hk', held_congr (hother k' hne)]

end Totals

section Operations

variable {β : Build} {cfg : Config} {b : OrderBook} {q q' : Cells} {free free' : List Nat}
variable {side : Side} {t i : Nat} {o : Order}

/-- A book with the half-book of one side and the arena replaced. -/
theorem Represents.withHalf
    {hb : HalfBook} {a : Arena}
    (h : b.Represents cfg q free)
    (hhalf : hb.Represents (fun t => q' (side, t)))
    (harena : a.Represents q' free')
    (hsize : a.orderStore.size = b.arena.orderStore.size)
    (hother : ∀ side' t', side' ≠ side → q' (side', t') = q (side', t')) :
    (b.withHalf side hb a).Represents cfg q' free' where
  half side' := by
    by_cases hs : side' = side
    · subst hs
      rwa [half_withHalf_self]
    · rw [half_withHalf_of_ne hs]
      have := h.half side'
      rwa [show (fun t => q (side', t)) = fun t => q' (side', t) from
        funext fun t' => (hother side' t' hs).symm] at this
  arena := by rwa [arena_withHalf]
  basePrice := by rw [basePrice_withHalf, h.basePrice]
  tickSize := by rw [tickSize_withHalf, h.tickSize]
  capacity := by rw [arena_withHalf, hsize, h.capacity]

/-- The size of an arena is the number of slots that are taken or free. -/
theorem size_eq_of_represents
    {a a' : Arena}
    (h : a.Represents q free) (h' : a'.Represents q' free')
    (heq : weigh PriceTime.levels q' (fun _ => 1) + free'.length =
      weigh PriceTime.levels q (fun _ => 1) + free.length) :
    a'.orderStore.size = a.orderStore.size := by
  rw [← h.room, ← h'.room, h.count, h'.count, heq]

theorem Represents.addOrder_full
    (h : b.Represents cfg q []) (ht : t < numTicks) :
    b.addOrder β side t o = .ok (.error o, b) := by
  unfold OrderBook.addOrder
  rw [(h.half side).addOrder_full h.arena ht]
  simp only [ok_bind, withHalf_self]

theorem Represents.addOrder
    {fr : List Nat} (side : Side) (o : Order) (hβ : β .counterOverflow = false)
    (h : b.Represents cfg q (i :: fr)) (ht : t < numTicks) :
    ∃ generation b',
      b.addOrder β side t o = (do
        let _ ← addQty β (b.total (side, t)) o.leavesQty
        .ok (.ok { index := UInt32.ofNat i, generation := generation }, b')) ∧
      b'.Represents cfg (push q (side, t) (i, o)) fr ∧
      (b.Tallies q → (b.total (side, t)).toNat + o.leavesQty.toNat < 2 ^ 64 →
        b'.Tallies (push q (side, t) (i, o))) ∧
      (shape b.arena.orderStore).generation i = some generation ∧
      (shape b'.arena.orderStore).generation =
        (shape b.arena.orderStore).generation := by
  obtain ⟨generation, hb', arena', hadd, hhalf, harena, htotal, hgen, hgens⟩ :=
    (h.half side).addOrder (o := o) hβ h.arena ht
  have hk : (side, t) ∈ PriceTime.levels := PriceTime.mem_levels.mpr ht
  refine ⟨generation, b.withHalf side hb' arena', ?_, ?_, fun hb hlt => ?_, hgen, ?_⟩
  · unfold OrderBook.addOrder
    rw [hadd, bind_assoc]
    rfl
  · refine h.withHalf hhalf harena (size_eq_of_represents h.arena harena ?_) ?_
    · rw [weigh_push hk, List.length_cons, Nat.add_assoc, Nat.add_comm 1]
    · exact fun side' t' hs => push_of_ne fun he => hs (congrArg Prod.fst he)
  · refine hb.update (total_withHalf htotal) (fun hlt' => ?_) fun k' hne => push_of_ne hne
    have hwas : ((b.half side).total t).toNat = held q (side, t) := hb (side, t) hlt'
    rw [total] at hlt
    rw [held, weigh_push (Finset.mem_singleton_self _), UInt64.toNat_add, Nat.mod_eq_of_lt hlt,
      hwas]
    rfl
  · rw [arena_withHalf, hgens]

theorem Represents.removeOrder
    (hβ : β .counterOverflow = false) (hsat : β.Holds (b.total (side, t)) o.leavesQty)
    (h : b.Represents cfg q free) (hc : (i, o) ∈ q (side, t)) :
    ∃ b',
      b.removeOrder β side t i = .ok b' ∧
      b'.Represents cfg (discard Prod.fst q (side, t) i) (i :: free) ∧
      (b.Tallies q → b'.Tallies (discard Prod.fst q (side, t) i)) ∧
      (shape b'.arena.orderStore).generation =
        Function.update (shape b.arena.orderStore).generation i
          (((shape b.arena.orderStore).generation i).map (· + 1)) := by
  obtain ⟨hb', arena', hremove, hhalf, harena, htotal, hgens⟩ :=
    (h.half side).removeOrder hβ hsat h.arena hc
  refine ⟨b.withHalf side hb' arena', ?_, ?_, fun hb => ?_, ?_⟩
  · unfold OrderBook.removeOrder
    rw [hremove]
    rfl
  · refine h.withHalf hhalf harena (size_eq_of_represents h.arena harena ?_) ?_
    · have := weigh_discard (g := fun _ => 1) (x := (i, o)) h.arena.distinct
        (h.arena.level hc) hc
      rw [← this, List.length_cons, Nat.add_assoc, Nat.add_comm 1]
    · exact fun side' t' hs => discard_of_ne fun he => hs (congrArg Prod.fst he)
  · refine hb.update (total_withHalf htotal) (fun hlt => ?_) fun k' hne => discard_of_ne hne
    have hheld := weigh_discard (g := fun c => c.2.leavesQty.toNat) h.arena.distinct
      (Finset.mem_singleton_self (side, t)) hc
    have hwas := hb (side, t) hlt
    rw [held] at hwas ⊢
    split_ifs with hnil
    · simp only [weigh, Finset.sum_singleton, hnil]
      rfl
    · rw [toNat_satSub]
      change (b.total (side, t)).toNat - o.leavesQty.toNat = _
      rw [hwas, ← hheld]
      exact Nat.add_sub_cancel _ _
  · rw [arena_withHalf, hgens]

/-- The order of a slot is rewritten and the total of its level reduced. -/
theorem Represents.rewriteOrder
    {qty : UInt64}
    (hsat : β.Holds (b.total (side, t)) qty)
    (h : b.Represents cfg q free) (hc : (i, o) ∈ q (side, t)) (f : Order → Order) :
    ∃ slot prev next arena' b',
      b.arena.orderStore[i]? = some slot ∧ slot.state = .occupied o prev next ∧
      putOrder b.arena i slot (f o) prev next = .ok arena' ∧
      OrderBook.reduceTotal β { b with arena := arena' } side t qty = .ok b' ∧
      b'.Represents cfg (revise Prod.fst q (side, t) i (fun c => (c.1, f c.2))) free ∧
      (b.Tallies q → (f o).leavesQty.toNat + qty.toNat = o.leavesQty.toNat →
        b'.Tallies (revise Prod.fst q (side, t) i (fun c => (c.1, f c.2)))) ∧
      (shape b'.arena.orderStore).generation =
        (shape b.arena.orderStore).generation := by
  have ht : t < numTicks := PriceTime.mem_levels.mp (h.arena.level hc)
  obtain ⟨slot, prev, next, arena', hslot, hstate, hput, harena, hgens⟩ :=
    h.arena.putOrder hc f
  have hhalf : (b.half side).Represents
      (fun t' => revise Prod.fst q (side, t) i (fun c => (c.1, f c.2)) (side, t')) :=
    (h.half side).congr fun t' => slotsOf_revise q (side, t) (side, t') i f
  have hne : revise Prod.fst q (side, t) i (fun c => (c.1, f c.2)) (side, t) ≠ [] := by
    rw [revise_self]
    exact fun he => List.ne_nil_of_mem hc (List.map_eq_nil_iff.mp he)
  obtain ⟨hb', hreduce, hhalf', htotal⟩ := hhalf.reduceTotal hsat ht hne
  have hsame : ({ b with arena := arena' } : OrderBook).half side = b.half side := by
    cases side <;> rfl
  refine ⟨slot, prev, next, arena', b.withHalf side hb' arena', hslot, hstate, hput, ?_, ?_,
    fun hb hqty => ?_, ?_⟩
  · unfold OrderBook.reduceTotal
    rw [hsame, hreduce]
    cases side <;> rfl
  · refine h.withHalf hhalf' harena (size_eq_of_represents h.arena harena ?_) ?_
    · have := weigh_revise (g := fun _ => 1) (x := (i, o)) (f := fun c => (c.1, f c.2))
        h.arena.distinct (h.arena.level hc) hc
      rw [Nat.add_right_cancel this]
    · exact fun side' t' hs => revise_of_ne fun he => hs (congrArg Prod.fst he)
  · refine hb.update (total_withHalf htotal) (fun hlt => ?_) fun k' hne => revise_of_ne hne
    have hheld := weigh_revise (g := fun c => c.2.leavesQty.toNat)
      (f := fun c : Nat × Order => (c.1, f c.2)) h.arena.distinct
      (Finset.mem_singleton_self (side, t)) hc
    have hwas := hb (side, t) hlt
    rw [held] at hwas ⊢
    rw [toNat_satSub]
    change (b.total (side, t)).toNat - qty.toNat = _
    dsimp only at hheld ⊢
    omega
  · rw [arena_withHalf, hgens]

theorem Represents.bestTick
    (β : Build) (h : b.Represents cfg q free) (side : Side) :
    b.bestTick β side =
      .ok (match side with
        | .buy => highest numTicks (fun t => q (.buy, t))
        | .sell => lowest numTicks (fun t => q (.sell, t))) := by
  cases side with
  | buy =>
      obtain ⟨o, ho, hiff⟩ := (h.half .buy).bitmap.bestBid β
      refine ho.trans (congrArg _ (Option.ext fun t => ?_))
      rw [hiff, highest_eq_some_iff]
  | sell =>
      obtain ⟨o, ho, hiff⟩ := (h.half .sell).bitmap.bestAsk
      refine ho.trans (congrArg _ (Option.ext fun t => ?_))
      rw [hiff, lowest_eq_some_iff]

/-- The first slot of a level is the first slot of its queue. -/
theorem Represents.getPriceLevel
    {l : List (Nat × Order)}
    (h : b.Represents cfg q free) (ht : t < numTicks)
    (hq : q (side, t) = (i, o) :: l) :
    ∃ pl, (b.half side).getPriceLevel t = .ok (some pl) ∧ pl.head = some i := by
  have hlevel := (h.half side).level t ht
  cases hl : (b.half side).priceLevels t with
  | none =>
      rw [hl] at hlevel
      exact absurd (show q (side, t) = [] from hlevel) (by simp [hq])
  | some pl =>
      rw [hl] at hlevel
      refine ⟨pl, by rw [HalfBook.getPriceLevel, cell_eq ht, hl], ?_⟩
      rw [hlevel.2.head, hq]
      rfl

/-- An id with the generation of an occupied slot is valid. -/
theorem Represents.validate
    {k : PriceTime.Level} {generation : UInt32}
    (h : b.Represents cfg q free) (hc : (i, o) ∈ q k)
    (hgen : (shape b.arena.orderStore).generation i = some generation) :
    b.arena.validate { index := UInt32.ofNat i, generation := generation } =
      .ok (some i) := by
  have hi := h.arena.slot_lt hc
  have hsize := h.arena.size
  obtain ⟨generation', prev, next, hslot⟩ := slot_of_order (h.arena.stored hc)
  obtain rfl : generation' = generation := by simpa [shape, hslot] using hgen
  have hidx : (UInt32.ofNat i).toNat = i := by
    rw [UInt32.toNat_ofNat']
    exact Nat.mod_eq_of_lt (by omega)
  unfold Arena.validate
  simp only [hidx, Nat.not_le.mpr hi, if_false, ix_eq hslot, ok_bind, ne_eq, not_true_eq_false]

theorem Represents.priceToTick
    (h : b.Represents cfg q free) (price : UInt64) :
    b.priceToTick price = .ok (PriceTime.tickOf cfg price) ∨
      (cfg.tickSize = 0 ∧ b.priceToTick price = .error .divisionByZero) := by
  unfold OrderBook.priceToTick PriceTime.tickOf
  rw [h.basePrice, h.tickSize]
  by_cases hlow : price < cfg.basePrice
  · simp only [hlow, true_or, if_true]
  · by_cases hzero : cfg.tickSize = 0
    · exact Or.inr ⟨hzero, by rw [if_neg hlow, if_pos hzero]⟩
    · left
      simp only [hlow, hzero, or_self, if_false]
      split_ifs <;> rfl

theorem Represents.priceToTick_some
    {price : UInt64}
    (h : b.Represents cfg q free) (ht : PriceTime.tickOf cfg price = some t) :
    b.priceToTick price = .ok (some t) := by
  rcases h.priceToTick price with hp | ⟨hz, -⟩
  · rw [hp, ht]
  · simp [PriceTime.tickOf, hz] at ht

end Operations

section Prices

variable {cfg : Config} {price : UInt64} {t : Nat}

/-- The price of a tick that holds an order is computed without overflow. -/
theorem tickToPrice_eq
    {b : OrderBook} {q : Cells} {free : List Nat}
    (β : Build) (h : b.Represents cfg q free)
    (htick : PriceTime.tickOf cfg price = some t) (ht : t < numTicks) :
    b.tickToPrice β t = .ok (PriceTime.priceOf cfg t) := by
  have hle := PriceTime.tick_mul_le htick
  have hlt := price.toNat_lt
  have hmul : (UInt64.ofNat t * cfg.tickSize).toNat = t * cfg.tickSize.toNat := by
    rw [UInt64.toNat_mul, PriceTime.toNat_ofNat_tick ht]
    exact Nat.mod_eq_of_lt (by omega)
  unfold OrderBook.tickToPrice
  dsimp only
  rw [h.tickSize, h.basePrice, PriceTime.toNat_ofNat_tick ht,
    probe_pass (Nat.not_le.mpr (by omega)), ok_bind, hmul,
    probe_pass (Nat.not_le.mpr (by omega))]
  rfl

end Prices

section New

variable {cfg : Config}

theorem getElem?_new
    {i : Nat} (hi : i < cfg.capacity) :
    (Arena.new cfg.capacity).orderStore[i]? =
      some (Slot.newFree (if i + 1 < cfg.capacity then some (i + 1) else none)) := by
  unfold Arena.new
  rw [List.getElem?_toArray, List.getElem?_append]
  simp only [List.length_map, List.length_range]
  by_cases hlast : i + 1 < cfg.capacity
  · rw [if_pos (by omega), if_pos hlast, List.getElem?_map, List.getElem?_range (by omega)]
    rfl
  · rw [if_neg (by omega), if_neg hlast, show i - (cfg.capacity - 1) = 0 by omega]
    rfl

/-- Consecutive slots that point to the next one form a chain. -/
theorem chain_range'
    {next : Nat → Option (Option Nat)} {s n : Nat}
    (h : ∀ i, s ≤ i → i < s + n →
      next i = some (if i + 1 < s + n then some (i + 1) else none)) :
    Links.Chain next (List.range' s n) := by
  induction n generalizing s with
  | zero => trivial
  | succ n ih =>
      rw [List.range'_succ]
      refine ⟨?_, ih fun i hi hlt => ?_⟩
      · rw [h s (Nat.le_refl s) (by omega)]
        cases n with
        | zero => simp
        | succ n =>
            rw [if_pos (by omega), List.range'_succ]
            rfl
      · rw [h i (by omega) (by omega), show s + (n + 1) = s + 1 + n by omega]

theorem size_new
    (hpos : 1 ≤ cfg.capacity) :
    (Arena.new cfg.capacity).orderStore.size = cfg.capacity := by
  unfold Arena.new
  rw [List.size_toArray, List.length_append, List.length_map, List.length_range,
    List.length_singleton]
  omega

/-- The empty book has all slots free. -/
theorem represents_new
    (hpos : 1 ≤ cfg.capacity) (hlt : cfg.capacity < 2 ^ 32) :
    (OrderBook.new cfg).Represents cfg (fun _ => []) (List.range' 0 cfg.capacity) := by
  have hsize := size_new hpos
  have hnone : ∀ i, (shape (Arena.new cfg.capacity).orderStore).orders i = none := by
    intro i
    by_cases hi : i < cfg.capacity
    · simp only [shape, getElem?_new hi]
      rfl
    · have hnone := Array.getElem?_eq_none
        (show (Arena.new cfg.capacity).orderStore.size ≤ i by omega)
      simp only [shape, hnone]
      rfl
  have hhalf : HalfBook.new.Represents (fun _ => []) := by
    refine ⟨BitMap.represents_new.congr fun t => ?_, fun t _ => rfl⟩
    simp
  refine ⟨?_, ?_, rfl, rfl, hsize⟩
  · intro side
    cases side <;> exact hhalf
  · refine
      { distinct := Distinct.empty
        level := by simp
        stored := by simp
        covered := ?_, linked := fun _ => trivial
        chain := ?_, head := ?_, free_mem := ?_
        free_nodup := List.nodup_range'
        weight := ?_, count := weigh_empty.symm, room := ?_
        size := by rw [← hsize] at hlt; exact hlt }
    · intro i o ho
      exact absurd ((hnone i).symm.trans ho) (by simp)
    · refine chain_range' fun i _ hi => ?_
      rw [Nat.zero_add] at hi ⊢
      change ((Arena.new cfg.capacity).orderStore[i]?).bind _ = _
      rw [getElem?_new hi]
      rfl
    · obtain ⟨n, hn⟩ := Nat.exists_eq_add_of_le' hpos
      rw [hn, List.range'_succ]
      rfl
    · intro i n hn
      obtain ⟨generation, hslot⟩ := slot_of_nextFree hn
      have := lt_size hslot
      have hs : i < cfg.capacity := by rw [← hsize]; exact this
      simpa using hs
    · intro g
      rw [weigh_empty]
      refine Finset.sum_eq_zero fun i _ => ?_
      change Option.elim ((shape (Arena.new cfg.capacity).orderStore).orders i) 0 g = 0
      rw [hnone]
      rfl
    · rw [List.length_range', show (OrderBook.new cfg).arena = Arena.new cfg.capacity from rfl,
        hsize]
      exact Nat.zero_add _

end New

end OrderBook

end LmaxEngine
