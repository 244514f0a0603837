import LmaxEngine.Results.TimeInForce

/-!
# A rejected placement changes nothing

A placement is rejected before it is matched, or for want of a slot for what is
left of it.  Then it has met no order: a fill with quantity left over frees a slot.
What is undone is the level that was made for the order.

The undoing drops a level whose 32-bit counter stands at zero.  In an arena of fewer
than `2 ^ 32` slots no level with orders is one.
-/

namespace LmaxEngine

open Checked PriceTime

section Results

variable {cfg : Config} {e e' : Engine} {cs : List Command} {evs : List (List OutputEvent)}
variable {es : List OutputEvent} {clientId clientOrderId quantity c co : UInt64}
variable {symbol : Symbol} {side : Side} {orderType : OrderType} {price : Option UInt64}
variable {tif : TimeInForce} {reason : RejectReason}

/-- **A rejected placement changes nothing.**  Whatever the capacity of the arena, in
every state that a run reaches a placement that reports a rejection reports nothing
else, and leaves all but the next id and an empty account.  The one exception is an
order that found no slot, if the counter of the level at its price stands at zero:
this level goes.  With fewer than `2 ^ 32` slots the book is left in any case. -/
theorem run_rejects
    (hpos : 1 ≤ cfg.capacity)
    (hrun : (Engine.new cfg).run Build.release cs = .ok (e, evs))
    (he : e.handle Build.release
      (.place clientId clientOrderId symbol side orderType price quantity tif) = .ok (e', es))
    (hrej : .orderRejected c co reason ∈ es) :
    es = [.orderRejected c co reason] ∧ e.Rejects e' clientId side price reason ∧
      (cfg.capacity < 2 ^ 32 → e'.book = e.book) := by
  obtain ⟨rfl, hrejects⟩ := processPlace_rejected he hrej
  refine ⟨rfl, hrejects, fun hlt => ?_⟩
  obtain ⟨⟨loc, free, h⟩, -⟩ := Engine.simulates_of_run Build.wrapping_release hpos hlt hrun
  refine processPlace_quiet Build.wrapping_release h he fun ev hev => ?_
  rw [List.mem_singleton] at hev
  rw [hev]
  exact trivial

/-- Books of one slot and of many, with ticks of one. -/
def stackConfig (capacity : Nat) : Config where
  basePrice := 100
  tickSize := 1
  capacity := capacity

/-- The only slot is taken when the second bid comes. -/
theorem run_rejects_bidOne :
    ∃ e evs e' es, (Engine.new (stackConfig 1)).run Build.release [bidOne 1 100] = .ok (e, evs) ∧
      e.handle Build.release (bidOne 2 101) = .ok (e', es) ∧
      .orderRejected 2 0 .arenaFull ∈ es ∧
      es = [.orderRejected 2 0 .arenaFull] ∧ e.Rejects e' 2 .buy (some 101) .arenaFull ∧
      ((stackConfig 1).capacity < 2 ^ 32 → e'.book = e.book) := by
  obtain ⟨⟨e, evs⟩, hrun, hstep⟩ := exists_of_yields
    (x := (Engine.new (stackConfig 1)).run Build.release [bidOne 1 100])
    (p := fun r => yields (r.1.handle Build.release (bidOne 2 101))
      (fun r' => decide (OutputEvent.orderRejected 2 0 .arenaFull ∈ r'.2)))
    (by decide +kernel)
  obtain ⟨⟨e', es⟩, he, hrej⟩ := exists_of_yields hstep
  have hrej' := of_decide_eq_true hrej
  exact ⟨e, evs, e', es, hrun, he, hrej', run_rejects (by decide) hrun he hrej'⟩

end Results

section Stacks

variable {a : Arena} {hb : HalfBook} {o : Order} {n c t : Nat}

theorem Arena.setNext?_release
    {store : Array Slot} {i? : Option Nat}
    (hlt : ∀ i, i? = some i → i < store.size) (v : Option Nat) :
    ∃ store', Arena.setNext? Build.release store i? v = .ok store' ∧
      store'.size = store.size ∧ ∀ j, i? ≠ some j → store'[j]? = store[j]? := by
  cases i? with
  | none => exact ⟨store, rfl, rfl, fun _ _ => rfl⟩
  | some i =>
      obtain ⟨slot, hslot⟩ : ∃ slot, store[i]? = some slot :=
        ⟨_, Array.getElem?_eq_getElem (hlt i rfl)⟩
      rw [Arena.setNext?, Arena.setNext, ix_eq hslot, ok_bind]
      cases hstate : slot.state with
      | free m => exact ⟨store, rfl, rfl, fun _ _ => rfl⟩
      | occupied order prev next =>
          refine ⟨_, put_eq hslot, Array.size_setIfInBounds, fun j hj => ?_⟩
          exact Array.getElem?_setIfInBounds_ne fun hij => hj (congrArg some hij)

/-- In the release build an order always gets the first free slot. -/
theorem Arena.allocOrder_release
    {pl : PriceLevel} {i : Nat} {slot : Slot} {next : Option Nat}
    (hhead : a.freeOrderHead = some i) (hslot : a.orderStore[i]? = some slot)
    (hstate : slot.state = .free next)
    (htail : ∀ j, pl.tail = some j → j < i) :
    ∃ oid a' pl', a.allocOrder Build.release o pl = .ok (.ok oid, a', pl') ∧
      a'.orderStore.size = a.orderStore.size ∧ a'.freeOrderHead = next ∧
      (∀ j, i < j → a'.orderStore[j]? = a.orderStore[j]?) ∧
      pl'.tail = some i ∧ pl'.orderCount = pl.orderCount + 1 := by
  have hi : i < a.orderStore.size := by
    obtain ⟨hi, -⟩ := Array.getElem?_eq_some_iff.mp hslot
    exact hi
  set store := a.orderStore.setIfInBounds i { slot with state := .occupied o pl.tail none }
  have hsize : store.size = a.orderStore.size := Array.size_setIfInBounds
  have htail' : ∀ j, pl.tail = some j → j < store.size := by
    intro j hj
    rw [hsize]
    exact (htail j hj).trans hi
  obtain ⟨store', hset, hsize', hothers⟩ := Arena.setNext?_release htail' (some i)
  obtain ⟨stored, hstored⟩ : ∃ stored, store'[i]? = some stored :=
    ⟨_, Array.getElem?_eq_getElem (by rw [hsize', hsize]; exact hi)⟩
  have hpast : ∀ j, i < j → store'[j]? = a.orderStore[j]? := by
    intro j hj
    rw [hothers j fun hlast => absurd (htail j hlast) (Nat.not_lt.mpr hj.le)]
    exact Array.getElem?_setIfInBounds_ne hj.ne
  -- the total is of no account here
  rw [Arena.allocOrder, hhead]
  simp only [ix_eq hslot, hstate, ok_bind, put_eq hslot]
  rw [hset, ok_bind, ix_eq hstored, ok_bind]
  cases stored.state with
  | occupied order prev next' =>
      exact ⟨_, _, _, rfl, hsize'.trans hsize, rfl, hpast, rfl, rfl⟩
  | free m =>
      exact ⟨_, _, _, rfl, hsize'.trans hsize, rfl, hpast, rfl, rfl⟩

/-- The level of a tick that an order is added to. -/
theorem HalfBook.addOrder_level
    (hb : HalfBook) (t : Nat) :
    (if (hb.priceLevels t).isNone then
        .ok (Function.update hb.priceLevels t (some PriceLevel.new))
      else .ok hb.priceLevels : Run (Nat → Option PriceLevel)) =
        .ok (Function.update hb.priceLevels t
          (some ((hb.priceLevels t).getD PriceLevel.new))) := by
  cases hl : hb.priceLevels t with
  | none => rfl
  | some pl => rw [Option.getD_some, ← hl, Function.update_eq_self, hl]; rfl

/-- The book after `n` bids at the lowest price, in an arena of `c` slots. -/
structure Engine.Stacked (c n : Nat) (e : Engine) : Prop where
  size : e.book.arena.orderStore.size = c
  head : e.book.arena.freeOrderHead = if n < c then some n else none
  free : ∀ i, n ≤ i → i < c → e.book.arena.orderStore[i]? =
    some (Slot.newFree (if i + 1 < c then some (i + 1) else none))
  level : 0 < n → (e.book.bids.priceLevels 0).isSome = true
  tail : ∀ i, ((e.book.bids.priceLevels 0).getD PriceLevel.new).tail = some i → i < n
  orderCount : ((e.book.bids.priceLevels 0).getD PriceLevel.new).orderCount = UInt32.ofNat n
  asks : e.book.asks.bitmap.l0 = 0
  clients : ∀ i, n ≤ i → i < 2 ^ 64 → e.clients (UInt64.ofNat i) = none
  basePrice : e.book.basePrice = 100
  tickSize : e.book.tickSize = 1

theorem Engine.stacked_new
    (hpos : 1 ≤ c) :
    (Engine.new (stackConfig c)).Stacked c 0 where
  size := @OrderBook.size_new (stackConfig c) hpos
  head := (if_pos hpos).symm
  free := fun i _ hi => @OrderBook.getElem?_new (stackConfig c) i hi
  level := fun h => absurd h (Nat.lt_irrefl 0)
  tail := fun i hi => absurd hi (by simp [Engine.new, OrderBook.new, HalfBook.new, PriceLevel.new])
  orderCount := rfl
  asks := rfl
  clients := fun _ _ _ => rfl
  basePrice := rfl
  tickSize := rfl

/-- A bid of a new client meets no order, so it is about the level only. -/
theorem Engine.Stacked.handle_eq
    {e : Engine}
    (h : e.Stacked c n) (hn : n < 2 ^ 64) :
    ∃ o : Order, ∀ result book, e.book.addOrder Build.release .buy 0 o = .ok (result, book) →
      ∃ e' es, e.handle Build.release (bidOne (UInt64.ofNat n) 100) = .ok (e', es) ∧
        e'.book = book ∧ (∀ d, d ≠ UInt64.ofNat n → e'.clients d = e.clients d) ∧
        (∀ o', result = .error o' → .orderRejected (UInt64.ofNat n) 0 .arenaFull ∈ es) := by
  have haccount : accountOf e.clients (UInt64.ofNat n) = default := by
    rw [accountOf, h.clients n (Nat.le_refl n) hn, Option.getD_none]
  have hmax : ¬ maxOpenOrders ≤ (default : ClientAccount).openOrders := by decide
  have hbest : ∀ b : OrderBook, b.asks.bitmap.l0 = 0 →
      OrderBook.bestTick Build.release b Side.buy.opposite = .ok none := by
    intro b hb
    rw [Side.opposite, OrderBook.bestTick, HalfBook.bestAsk, BitMap.bestAsk, if_pos hb]
  have htick : e.book.priceToTick 100 = .ok (some 0) := by
    rw [OrderBook.priceToTick, h.basePrice, h.tickSize, if_neg (by decide), if_neg (by decide)]
    rw [numTicks_eq]
    rfl
  refine ⟨restingOrder e.nextOrderId (UInt64.ofNat n) 0 (Vector.replicate 8 0) .buy 100 1 1 0,
    fun result book hadd => ?_⟩
  rw [bidOne, Engine.handle, processPlace, if_neg (by decide)]
  simp only [haccount, if_neg hmax, addCounter, probe_off (show Build.release _ = false from rfl),
    ok_bind, htick, placeLimit, matchAggressor, LmaxEngine.matchLoop,
    hbest _ h.asks, if_neg (show ¬ (1 : UInt64) = 0 by decide)]
  have hfilled : sub64 Build.release 1 1 = .ok 0 := rfl
  rw [if_pos (by decide), hfilled, ok_bind, hadd, ok_bind]
  cases result with
  | ok oid =>
      refine ⟨_, _, rfl, rfl, fun d hd => ?_, fun o' ho' => absurd ho' (by simp)⟩
      exact (Function.update_of_ne hd _ _).trans (Function.update_of_ne hd _ _)
  | error o =>
      exact ⟨_, _, rfl, rfl, fun d hd => Function.update_of_ne hd _ _,
        fun o' _ => List.mem_singleton_self _⟩

/-- As long as there is a free slot the next bid takes it. -/
theorem Engine.Stacked.step
    {e : Engine}
    (h : e.Stacked c n) (hn : n < c) (hc : c ≤ 2 ^ 64) :
    ∃ e' es, e.handle Build.release (bidOne (UInt64.ofNat n) 100) = .ok (e', es) ∧
      e'.Stacked c (n + 1) := by
  obtain ⟨o, hhandle⟩ := h.handle_eq (by omega)
  have hhead := h.head
  rw [if_pos hn] at hhead
  obtain ⟨oid, a', pl', halloc, hsize, hhead', hpast, htail, hcount⟩ :=
    @Arena.allocOrder_release _ o _ _ _ _ hhead (h.free n (Nat.le_refl n) hn) rfl h.tail
  obtain ⟨bitmap, hbitmap⟩ : ∃ bitmap, e.book.bids.bitmap.setBit 0 = .ok bitmap := ⟨_, rfl⟩
  have ht : 0 < numTicks := by
    rw [numTicks_eq]
    omega
  have hadd : e.book.addOrder Build.release .buy 0 o = .ok (.ok oid, e.book.withHalf .buy
      { bitmap := bitmap, priceLevels := Function.update e.book.bids.priceLevels 0 (some pl') }
      a') := by
    rw [OrderBook.addOrder, OrderBook.half, HalfBook.addOrder]
    simp only [cell_eq ht, ok_bind, HalfBook.addOrder_level, Function.update_self,
      unwrap_some, halloc, setCell_eq ht, Function.update_idem, hbitmap]
  obtain ⟨e', es, he, hbook, hclients, -⟩ := hhandle _ _ hadd
  have hlevel : e'.book.bids.priceLevels 0 = some pl' := by
    simp [hbook, OrderBook.withHalf]
  refine ⟨e', es, he, ?_⟩
  refine
    { size := by rw [hbook]; exact hsize.trans h.size
      head := by rw [hbook]; exact hhead'
      free := fun i hi hic => ?_
      level := fun _ => by rw [hlevel]; rfl
      tail := fun i hi => ?_
      orderCount := ?_
      asks := by rw [hbook]; exact h.asks
      clients := fun i hi hlt => ?_
      basePrice := by rw [hbook]; exact h.basePrice
      tickSize := by rw [hbook]; exact h.tickSize }
  · rw [hbook]
    exact (hpast i hi).trans (h.free i (by omega) hic)
  · rw [hlevel, Option.getD_some, htail, Option.some.injEq] at hi
    omega
  · rw [hlevel, Option.getD_some, hcount, h.orderCount]
    exact (UInt32.ofNat_add n 1).symm
  · have hne : UInt64.ofNat i ≠ UInt64.ofNat n := by
      intro heq
      have := congrArg UInt64.toNat heq
      rw [UInt64.toNat_ofNat', UInt64.toNat_ofNat', Nat.mod_eq_of_lt hlt,
        Nat.mod_eq_of_lt (by omega)] at this
      omega
    rw [hclients _ hne]
    exact h.clients i (by omega) hlt

/-- One bid of each of as many clients. -/
def stack (n : Nat) : List Command :=
  (List.range n).map (fun i => bidOne (UInt64.ofNat i) 100)

theorem Engine.exists_stacked
    (hpos : 1 ≤ c) (hc : c ≤ 2 ^ 64) (hn : n ≤ c) :
    ∃ e evs, (Engine.new (stackConfig c)).run Build.release (stack n) = .ok (e, evs) ∧
      e.Stacked c n := by
  induction n with
  | zero => exact ⟨_, _, rfl, Engine.stacked_new hpos⟩
  | succ n ih =>
      obtain ⟨e, evs, hrun, h⟩ := ih (by omega)
      obtain ⟨e', es, he, h'⟩ := h.step hn hc
      have hstack : stack (n + 1) = stack n ++ [bidOne (UInt64.ofNat n) 100] := by
        rw [stack, List.range_succ, List.map_append, List.map_singleton, stack]
      refine ⟨e', evs ++ [es], ?_, h'⟩
      rw [hstack, Engine.run_snoc]
      simp only [hrun, ok_bind, he]

/-- A bid that finds the arena full drops a level whose counter has come round. -/
theorem Engine.Stacked.dropped
    {e : Engine}
    (h : e.Stacked c n) (hn : n < 2 ^ 64) (hfull : c ≤ n) (hwrap : UInt32.ofNat n = 0) :
    ∃ e' es, e.handle Build.release (bidOne (UInt64.ofNat n) 100) = .ok (e', es) ∧
      .orderRejected (UInt64.ofNat n) 0 .arenaFull ∈ es ∧
      e'.book.bids.priceLevels 0 = none := by
  obtain ⟨o, hhandle⟩ := h.handle_eq hn
  have halloc : ∀ pl, e.book.arena.allocOrder Build.release o pl =
      .ok (.error o, e.book.arena, pl) := by
    intro pl
    rw [Arena.allocOrder, h.head, if_neg (Nat.not_lt.mpr hfull)]
  have ht : 0 < numTicks := by
    rw [numTicks_eq]
    omega
  have hzero : ((e.book.bids.priceLevels 0).getD PriceLevel.new).orderCount = 0 :=
    h.orderCount.trans hwrap
  have hadd : e.book.addOrder Build.release .buy 0 o = .ok (.error o, e.book.withHalf .buy
      { e.book.bids with priceLevels := Function.update e.book.bids.priceLevels 0 none }
      e.book.arena) := by
    rw [OrderBook.addOrder, OrderBook.half, HalfBook.addOrder]
    simp only [cell_eq ht, ok_bind, HalfBook.addOrder_level, Function.update_self,
      unwrap_some, halloc, setCell_eq ht, Function.update_idem, hzero, if_true]
  obtain ⟨e', es, he, hbook, -, hrej⟩ := hhandle _ _ hadd
  refine ⟨e', es, he, hrej o rfl, ?_⟩
  simp [hbook, OrderBook.withHalf]

/-- With `2 ^ 32` slots, all of them taken by bids at one price, the level of the
bids is dropped when the next bid is rejected. -/
theorem dropped_level :
    ∃ e evs e' es, (Engine.new (stackConfig (2 ^ 32))).run Build.release (stack (2 ^ 32)) =
        .ok (e, evs) ∧
      e.handle Build.release (bidOne (UInt64.ofNat (2 ^ 32)) 100) = .ok (e', es) ∧
      .orderRejected (UInt64.ofNat (2 ^ 32)) 0 .arenaFull ∈ es ∧
      (e.book.bids.priceLevels 0).isSome = true ∧ e'.book.bids.priceLevels 0 = none := by
  obtain ⟨e, evs, hrun, h⟩ := Engine.exists_stacked (c := 2 ^ 32) (n := 2 ^ 32)
    (by omega) (by omega) (Nat.le_refl _)
  obtain ⟨e', es, he, hrej, hnone⟩ := h.dropped (by omega) (Nat.le_refl _) rfl
  exact ⟨e, evs, e', es, hrun, he, hrej, h.level (by omega), hnone⟩

end Stacks

end LmaxEngine
