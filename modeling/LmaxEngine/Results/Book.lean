import LmaxEngine.Refinement.Commands

/-!
# The book in every reachable state

What the refinement says about the data structures of the engine: the bitmap,
the price levels, the linked lists and the free list fit together, the
accounts count the occupied slots, and the engine computes what the plain book
computes.

A build may check for every index, unwrap, subtraction and tick price, and for
every branch that the source keeps as a defence.  In the states that a run
reaches it finds nothing, as long as the additions on quantities and counters
wrap.  What is left that aborts is a division by a tick size of zero.
-/

namespace LmaxEngine

open Checked Queues Links Arena PriceTime

/-- The number of occupied slots with an order that has a property. -/
def Arena.occupied (a : Arena) (p : Order → Bool) : Nat :=
  ((Finset.range a.orderStore.size).filter (fun i => (a.orderAt i).any p)).card

/-- The price level and the links of its slots form one doubly linked list. -/
structure PriceLevel.Lists (pl : PriceLevel) (a : Arena) (xs : List Nat) : Prop where
  nodup : xs.Nodup
  head : pl.head = xs.head?
  tail : pl.tail = xs.getLast?
  length : pl.orderCount.toNat = xs.length
  linked : ∀ n i, xs[n]? = some i → ∃ generation order,
    a.orderStore[i]? = some (Slot.mk generation
      (.occupied order (if n = 0 then none else xs[n - 1]?) xs[n + 1]?))

/-- The links of the slots form one doubly linked list, whatever the price level
counts. -/
structure PriceLevel.Linked (pl : PriceLevel) (a : Arena) (xs : List Nat) : Prop where
  nodup : xs.Nodup
  head : pl.head = xs.head?
  tail : pl.tail = xs.getLast?
  linked : ∀ n i, xs[n]? = some i → ∃ generation order,
    a.orderStore[i]? = some (Slot.mk generation
      (.occupied order (if n = 0 then none else xs[n - 1]?) xs[n + 1]?))

/-- The free list has the free slots, each once. -/
structure Arena.FreeList (a : Arena) (free : List Nat) : Prop where
  nodup : free.Nodup
  head : a.freeOrderHead = free.head?
  mem_iff : ∀ i, i ∈ free ↔ ∃ generation nextFree,
    a.orderStore[i]? = some (Slot.mk generation (.free nextFree))
  linked : ∀ n i, free[n]? = some i → ∃ generation,
    a.orderStore[i]? = some (Slot.mk generation (.free free[n + 1]?))

/-- The representation invariant of a book with the slots of every level and
the free slots in order. -/
structure OrderBook.WellFormed
    (b : OrderBook) (slots : Level → List Nat) (free : List Nat) : Prop where
  summary : ∀ side,
    Bits.Summary (64 * 64) (b.half side).bitmap.l1 (b.half side).bitmap.l2 ∧
      Bits.Summary 64 (BitMap.topWords (b.half side).bitmap.l0) (b.half side).bitmap.l1
  bit : ∀ side t, t < numTicks →
    (Bits.bit (b.half side).bitmap.l2 t = true ↔
      ((b.half side).priceLevels t).isSome = true)
  nonempty : ∀ side t, t < numTicks →
    (((b.half side).priceLevels t).isSome = true ↔ slots (side, t) ≠ [])
  lists : ∀ side t pl, t < numTicks → (b.half side).priceLevels t = some pl →
    pl.Lists b.arena (slots (side, t))
  once : ∀ i o, b.arena.orderAt i = some o → ∃! k : Level, k.2 < numTicks ∧ i ∈ slots k
  order : ∀ side t i, t < numTicks → i ∈ slots (side, t) → ∃ o,
    b.arena.orderAt i = some o ∧ o.side = side ∧
      b.priceToTick o.price = .ok (some t) ∧ 0 < o.leavesQty
  freeList : b.arena.FreeList free
  count : b.arena.orderCount = b.arena.occupied (fun _ => true)

section Slots

variable {a : Arena} {q : Cells} {free : List Nat} {k : Level}

theorem occupied_eq_weigh
    (h : a.Represents q free) (p : Order → Bool) :
    a.occupied p = weigh levels q (fun c => if p c.2 then 1 else 0) := by
  rw [← h.weight (fun o => if p o then 1 else 0), Arena.occupied, Finset.card_filter,
    Shape.weight]
  refine Finset.sum_congr rfl fun i _ => ?_
  rw [orderAt_eq]
  cases (shape a.orderStore).orders i <;> simp

theorem Arena.Threads.freeList
    {κ : Type*} {q : Family κ (Nat × Order)}
    (h : a.Threads q free) :
    a.FreeList free where
  nodup := h.free_nodup
  head := h.head
  mem_iff i := by
    constructor
    · intro hi
      obtain ⟨n, hn⟩ := h.chain.mem_some hi
      obtain ⟨generation, hslot⟩ := slot_of_nextFree hn
      exact ⟨generation, n, hslot⟩
    · rintro ⟨generation, n, hslot⟩
      exact h.free_mem (n := n) (by simp [shape, hslot, SlotState.nextFree?])
  linked n i hi := slot_of_nextFree (h.chain.at hi)

theorem Arena.LevelRepresents.lists
    {pl : PriceLevel}
    (hpl : LevelRepresents pl (q k)) (h : a.Represents q free) :
    pl.Lists a (slotsOf (q k)) where
  nodup := h.slots_nodup k
  head := hpl.head
  tail := hpl.tail
  length := by rw [hpl.orderCount, slotsOf, List.length_map]
  linked n i hi := slot_of_links ((h.linked k).at hi)

end Slots

theorem PriceLevel.Lists.toLinked
    {pl : PriceLevel} {a : Arena} {xs : List Nat}
    (h : pl.Lists a xs) :
    pl.Linked a xs :=
  { h with }

/-- A book of four slots and ticks of one. -/
def smallConfig : Config where
  basePrice := 100
  tickSize := 1
  capacity := 4

/-- A bid of client `c` for one lot. -/
def bidOne (c price : UInt64) : Command :=
  .place c 0 (Vector.replicate 8 0) .buy .limit (some price) 1 .gtc

/-- An ask of client `c` for one lot. -/
def askOne (c price : UInt64) : Command :=
  .place c 0 (Vector.replicate 8 0) .sell .limit (some price) 1 .gtc

/-- Three bids, an ask that takes the best one and a part of the next, a smaller and a
better bid by modification, a bid that is cancelled, an ask that rests, and a
modification that is rejected. -/
def session : List Command :=
  [.place 1 0 (Vector.replicate 8 0) .buy .limit (some 100) 3 .gtc,
    bidOne 2 101,
    bidOne 3 100,
    .place 4 0 (Vector.replicate 8 0) .sell .limit (some 100) 2 .gtc,
    .modify 1 0 none (some 1),
    .modify 3 0 (some 102) (some 2),
    bidOne 5 101,
    .cancel 5 0,
    .place 6 0 (Vector.replicate 8 0) .sell .limit (some 110) 1 .gtc,
    .modify 1 0 none (some 0)]

def sessionEvents : List (List OutputEvent) :=
  [[.orderAccepted 1 1 0 (Vector.replicate 8 0) .buy 100 3],
    [.orderAccepted 2 2 0 (Vector.replicate 8 0) .buy 101 1],
    [.orderAccepted 3 3 0 (Vector.replicate 8 0) .buy 100 1],
    [.fill 4 2 4 2 (Vector.replicate 8 0) 101 1 .sell,
      .fill 4 1 4 1 (Vector.replicate 8 0) 100 1 .sell],
    [.orderModified 1 1 100 1],
    [.orderModified 3 3 102 2],
    [.orderAccepted 5 5 0 (Vector.replicate 8 0) .buy 101 1],
    [.orderCancelled 5 5 1],
    [.orderAccepted 6 6 0 (Vector.replicate 8 0) .sell 110 1],
    [.modifyRejected 1 1]]

/-- What is seen of the engine when the session is run. -/
theorem exists_session_of
    {p : Engine → Bool}
    (h : yields ((Engine.new smallConfig).run Build.release session)
      (fun r => decide (r.2 = sessionEvents) && p r.1) = true) :
    ∃ e, (Engine.new smallConfig).run Build.release session = .ok (e, sessionEvents) ∧
      p e = true := by
  obtain ⟨⟨e, evs⟩, hrun, hp⟩ := exists_of_yields h
  rw [Bool.and_eq_true, decide_eq_true_eq] at hp
  obtain ⟨rfl, hp⟩ := hp
  exact ⟨e, hrun, hp⟩

theorem exists_run_session :
    ∃ e, (Engine.new smallConfig).run Build.release session = .ok (e, sessionEvents) := by
  obtain ⟨e, hrun, -⟩ := exists_session_of (p := fun _ => true) (by decide +kernel)
  exact ⟨e, hrun⟩

/-- An ask that takes both bids that the session leaves, and rests with one lot. -/
def sweepingAsk : Command :=
  .place 7 0 (Vector.replicate 8 0) .sell .limit (some 100) 4 .gtc

def sweepingEvents : List OutputEvent :=
  [.fill 7 3 7 3 (Vector.replicate 8 0) 102 2 .sell,
    .fill 7 1 7 1 (Vector.replicate 8 0) 100 1 .sell,
    .orderAccepted 7 7 0 (Vector.replicate 8 0) .sell 100 1]

theorem exists_handle_sweepingAsk :
    ∃ e e', (Engine.new smallConfig).run Build.release session = .ok (e, sessionEvents) ∧
      e.handle Build.release sweepingAsk = .ok (e', sweepingEvents) := by
  obtain ⟨e, hrun, hstep⟩ := exists_session_of
    (p := fun e => yields (e.handle Build.release sweepingAsk)
      fun r => decide (r.2 = sweepingEvents)) (by decide +kernel)
  obtain ⟨⟨e', es⟩, he, hes⟩ := exists_of_yields hstep
  obtain rfl := of_decide_eq_true hes
  exact ⟨e, e', hrun, he⟩

section Reached

variable {cfg : Config} {e : Engine} {s : State} {loc : Nat → Nat} {free : List Nat}

theorem Engine.Refines.wellFormed
    (h : Engine.Refines cfg e s loc free) (hc : Consistent cfg s) :
    e.book.WellFormed (fun k => slotsOf (image (Engine.cellOf loc) s.queue k)) free := by
  have harena := h.book.arena
  have hlevel : ∀ side t, t < numTicks →
      LevelHolds ((e.book.half side).priceLevels t)
        (image (Engine.cellOf loc) s.queue (side, t)) :=
    fun side t ht => (h.book.half side).level t ht
  have hnil : ∀ k, slotsOf (image (Engine.cellOf loc) s.queue k) = [] ↔
      image (Engine.cellOf loc) s.queue k = [] :=
    fun k => List.map_eq_nil_iff
  have hsome : ∀ side t, t < numTicks →
      (((e.book.half side).priceLevels t).isSome = true ↔
        image (Engine.cellOf loc) s.queue (side, t) ≠ []) := by
    intro side t ht
    have := hlevel side t ht
    cases hl : (e.book.half side).priceLevels t with
    | none =>
        rw [hl] at this
        exact ⟨fun hs => absurd hs (by simp), fun hne => absurd this hne⟩
    | some pl =>
        rw [hl] at this
        exact ⟨fun _ => this.1, fun _ => rfl⟩
  refine
    { summary := fun side => ⟨(h.book.half side).bitmap.middle, (h.book.half side).bitmap.top⟩
      bit := fun side t ht => ((h.book.half side).bitmap.bits t ht).trans (hsome side t ht).symm
      nonempty := fun side t ht => (hsome side t ht).trans (not_congr (hnil (side, t)).symm)
      lists := ?_, once := ?_, order := ?_
      freeList := harena.threads.freeList
      count := ?_ }
  · intro side t pl ht hl
    have := hlevel side t ht
    rw [hl] at this
    exact this.2.lists harena
  · intro i o ho
    rw [orderAt_eq] at ho
    obtain ⟨k, hk⟩ := harena.covered ho
    refine ⟨k, ⟨mem_levels.mp (harena.level hk), List.mem_map_of_mem hk⟩, ?_⟩
    rintro k' ⟨-, hi⟩
    exact harena.same_level hi (List.mem_map_of_mem hk)
  · intro side t i ht hi
    obtain ⟨c, hmem, rfl⟩ := List.mem_map.mp hi
    obtain ⟨x, hx, rfl⟩ := List.mem_map.mp hmem
    have hok := hc.entry hx
    exact ⟨x.order, by rw [orderAt_eq]; exact harena.stored hmem, hok.side,
      h.book.priceToTick_some hok.tick, hok.leaves⟩
  · rw [occupied_eq_weigh harena, harena.count]
    rfl

variable {cs : List Command} {evs : List (List OutputEvent)}

/-- **The representation invariant of the book.**  In every state that a run
reaches the bitmap, the price levels, the linked lists, the slots and the free
list fit together. -/
theorem run_wellFormed
    (hpos : 1 ≤ cfg.capacity) (hlt : cfg.capacity < 2 ^ 32)
    (hrun : (Engine.new cfg).run Build.release cs = .ok (e, evs)) :
    ∃ slots free, e.book.WellFormed slots free := by
  obtain ⟨⟨loc, free, h⟩, -⟩ :=
    Engine.simulates_of_run Build.wrapping_release hpos hlt hrun
  exact ⟨_, free, h.wellFormed (run_consistent (consistent_new cfg) cs)⟩

/-- The book after the session. -/
theorem run_wellFormed_session :
    ∃ e, (Engine.new smallConfig).run Build.release session = .ok (e, sessionEvents) ∧
      ∃ slots free, e.book.WellFormed slots free := by
  obtain ⟨e, hrun⟩ := exists_run_session
  exact ⟨e, hrun, run_wellFormed (by decide) (by decide) hrun⟩

/-- **Refinement of the plain book.**  The engine emits, command by command,
the events of the plain price-time book, and ends with the same accounts and
the same next order id. -/
theorem run_eq_priceTime
    (htick : cfg.tickSize ≠ 0)
    (hpos : 1 ≤ cfg.capacity) (hlt : cfg.capacity < 2 ^ 32)
    (cs : List Command) :
    ∃ e, (Engine.new cfg).run Build.release cs =
        .ok (e, (PriceTime.run cfg State.new cs).2) ∧
      e.clients = (PriceTime.run cfg State.new cs).1.clients ∧
      e.nextOrderId = UInt64.ofNat (PriceTime.run cfg State.new cs).1.nextNum := by
  rcases Engine.run_agrees Build.wrapping_release (Engine.simulates_new hpos hlt)
      (consistent_new cfg) cs with ⟨e, hrun, loc, free, h⟩ | ⟨hz, -⟩
  · exact ⟨e, hrun, h.clients, h.nextOrderId⟩
  · exact absurd hz htick

/-- The plain book answers the session with the same events. -/
theorem run_eq_priceTime_session :
    ∃ e, (Engine.new smallConfig).run Build.release session = .ok (e, sessionEvents) ∧
      (PriceTime.run smallConfig State.new session).2 = sessionEvents ∧
      e.clients = (PriceTime.run smallConfig State.new session).1.clients ∧
      e.nextOrderId =
        UInt64.ofNat (PriceTime.run smallConfig State.new session).1.nextNum := by
  obtain ⟨e, hrun⟩ := exists_run_session
  obtain ⟨e', hrun', hclients, hnext⟩ :=
    run_eq_priceTime (show smallConfig.tickSize ≠ 0 by decide) (by decide) (by decide) session
  rw [hrun, Except.ok.injEq, Prod.mk.injEq] at hrun'
  obtain ⟨rfl, hevents⟩ := hrun'
  exact ⟨e, hrun, hevents.symm, hclients, hnext⟩

/-- No check of a build that finds something in a state that a run reaches,
whatever the command: the only abort is a division by a tick size of zero. -/
theorem Engine.handle_ne_check
    {β : Build} {c : Command} {k : Check}
    (hβ : β.Wrapping) (h : Engine.Simulates cfg e s) (hc : Consistent cfg s) :
    e.handle β c ≠ .error (.check k) := by
  intro he
  rcases Engine.handle_agrees hβ h hc c with ⟨e', h', -⟩ | ⟨-, h'⟩
  · rw [he] at h'
    exact absurd h' (by simp)
  · rw [he] at h'
    exact absurd h' (by simp)

/-- An order of a client is an open order of its account. -/
theorem exists_account
    {clients : Clients} {c : UInt64}
    (h : 0 < openOrders clients c) :
    ∃ ac, clients c = some ac := by
  cases hc : clients c with
  | some ac => exact ⟨ac, rfl⟩
  | none =>
      have : accountOf clients c = default := by simp [accountOf, hc]
      rw [openOrders, this] at h
      exact absurd h (by decide)

/-- **Open-order accounting.**  In every state that a run reaches the account
of a client counts the occupied slots with its orders, at most `maxOpenOrders`
of them; every client with a resting order has an account; and no further
command makes the count of an account saturate. -/
theorem run_accounts
    (hpos : 1 ≤ cfg.capacity) (hlt : cfg.capacity < 2 ^ 32)
    (hrun : (Engine.new cfg).run Build.release cs = .ok (e, evs)) :
    (∀ c, (accountOf e.clients c).openOrders.toNat =
        e.book.arena.occupied (fun o => o.clientId = c) ∧
      (accountOf e.clients c).openOrders ≤ maxOpenOrders) ∧
    (∀ i o, e.book.arena.orderAt i = some o → ∃ ac, e.clients o.clientId = some ac) ∧
    (∀ β : Build, β.Wrapping → ∀ c,
      e.handle β c ≠ .error (.check .openOrdersSaturation)) := by
  obtain ⟨hs, -⟩ := Engine.simulates_of_run Build.wrapping_release hpos hlt hrun
  have hc := run_consistent (consistent_new cfg) cs
  have hs' := hs
  obtain ⟨loc, free, h⟩ := hs'
  refine ⟨fun c => ⟨?_, ?_⟩, fun i o ho => ?_, fun β hβ c => Engine.handle_ne_check hβ hs hc⟩
  · change openOrders e.clients c = _
    rw [h.clients, hc.accounts, occupied_eq_weigh h.book.arena, weigh_image]
    refine congrArg (weigh levels _) (funext fun x => ?_)
    by_cases hx : x.order.clientId = c <;> simp [ofClient, Engine.cellOf, hx]
  · rw [UInt32.le_iff_toNat_le, h.clients]
    exact hc.limit c
  · rw [orderAt_eq] at ho
    obtain ⟨k, hk⟩ := h.book.arena.covered ho
    obtain ⟨x, hx, he⟩ := List.mem_map.mp hk
    obtain ⟨-, rfl⟩ := Prod.mk.inj he
    rw [h.clients]
    exact exists_account (hc.openOrders_pos hx)

/-- The accounts after the session. -/
theorem run_accounts_session :
    ∃ e, (Engine.new smallConfig).run Build.release session = .ok (e, sessionEvents) ∧
      (∀ c, (accountOf e.clients c).openOrders.toNat =
          e.book.arena.occupied (fun o => o.clientId = c) ∧
        (accountOf e.clients c).openOrders ≤ maxOpenOrders) ∧
      (∀ i o, e.book.arena.orderAt i = some o → ∃ ac, e.clients o.clientId = some ac) ∧
      (∀ β : Build, β.Wrapping → ∀ c,
        e.handle β c ≠ .error (.check .openOrdersSaturation)) := by
  obtain ⟨e, hrun⟩ := exists_run_session
  exact ⟨e, hrun, run_accounts (by decide) (by decide) hrun⟩

end Reached

/-- The build that checks for everything but the additions that wrap and the
totals that depend on them. -/
def Build.strict : Build
  | .qtyOverflow => false
  | .counterOverflow => false
  | .totalQtySaturation => false
  | _ => true

theorem Build.wrapping_strict :
    Build.Wrapping Build.strict :=
  ⟨rfl, rfl, rfl⟩

section Safety

variable {β : Build} {cfg : Config} {e : Engine} {s : State}

/-- A command on an engine that refines the plain book has a result, and so has a run. -/
theorem Engine.exists_handle
    (hβ : β.Wrapping) (htick : cfg.tickSize ≠ 0)
    (h : Engine.Simulates cfg e s) (hc : Consistent cfg s) (c : Command) :
    ∃ e' es, e.handle β c = .ok (e', es) := by
  rcases Engine.handle_agrees hβ h hc c with ⟨e', he, -⟩ | ⟨hz, -⟩
  · exact ⟨e', _, he⟩
  · exact absurd hz htick

theorem Engine.Simulates.exists_run
    (hβ : β.Wrapping) (htick : cfg.tickSize ≠ 0)
    (h : Engine.Simulates cfg e s) (hc : Consistent cfg s) (cs : List Command) :
    ∃ e' evs, e.run β cs = .ok (e', evs) := by
  rcases Engine.run_agrees hβ h hc cs with ⟨e', hrun, -⟩ | ⟨hz, -⟩
  · exact ⟨e', _, hrun⟩
  · exact absurd hz htick

theorem Engine.exists_run
    (hβ : β.Wrapping) (htick : cfg.tickSize ≠ 0)
    (hpos : 1 ≤ cfg.capacity) (hlt : cfg.capacity < 2 ^ 32) (cs : List Command) :
    ∃ e evs, (Engine.new cfg).run β cs = .ok (e, evs) :=
  Engine.Simulates.exists_run hβ htick (Engine.simulates_new hpos hlt) (consistent_new cfg) cs

/-- **No impossible state.**  Every run has a result, and in every state that a
run reaches every command has one: under the build that checks for all indices,
unwraps, subtractions, tick prices and defensive branches, and under every other
build whose additions on quantities and counters wrap. -/
theorem run_never_faults
    (hβ : β.Wrapping) (htick : cfg.tickSize ≠ 0)
    (hpos : 1 ≤ cfg.capacity) (hlt : cfg.capacity < 2 ^ 32) :
    (∀ cs, ∃ e evs, (Engine.new cfg).run β cs = .ok (e, evs)) ∧
      ∀ cs e evs, (Engine.new cfg).run Build.release cs = .ok (e, evs) →
        ∀ c, ∃ e' es, e.handle β c = .ok (e', es) := by
  refine ⟨Engine.exists_run hβ htick hpos hlt, fun cs e evs hrun c => ?_⟩
  obtain ⟨hs, -⟩ := Engine.simulates_of_run Build.wrapping_release hpos hlt hrun
  exact Engine.exists_handle hβ htick hs (run_consistent (consistent_new cfg) cs) c

/-- The strict build on the book of four slots. -/
theorem run_never_faults_strict :
    (∀ cs, ∃ e evs, (Engine.new smallConfig).run Build.strict cs = .ok (e, evs)) ∧
      ∀ cs e evs, (Engine.new smallConfig).run Build.release cs = .ok (e, evs) →
        ∀ c, ∃ e' es, e.handle Build.strict c = .ok (e', es) :=
  run_never_faults Build.wrapping_strict (by decide) (by decide) (by decide)

end Safety

end LmaxEngine
