import LmaxEngine.Results.Lines

/-!
# The lists of an arena

The operations of the arena on any family of levels whose lists are linked through
it: an order is put at the end of a list, and the order of a slot is taken out of
its list wherever it stands.  Nothing is asked of the arena but that the lists do
not share a slot and that the free list has the free slots.
-/

namespace LmaxEngine

open Checked Queues Links Arena

universe u

/-- A family of levels over one arena: every level is linked, no slot stands in two
lists, and the free list has exactly the free slots. -/
structure Arena.Levels
    {κ : Type u} (a : Arena) (level : κ → PriceLevel) (slots : κ → List Nat)
    (free : List Nat) : Prop where
  linked : ∀ k, (level k).Linked a (slots k)
  disjoint : ∀ {k k' i}, i ∈ slots k → i ∈ slots k' → k = k'
  freeList : a.FreeList free

/-- The slots of a list from tail to head. -/
def Arena.walkBack (a : Arena) : Nat → Option Nat → List Nat
  | 0, _ => []
  | _ + 1, none => []
  | fuel + 1, some i =>
      match a.orderStore[i]? with
      | some { state := .occupied _ prev _, .. } => i :: walkBack a fuel prev
      | _ => []

/-- Every list is found forwards from its head and backwards from its tail. -/
def Arena.Reads {κ : Type u} (a : Arena) (level : κ → PriceLevel) (slots : κ → List Nat) : Prop :=
  ∀ k, a.walk a.orderStore.size (level k).head = slots k ∧
    a.walkBack a.orderStore.size (level k).tail = (slots k).reverse

section Reading

variable {a : Arena} {xs : List Nat} {pl : PriceLevel}

/-- A walk back along linked slots finds them all. -/
theorem Arena.walkBack_eq
    (hlinked : ∀ n i, xs[n]? = some i → ∃ generation order next,
      a.orderStore[i]? = some (Slot.mk generation (.occupied order xs[n + 1]? next)))
    {fuel n : Nat} (hfuel : xs.length ≤ n + fuel) :
    a.walkBack fuel xs[n]? = xs.drop n := by
  induction fuel generalizing n with
  | zero => rw [walkBack, List.drop_eq_nil_of_le (by omega)]
  | succ fuel ih =>
      cases hn : xs[n]? with
      | none => rw [walkBack, List.drop_eq_nil_of_le (List.getElem?_eq_none_iff.mp hn)]
      | some i =>
          obtain ⟨generation, order, next, hslot⟩ := hlinked n i hn
          obtain ⟨hlt, hi⟩ := List.getElem?_eq_some_iff.mp hn
          rw [walkBack]
          simp only [hslot]
          rw [ih (by omega), List.drop_eq_getElem_cons hlt, hi]

/-- The predecessor of a slot is its successor in the reversed list. -/
theorem PriceLevel.Linked.reversed
    (h : pl.Linked a xs) {n i : Nat} (hi : xs.reverse[n]? = some i) :
    ∃ generation order next,
      a.orderStore[i]? =
        some (Slot.mk generation (.occupied order xs.reverse[n + 1]? next)) := by
  obtain ⟨hn, -⟩ := List.getElem?_eq_some_iff.mp hi
  rw [List.length_reverse] at hn
  rw [List.getElem?_reverse hn] at hi
  obtain ⟨generation, order, hslot⟩ := h.linked _ i hi
  have hprev : (if xs.length - 1 - n = 0 then none else xs[xs.length - 1 - n - 1]?) =
      xs.reverse[n + 1]? := by
    by_cases hlast : n + 1 < xs.length
    · rw [List.getElem?_reverse hlast, if_neg (by omega)]
      rfl
    · rw [if_pos (by omega), List.getElem?_eq_none (by rw [List.length_reverse]; omega)]
  rw [hprev] at hslot
  exact ⟨generation, order, _, hslot⟩

theorem Arena.Levels.reads
    {κ : Type u} {level : κ → PriceLevel} {slots : κ → List Nat} {free : List Nat}
    (h : a.Levels level slots free) :
    a.Reads level slots := by
  intro k
  have hk := h.linked k
  have hle := hk.length_le
  have hback : a.walkBack a.orderStore.size (slots k).reverse[0]? =
      (slots k).reverse.drop 0 :=
    Arena.walkBack_eq (fun n i hn => hk.reversed hn) (by rw [List.length_reverse]; omega)
  rw [← List.head?_eq_getElem?, List.head?_reverse, ← hk.tail, List.drop_zero] at hback
  exact ⟨hk.walk_eq, hback⟩

end Reading

section Families

variable {κ : Type u} {a : Arena} {level : κ → PriceLevel} {slots : κ → List Nat}
variable {free : List Nat} {k : κ} {i : Nat} {o : Order}

/-- The slots of a list with their orders. -/
def Arena.cells (a : Arena) (xs : List Nat) : List (Nat × Order) :=
  xs.filterMap fun i => (a.orderAt i).map (Prod.mk i)

theorem mem_cells
    {xs : List Nat} :
    (i, o) ∈ a.cells xs ↔ i ∈ xs ∧ a.orderAt i = some o := by
  unfold Arena.cells
  rw [List.mem_filterMap]
  constructor
  · rintro ⟨j, hj, hmap⟩
    obtain ⟨o', ho', he⟩ := Option.map_eq_some_iff.mp hmap
    obtain ⟨rfl, rfl⟩ := Prod.mk.inj he
    exact ⟨hj, ho'⟩
  · rintro ⟨hi, ho⟩
    exact ⟨i, hi, by rw [ho]; rfl⟩

theorem slotsOf_cells
    {xs : List Nat} (h : ∀ i, i ∈ xs → ∃ o, a.orderAt i = some o) :
    slotsOf (a.cells xs) = xs := by
  induction xs with
  | nil => rfl
  | cons i xs ih =>
      obtain ⟨o, ho⟩ := h i List.mem_cons_self
      have hxs := ih fun j hj => h j (List.mem_cons_of_mem i hj)
      rw [slotsOf, Arena.cells] at hxs
      rw [slotsOf, Arena.cells, List.filterMap_cons_some (b := (i, o)) (by rw [ho]; rfl),
        List.map_cons, hxs]

/-- A free slot holds no order. -/
theorem Arena.Levels.orderAt_free
    (h : a.Levels level slots free) (hi : i ∈ free) :
    a.orderAt i = none := by
  obtain ⟨generation, nextFree, hslot⟩ := (h.freeList.mem_iff i).mp hi
  rw [orderAt, hslot]

/-- The slots of a list hold orders. -/
theorem Arena.Levels.orderAt_mem
    (h : a.Levels level slots free) (hi : i ∈ slots k) :
    ∃ o, a.orderAt i = some o := by
  obtain ⟨n, hn⟩ := List.mem_iff_getElem?.mp hi
  obtain ⟨generation, order, hslot⟩ := (h.linked k).linked n i hn
  exact ⟨order, by rw [orderAt, hslot]⟩

theorem Arena.Levels.slotsOf_eq
    (h : a.Levels level slots free) (k : κ) :
    slotsOf (a.cells (slots k)) = slots k :=
  slotsOf_cells fun _ hi => h.orderAt_mem hi

/-- Linked levels are queues threaded through the arena. -/
theorem Arena.Levels.threads
    (h : a.Levels level slots free) :
    a.Threads (fun k => a.cells (slots k)) free where
  distinct :=
    { nodup := fun k => by
        have := h.slotsOf_eq k
        rw [slotsOf] at this
        rw [this]
        exact (h.linked k).nodup
      same_key := fun {k k' x y} hx hy he => by
        obtain ⟨i, o⟩ := x
        obtain ⟨j, o'⟩ := y
        obtain rfl : i = j := he
        exact h.disjoint (mem_cells.mp hx).1 (mem_cells.mp hy).1 }
  stored hc := by rw [← orderAt_eq]; exact (mem_cells.mp hc).2
  linked k := by
    rw [h.slotsOf_eq k]
    refine segment_of_at fun n i hi => ?_
    obtain ⟨generation, order, hslot⟩ := (h.linked k).linked n i hi
    simp [shape, hslot, SlotState.links]
  chain := chain_of_at fun n i hi => by
    obtain ⟨generation, hslot⟩ := h.freeList.linked n i hi
    simp [shape, hslot, SlotState.nextFree?]
  head := h.freeList.head
  free_mem {i n} hn := by
    obtain ⟨generation, hslot⟩ := slot_of_nextFree hn
    exact (h.freeList.mem_iff i).mpr ⟨generation, n, hslot⟩
  free_nodup := h.freeList.nodup

/-- Queues threaded through an arena are linked levels. -/
theorem Arena.Threads.levels
    {q : Family κ (Nat × Order)}
    (h : a.Threads q free)
    (hslots : ∀ k, slotsOf (q k) = slots k)
    (hends : ∀ k, (level k).head = (slots k).head? ∧ (level k).tail = (slots k).getLast?) :
    a.Levels level slots free where
  linked k :=
    { nodup := by rw [← hslots]; exact h.slots_nodup k
      head := (hends k).1
      tail := (hends k).2
      linked := fun n i hi => by
        rw [← hslots] at hi ⊢
        exact slot_of_links ((h.linked k).at hi) }
  disjoint {k k' i} hi hi' := by
    rw [← hslots] at hi hi'
    exact h.same_key hi hi'
  freeList := h.freeList

variable [DecidableEq κ]

/-- A slot is taken for a new last order of a list. -/
theorem Arena.Levels.allocOrder
    {fr : List Nat}
    (h : a.Levels level slots (i :: fr)) (k : κ) (o : Order) :
    ∃ generation a' pl',
      a.allocOrder Build.release o (level k) =
        .ok (.ok { index := UInt32.ofNat i, generation := generation }, a', pl') ∧
      a'.Levels (Function.update level k pl') (Function.update slots k (slots k ++ [i])) fr ∧
      (shape a.orderStore).generation i = some generation ∧
      shape a'.orderStore = (shape a.orderStore).taken i o (slots k).getLast? ∧
      pl'.orderCount = (level k).orderCount + 1 := by
  have htail : (level k).tail = (slotsOf (a.cells (slots k))).getLast? := by
    rw [h.slotsOf_eq]
    exact (h.linked k).tail
  obtain ⟨generation, a', halloc, hthreads, hgen, hshape, -⟩ := h.threads.allocOrder o htail
  rw [h.slotsOf_eq] at hshape
  refine ⟨generation, a',
    { head := if (level k).head.isNone then some i else (level k).head
      tail := some i
      orderCount := (level k).orderCount + 1
      totalQty := (level k).totalQty + o.leavesQty },
    ?_, hthreads.levels (fun k' => ?_) (fun k' => ?_), hgen, hshape, rfl⟩
  · rw [halloc Build.release, addQty, probe_off rfl, ok_bind, addCounter32, probe_off rfl,
      ok_bind]
  · by_cases hk : k' = k
    · subst hk
      rw [push_self, slotsOf_append, h.slotsOf_eq, Function.update_self]
      rfl
    · rw [push_of_ne hk, h.slotsOf_eq, Function.update_of_ne hk]
  · by_cases hk : k' = k
    · subst hk
      rw [Function.update_self, Function.update_self]
      refine ⟨?_, List.getLast?_concat.symm⟩
      dsimp only
      rw [(h.linked k').head, List.head?_append]
      cases (slots k').head? <;> rfl
    · rw [Function.update_of_ne hk, Function.update_of_ne hk]
      exact ⟨(h.linked k').head, (h.linked k').tail⟩

/-- The order of a slot is taken out of its list. -/
theorem Arena.Levels.freeOrder
    {xs ys : List Nat}
    (h : a.Levels level slots free) (hslots : slots k = xs ++ i :: ys) :
    ∃ a' pl',
      a.freeOrder Build.release i (level k) = .ok (a', pl') ∧
      a'.Levels (Function.update level k pl') (Function.update slots k (xs ++ ys)) (i :: free) ∧
      (∃ prev next, shape a'.orderStore =
        (shape a.orderStore).freed i prev next free.head?) ∧
      pl'.orderCount = (level k).orderCount - 1 := by
  have hmem : i ∈ slotsOf (a.cells (slots k)) := by
    rw [h.slotsOf_eq, hslots]
    exact List.mem_append_right xs List.mem_cons_self
  obtain ⟨⟨j, o⟩, hc, rfl⟩ := List.mem_map.mp hmem
  dsimp only at hslots hmem ⊢
  have hends := h.linked k
  obtain ⟨generation, a', head, tail, hfree, hthreads, -, hshape, hhead, htail⟩ :=
    h.threads.freeOrder hc (by rw [h.slotsOf_eq]; exact hends.head)
      (by rw [h.slotsOf_eq]; exact hends.tail)
  have hrest : slotsOf (discard Prod.fst (fun k => a.cells (slots k)) k j k) = xs ++ ys := by
    have hnd := hends.nodup
    rw [hslots] at hnd
    rw [discard_self, slotsOf, ← filter_ne_append_cons hnd, ← hslots]
    conv_rhs => rw [← h.slotsOf_eq k, slotsOf, List.filter_map]
    rfl
  refine ⟨{ a' with orderCount :=
      if a.orderCount < 1 then a.orderCount + 2 ^ 64 - 1 else a.orderCount - 1 },
    { head := head
      tail := tail
      orderCount := (level k).orderCount - 1
      totalQty := satSub (level k).totalQty o.leavesQty },
    ?_, Arena.Threads.levels { hthreads with } (fun k' => ?_) (fun k' => ?_), hshape, rfl⟩
  · rw [hfree Build.release, saturatingSubTotal, probe_off rfl, ok_bind, sub32, probe_off rfl,
      ok_bind, addCounter32, probe_off rfl, ok_bind, subUsize, probe_off rfl, ok_bind]
    rfl
  · by_cases hk : k' = k
    · subst hk
      rw [hrest, Function.update_self]
    · rw [discard_of_ne hk, h.slotsOf_eq, Function.update_of_ne hk]
  · by_cases hk : k' = k
    · subst hk
      rw [Function.update_self, Function.update_self, ← hrest]
      exact ⟨hhead, htail⟩
    · rw [Function.update_of_ne hk, Function.update_of_ne hk]
      exact ⟨(h.linked k').head, (h.linked k').tail⟩

omit [DecidableEq κ] in
/-- In a new arena all slots are free and every level is empty. -/
theorem Arena.levels_new
    {c : Nat} (hpos : 1 ≤ c) (hlt : c < 2 ^ 32) :
    (Arena.new c).Levels (fun _ : κ => PriceLevel.new) (fun _ => []) (List.range' 0 c) where
  linked _ := ⟨List.nodup_nil, rfl, rfl, fun n i hi => absurd hi (by simp)⟩
  disjoint hi := absurd hi List.not_mem_nil
  freeList :=
    (@OrderBook.represents_new { smallConfig with capacity := c } hpos
      hlt).arena.threads.freeList

/-- The orders after a slot is taken. -/
theorem orderAt_taken
    {a' : Arena} {tail : Option Nat}
    (hshape : shape a'.orderStore = (shape a.orderStore).taken i o tail) :
    a'.orderAt i = some o ∧ ∀ j, j ≠ i → a'.orderAt j = a.orderAt j := by
  have horders := congrArg Shape.orders hshape
  refine ⟨?_, fun j hj => ?_⟩
  · rw [orderAt_eq, horders]
    exact Function.update_self _ _ _
  · rw [orderAt_eq, orderAt_eq, horders]
    exact Function.update_of_ne hj _ _

/-- The orders after a slot is freed. -/
theorem orderAt_freed
    {a' : Arena} {prev next first : Option Nat}
    (hshape : shape a'.orderStore = (shape a.orderStore).freed i prev next first) :
    a'.orderAt i = none ∧ ∀ j, j ≠ i → a'.orderAt j = a.orderAt j := by
  have horders := congrArg Shape.orders hshape
  refine ⟨?_, fun j hj => ?_⟩
  · rw [orderAt_eq, horders]
    exact Function.update_self _ _ _
  · rw [orderAt_eq, orderAt_eq, horders]
    exact Function.update_of_ne hj _ _

omit [DecidableEq κ] in
/-- Freeing a free slot changes nothing. -/
theorem freeOrder_idle
    {generation : UInt32} {nextFree : Option Nat}
    (hslot : a.orderStore[i]? = some { generation := generation, state := .free nextFree })
    (pl : PriceLevel) :
    a.freeOrder Build.release i pl = .ok (a, pl) := by
  unfold freeOrder
  rw [ix_eq hslot, ok_bind]
  exact probe_off rfl

/-- **The operations on the lists of an arena.**  For levels that are linked through
an arena and count their orders: an allocation takes the first free slot, puts the
order into it and the slot behind the last one of its list; freeing a slot at any
position takes it out of its list and makes it the one that is allocated next.
Every list reads the same forwards and backwards before and after, and neither the
other lists nor the orders of other slots change.  Freeing a free slot changes
nothing. -/
theorem list_operations
    (h : a.Levels level slots free)
    (hcount : ∀ k, (level k).orderCount.toNat = (slots k).length) :
    (∀ k o i fr, free = i :: fr → ∃ oid a' pl',
        a.allocOrder Build.release o (level k) = .ok (.ok oid, a', pl') ∧
        a'.Levels (Function.update level k pl') (Function.update slots k (slots k ++ [i])) fr ∧
        a'.Reads (Function.update level k pl') (Function.update slots k (slots k ++ [i])) ∧
        pl'.orderCount.toNat = ((slots k).length + 1) % 2 ^ 32 ∧
        a'.orderAt i = some o ∧ ∀ j, j ≠ i → a'.orderAt j = a.orderAt j) ∧
    (∀ k i xs ys, slots k = xs ++ i :: ys → ∃ a' pl',
        a.freeOrder Build.release i (level k) = .ok (a', pl') ∧
        a'.Levels (Function.update level k pl') (Function.update slots k (xs ++ ys))
          (i :: free) ∧
        a'.Reads (Function.update level k pl') (Function.update slots k (xs ++ ys)) ∧
        pl'.orderCount.toNat = (xs ++ ys).length ∧
        a'.orderAt i = none ∧ (∀ j, j ≠ i → a'.orderAt j = a.orderAt j) ∧
        ∀ k' o, ∃ oid a'' pl'',
          a'.allocOrder Build.release o (Function.update level k pl' k') =
            .ok (.ok oid, a'', pl'') ∧
          a''.orderAt i = some o) ∧
    ∀ i generation nextFree pl,
      a.orderStore[i]? = some { generation := generation, state := .free nextFree } →
      a.freeOrder Build.release i pl = .ok (a, pl) := by
  refine ⟨?_, ?_, ?_⟩
  · rintro k o i fr rfl
    obtain ⟨generation, a', pl', halloc, h', -, hshape, hone⟩ := h.allocOrder k o
    obtain ⟨hself, hother⟩ := orderAt_taken hshape
    refine ⟨_, a', pl', halloc, h', h'.reads, ?_, hself, hother⟩
    rw [hone, UInt32.toNat_add, hcount]
    rfl
  · intro k i xs ys hk
    obtain ⟨a', pl', hfree, h', ⟨prev, next, hshape⟩, hone⟩ := h.freeOrder hk
    obtain ⟨hself, hother⟩ := orderAt_freed hshape
    have hlen : (slots k).length = (xs ++ ys).length + 1 := by
      rw [hk, List.length_append, List.length_append, List.length_cons]
      omega
    refine ⟨a', pl', hfree, h', h'.reads, ?_, hself, hother, fun k' o => ?_⟩
    · have hle : (1 : UInt32) ≤ (level k).orderCount := by
        rw [UInt32.le_iff_toNat_le, hcount, hlen, UInt32.toNat_one]
        omega
      rw [hone, UInt32.toNat_sub_of_le _ _ hle, hcount, hlen]
      rfl
    · obtain ⟨generation, a'', pl'', halloc, -, -, hshape', -⟩ := h'.allocOrder k' o
      exact ⟨_, a'', pl'', halloc, (orderAt_taken hshape').1⟩
  · exact fun i generation nextFree pl hslot => freeOrder_idle hslot pl

end Families

/-- An order for one lot. -/
def someOrder : Order :=
  restingOrder 1 1 1 (Vector.replicate 8 0) .buy 100 1 1 0

/-- The only order of a list is freed, and its slot is taken again. -/
theorem list_operations_someOrder :
    ∃ oid a pl a' pl',
      (Arena.new 4).allocOrder Build.release someOrder PriceLevel.new = .ok (.ok oid, a, pl) ∧
      a.walk a.orderStore.size pl.head = [0] ∧
      a.freeOrder Build.release 0 pl = .ok (a', pl') ∧
      a'.walk a'.orderStore.size pl'.head = [] ∧ a'.orderAt 0 = none := by
  have hnew : (Arena.new 4).Levels (fun _ : Unit => PriceLevel.new) (fun _ => [])
      (List.range' 0 4) :=
    Arena.levels_new (by decide) (by decide)
  obtain ⟨hallocs, -, -⟩ := list_operations hnew fun _ => rfl
  obtain ⟨oid, a, pl, halloc, h, hreads, hone, -⟩ := hallocs () someOrder 0 _ rfl
  obtain ⟨-, hfrees, -⟩ := list_operations h fun k => by
    simpa using hone
  obtain ⟨a', pl', hfree, h', hreads', -, hnone, -⟩ := hfrees () 0 [] [] (by simp)
  simp only [Function.update_self] at hfree
  have hread := (hreads ()).1
  have hread' := (hreads' ()).1
  simp only [Function.update_self] at hread hread'
  exact ⟨oid, a, pl, a', pl', halloc, hread, hfree, hread', hnone⟩

end LmaxEngine
