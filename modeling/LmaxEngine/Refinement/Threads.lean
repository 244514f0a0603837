import LmaxEngine.Lib.Links
import LmaxEngine.Lib.Queues
import LmaxEngine.Model.Arena

/-!
# Queues threaded through an arena

The *shape* of a slot array is what it shows of orders, links, free slots and
generations, each as a function of the slot.  A family of queues is threaded through
an arena when every queue is linked, forwards and backwards, no slot stands in two
of them, and the free list has exactly the free slots.  There may be other occupied
slots.

Taking a slot is a push at the end of a queue, and freeing one discards it from its
queue.  What the two operations compute is an equation in which only the additions
and subtractions on counters and totals are left, so it holds in every build.
-/

namespace LmaxEngine

open Checked Links Queues

universe u

namespace SlotState

def order? : SlotState → Option Order
  | .occupied order _ _ => some order
  | .free _ => none

def links : SlotState → Option (Option Nat × Option Nat)
  | .occupied _ prev next => some (prev, next)
  | .free _ => none

def nextFree? : SlotState → Option (Option Nat)
  | .occupied .. => none
  | .free nextFree => some nextFree

end SlotState

namespace Arena

/-- A slot array, as functions of the slot. -/
structure Shape where
  size : Nat
  orders : Nat → Option Order
  links : LinkMap
  nextFree : Nat → Option (Option Nat)
  generation : Nat → Option UInt32

def shape (store : Array Slot) : Shape where
  size := store.size
  orders i := store[i]?.bind (fun slot => slot.state.order?)
  links i := store[i]?.bind (fun slot => slot.state.links)
  nextFree i := store[i]?.bind (fun slot => slot.state.nextFree?)
  generation i := store[i]?.map Slot.generation

section Shapes

variable {store : Array Slot} {i j : Nat} {slot old : Slot}

theorem orderAt_eq
    (a : Arena) (i : Nat) :
    a.orderAt i = (shape a.orderStore).orders i := by
  unfold orderAt shape
  dsimp only
  rcases a.orderStore[i]? with _ | ⟨generation, order | nextFree⟩ <;> rfl

/-- A slot that holds an order. -/
theorem slot_of_order
    {o : Order}
    (h : (shape store).orders i = some o) :
    ∃ generation prev next,
      store[i]? = some { generation := generation, state := .occupied o prev next } := by
  unfold shape at h
  obtain ⟨⟨generation, state⟩, hslot, ho⟩ := Option.bind_eq_some_iff.mp h
  cases state with
  | occupied o' prev next =>
      obtain rfl : o' = o := Option.some.inj ho
      exact ⟨generation, prev, next, hslot⟩
  | free nextFree => exact absurd ho (by simp [SlotState.order?])

/-- A slot that is linked. -/
theorem slot_of_links
    {l : Option Nat × Option Nat}
    (h : (shape store).links i = some l) :
    ∃ generation order,
      store[i]? = some { generation := generation, state := .occupied order l.1 l.2 } := by
  unfold shape at h
  obtain ⟨⟨generation, state⟩, hslot, hl⟩ := Option.bind_eq_some_iff.mp h
  cases state with
  | occupied o prev next =>
      obtain rfl : (prev, next) = l := Option.some.inj hl
      exact ⟨generation, o, hslot⟩
  | free nextFree => exact absurd hl (by simp [SlotState.links])

/-- A slot that is free. -/
theorem slot_of_nextFree
    {n : Option Nat}
    (h : (shape store).nextFree i = some n) :
    ∃ generation,
      store[i]? = some { generation := generation, state := .free n } := by
  unfold shape at h
  obtain ⟨⟨generation, state⟩, hslot, hn⟩ := Option.bind_eq_some_iff.mp h
  cases state with
  | occupied o prev next => exact absurd hn (by simp [SlotState.nextFree?])
  | free nextFree =>
      obtain rfl : nextFree = n := Option.some.inj hn
      exact ⟨generation, hslot⟩

theorem lt_size
    (h : store[i]? = some slot) :
    i < store.size := by
  obtain ⟨hi, -⟩ := Array.getElem?_eq_some_iff.mp h
  exact hi

/-- A slot with an order is not free. -/
theorem ne_of_order_of_nextFree
    {o : Order} {n : Option Nat}
    (ho : (shape store).orders i = some o)
    (hn : (shape store).nextFree j = some n) :
    i ≠ j := by
  rintro rfl
  obtain ⟨_, _, _, h1⟩ := slot_of_order ho
  obtain ⟨_, h2⟩ := slot_of_nextFree hn
  rw [h1] at h2
  simp at h2

/-- Overwriting a slot. -/
theorem shape_set
    (h : store[i]? = some old) (slot : Slot) :
    shape (store.setIfInBounds i slot) =
      { size := store.size
        orders := Function.update (shape store).orders i slot.state.order?
        links := Function.update (shape store).links i slot.state.links
        nextFree := Function.update (shape store).nextFree i slot.state.nextFree?
        generation :=
          Function.update (shape store).generation i (some slot.generation) } := by
  have hi := lt_size h
  have hget : ∀ j, (store.setIfInBounds i slot)[j]? =
      if j = i then some slot else store[j]? := by
    intro j
    by_cases hj : j = i
    · subst hj
      simp [hi]
    · rw [Array.getElem?_setIfInBounds_ne (Ne.symm hj), if_neg hj]
  have hproj : ∀ {α : Type} (π : Slot → Option α),
      (fun j => (store.setIfInBounds i slot)[j]?.bind π) =
        Function.update (fun j => store[j]?.bind π) i (π slot) := by
    intro α π
    funext j
    rw [hget]
    by_cases hj : j = i
    · subst hj
      simp
    · simp [hj]
  unfold shape
  rw [hproj, hproj, hproj, Array.size_setIfInBounds]
  congr 1
  funext j
  rw [hget]
  by_cases hj : j = i
  · subst hj
    simp
  · simp [hj]

/-- The links of a linked slot change, and nothing else. -/
theorem shape_set_links
    {generation : UInt32} {o : Order} {prev next prev' next' : Option Nat}
    (h : store[i]? =
      some { generation := generation, state := .occupied o prev next }) :
    shape (store.setIfInBounds i
        { generation := generation, state := .occupied o prev' next' }) =
      { shape store with
        links := Function.update (shape store).links i (some (prev', next')) } := by
  rw [shape_set h]
  have ho : (shape store).orders i = some o := by simp [shape, h, SlotState.order?]
  have hn : (shape store).nextFree i = none := by simp [shape, h, SlotState.nextFree?]
  have hg : (shape store).generation i = some generation := by simp [shape, h]
  simp only [SlotState.order?, SlotState.links, SlotState.nextFree?, ← ho, ← hn, ← hg,
    Function.update_eq_self]
  rfl

theorem setNext_shape
    {l : Option Nat × Option Nat}
    (h : (shape store).links i = some l) (v : Option Nat) :
    ∃ store', (∀ β, setNext β store i v = .ok store') ∧
      shape store' =
        { shape store with links := withNext (shape store).links i v } := by
  obtain ⟨generation, o, hslot⟩ := slot_of_links h
  refine ⟨store.setIfInBounds i { generation := generation, state := .occupied o l.1 v },
    fun β => ?_, ?_⟩
  · rw [setNext, ix_eq hslot]
    exact put_eq hslot
  · rw [shape_set_links hslot, withNext, h]
    rfl

theorem setPrev_shape
    {l : Option Nat × Option Nat}
    (h : (shape store).links i = some l) (v : Option Nat) :
    ∃ store', (∀ β, setPrev β store i v = .ok store') ∧
      shape store' =
        { shape store with links := withPrev (shape store).links i v } := by
  obtain ⟨generation, o, hslot⟩ := slot_of_links h
  refine ⟨store.setIfInBounds i { generation := generation, state := .occupied o v l.2 },
    fun β => ?_, ?_⟩
  · rw [setPrev, ix_eq hslot]
    exact put_eq hslot
  · rw [shape_set_links hslot, withPrev, h]
    rfl

/-- The successor of a slot that may be absent. -/
theorem setNext?_shape
    {i? : Option Nat}
    (h : ∀ i, i? = some i → ∃ l, (shape store).links i = some l) (v : Option Nat) :
    ∃ store', (∀ β, setNext? β store i? v = .ok store') ∧
      shape store' =
        { shape store with links := withNext? (shape store).links i? v } := by
  cases i? with
  | none => exact ⟨store, fun _ => rfl, rfl⟩
  | some i =>
      obtain ⟨l, hl⟩ := h i rfl
      exact setNext_shape hl v

/-- The predecessor of a slot that may be absent. -/
theorem setPrev?_shape
    {i? : Option Nat}
    (h : ∀ i, i? = some i → ∃ l, (shape store).links i = some l) (v : Option Nat) :
    ∃ store', (∀ β, setPrev? β store i? v = .ok store') ∧
      shape store' =
        { shape store with links := withPrev? (shape store).links i? v } := by
  cases i? with
  | none => exact ⟨store, fun _ => rfl, rfl⟩
  | some i =>
      obtain ⟨l, hl⟩ := h i rfl
      exact setPrev_shape hl v

/-- The neighbours of a linked slot can be joined. -/
theorem unlink_shape
    {xs ys : List Nat}
    (hseg : Segment (shape store).links none (xs ++ i :: ys) none)
    (hnd : (xs ++ i :: ys).Nodup) :
    ∃ store' store'', (∀ β, setNext? β store xs.getLast? ys.head? = .ok store') ∧
      (∀ β, setPrev? β store' ys.head? xs.getLast? = .ok store'') ∧
      shape store'' =
        { shape store with
          links := withPrev? (withNext? (shape store).links xs.getLast? ys.head?)
            ys.head? xs.getLast? } := by
  have hprev : ∀ j, xs.getLast? = some j →
      ∃ l, (shape store).links j = some l := by
    intro j hj
    exact hseg.linked (by simp [List.mem_of_getLast? hj])
  obtain ⟨store', hset', hshape'⟩ := setNext?_shape hprev ys.head?
  have hnext : ∀ j, ys.head? = some j → ∃ l, (shape store').links j = some l := by
    intro j hj
    have hmem : j ∈ i :: ys := List.mem_cons_of_mem i (List.mem_of_head? hj)
    obtain ⟨l, hl⟩ := hseg.linked (List.mem_append_right xs hmem)
    refine ⟨l, ?_⟩
    -- the slot behind is not the one ahead, whose links have changed
    rw [hshape']
    refine (withNext?_of_ne fun hlast => ?_).trans hl
    exact (List.nodup_append.mp hnd).2.2 j (List.mem_of_getLast? hlast) j hmem rfl
  obtain ⟨store'', hset'', hshape''⟩ := setPrev?_shape hnext xs.getLast?
  exact ⟨store', store'', hset', hset'', by rw [hshape'', hshape']⟩

end Shapes

/-- The slots of a queue in order. -/
def slotsOf (xs : List (Nat × Order)) : List Nat :=
  xs.map Prod.fst

/-- A family of queues that is threaded through the slots of an arena, and its free
slots. -/
structure Threads
    {κ : Type u} (a : Arena) (q : Family κ (Nat × Order)) (free : List Nat) : Prop where
  distinct : Distinct Prod.fst q
  stored : ∀ {k i o}, (i, o) ∈ q k → (shape a.orderStore).orders i = some o
  linked : ∀ k, Segment (shape a.orderStore).links none (slotsOf (q k)) none
  chain : Chain (shape a.orderStore).nextFree free
  head : a.freeOrderHead = free.head?
  free_mem : ∀ {i n}, (shape a.orderStore).nextFree i = some n → i ∈ free
  free_nodup : free.Nodup

section Operations

variable {κ : Type u} {a : Arena} {q : Family κ (Nat × Order)} {free : List Nat} {k : κ}
variable {i : Nat} {o : Order} {pl : PriceLevel}

@[simp] theorem slotsOf_append
    (xs ys : List (Nat × Order)) :
    slotsOf (xs ++ ys) = slotsOf xs ++ slotsOf ys :=
  List.map_append

theorem Threads.slots_nodup
    (h : a.Threads q free) (k : κ) :
    (slotsOf (q k)).Nodup :=
  h.distinct.nodup k

/-- A slot stands in one queue only. -/
theorem Threads.same_key
    {k' : κ}
    (h : a.Threads q free) (hi : i ∈ slotsOf (q k)) (hi' : i ∈ slotsOf (q k')) :
    k = k' := by
  obtain ⟨c, hc, rfl⟩ := List.mem_map.mp hi
  obtain ⟨c', hc', he⟩ := List.mem_map.mp hi'
  exact h.distinct.same_key hc hc' he.symm

/-- A free slot is none of the slots of the queues. -/
theorem Threads.free_ne
    (h : a.Threads q free) (hc : (i, o) ∈ q k) {j : Nat} (hj : j ∈ free) :
    i ≠ j := by
  obtain ⟨n, hn⟩ := h.chain.mem_some hj
  exact ne_of_order_of_nextFree (h.stored hc) hn

/-- The shape after slot `i` is taken for an order behind `tail`. -/
def Shape.taken (v : Shape) (i : Nat) (o : Order) (tail : Option Nat) : Shape where
  size := v.size
  orders := Function.update v.orders i (some o)
  links := withNext? (Function.update v.links i (some (tail, none))) tail (some i)
  nextFree := Function.update v.nextFree i none
  generation := v.generation

/-- The shape after slot `i` is freed from between `prev` and `next`. -/
def Shape.freed (v : Shape) (i : Nat) (prev next first : Option Nat) : Shape where
  size := v.size
  orders := Function.update v.orders i none
  links := Function.update
    (withPrev? (withNext? v.links prev next) next prev) i none
  nextFree := Function.update v.nextFree i (some first)
  generation := Function.update v.generation i ((v.generation i).map (· + 1))

variable [DecidableEq κ]

theorem Threads.taken
    {fr : List Nat} {a' : Arena}
    (h : a.Threads q (i :: fr))
    (hshape : shape a'.orderStore =
      (shape a.orderStore).taken i o (slotsOf (q k)).getLast?)
    (hhead : a'.freeOrderHead = fr.head?) :
    a'.Threads (push q k (i, o)) fr := by
  have hfree : ∀ {k' j o'}, (j, o') ∈ q k' → j ≠ i :=
    fun hc => h.free_ne hc List.mem_cons_self
  have hinotin : ∀ k', i ∉ slotsOf (q k') := by
    intro k' hmem
    obtain ⟨⟨j, o'⟩, hc, rfl⟩ := List.mem_map.mp hmem
    exact hfree hc rfl
  have horders := congrArg Shape.orders hshape
  have hlinks := congrArg Shape.links hshape
  have hnext := congrArg Shape.nextFree hshape
  simp only [Shape.taken] at horders hlinks hnext
  have hnd := List.nodup_cons.mp h.free_nodup
  refine
    { distinct := h.distinct.push (fun k' c hc => hfree hc)
      stored := ?_, linked := ?_
      chain := ?_, head := hhead, free_mem := ?_, free_nodup := hnd.2 }
  · intro k' j o' hc
    rw [horders]
    rcases mem_push.mp hc with hc | ⟨-, he⟩
    · rw [Function.update_of_ne (hfree hc)]
      exact h.stored hc
    · obtain ⟨rfl, rfl⟩ := Prod.mk.inj he
      rw [Function.update_self]
  · intro k'
    rw [hlinks]
    by_cases hk' : k' = k
    · subst hk'
      rw [push_self, slotsOf_append]
      exact segment_snoc (h.linked k') (h.slots_nodup k') (hinotin k')
    · rw [push_of_ne hk']
      refine (h.linked k').congr fun j hj => ?_
      rw [withNext?_of_ne, Function.update_of_ne]
      · rintro rfl
        exact hinotin k' hj
      · intro hlast
        exact hk' (h.same_key hj (List.mem_of_getLast? hlast))
  · rw [hnext]
    refine h.chain.2.congr fun j hj => Function.update_of_ne ?_ _ _
    rintro rfl
    exact hnd.1 hj
  · intro j n hn
    rw [hnext] at hn
    have hj : j ≠ i := by
      rintro rfl
      simp at hn
    rw [Function.update_of_ne hj] at hn
    exact (List.mem_cons.mp (h.free_mem hn)).resolve_left hj

theorem Threads.freed
    {a' : Arena} {xs ys : List Nat}
    (h : a.Threads q free) (hc : (i, o) ∈ q k)
    (hslots : slotsOf (q k) = xs ++ i :: ys)
    (hshape : shape a'.orderStore =
      (shape a.orderStore).freed i xs.getLast? ys.head? free.head?)
    (hhead : a'.freeOrderHead = some i) :
    a'.Threads (discard Prod.fst q k i) (i :: free) := by
  have horders := congrArg Shape.orders hshape
  have hlinks := congrArg Shape.links hshape
  have hnext := congrArg Shape.nextFree hshape
  simp only [Shape.freed] at horders hlinks hnext
  have hnd := h.slots_nodup k
  rw [hslots] at hnd
  have hmem : ∀ {k' j o'}, (j, o') ∈ discard Prod.fst q k i k' ↔ (j, o') ∈ q k' ∧ j ≠ i :=
    h.distinct.mem_discard hc
  refine
    { distinct := h.distinct.discard
      stored := ?_, linked := ?_
      chain := ?_, head := by rw [hhead]; rfl, free_mem := ?_, free_nodup := ?_ }
  · intro k' j o' hc'
    obtain ⟨hc', hj⟩ := hmem.mp hc'
    rw [horders, Function.update_of_ne hj]
    exact h.stored hc'
  · intro k'
    rw [hlinks]
    by_cases hk' : k' = k
    · subst hk'
      have hmap : slotsOf (discard Prod.fst q k' i k') = xs ++ ys := by
        rw [discard_self, slotsOf, ← filter_ne_append_cons hnd, ← hslots, slotsOf,
          List.filter_map]
        rfl
      rw [hmap]
      have hseg := h.linked k'
      rw [hslots] at hseg
      refine (segment_unlink hseg hnd).congr fun j hj => Function.update_of_ne ?_ _ _
      rintro rfl
      rw [← filter_ne_append_cons hnd] at hj
      simp at hj
    · rw [discard_of_ne hk']
      have hout : ∀ j, j ∈ slotsOf (q k') → j ∉ xs ++ i :: ys := by
        intro j hj hj'
        rw [← hslots] at hj'
        exact hk' (h.same_key hj hj')
      refine (h.linked k').congr fun j hj => ?_
      rw [Function.update_of_ne, withPrev?_of_ne, withNext?_of_ne]
      · intro hlast
        exact hout j hj (by simp [List.mem_of_getLast? hlast])
      · intro hfirst
        exact hout j hj (by simp [List.mem_of_head? hfirst])
      · rintro rfl
        exact hout j hj (by simp)
  · rw [hnext]
    refine ⟨Function.update_self _ _ _, h.chain.congr fun j hj => Function.update_of_ne ?_ _ _⟩
    exact (h.free_ne hc hj).symm
  · intro j n hn
    by_cases hj : j = i
    · simp [hj]
    · rw [hnext, Function.update_of_ne hj] at hn
      exact List.mem_cons_of_mem i (h.free_mem hn)
  · exact List.nodup_cons.mpr ⟨fun hmem => h.free_ne hc hmem rfl, h.free_nodup⟩

omit [DecidableEq κ] in
/-- Without a free slot the order comes back. -/
theorem Threads.allocOrder_full
    (h : a.Threads q []) (β : Build) :
    a.allocOrder β o pl = .ok (.error o, a, pl) := by
  rw [allocOrder, h.head]
  rfl

/-- **A free slot is taken** and linked behind the last order of the queue. -/
theorem Threads.allocOrder
    {fr : List Nat}
    (h : a.Threads q (i :: fr)) (o : Order)
    (htail : pl.tail = (slotsOf (q k)).getLast?) :
    ∃ generation a',
      (∀ β, a.allocOrder β o pl = (do
        let totalQty ← addQty β pl.totalQty o.leavesQty
        let orderCount ← addCounter32 β pl.orderCount 1
        .ok (.ok { index := UInt32.ofNat i, generation := generation }, a',
          { head := if pl.head.isNone then some i else pl.head
            tail := some i
            orderCount := orderCount
            totalQty := totalQty }))) ∧
      a'.Threads (push q k (i, o)) fr ∧
      (shape a.orderStore).generation i = some generation ∧
      shape a'.orderStore = (shape a.orderStore).taken i o (slotsOf (q k)).getLast? ∧
      a'.orderCount = a.orderCount + 1 := by
  obtain ⟨generation, hslot⟩ := slot_of_nextFree h.chain.1
  have hfree : ∀ {k' j o'}, (j, o') ∈ q k' → j ≠ i :=
    fun hc => h.free_ne hc List.mem_cons_self
  have hgen : (shape a.orderStore).generation i = some generation := by
    simp [shape, hslot]
  set store := a.orderStore.setIfInBounds i
    { generation := generation, state := .occupied o pl.tail none } with hstore
  have hshape := shape_set hslot { generation := generation, state := .occupied o pl.tail none }
  rw [← hstore] at hshape
  have hlinked : ∀ j, pl.tail = some j → ∃ l, (shape store).links j = some l := by
    intro j hj
    rw [htail] at hj
    have hmem := List.mem_of_getLast? hj
    obtain ⟨l, hl⟩ := (h.linked k).linked hmem
    obtain ⟨⟨j', o'⟩, hc, rfl⟩ := List.mem_map.mp hmem
    refine ⟨l, ?_⟩
    rw [hshape]
    exact (Function.update_of_ne (hfree hc) _ _).trans hl
  obtain ⟨store', hset, hshape'⟩ := setNext?_shape hlinked (some i)
  have hshape'' : shape store' = (shape a.orderStore).taken i o (slotsOf (q k)).getLast? := by
    rw [hshape', hshape, Shape.taken, ← hgen, Function.update_eq_self, ← htail]
    rfl
  -- the new order is found in its slot
  have hstored : ∃ p n, store'[i]? =
      some { generation := generation, state := .occupied o p n } := by
    have ho : (shape store').orders i = some o := by
      rw [hshape'']
      exact Function.update_self _ _ _
    obtain ⟨g, p, n, hs⟩ := slot_of_order ho
    have hg : (shape store').generation i = some generation := by
      rw [hshape'']
      exact hgen
    obtain rfl : g = generation := by simpa [shape, hs] using hg
    exact ⟨p, n, hs⟩
  obtain ⟨p, n, hstored⟩ := hstored
  refine ⟨generation,
    { orderStore := store'
      freeOrderHead := fr.head?
      orderCount := a.orderCount + 1 }, fun β => ?_, h.taken hshape'' rfl, hgen, hshape'', rfl⟩
  rw [Arena.allocOrder, h.head]
  simp only [List.head?_cons, ix_eq hslot, ok_bind, put_eq hslot, ← hstore, hset, ix_eq hstored]

/-- **The slot of an order is unlinked** and becomes the first free one, one
generation older. -/
theorem Threads.freeOrder
    (h : a.Threads q free) (hc : (i, o) ∈ q k)
    (hhead : pl.head = (slotsOf (q k)).head?) (htail : pl.tail = (slotsOf (q k)).getLast?) :
    ∃ (generation : UInt32) (a' : Arena) (head tail : Option Nat),
      (∀ β, a.freeOrder β i pl = (do
        let totalQty ← saturatingSubTotal β pl.totalQty o.leavesQty
        let orderCount ← sub32 β pl.orderCount 1
        let _generation ← addCounter32 β generation 1
        let count ← subUsize β a.orderCount 1
        .ok ({ a' with orderCount := count },
          { head := head, tail := tail, orderCount := orderCount, totalQty := totalQty }))) ∧
      a'.Threads (discard Prod.fst q k i) (i :: free) ∧
      (shape a.orderStore).generation i = some generation ∧
      (∃ prev next, shape a'.orderStore =
        (shape a.orderStore).freed i prev next free.head?) ∧
      head = (slotsOf (discard Prod.fst q k i k)).head? ∧
      tail = (slotsOf (discard Prod.fst q k i k)).getLast? := by
  obtain ⟨cs, ds, hq, hfilter, -⟩ := split_at_tag Prod.fst (h.distinct.nodup k) hc
  set xs := slotsOf cs with hxs
  set ys := slotsOf ds with hys
  have hslots : slotsOf (q k) = xs ++ i :: ys := by
    rw [hq, slotsOf_append]
    rfl
  have hnd := h.slots_nodup k
  have hseg := h.linked k
  rw [hslots] at hnd hseg
  have hlinks := segment_cons_at hseg
  rw [Option.or_none, Option.or_none] at hlinks
  obtain ⟨generation, o', hslot⟩ := slot_of_links hlinks
  obtain rfl : o' = o := by
    have := h.stored hc
    simpa [shape, hslot, SlotState.order?] using this
  have hgen : (shape a.orderStore).generation i = some generation := by
    simp [shape, hslot]
  obtain ⟨store1, store2, hset1, hset2, hshape2⟩ := unlink_shape hseg hnd
  have hslot2 : ∃ slot, store2[i]? = some slot ∧ slot.generation = generation := by
    have hg : (shape store2).generation i = some generation := by
      rw [hshape2]
      exact hgen
    obtain ⟨slot, hs, he⟩ := Option.map_eq_some_iff.mp hg
    exact ⟨slot, hs, he⟩
  obtain ⟨slot2, hslot2, hgen2⟩ := hslot2
  set store3 := store2.setIfInBounds i
    { generation := generation + 1, state := .free free.head? } with hstore3
  have hshape3 : shape store3 =
      (shape a.orderStore).freed i xs.getLast? ys.head? free.head? := by
    rw [hstore3, shape_set hslot2, Shape.freed, hgen]
    have hs : store2.size = (shape a.orderStore).size := congrArg Shape.size hshape2
    rw [hs, hshape2]
    rfl
  have hmap : slotsOf (discard Prod.fst q k i k) = xs ++ ys := by
    rw [discard_self, hfilter, slotsOf_append]
  refine ⟨generation,
    { orderStore := store3
      freeOrderHead := some i
      orderCount := a.orderCount },
    if pl.head = some i then ys.head? else pl.head,
    if pl.tail = some i then xs.getLast? else pl.tail,
    fun β => ?_, h.freed hc hslots hshape3 rfl, hgen, ⟨_, _, hshape3⟩, ?_, ?_⟩
  · rw [Arena.freeOrder, h.head]
    simp only [ix_eq hslot, ok_bind, hset1, hset2, ix_eq hslot2, hgen2]
    refine bind_congr fun totalQty => bind_congr fun orderCount => ?_
    rw [addCounter32, probe_bind]
    exact bind_congr fun _ => by rw [put_eq hslot2, ok_bind]
  · rw [hmap, hhead, hslots]
    exact head?_unlink hnd
  · rw [hmap, htail, hslots]
    exact getLast?_unlink hnd

end Operations

end Arena
end LmaxEngine
