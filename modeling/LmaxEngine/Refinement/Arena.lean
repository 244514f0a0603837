import LmaxEngine.Refinement.Threads
import LmaxEngine.Spec.PriceTime

/-!
# The arena as a family of queues

An arena represents a family of queues, one for each side and tick, when they are
threaded through it and every occupied slot stands in one of them.  Then the count of
the orders and every total over the slots is a total over the queues.
-/

namespace LmaxEngine

open Checked Links Queues

section Additions

/-- A build that checks neither additions on counters and generations nor the
totals of the levels.  It may check additions on quantities. -/
structure Build.Uncounted (β : Build) : Prop where
  counter : β .counterOverflow = false
  total : β .totalQtySaturation = false

/-- The build does not check additions on quantities, or the sum fits. -/
def Build.Fits (β : Build) (a b : UInt64) : Prop :=
  β .qtyOverflow = true → a.toNat + b.toNat < 2 ^ 64

/-- Nothing is asked where the totals of the levels are not checked. -/
theorem Build.Uncounted.exact
    {β : Build} {P : Prop} (h : β.Uncounted) :
    β .totalQtySaturation = true → P := by
  rw [h.total]
  exact fun ht => absurd ht Bool.false_ne_true

theorem Build.Wrapping.fits
    {β : Build} (h : β.Wrapping) (a b : UInt64) :
    β.Fits a b := by
  intro hq
  rw [h.qty] at hq
  exact absurd hq Bool.false_ne_true

theorem addQty_eq
    {β : Build} {a b : UInt64}
    (h : β.Fits a b) :
    addQty β a b = .ok (a + b) := by
  rw [addQty]
  cases hβ : β .qtyOverflow with
  | false => exact probe_off hβ
  | true => exact probe_pass (Nat.not_le.mpr (h hβ))

/-- What follows an addition on quantities gets the sum. -/
theorem addQty_bind
    {α : Type} {β : Build} {a b : UInt64} {f : UInt64 → Run α} :
    (addQty β a b >>= f) = (addQty β a b >>= fun _ => f (a + b)) :=
  probe_bind

/-- A sum that does not fit aborts the build that checks it. -/
theorem addQty_error
    {β : Build} {a b : UInt64}
    (hβ : β .qtyOverflow = true) (h : 2 ^ 64 ≤ a.toNat + b.toNat) :
    addQty β a b = .error (.check .qtyOverflow) := by
  rw [addQty, probe, if_pos ⟨hβ, h⟩]

/-- The difference, or zero. -/
def satSub (a b : UInt64) : UInt64 :=
  if a < b then 0 else a - b

theorem toNat_satSub
    (a b : UInt64) :
    (satSub a b).toNat = a.toNat - b.toNat := by
  rw [satSub]
  split_ifs with h
  · rw [UInt64.lt_iff_toNat_lt] at h
    rw [UInt64.toNat_zero]
    omega
  · exact UInt64.toNat_sub_of_le _ _ (UInt64.not_lt.mp h)

/-- The build does not check for totals that saturate, or the quantity is a part of
the total. -/
def Build.Holds (β : Build) (total qty : UInt64) : Prop :=
  β .totalQtySaturation = true → qty ≤ total

theorem saturatingSubTotal_eq
    {β : Build} {total qty : UInt64}
    (h : β.Holds total qty) :
    saturatingSubTotal β total qty = .ok (satSub total qty) := by
  rw [saturatingSubTotal]
  cases hβ : β .totalQtySaturation with
  | false => exact probe_off hβ
  | true => exact probe_pass (UInt64.not_lt.mpr (h hβ))

end Additions

namespace Arena

/-- The slots and orders of every queue. -/
abbrev Cells := Family PriceTime.Level (Nat × Order)

/-- The total of a weight of orders over the slots of an arena. -/
def Shape.weight (v : Shape) (g : Order → Nat) : Nat :=
  ∑ i ∈ Finset.range v.size, (v.orders i).elim 0 g

structure Represents (a : Arena) (q : Cells) (free : List Nat) : Prop where
  distinct : Distinct Prod.fst q
  level : ∀ {k c}, c ∈ q k → k ∈ PriceTime.levels
  stored : ∀ {k i o}, (i, o) ∈ q k → (shape a.orderStore).orders i = some o
  covered : ∀ {i o}, (shape a.orderStore).orders i = some o → ∃ k, (i, o) ∈ q k
  linked : ∀ k, Segment (shape a.orderStore).links none (slotsOf (q k)) none
  chain : Chain (shape a.orderStore).nextFree free
  head : a.freeOrderHead = free.head?
  free_mem : ∀ {i n}, (shape a.orderStore).nextFree i = some n → i ∈ free
  free_nodup : free.Nodup
  weight : ∀ g : Order → Nat, (shape a.orderStore).weight g =
    weigh PriceTime.levels q (fun c => g c.2)
  count : a.orderCount = weigh PriceTime.levels q (fun _ => 1)
  room : a.orderCount + free.length = a.orderStore.size
  size : a.orderStore.size < 2 ^ 32

/-- A price level and the queue it stands for. -/
structure LevelRepresents (pl : PriceLevel) (xs : List (Nat × Order)) : Prop where
  head : pl.head = (slotsOf xs).head?
  tail : pl.tail = (slotsOf xs).getLast?
  orderCount : pl.orderCount.toNat = xs.length

section Operations

variable {a : Arena} {q : Cells} {free : List Nat} {k : PriceTime.Level}
variable {i : Nat} {o : Order} {pl : PriceLevel}

/-- The total after the order of one slot changes. -/
theorem Shape.weight_update
    {v v' : Shape} {o? : Option Order}
    (hi : i < v.size) (hsize : v'.size = v.size)
    (horders : v'.orders = Function.update v.orders i o?) (g : Order → Nat) :
    v'.weight g + (v.orders i).elim 0 g = v.weight g + o?.elim 0 g := by
  have e : (fun j => (Function.update v.orders i o? j).elim 0 g) =
      Function.update (fun j => (v.orders j).elim 0 g) i (o?.elim 0 g) := by
    funext j
    exact Function.apply_update (fun _ o' => Option.elim o' 0 g) v.orders i o? j
  have hmem := Finset.mem_range.mpr hi
  unfold Shape.weight
  rw [hsize, horders, e, Finset.sum_update_of_mem hmem,
    ← Finset.add_sum_erase _ (fun j => (v.orders j).elim 0 g) hmem,
    Finset.sdiff_singleton_eq_erase]
  omega

/-- The queues are threaded through the arena. -/
theorem Represents.threads
    (h : a.Represents q free) :
    a.Threads q free where
  distinct := h.distinct
  stored := h.stored
  linked := h.linked
  chain := h.chain
  head := h.head
  free_mem := h.free_mem
  free_nodup := h.free_nodup

theorem Represents.slot_lt
    (h : a.Represents q free) (hc : (i, o) ∈ q k) :
    i < a.orderStore.size := by
  obtain ⟨_, _, _, hslot⟩ := slot_of_order (h.stored hc)
  exact lt_size hslot

theorem Represents.slots_nodup
    (h : a.Represents q free) (k : PriceTime.Level) :
    (slotsOf (q k)).Nodup :=
  h.threads.slots_nodup k

/-- A slot stands in the queues of one level only. -/
theorem Represents.same_level
    (h : a.Represents q free) {k' : PriceTime.Level}
    (hi : i ∈ slotsOf (q k)) (hi' : i ∈ slotsOf (q k')) :
    k = k' :=
  h.threads.same_key hi hi'

/-- A queue holds fewer than `2 ^ 32` orders. -/
theorem Represents.length_le
    (h : a.Represents q free) (k : PriceTime.Level) :
    (q k).length + free.length ≤ a.orderStore.size := by
  have hle : (q k).length ≤ a.orderCount := by
    by_cases hk : q k = []
    · simp [hk]
    · obtain ⟨c, hc⟩ := List.exists_mem_of_ne_nil _ hk
      rw [h.count]
      have := Finset.single_le_sum
        (f := fun k => ((q k).map (fun _ => 1)).sum) (fun _ _ => Nat.zero_le _) (h.level hc)
      simpa [weigh] using this
  have := h.room
  omega

theorem Represents.taken
    {fr : List Nat} {a' : Arena}
    (h : a.Represents q (i :: fr)) (hk : k ∈ PriceTime.levels)
    (hthreads : a'.Threads (push q k (i, o)) fr)
    (hshape : shape a'.orderStore =
      (shape a.orderStore).taken i o (slotsOf (q k)).getLast?)
    (hcount : a'.orderCount = a.orderCount + 1) :
    a'.Represents (push q k (i, o)) fr := by
  have hi : (shape a.orderStore).orders i = none := by
    cases ho : (shape a.orderStore).orders i with
    | none => rfl
    | some o' =>
        obtain ⟨k', hc⟩ := h.covered ho
        exact absurd rfl (h.threads.free_ne hc List.mem_cons_self)
  have hlt : i < a.orderStore.size := by
    obtain ⟨_, hslot⟩ := slot_of_nextFree h.chain.1
    exact lt_size hslot
  have hsize : a'.orderStore.size = a.orderStore.size :=
    congrArg Shape.size hshape
  have horders : (shape a'.orderStore).orders =
      Function.update (shape a.orderStore).orders i (some o) :=
    congrArg Shape.orders hshape
  refine
    { hthreads with
      level := ?_, covered := ?_, weight := ?_, count := ?_, room := ?_
      size := by rw [hsize]; exact h.size }
  · intro k' c hc
    rcases mem_push.mp hc with hc | ⟨rfl, -⟩
    · exact h.level hc
    · exact hk
  · intro j o' ho
    rw [horders] at ho
    by_cases hj : j = i
    · subst hj
      rw [Function.update_self, Option.some.injEq] at ho
      exact ⟨k, mem_push.mpr (Or.inr ⟨rfl, by rw [ho]⟩)⟩
    · rw [Function.update_of_ne hj] at ho
      obtain ⟨k', hc⟩ := h.covered ho
      exact ⟨k', mem_push.mpr (Or.inl hc)⟩
  · intro g
    have hw := Shape.weight_update hlt hsize horders g
    rw [hi] at hw
    rw [weigh_push hk, ← h.weight]
    exact hw
  · rw [weigh_push hk, hcount, h.count]
  · have := h.room
    rw [List.length_cons] at this
    omega

theorem Represents.freed
    {a' : Arena} {prev next : Option Nat}
    (h : a.Represents q free) (hc : (i, o) ∈ q k)
    (hthreads : a'.Threads (discard Prod.fst q k i) (i :: free))
    (hshape : shape a'.orderStore = (shape a.orderStore).freed i prev next free.head?)
    (hcount : a'.orderCount + 1 = a.orderCount) :
    a'.Represents (discard Prod.fst q k i) (i :: free) := by
  have hk := h.level hc
  have hlt := h.slot_lt hc
  have hsize : a'.orderStore.size = a.orderStore.size :=
    congrArg Shape.size hshape
  have horders : (shape a'.orderStore).orders =
      Function.update (shape a.orderStore).orders i none :=
    congrArg Shape.orders hshape
  have hmem : ∀ {k' j o'}, (j, o') ∈ discard Prod.fst q k i k' ↔ (j, o') ∈ q k' ∧ j ≠ i :=
    h.distinct.mem_discard hc
  have hweight : ∀ g : Nat × Order → Nat,
      weigh PriceTime.levels (discard Prod.fst q k i) g + g (i, o) =
        weigh PriceTime.levels q g :=
    fun g => weigh_discard (g := g) (x := (i, o)) h.distinct hk hc
  refine
    { hthreads with
      level := fun {k' c} hc' => h.level (hmem.mp hc').1
      covered := ?_, weight := ?_, count := ?_, room := ?_
      size := by rw [hsize]; exact h.size }
  · intro j o' ho
    rw [horders] at ho
    have hj : j ≠ i := by
      rintro rfl
      simp at ho
    rw [Function.update_of_ne hj] at ho
    obtain ⟨k', hc'⟩ := h.covered ho
    exact ⟨k', hmem.mpr ⟨hc', hj⟩⟩
  · intro g
    have hw := Shape.weight_update hlt hsize horders g
    rw [h.stored hc, h.weight, Option.elim_some, Option.elim_none,
      ← hweight (fun c => g c.2)] at hw
    exact Nat.add_right_cancel hw
  · have hw := hweight (fun _ => 1)
    rw [← h.count] at hw
    omega
  · have := h.room
    rw [List.length_cons]
    omega

/-- Rewriting the order of a slot leaves the slots of every queue alone. -/
theorem slotsOf_revise
    (q : Cells) (k k' : PriceTime.Level) (i : Nat) (f : Order → Order) :
    slotsOf (revise Prod.fst q k i (fun c => (c.1, f c.2)) k') = slotsOf (q k') := by
  by_cases hk : k' = k
  · subst hk
    rw [revise_self, slotsOf, List.map_map]
    refine List.map_congr_left fun c _ => ?_
    by_cases hc : c.1 = i <;> simp [hc]
  · rw [revise_of_ne hk]

theorem Represents.revised
    {a' : Arena} {f : Order → Order}
    (h : a.Represents q free) (hc : (i, o) ∈ q k)
    (hshape : shape a'.orderStore =
      { shape a.orderStore with
        orders := Function.update (shape a.orderStore).orders i (some (f o)) })
    (hhead : a'.freeOrderHead = a.freeOrderHead)
    (hcount : a'.orderCount = a.orderCount) :
    a'.Represents (revise Prod.fst q k i (fun c => (c.1, f c.2))) free := by
  have hlt := h.slot_lt hc
  have hsize : a'.orderStore.size = a.orderStore.size :=
    congrArg Shape.size hshape
  have horders := congrArg Shape.orders hshape
  have hlinks := congrArg Shape.links hshape
  have hnext := congrArg Shape.nextFree hshape
  dsimp only at horders hlinks hnext
  have hmem : ∀ {k' j o'}, (j, o') ∈ revise Prod.fst q k i (fun c => (c.1, f c.2)) k' ↔
      ((j, o') ∈ q k' ∧ j ≠ i) ∨ (k' = k ∧ j = i ∧ o' = f o) := by
    intro k' j o'
    rw [← Prod.mk.injEq]
    exact h.distinct.mem_revise hc
  have hweight : ∀ g : Nat × Order → Nat,
      weigh PriceTime.levels (revise Prod.fst q k i (fun c => (c.1, f c.2))) g + g (i, o) =
        weigh PriceTime.levels q g + g (i, f o) :=
    fun g => weigh_revise (g := g) (x := (i, o)) (f := fun c => (c.1, f c.2))
      h.distinct (h.level hc) hc
  refine
    { distinct := h.distinct.revise (fun _ => rfl)
      level := ?_, stored := ?_, covered := ?_
      linked := fun k' => by rw [slotsOf_revise, hlinks]; exact h.linked k'
      chain := by rw [hnext]; exact h.chain
      head := by rw [hhead]; exact h.head
      free_mem := fun hn => h.free_mem (by rwa [hnext] at hn)
      free_nodup := h.free_nodup
      weight := ?_, count := ?_
      room := by rw [hcount, hsize]; exact h.room
      size := by rw [hsize]; exact h.size }
  · rintro k' ⟨j, o'⟩ hc'
    rcases hmem.mp hc' with ⟨hc', -⟩ | ⟨rfl, -, -⟩
    · exact h.level hc'
    · exact h.level hc
  · intro k' j o' hc'
    rw [horders]
    rcases hmem.mp hc' with ⟨hc', hj⟩ | ⟨-, rfl, rfl⟩
    · rw [Function.update_of_ne hj]
      exact h.stored hc'
    · rw [Function.update_self]
  · intro j o' ho
    rw [horders] at ho
    by_cases hj : j = i
    · subst hj
      rw [Function.update_self, Option.some.injEq] at ho
      exact ⟨k, hmem.mpr (Or.inr ⟨rfl, rfl, ho.symm⟩)⟩
    · rw [Function.update_of_ne hj] at ho
      obtain ⟨k', hc'⟩ := h.covered ho
      exact ⟨k', hmem.mpr (Or.inl ⟨hc', hj⟩)⟩
  · intro g
    have hw := Shape.weight_update hlt hsize horders g
    have hw' := hweight (fun c => g c.2)
    rw [h.stored hc, h.weight, Option.elim_some, Option.elim_some, ← hw'] at hw
    exact Nat.add_right_cancel hw
  · rw [hcount, h.count]
    exact (Nat.add_right_cancel (hweight (fun _ => 1))).symm

variable {β : Build}

/-- Without a free slot the order comes back. -/
theorem Represents.allocOrder_full
    (h : a.Represents q []) :
    a.allocOrder β o pl = .ok (.error o, a, pl) :=
  h.threads.allocOrder_full β

/-- A free slot is taken and linked behind the last order of the queue, if the total
of the level takes the order. -/
theorem Represents.allocOrder
    {fr : List Nat} (hβ : β .counterOverflow = false)
    (h : a.Represents q (i :: fr)) (hk : k ∈ PriceTime.levels)
    (hpl : LevelRepresents pl (q k)) :
    ∃ (generation : UInt32) (a' : Arena) (pl' : PriceLevel),
      a.allocOrder β o pl = (do
        let totalQty ← addQty β pl.totalQty o.leavesQty
        .ok (.ok { index := UInt32.ofNat i, generation := generation }, a',
          { pl' with totalQty := totalQty })) ∧
      a'.Represents (push q k (i, o)) fr ∧
      (∀ totalQty, LevelRepresents { pl' with totalQty := totalQty } (q k ++ [(i, o)])) ∧
      (shape a.orderStore).generation i = some generation ∧
      (shape a'.orderStore).generation = (shape a.orderStore).generation := by
  obtain ⟨generation, a', halloc, hthreads, hgen, hshape, hcount⟩ :=
    h.threads.allocOrder o hpl.tail
  refine ⟨generation, a',
    { head := if pl.head.isNone then some i else pl.head
      tail := some i
      orderCount := pl.orderCount + 1
      totalQty := 0 }, ?_, h.taken hk hthreads hshape hcount, fun totalQty => ?_, hgen, ?_⟩
  · rw [halloc]
    refine bind_congr fun totalQty => ?_
    rw [addCounter32, probe_off hβ, ok_bind]
  · have hlen := h.length_le k
    have hsize := h.size
    rw [List.length_cons] at hlen
    refine ⟨?_, ?_, ?_⟩
    · rw [hpl.head, slotsOf_append, List.head?_append]
      cases (slotsOf (q k)).head? <;> rfl
    · rw [slotsOf_append]
      exact List.getLast?_concat.symm
    · rw [UInt32.toNat_add, hpl.orderCount, List.length_append, List.length_singleton,
        UInt32.toNat_one, Nat.mod_eq_of_lt (by omega)]
  · rw [hshape]
    rfl

/-- The slot of an order of a queue is unlinked and becomes the first free
one, one generation older. -/
theorem Represents.freeOrder
    (hβ : β .counterOverflow = false) (hsat : β.Holds pl.totalQty o.leavesQty)
    (h : a.Represents q free) (hc : (i, o) ∈ q k)
    (hpl : LevelRepresents pl (q k)) :
    ∃ a' pl',
      a.freeOrder β i pl = .ok (a', pl') ∧
      a'.Represents (discard Prod.fst q k i) (i :: free) ∧
      LevelRepresents pl' (discard Prod.fst q k i k) ∧
      pl'.totalQty = satSub pl.totalQty o.leavesQty ∧
      (shape a'.orderStore).generation =
        Function.update (shape a.orderStore).generation i
          (((shape a.orderStore).generation i).map (· + 1)) := by
  obtain ⟨generation, a', head, tail, hfree, hthreads, -, ⟨prev, next, hshape⟩, hhead, htail⟩ :=
    h.threads.freeOrder hc hpl.head hpl.tail
  have hone : 1 ≤ a.orderCount := by
    rw [h.count]
    exact le_weigh (g := fun _ => 1) (h.level hc) hc
  have hlen : (q k).length = (discard Prod.fst q k i k).length + 1 := by
    obtain ⟨cs, ds, hq, hfilter, -⟩ := split_at_tag Prod.fst (h.distinct.nodup k) hc
    rw [discard_self, hfilter, hq, List.length_append, List.length_append, List.length_cons]
    omega
  have hsub : (1 : UInt32) ≤ pl.orderCount := by
    rw [UInt32.le_iff_toNat_le, hpl.orderCount, hlen, UInt32.toNat_one]
    omega
  refine ⟨{ a' with orderCount := a.orderCount - 1 },
    { head := head
      tail := tail
      orderCount := pl.orderCount - 1
      totalQty := satSub pl.totalQty o.leavesQty }, ?_, ?_, ?_, rfl, ?_⟩
  · rw [hfree, saturatingSubTotal_eq hsat, ok_bind, sub32, probe_pass (UInt32.not_lt.mpr hsub),
      ok_bind, addCounter32, probe_off hβ, ok_bind, subUsize_eq β hone, ok_bind]
  · refine h.freed hc { hthreads with } hshape ?_
    dsimp only
    omega
  · refine ⟨hhead, htail, ?_⟩
    rw [UInt32.toNat_sub_of_le _ _ hsub, hpl.orderCount, hlen]
    rfl
  · dsimp only
    rw [hshape, Shape.freed]

/-- The order of a slot is rewritten where it stands. -/
theorem Represents.putOrder
    (h : a.Represents q free) (hc : (i, o) ∈ q k) (f : Order → Order) :
    ∃ slot prev next a',
      a.orderStore[i]? = some slot ∧ slot.state = .occupied o prev next ∧
      putOrder a i slot (f o) prev next = .ok a' ∧
      a'.Represents (revise Prod.fst q k i (fun c => (c.1, f c.2))) free ∧
      (shape a'.orderStore).generation = (shape a.orderStore).generation := by
  obtain ⟨generation, prev, next, hslot⟩ := slot_of_order (h.stored hc)
  have hgen : (shape a.orderStore).generation i = some generation := by
    simp [shape, hslot]
  have hl : (shape a.orderStore).links i = some (prev, next) := by
    simp [shape, hslot, SlotState.links]
  have hn : (shape a.orderStore).nextFree i = none := by
    simp [shape, hslot, SlotState.nextFree?]
  have hshape : shape (a.orderStore.setIfInBounds i
        { generation := generation, state := .occupied (f o) prev next }) =
      { shape a.orderStore with
        orders := Function.update (shape a.orderStore).orders i (some (f o)) } := by
    rw [shape_set hslot]
    simp only [SlotState.order?, SlotState.links, SlotState.nextFree?, ← hl, ← hn, ← hgen,
      Function.update_eq_self]
    rfl
  exact ⟨_, prev, next,
    { a with
      orderStore :=
        (a.orderStore.setIfInBounds i
          { generation := generation, state := .occupied (f o) prev next }) },
    hslot, rfl, by simp only [LmaxEngine.putOrder, put_eq hslot, ok_bind],
    h.revised hc hshape rfl rfl, by dsimp only; rw [hshape]⟩

end Operations

end Arena
end LmaxEngine
