import LmaxEngine.Refinement.Book
import LmaxEngine.Spec.Overflows
import LmaxEngine.Spec.Commands

/-!
# The engine refines the plain price-time book

An engine refines a state of the plain book when every entry has a slot, the
slots of the entries of a queue are the queue that the book represents, and the
index holds for every key the current id of the slot of the entry that it
names.  Then a command gives the same events on both and the results are
related again.  So the two agree on every run.
-/

namespace LmaxEngine
namespace Engine

open Checked Queues Arena PriceTime Transition

/-- The slot and the order of an entry. -/
def cellOf (loc : Nat → Nat) (x : Entry) : Nat × Order :=
  (loc x.num, x.order)

/-- What the index of the engine holds for a locator of the plain book, given
the slots of the entries and the generations of the slots. -/
def locatorOf (loc : Nat → Nat) (generation : Nat → Option UInt32) (l : Locator) :
    Option OrderLocator :=
  (generation (loc l.num)).map fun g =>
    { oid := { index := UInt32.ofNat (loc l.num), generation := g }
      tick := l.tick
      side := l.side
      internalId := UInt64.ofNat l.num }

structure Refines
    (cfg : Config) (e : Engine) (s : State)
    (loc : Nat → Nat) (free : List Nat) : Prop where
  book : e.book.Represents cfg (image (cellOf loc) s.queue) free
  clients : e.clients = s.clients
  index : ∀ key, e.orderIndex key =
    (s.index key).bind (locatorOf loc (shape e.book.arena.orderStore).generation)
  nextOrderId : e.nextOrderId = UInt64.ofNat s.nextNum

/-- The total of every level is what its queue holds. -/
def Tallies (e : Engine) (s : State) : Prop :=
  ∀ k : Level, k.2 < numTicks → (e.book.total k).toNat = s.held k

section Operations

variable {β : Build} {cfg : Config} {e : Engine} {s : State}
variable {loc : Nat → Nat} {free : List Nat} {k : Level} {x y : Entry}

theorem tallies_iff
    (e : Engine) (s : State) (loc : Nat → Nat) :
    e.Tallies s ↔ e.book.Tallies (image (cellOf loc) s.queue) := by
  refine forall_congr' fun k => imp_congr_right fun _ => ?_
  rw [OrderBook.held, weigh_image]
  exact Iff.rfl

theorem mem_image
    (loc : Nat → Nat) (hx : x ∈ s.queue k) :
    (loc x.num, x.order) ∈ image (cellOf loc) s.queue k :=
  List.mem_map_of_mem hx

/-- Entries in one slot are the same entry. -/
theorem Refines.loc_inj
    {k' : Level}
    (h : Refines cfg e s loc free)
    (hx : x ∈ s.queue k) (hy : y ∈ s.queue k') (heq : loc x.num = loc y.num) :
    x = y := by
  obtain rfl : k = k' :=
    h.book.arena.distinct.same_key (mem_image loc hx) (mem_image loc hy) heq
  have hnd := h.book.arena.distinct.nodup k
  rw [image, List.map_map] at hnd
  exact List.inj_on_of_nodup_map hnd hx hy heq

theorem Refines.resting_eq
    (h : Refines cfg e s loc free) :
    e.book.arena.orderCount = s.resting := by
  rw [h.book.arena.count, State.resting, weigh_image]

/-- There is no free slot exactly when the book is full. -/
theorem Refines.free_eq_nil_iff
    (h : Refines cfg e s loc free) :
    free = [] ↔ s.resting = cfg.capacity := by
  have := h.book.arena.room
  rw [h.resting_eq, h.book.capacity] at this
  rw [← List.length_eq_zero_iff]
  omega

theorem Refines.withClients
    (h : Refines cfg e s loc free) (clients : Clients) :
    Refines cfg { e with clients := clients } { s with clients := clients } loc free :=
  { h with clients := rfl }

theorem Refines.bestTick
    (h : Refines cfg e s loc free) (β : Build) (side : Side) :
    e.book.bestTick β side = .ok (s.bestTick side) := by
  rw [h.book.bestTick β side]
  have hempty : ∀ k, (image (cellOf loc) s.queue k).isEmpty = (s.queue k).isEmpty := by
    intro k
    unfold image
    rw [List.isEmpty_map]
  cases side with
  | buy => simp only [State.bestTick, highest, hempty]
  | sell => simp only [State.bestTick, lowest, hempty]

/-- The slot of an entry. -/
theorem Refines.slot
    (h : Refines cfg e s loc free) (hx : x ∈ s.queue k) :
    ∃ generation prev next,
      e.book.arena.orderStore[loc x.num]? =
        some { generation := generation, state := .occupied x.order prev next } ∧
      (shape e.book.arena.orderStore).generation (loc x.num) = some generation := by
  obtain ⟨generation, prev, next, hslot⟩ :=
    slot_of_order (h.book.arena.stored (mem_image loc hx))
  exact ⟨generation, prev, next, hslot, by simp [shape, hslot]⟩

/-- The generations of the slots that the index names are what matters. -/
theorem locatorOf_congr
    {loc loc' : Nat → Nat} {gen gen' : Nat → Option UInt32} {l : Locator}
    (hloc : loc' l.num = loc l.num) (hgen : gen' (loc l.num) = gen (loc l.num)) :
    locatorOf loc' gen' l = locatorOf loc gen l := by
  unfold locatorOf
  rw [hloc, hgen]

/-- Where the totals are right, one holds what any of its entries does. -/
theorem Refines.holds
    {qty : UInt64}
    (hexact : β .totalQtySaturation = true → e.Tallies s)
    (h : Refines cfg e s loc free) (hx : x ∈ s.queue k) (hle : qty ≤ x.order.leavesQty) :
    β.Holds (e.book.total k) qty := by
  intro hsat
  have ht : k.2 < numTicks := PriceTime.mem_levels.mp (h.book.arena.level (mem_image loc hx))
  have hpart : x.leaves ≤ s.held k := le_weigh (Finset.mem_singleton_self k) hx
  rw [UInt64.le_iff_toNat_le] at hle ⊢
  rw [hexact hsat k ht]
  exact hle.trans hpart

/-- Removing an entry from the book and its key from the index. -/
theorem Refines.removed
    (hβ : β .counterOverflow = false)
    (hexact : β .totalQtySaturation = true → e.Tallies s)
    (h : Refines cfg e s loc free) (hc : Consistent cfg s) (hx : x ∈ s.queue k) :
    ∃ book, e.book.removeOrder β k.1 k.2 (loc x.num) = .ok book ∧
      Refines cfg
        { e with book := book, orderIndex := Function.update e.orderIndex x.order.key none }
        { s with queue := discard Entry.num s.queue k x.num,
                 index := Function.update s.index x.order.key none }
        loc (loc x.num :: free) ∧
      (e.Tallies s → Tallies { e with book := book }
        { s with queue := discard Entry.num s.queue k x.num }) := by
  obtain ⟨book, hremove, hbook, htallies, hgens⟩ := h.book.removeOrder hβ
    (h.holds hexact hx (UInt64.le_refl _)) (mem_image loc hx)
  have himage : image (cellOf loc) (discard Entry.num s.queue k x.num) =
      discard Prod.fst (image (cellOf loc) s.queue) k (loc x.num) :=
    image_discard fun y hy =>
      ⟨fun hnum => by rw [cellOf, hnum], fun hloc => by rw [h.loc_inj hy hx hloc]⟩
  refine ⟨book, hremove, ⟨?_, h.clients, fun key => ?_, h.nextOrderId⟩,
    fun ht => ?_⟩
  · dsimp only
    rwa [himage]
  · dsimp only
    by_cases hkey : key = x.order.key
    · subst hkey
      simp
    · rw [Function.update_of_ne hkey, Function.update_of_ne hkey, h.index, hgens]
      cases hl : s.index key with
      | none => rfl
      | some l =>
          obtain ⟨y, hy, hnum, hykey⟩ := hc.sound hl
          have hne : loc l.num ≠ loc x.num := by
            intro hloc
            rw [← hnum] at hloc
            obtain rfl := h.loc_inj hy hx hloc
            exact hkey hykey.symm
          exact (locatorOf_congr rfl (Function.update_of_ne hne _ _)).symm
  · rw [tallies_iff _ _ loc, himage]
    exact htallies ((tallies_iff e s loc).mp ht)

/-- Adding an entry to the book, in the first free slot, and to the index, unless
the total of its level cannot take it. -/
theorem Refines.added
    {i : Nat} {fr : List Nat}
    (hβ : β .counterOverflow = false)
    (h : Refines cfg e s loc (i :: fr)) (ht : k.2 < numTicks)
    (hfresh : ∀ k' y, y ∈ s.queue k' → y.num ≠ x.num)
    (hindex : ∀ key l, s.index key = some l → l.num ≠ x.num) :
    ∃ oid book,
      e.book.addOrder β k.1 k.2 x.order = (do
        let _ ← addQty β (e.book.total k) x.order.leavesQty
        .ok (.ok oid, book)) ∧
      Refines cfg
        { e with book := book,
                 orderIndex := Function.update e.orderIndex x.order.key
                  (some { oid := oid, tick := k.2, side := k.1,
                          internalId := UInt64.ofNat x.num }) }
        { s with queue := push s.queue k x,
                 index := Function.update s.index x.order.key
                  (some { num := x.num, tick := k.2, side := k.1 }) }
        (Function.update loc x.num i) fr ∧
      (e.Tallies s → s.held k + x.leaves < 2 ^ 64 →
        Tallies { e with book := book } { s with queue := push s.queue k x }) := by
  obtain ⟨generation, book, hadd, hbook, htallies, hgen, hgens⟩ :=
    h.book.addOrder k.1 x.order hβ ht
  have himage : image (cellOf (Function.update loc x.num i)) (push s.queue k x) =
      push (image (cellOf loc) s.queue) (k.1, k.2) (i, x.order) := by
    rw [image_push, cellOf, Function.update_self]
    congr 1
    exact image_congr fun k' y hy => by
      rw [cellOf, Function.update_of_ne (hfresh k' y hy), cellOf]
  refine ⟨_, book, hadd, ⟨?_, h.clients, fun key => ?_, h.nextOrderId⟩,
    fun ht' hlt => ?_⟩
  · dsimp only
    rwa [himage]
  · dsimp only
    by_cases hkey : key = x.order.key
    · subst hkey
      simp only [Function.update_self, Option.bind_some, locatorOf, hgens, hgen, Option.map_some]
    · rw [Function.update_of_ne hkey, Function.update_of_ne hkey, h.index, hgens]
      cases hl : s.index key with
      | none => rfl
      | some l =>
          exact (locatorOf_congr (Function.update_of_ne (hindex key l hl) _ _) rfl).symm
  · rw [tallies_iff _ _ (Function.update loc x.num i), himage]
    rw [← ht' k ht] at hlt
    exact htallies ((tallies_iff e s loc).mp ht') hlt

/-- Rewriting the order of an entry where it stands. -/
theorem Refines.rewritten
    {qty : UInt64}
    (hexact : β .totalQtySaturation = true → e.Tallies s)
    (h : Refines cfg e s loc free) (hx : x ∈ s.queue k)
    (f : Order → Order) (hle : qty ≤ x.order.leavesQty) :
    ∃ slot prev next arena book,
      e.book.arena.orderStore[loc x.num]? = some slot ∧
      slot.state = .occupied x.order prev next ∧
      putOrder e.book.arena (loc x.num) slot (f x.order) prev next = .ok arena ∧
      OrderBook.reduceTotal β { e.book with arena := arena } k.1 k.2 qty = .ok book ∧
      Refines cfg { e with book := book } (s.change k x f) loc free ∧
      (e.Tallies s → (f x.order).leavesQty.toNat + qty.toNat = x.leaves →
        Tallies { e with book := book } (s.change k x f)) := by
  obtain ⟨slot, prev, next, arena, book, hslot, hstate, hput, hreduce, hbook, htallies, hgens⟩ :=
    h.book.rewriteOrder (h.holds hexact hx hle) (mem_image loc hx) f
  have himage : image (cellOf loc) (s.change k x f).queue =
      revise Prod.fst (image (cellOf loc) s.queue) (k.1, k.2) (loc x.num)
        (fun c => (c.1, f c.2)) :=
    image_revise (fun y hy =>
        ⟨fun hnum => by rw [cellOf, hnum], fun hloc => by rw [h.loc_inj hy hx hloc]⟩)
      fun y _ _ => rfl
  refine ⟨slot, prev, next, arena, book, hslot, hstate, hput, hreduce,
    ⟨?_, h.clients, fun key => ?_, h.nextOrderId⟩, fun ht hqty => ?_⟩
  · dsimp only
    rwa [himage]
  · dsimp only
    rw [h.index, hgens]
    rfl
  · rw [tallies_iff _ _ loc, himage]
    exact htallies ((tallies_iff e s loc).mp ht) hqty

end Operations

end Engine
end LmaxEngine
