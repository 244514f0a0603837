import LmaxEngine.Results.Book

/-!
# The order index in every reachable state

Every entry of the index names an occupied slot with the order that was placed
under the key.  Order ids are distinct, and below the next one until that wraps
to zero, which takes as many placements as there are nonzero ids.
-/

namespace LmaxEngine

open Checked Queues Arena PriceTime

/-- What the index and the ids of resting orders satisfy. -/
structure Engine.IndexSound (e : Engine) (slots : Level → List Nat) : Prop where
  target : ∀ key locator, e.orderIndex key = some locator →
    ∃ idx o, e.book.arena.validate locator.oid = .ok (some idx) ∧
      e.book.arena.orderAt idx = some o ∧ o.key = key ∧
      o.orderId = locator.internalId ∧ o.side = locator.side ∧
      locator.tick < numTicks ∧ idx ∈ slots (locator.side, locator.tick)
  distinct : ∀ i j o o', e.book.arena.orderAt i = some o → e.book.arena.orderAt j = some o' →
    o.orderId = o'.orderId → i = j

section Reached

variable {cfg : Config} {e : Engine} {s : State} {loc : Nat → Nat} {free : List Nat}

/-- The entry of an occupied slot. -/
theorem Engine.Refines.entry
    {i : Nat} {o : Order}
    (h : Engine.Refines cfg e s loc free) (ho : e.book.arena.orderAt i = some o) :
    ∃ k x, x ∈ s.queue k ∧ loc x.num = i ∧ x.order = o := by
  rw [orderAt_eq] at ho
  obtain ⟨k, hk⟩ := h.book.arena.covered ho
  obtain ⟨x, hx, he⟩ := List.mem_map.mp hk
  obtain ⟨hi, hxo⟩ := Prod.mk.inj he
  exact ⟨k, x, hx, hi, hxo⟩

theorem Engine.Refines.orderAt
    {k : Level} {x : Entry}
    (h : Engine.Refines cfg e s loc free) (hx : x ∈ s.queue k) :
    e.book.arena.orderAt (loc x.num) = some x.order := by
  rw [orderAt_eq]
  exact h.book.arena.stored (Engine.mem_image _ hx)

theorem Engine.Refines.indexSound
    (h : Engine.Refines cfg e s loc free) (hc : Consistent cfg s)
    (hnum : s.nextNum ≤ 2 ^ 64) :
    e.IndexSound (fun k => slotsOf (image (Engine.cellOf loc) s.queue k)) where
  target key locator hl := by
    cases hs : s.index key with
    | none =>
        rw [h.lookup_none hs] at hl
        exact absurd hl (by simp)
    | some l =>
        obtain ⟨x, oid, -, -, -, -, hx, hkey, hxnum, hidx, hvalid, -, -⟩ := h.lookup hc hs
        rw [hidx] at hl
        obtain rfl := Option.some.inj hl
        have hok := hc.entry hx
        exact ⟨loc x.num, x.order, hvalid, h.orderAt hx, hkey, by rw [hok.id, hxnum],
          hok.side, tickOf_lt hok.tick, List.mem_map_of_mem (Engine.mem_image _ hx)⟩
  distinct i j o o' ho ho' heq := by
    obtain ⟨k, x, hx, rfl, rfl⟩ := h.entry ho
    obtain ⟨k', y, hy, rfl, rfl⟩ := h.entry ho'
    rw [eq_of_orderId_eq hc hnum hx hy heq]

variable {cs : List Command} {evs : List (List OutputEvent)}

end Reached

end LmaxEngine
