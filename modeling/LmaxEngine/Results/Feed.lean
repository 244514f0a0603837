import LmaxEngine.Results.Modifications
import LmaxEngine.Spec.Feed

/-!
# The book that the events of a run tell of

Somebody who reads the events of a run knows the book: which orders rest, with
which quantities, and in which order in the queues of their ticks.  This goes wrong
only with the modification that evicts an order and says that it is rejected.
-/

namespace LmaxEngine

open Checked Queues Arena PriceTime

/-- The orders of a level, from head to tail. -/
def Engine.quotes (e : Engine) (side : Side) (t : Nat) : List Quote :=
  (e.book.slots side t).filterMap fun i => (e.book.arena.orderAt i).map Order.quote

/-- The list that the events tell of has every id once, its quotes are orders that
rest, and its parts by side and tick are the queues of the book. -/
structure Engine.Mirrored (cfg : Config) (e : Engine) (evs : List OutputEvent) : Prop where
  nodup : ((Feed.tapeOf evs).map Quote.orderId).Nodup
  rests : ∀ r, r ∈ Feed.tapeOf evs → ∃ i o, e.book.arena.orderAt i = some o ∧ o.quote = r
  part : ∀ side t, t < numTicks → e.quotes side t =
    (Feed.tapeOf evs).filter fun r => decide (r.level cfg = some (side, t))

/-- The command is a modification that evicts an order. -/
def Engine.EvictsBy (e : Engine) : Command → Prop
  | .modify clientId clientOrderId newPrice newQty =>
      e.Evicts clientId clientOrderId newPrice newQty
  | _ => False

section Abstraction

variable {cfg : Config} {e : Engine} {s : State} {loc : Nat → Nat} {free : List Nat}

/-- The quotes of a level are those of the entries of the plain book. -/
theorem Engine.Refines.quotes_eq
    (h : Engine.Refines cfg e s loc free) {side : Side} {t : Nat} (ht : t < numTicks) :
    e.quotes side t = image (fun x : Entry => x.order.quote) s.queue (side, t) := by
  rw [Engine.quotes, h.slots_eq ht, List.filterMap_map, image, ← List.filterMap_eq_map]
  refine List.filterMap_congr fun x hx => ?_
  rw [Function.comp_apply, h.orderAt hx]
  rfl

theorem Engine.Refines.mirrored_iff
    (h : Engine.Refines cfg e s loc free) (hc : Consistent cfg s) (evs : List OutputEvent) :
    e.Mirrored cfg evs ↔ s.Mirrored cfg (Feed.tapeOf evs) := by
  constructor
  · intro hm
    exact {
      nodup := hm.nodup
      keyed := by
        intro r hr
        obtain ⟨i, o, ho, rfl⟩ := hm.rests r hr
        obtain ⟨k, x, hx, rfl, rfl⟩ := h.entry ho
        rw [Quote.level, Option.isSome_map]
        change (tickOf cfg x.order.price).isSome = true
        rw [(hc.entry hx).tick]
        rfl
      part := by
        rintro ⟨side, t⟩
        by_cases ht : t < numTicks
        · rw [← h.quotes_eq ht]
          exact hm.part side t ht
        · -- No price has a tick beyond the book.
          have hnil : s.queue (side, t) = [] :=
            List.eq_nil_iff_forall_not_mem.mpr fun x hx => ht (tickOf_lt (hc.entry hx).tick)
          rw [image, hnil, List.map_nil]
          refine (List.filter_eq_nil_iff.mpr fun r _ hlevel => ?_).symm
          rw [decide_eq_true_iff, Quote.level, Option.map_eq_some_iff] at hlevel
          obtain ⟨u, hu, hkey⟩ := hlevel
          obtain rfl := (Prod.mk.inj hkey).2
          exact ht (tickOf_lt hu) }
  · intro hm
    exact {
      nodup := hm.nodup
      rests := by
        intro r hr
        obtain ⟨k, x, hx, rfl⟩ := hm.exists_entry hr
        exact ⟨_, _, h.orderAt hx, rfl⟩
      part := by
        intro side t ht
        rw [h.quotes_eq ht]
        exact hm.part (side, t) }

theorem Engine.Refines.evictsBy_iff
    (h : Engine.Refines cfg e s loc free) (hc : Consistent cfg s) (c : Command) :
    e.EvictsBy c ↔ PriceTime.Evicts cfg s c := by
  cases c with
  | place clientId clientOrderId symbol side orderType price quantity tif => exact Iff.rfl
  | cancel clientId clientOrderId => exact Iff.rfl
  | modify clientId clientOrderId newPrice newQty =>
      constructor
      · intro hbad
        obtain ⟨i, o, hn, -⟩ := id hbad
        obtain ⟨k, x, hx, hindex, -, -⟩ := (h.names_iff hc).mp hn
        exact ⟨k, x, hx, hindex, (h.evicts_iff hc hx hindex).mp hbad⟩
      · rintro ⟨k, x, hx, hindex, hbad⟩
        exact (h.evicts_iff hc hx hindex).mpr hbad

end Abstraction

section Runs

variable {cfg : Config} {e e' : Engine} {pre : List Command} {c : Command}
variable {evs : List (List OutputEvent)} {es : List OutputEvent}

theorem Engine.mirrored_new
    (hpos : 1 ≤ cfg.capacity) (hlt : cfg.capacity < 2 ^ 32) :
    (Engine.new cfg).Mirrored cfg [] := by
  obtain ⟨loc, free, h⟩ := Engine.simulates_new hpos hlt
  exact (h.mirrored_iff (consistent_new cfg) []).mpr Sorts.empty

/-- One command more keeps the list right exactly if it does not evict. -/
theorem Engine.Mirrored.handle_iff
    (hgood : e.Mirrored cfg evs.flatten)
    (hpos : 1 ≤ cfg.capacity) (hlt : cfg.capacity < 2 ^ 32)
    (hrun : (Engine.new cfg).run Build.release pre = .ok (e, evs))
    (he : e.handle Build.release c = .ok (e', es))
    (hcount : (pre ++ [c]).countP Command.isPlace < 2 ^ 64) :
    e'.Mirrored cfg (evs.flatten ++ es) ↔ ¬ e.EvictsBy c := by
  obtain ⟨⟨loc, free, h⟩, -⟩ := Engine.simulates_of_run Build.wrapping_release hpos hlt hrun
  have hc := run_consistent (consistent_new cfg) pre
  obtain ⟨rfl, loc', free', h', -⟩ := h.handle_loc hc he
  have hnum : (PriceTime.handle cfg (PriceTime.run cfg State.new pre).1 c).1.nextNum ≤
      2 ^ 64 := by
    have hle := run_nextNum_le cfg State.new (pre ++ [c])
    have hnew : State.new.nextNum = 1 := rfl
    rw [PriceTime.run_snoc] at hle
    omega
  rw [h.evictsBy_iff hc c, h'.mirrored_iff (handle_consistent hc c), Feed.tapeOf_append]
  exact handle_mirrored_iff hc ((h.mirrored_iff hc _).mp hgood) c hnum

/-- **When the events tell the book.**  In a run of fewer than `2 ^ 64` placements
the list that the events tell of is at all times the book, exactly if no command of
the run is a modification that evicts an order. -/
theorem run_feed_iff
    (hpos : 1 ≤ cfg.capacity) (hlt : cfg.capacity < 2 ^ 32)
    (cs : List Command) (hcs : cs.countP Command.isPlace < 2 ^ 64) :
    (∀ pre c post e evs, cs = pre ++ c :: post →
        (Engine.new cfg).run Build.release pre = .ok (e, evs) → ¬ e.EvictsBy c) ↔
      ∀ pre post e evs, cs = pre ++ post →
        (Engine.new cfg).run Build.release pre = .ok (e, evs) → e.Mirrored cfg evs.flatten := by
  refine Engine.run_kept_iff (fun hist e => e.Mirrored cfg hist) hpos hlt cs
    (Engine.mirrored_new hpos hlt) ?_ ?_
  · intro pre e evs c hrun hbad
    obtain ⟨⟨loc, free, h⟩, -⟩ := Engine.simulates_of_run Build.wrapping_release hpos hlt hrun
    have hc := run_consistent (consistent_new cfg) pre
    cases c with
    | modify clientId clientOrderId newPrice newQty =>
        obtain ⟨k, x, hx, -⟩ := (h.evictsBy_iff hc _).mp hbad
        exact ne_zero_of_tickOf (hc.entry hx).tick
    | _ => exact absurd hbad id
  · intro pre c post e evs e' es hsplit hrun he hgood
    refine hgood.handle_iff hpos hlt hrun he ?_
    have hcount : cs.countP Command.isPlace =
        (pre ++ [c]).countP Command.isPlace + post.countP Command.isPlace := by
      rw [hsplit, ← List.countP_append, List.append_assoc]
      rfl
    omega

/-- A bid is moved to another price. -/
def movedBid : List Command :=
  [bidOne 1 100, .modify 1 0 (some 101) none]

theorem run_feed_iff_movedBid :
    (∀ pre c post e evs, movedBid = pre ++ c :: post →
        (Engine.new smallConfig).run Build.release pre = .ok (e, evs) → ¬ e.EvictsBy c) ↔
      ∀ pre post e evs, movedBid = pre ++ post →
        (Engine.new smallConfig).run Build.release pre = .ok (e, evs) →
          e.Mirrored smallConfig evs.flatten :=
  run_feed_iff (by decide) (by decide) movedBid (by decide)

/-- The events of a bid whose modification is rejected. -/
def refusedBid : List (List OutputEvent) :=
  [[.orderAccepted 1 1 0 (Vector.replicate 8 0) .buy 100 1], [.modifyRejected 1 1]]

/-- **No reader can do better.**  The events of a modification that is refused and of one
that evicts are the same, so no function of the events gives the book. -/
theorem not_determined_by_events :
    ¬ ∃ f : List (List OutputEvent) → List Quote, ∀ cs e evs,
      (Engine.new smallConfig).run Build.release cs = .ok (e, evs) → e.quotes .buy 0 = f evs := by
  rintro ⟨f, hf⟩
  obtain ⟨⟨e, evs⟩, hrun, hkept⟩ := exists_of_yields
    (x := (Engine.new smallConfig).run Build.release [bidOne 1 100, .modify 1 0 none (some 0)])
    (p := fun r => decide (r.2 = refusedBid) && decide ((r.1.quotes .buy 0).length = 1))
    (by decide +kernel)
  obtain ⟨⟨e', evs'⟩, hrun', hgone⟩ := exists_of_yields
    (x := (Engine.new smallConfig).run Build.release [bidOne 1 100, .modify 1 0 (some 99) none])
    (p := fun r => decide (r.2 = refusedBid) && decide ((r.1.quotes .buy 0).length = 0))
    (by decide +kernel)
  simp only [Bool.and_eq_true, decide_eq_true_eq] at hkept hgone
  obtain ⟨rfl, hkept⟩ := hkept
  obtain ⟨rfl, hgone⟩ := hgone
  rw [hf _ _ _ hrun, ← hf _ _ _ hrun', hgone] at hkept
  exact absurd hkept (by decide)

end Runs

end LmaxEngine
