import LmaxEngine.Refinement.Rounds
import LmaxEngine.Results.Lines
import LmaxEngine.Spec.Frame

/-!
# Cancel and Modify are about one order

A cancellation or a modification changes at most one slot, the one with the
order that its client named.  The orders in the other slots keep all their
fields and their order in the queues, and what is stored for other keys and other
clients is not looked at.
-/

namespace LmaxEngine

open Checked Queues Arena PriceTime

/-- What a command under a key does, if the slot `i` is the only one that it is
about. -/
structure Engine.Touches (e e' : Engine) (key : Key) (i : Nat) : Prop where
  owner : ∀ o, e.book.arena.orderAt i = some o → o.key = key
  same : ∀ o', e'.book.arena.orderAt i = some o' → ∃ o, e.book.arena.orderAt i = some o ∧
    o'.orderId = o.orderId ∧ o'.key = o.key
  others : ∀ j, j ≠ i → e'.book.arena.orderAt j = e.book.arena.orderAt j
  queues : ∀ side t, t < numTicks →
    (e'.book.slots side t).filter (fun j => decide (j ≠ i)) =
      (e.book.slots side t).filter (fun j => decide (j ≠ i))
  levels : ∀ side t, t < numTicks →
    (((e.book.half side).priceLevels t).isSome = true ↔
      (∃ j, j ≠ i ∧ j ∈ e.book.slots side t) ∨ i ∈ e.book.slots side t) ∧
    (((e'.book.half side).priceLevels t).isSome = true ↔
      (∃ j, j ≠ i ∧ j ∈ e.book.slots side t) ∨ i ∈ e'.book.slots side t)
  index : ∀ key', key' ≠ key → e'.orderIndex key' = e.orderIndex key'
  clients : ∀ d, d ≠ key.1 → e'.clients d = e.clients d

section Handlers

variable {β : Build} {e e' : Engine} {es : List OutputEvent} {clientId clientOrderId : UInt64}

theorem closeOrder_of_ne
    {clients clients' : Clients} {c d : UInt64}
    (h : closeOrder β clients c = .ok clients') (hd : d ≠ c) :
    clients' d = clients d := by
  rw [closeOrder] at h
  cases hac : clients c with
  | none =>
      simp only [hac] at h
      rw [← Except.ok.inj h]
  | some ac =>
      simp only [hac] at h
      obtain ⟨n, -, h⟩ := bind_eq_ok.mp h
      rw [← Except.ok.inj h, Function.update_of_ne hd]

/-- What is stored under other keys and for other clients. -/
def Engine.SameElsewhere (e e' : Engine) (key : Key) : Prop :=
  (∀ key', key' ≠ key → e'.orderIndex key' = e.orderIndex key') ∧
    ∀ d, d ≠ key.1 → e'.clients d = e.clients d

theorem Engine.sameElsewhere_refl
    (e : Engine) (key : Key) :
    e.SameElsewhere e key :=
  ⟨fun _ _ => rfl, fun _ _ => rfl⟩

/-- What is stored changes under the key, and in the account of its client. -/
theorem Engine.sameElsewhere_update
    {key : Key}
    (hindex : ∀ key', key' ≠ key → e'.orderIndex key' = e.orderIndex key')
    (hclose : e'.clients = e.clients ∨ closeOrder β e.clients key.1 = .ok e'.clients) :
    e.SameElsewhere e' key := by
  refine ⟨hindex, fun d hd => ?_⟩
  rcases hclose with hclose | hclose
  · rw [hclose]
  · exact closeOrder_of_ne hclose hd

theorem processCancel_sameElsewhere
    (h : processCancel β e clientId clientOrderId = .ok (e', es)) :
    e.SameElsewhere e' (clientId, clientOrderId) := by
  rw [processCancel] at h
  cases hl : e.orderIndex (clientId, clientOrderId) with
  | none =>
      simp only [hl, Except.ok.injEq, Prod.mk.injEq] at h
      obtain ⟨rfl, -⟩ := h
      exact e.sameElsewhere_refl _
  | some locator =>
      simp only [hl] at h
      obtain ⟨valid, -, h⟩ := bind_eq_ok.mp h
      cases valid with
      | none =>
          obtain ⟨rfl, -⟩ := Prod.mk.inj (eq_of_fallback h)
          exact Engine.sameElsewhere_update (β := β)
            (fun _ hne => Function.update_of_ne hne _ _) (Or.inl rfl)
      | some slotIdx =>
          obtain ⟨slot, -, h⟩ := bind_eq_ok.mp h
          split at h
          · obtain ⟨rfl, -⟩ := Prod.mk.inj (eq_of_fallback h)
            exact e.sameElsewhere_refl _
          · split_ifs at h
            · obtain ⟨rfl, -⟩ := Prod.mk.inj (eq_of_fallback h)
              exact e.sameElsewhere_refl _
            · obtain ⟨book, -, h⟩ := bind_eq_ok.mp h
              obtain ⟨clients, hclose, h⟩ := bind_eq_ok.mp h
              obtain ⟨rfl, -⟩ := Prod.mk.inj (Except.ok.inj h)
              exact Engine.sameElsewhere_update
                (fun _ hne => Function.update_of_ne hne _ _) (Or.inr hclose)

theorem modifyRequeue_sameElsewhere
    {locator : OrderLocator} {slotIdx : Nat} {order : Order} {price target : UInt64}
    (h : LmaxEngine.modifyRequeue β e locator clientId clientOrderId slotIdx order price target =
      .ok (e', es)) :
    e.SameElsewhere e' (clientId, clientOrderId) := by
  rw [LmaxEngine.modifyRequeue] at h
  obtain ⟨book, -, h⟩ := bind_eq_ok.mp h
  obtain ⟨tick, -, h⟩ := bind_eq_ok.mp h
  cases tick with
  | none =>
      obtain ⟨clients, hclose, h⟩ := bind_eq_ok.mp h
      obtain ⟨rfl, -⟩ := Prod.mk.inj (Except.ok.inj h)
      exact Engine.sameElsewhere_update
        (fun _ hne => Function.update_of_ne hne _ _) (Or.inr hclose)
  | some newTick =>
      obtain ⟨⟨result, book⟩, -, h⟩ := bind_eq_ok.mp h
      cases result with
      | ok oid =>
          obtain ⟨rfl, -⟩ := Prod.mk.inj (Except.ok.inj h)
          refine Engine.sameElsewhere_update (β := β) (fun key' hne => ?_) (Or.inl rfl)
          exact (Function.update_of_ne hne _ _).trans (Function.update_of_ne hne _ _)
      | error o =>
          obtain ⟨clients, hclose, h⟩ := bind_eq_ok.mp h
          obtain ⟨rfl, -⟩ := Prod.mk.inj (Except.ok.inj h)
          exact Engine.sameElsewhere_update
            (fun _ hne => Function.update_of_ne hne _ _) (Or.inr hclose)

theorem processModify_sameElsewhere
    {newPrice newQty : Option UInt64}
    (h : processModify β e clientId clientOrderId newPrice newQty = .ok (e', es)) :
    e.SameElsewhere e' (clientId, clientOrderId) := by
  rw [processModify] at h
  cases hl : e.orderIndex (clientId, clientOrderId) with
  | none =>
      simp only [hl, Except.ok.injEq, Prod.mk.injEq] at h
      obtain ⟨rfl, -⟩ := h
      exact e.sameElsewhere_refl _
  | some locator =>
      simp only [hl] at h
      obtain ⟨valid, -, h⟩ := bind_eq_ok.mp h
      cases valid with
      | none =>
          obtain ⟨rfl, -⟩ := Prod.mk.inj (eq_of_fallback h)
          exact Engine.sameElsewhere_update (β := β)
            (fun _ hne => Function.update_of_ne hne _ _) (Or.inl rfl)
      | some slotIdx =>
          obtain ⟨slot, -, h⟩ := bind_eq_ok.mp h
          split at h
          · obtain ⟨rfl, -⟩ := Prod.mk.inj (eq_of_fallback h)
            exact e.sameElsewhere_refl _
          · split_ifs at h
            · obtain ⟨rfl, -⟩ := Prod.mk.inj (eq_of_fallback h)
              exact e.sameElsewhere_refl _
            · obtain ⟨rfl, -⟩ := Prod.mk.inj (Except.ok.inj h)
              exact e.sameElsewhere_refl _
            · rw [modifyInPlace] at h
              obtain ⟨diff, -, h⟩ := bind_eq_ok.mp h
              obtain ⟨filledQty, -, h⟩ := bind_eq_ok.mp h
              obtain ⟨arena, -, h⟩ := bind_eq_ok.mp h
              obtain ⟨book, -, h⟩ := bind_eq_ok.mp h
              obtain ⟨rfl, -⟩ := Prod.mk.inj (Except.ok.inj h)
              exact e.sameElsewhere_refl _
            · exact modifyRequeue_sameElsewhere h

end Handlers

section Slots

variable {cfg : Config} {e e' : Engine} {s s' : State} {loc loc' : Nat → Nat}
variable {free free' : List Nat} {key : Key} {n i : Nat}

/-- The level of a queue is there while an entry is. -/
theorem Engine.Refines.level_iff_exists
    {side : Side} {t : Nat}
    (h : Engine.Refines cfg e s loc free) (hc : Consistent cfg s) (ht : t < numTicks) (i : Nat) :
    ((e.book.half side).priceLevels t).isSome = true ↔
      (∃ j, j ≠ i ∧ j ∈ e.book.slots side t) ∨ i ∈ e.book.slots side t := by
  rw [h.level_iff hc ht]
  constructor
  · intro hne
    obtain ⟨j, hj⟩ := List.exists_mem_of_ne_nil _ hne
    by_cases hij : j = i
    · exact Or.inr (hij ▸ hj)
    · exact Or.inl ⟨j, hij, hj⟩
  · rintro (⟨j, -, hj⟩ | hi)
    · exact List.ne_nil_of_mem hj
    · exact List.ne_nil_of_mem hi

/-- The entries that are left have the slots that they had. -/
theorem loc_of_touches
    {k : Level} {y : Entry}
    (hc : Consistent cfg s) (hloc : ∀ m, m < s.nextNum → loc' m = loc m)
    (ht : PriceTime.Touches s s' n) (hy : y ∈ s'.queue k) :
    loc' y.num = loc y.num := by
  refine hloc _ ?_
  by_cases hn : y.num = n
  · obtain ⟨k', x, hx, hxn, -⟩ := ht.same k y hy hn
    rw [hn, ← hxn]
    exact (hc.entry hx).num
  · exact (hc.entry ((ht.mem_iff hn).mp hy)).num

/-- The slot of the entry with the number `n` is still its slot. -/
theorem slot_iff_of_touches
    {k : Level} {y : Entry}
    (hc : Consistent cfg s) (hloc : ∀ m, m < s.nextNum → loc' m = loc m)
    (ht : PriceTime.Touches s s' n)
    (hslot : ∀ k x, x ∈ s.queue k → (x.num = n ↔ loc x.num = i)) (hy : y ∈ s'.queue k) :
    y.num = n ↔ loc' y.num = i := by
  rw [loc_of_touches hc hloc ht hy]
  by_cases hn : y.num = n
  · obtain ⟨k', x, hx, hxn, -⟩ := ht.same k y hy hn
    rw [hn, ← hxn, ← hslot k' x hx, hxn]
  · exact hslot k y ((ht.mem_iff hn).mp hy)

/-- A command about the entry with the number `n` is about its slot. -/
theorem Engine.Refines.touches
    (h : Engine.Refines cfg e s loc free) (hc : Consistent cfg s)
    (h' : Engine.Refines cfg e' s' loc' free') (hc' : Consistent cfg s')
    (hloc : ∀ m, m < s.nextNum → loc' m = loc m)
    (ht : PriceTime.Touches s s' n)
    (hslot : ∀ k x, x ∈ s.queue k → (x.num = n ↔ loc x.num = i))
    (howner : ∀ k x, x ∈ s.queue k → x.num = n → x.order.key = key)
    (helse : e.SameElsewhere e' key) :
    e.Touches e' key i := by
  have hloc' : ∀ k y, y ∈ s'.queue k → loc' y.num = loc y.num :=
    fun _ _ => loc_of_touches hc hloc ht
  have hslot' : ∀ k y, y ∈ s'.queue k → (y.num = n ↔ loc' y.num = i) :=
    fun _ _ => slot_iff_of_touches hc hloc ht hslot
  have hqueues : ∀ side t, t < numTicks →
      (e'.book.slots side t).filter (fun j => decide (j ≠ i)) =
        (e.book.slots side t).filter (fun j => decide (j ≠ i)) := by
    intro side t htick
    rw [h'.slots_others htick (hslot' _), h.slots_others htick (hslot _), ht.others]
    refine List.map_congr_left fun y hy => ?_
    obtain ⟨hy, hn⟩ := List.mem_filter.mp hy
    exact hloc' _ y ((ht.mem_iff (by simpa using hn)).mpr hy)
  refine
    { owner := ?_
      same := ?_
      others := ?_
      queues := hqueues
      levels := ?_
      index := helse.1
      clients := helse.2 }
  · intro o ho
    obtain ⟨k, x, hx, hi, rfl⟩ := h.entry ho
    exact howner k x hx ((hslot k x hx).mpr hi)
  · intro o' ho'
    obtain ⟨k, y, hy, hi, rfl⟩ := h'.entry ho'
    obtain ⟨k', x, hx, hxn, hid, hkey⟩ := ht.same k y hy ((hslot' k y hy).mpr hi)
    have hxi : loc x.num = i := (hslot k' x hx).mp hxn
    exact ⟨x.order, hxi ▸ h.orderAt hx, hid, hkey⟩
  · intro j hj
    ext o
    constructor
    · intro ho
      obtain ⟨k, y, hy, rfl, rfl⟩ := h'.entry ho
      have hn : y.num ≠ n := fun hn => hj ((hslot' k y hy).mp hn)
      rw [hloc' k y hy]
      exact h.orderAt ((ht.mem_iff hn).mp hy)
    · intro ho
      obtain ⟨k, y, hy, rfl, rfl⟩ := h.entry ho
      have hn : y.num ≠ n := fun hn => hj ((hslot k y hy).mp hn)
      have hy' := (ht.mem_iff hn).mpr hy
      rw [← hloc' k y hy']
      exact h'.orderAt hy'
  · intro side t htick
    have hothers : ∀ j, j ≠ i → (j ∈ e'.book.slots side t ↔ j ∈ e.book.slots side t) := by
      intro j hj
      have hiff : ∀ l : List Nat, j ∈ l.filter (fun j => decide (j ≠ i)) ↔ j ∈ l := by
        intro l
        rw [List.mem_filter]
        simp [hj]
      rw [← hiff (e'.book.slots side t), ← hiff (e.book.slots side t), hqueues side t htick]
    refine ⟨h.level_iff_exists hc htick i, ?_⟩
    rw [h'.level_iff_exists hc' htick i]
    refine or_congr_left (exists_congr fun j => and_congr_right fun hj => hothers j hj)

/-- The slots of a command that goes through on an engine that refines the plain
book. -/
theorem Engine.Refines.handle_loc
    {c : Command} {es : List OutputEvent}
    (h : Engine.Refines cfg e s loc free) (hc : Consistent cfg s)
    (he : e.handle Build.release c = .ok (e', es)) :
    es = (PriceTime.handle cfg s c).2 ∧
      ∃ loc' free', Engine.Refines cfg e' (PriceTime.handle cfg s c).1 loc' free' ∧
        ∀ m, m < s.nextNum → loc' m = loc m := by
  rcases Engine.handle_follows Build.wrapping_release h hc c with
    ⟨e₁, loc', free', he₁, h', hloc⟩ | ⟨-, he₁⟩
  · rw [he, Except.ok.injEq, Prod.mk.injEq] at he₁
    obtain ⟨rfl, rfl⟩ := he₁
    exact ⟨rfl, loc', free', h', hloc⟩
  · rw [he] at he₁
    exact absurd he₁ (by simp)

/-- Either nothing is touched, and any slot without an order will do, or the entry
under the key is. -/
theorem Engine.Refines.touches_of_outcome
    {c : Command} {es : List OutputEvent}
    (h : Engine.Refines cfg e s loc free) (hc : Consistent cfg s)
    (he : e.handle Build.release c = .ok (e', es))
    (hout : (PriceTime.handle cfg s c).1 = s ∨ ∃ k x, x ∈ s.queue k ∧ x.order.key = key ∧
      PriceTime.Touches s (PriceTime.handle cfg s c).1 x.num)
    (helse : e.SameElsewhere e' key) :
    ∃ i, e.Touches e' key i := by
  obtain ⟨-, loc', free', h', hloc⟩ := h.handle_loc hc he
  have hc' := handle_consistent hc c
  rcases hout with hsame | ⟨k, x, hx, hkey, ht⟩
  · have hfresh : ∀ k y, y ∈ s.queue k →
        y.num ≠ s.nextNum ∧ loc y.num ≠ e.book.arena.orderStore.size := by
      intro k y hy
      obtain ⟨generation, prev, next, hslot, -⟩ := h.slot hy
      obtain ⟨hlt, -⟩ := Array.getElem?_eq_some_iff.mp hslot
      exact ⟨(hc.entry hy).num.ne, hlt.ne⟩
    refine ⟨e.book.arena.orderStore.size, h.touches hc h' hc' hloc (n := s.nextNum)
      (by rw [hsame]; exact touches_refl s _) (fun k y hy => ?_) (fun k y hy hn => ?_) helse⟩
    · exact iff_of_false (hfresh k y hy).1 (hfresh k y hy).2
    · exact absurd hn (hfresh k y hy).1
  · refine ⟨loc x.num, h.touches hc h' hc' hloc ht (fun k' y hy => ?_) (fun k' y hy hn => ?_)
      helse⟩
    · exact ⟨fun hn => by rw [hn], fun hi => by rw [h.loc_inj hy hx hi]⟩
    · rw [hc.distinct.eq hy hx hn, hkey]

end Slots

section Results

variable {cfg : Config} {e e' : Engine} {cs : List Command} {evs : List (List OutputEvent)}
variable {es : List OutputEvent} {clientId clientOrderId : UInt64}

/-- **Cancel and Modify are about one order.**  In every state that a run
reaches, a cancellation or a modification under a key touches the order of at
most one slot, and that order has the key. -/
theorem run_touches
    (hpos : 1 ≤ cfg.capacity) (hlt : cfg.capacity < 2 ^ 32)
    (hrun : (Engine.new cfg).run Build.release cs = .ok (e, evs))
    (c : Command)
    (hc : c = .cancel clientId clientOrderId ∨
      ∃ newPrice newQty, c = .modify clientId clientOrderId newPrice newQty)
    (he : e.handle Build.release c = .ok (e', es)) :
    ∃ i, e.Touches e' (clientId, clientOrderId) i := by
  obtain ⟨⟨loc, free, h⟩, -⟩ := Engine.simulates_of_run Build.wrapping_release hpos hlt hrun
  have hcons := run_consistent (consistent_new cfg) cs
  rcases hc with rfl | ⟨newPrice, newQty, rfl⟩
  · exact h.touches_of_outcome hcons he (cancel_touches clientId clientOrderId hcons)
      (processCancel_sameElsewhere he)
  · exact h.touches_of_outcome hcons he
      (modify_touches clientId clientOrderId hcons newPrice newQty)
      (processModify_sameElsewhere he)

/-- The better of the bids that the session leaves is moved behind the other one. -/
theorem run_touches_session :
    ∃ e e' es, (Engine.new smallConfig).run Build.release session = .ok (e, sessionEvents) ∧
      e.handle Build.release (.modify 3 0 (some 100) none) = .ok (e', es) ∧
      ∃ i, e.Touches e' (3, 0) i := by
  obtain ⟨e, hrun⟩ := exists_run_session
  obtain ⟨hs, -⟩ := Engine.simulates_of_run Build.wrapping_release (by decide) (by decide) hrun
  obtain ⟨e', es, he⟩ := Engine.exists_handle Build.wrapping_release (by decide) hs
    (run_consistent (consistent_new smallConfig) session) (.modify 3 0 (some 100) none)
  exact ⟨e, e', es, hrun, he,
    run_touches (by decide) (by decide) hrun _ (Or.inr ⟨some 100, none, rfl⟩) he⟩

end Results

end LmaxEngine
