import LmaxEngine.Results.Faults
import LmaxEngine.Results.Frame
import LmaxEngine.Spec.Precedence
import LmaxEngine.Spec.TimeInForce

/-!
# Price-time priority in a run

Of two orders that rest on one side the first in line stays ahead of the second
and is filled before it, for as long as it rests and neither of them is put into
another queue by a modification.  The command that ends the first gets to the
second only after it has filled the first in whole.
-/

namespace LmaxEngine

open Checked Queues Arena PriceTime

/-- The order of slot `i` is ahead of that of slot `j`: it stands at a better
tick, or nearer the head of the same level. -/
def Engine.Ahead (e : Engine) (i j : Nat) : Prop :=
  ∃ side t t', t < numTicks ∧ t' < numTicks ∧
    i ∈ e.book.slots side t ∧ j ∈ e.book.slots side t' ∧
    (side.Better t t' ∨ (t = t' ∧ [i, j].Sublist (e.book.slots side t)))

/-- The order of a slot is still the same one. -/
def Engine.SameOrder (e e' : Engine) (i : Nat) : Prop :=
  ∃ o o', e.book.arena.orderAt i = some o ∧ e'.book.arena.orderAt i = some o' ∧
    o'.orderId = o.orderId ∧ o'.side = o.side

/-- A modification that puts the order of a slot into another queue: to change
its price or to raise its quantity. -/
def Engine.Requeues (e : Engine) : Command → Nat → Prop
  | .modify clientId clientOrderId newPrice newQty, i =>
      ∃ o, e.Names (clientId, clientOrderId) i o ∧ newQty.getD o.leavesQty ≠ 0 ∧
        ¬ (newPrice.getD o.price = o.price ∧ newQty.getD o.leavesQty ≤ o.leavesQty)
  | _, _ => False

/-- Through a run the order of a slot rests and is not put into another queue. -/
def Engine.Stays (i : Nat) : Engine → List Command → Prop
  | _, [] => True
  | e, c :: cs => ¬ e.Requeues c i ∧
      ∀ e' es, e.handle Build.release c = .ok (e', es) → e.SameOrder e' i ∧ Stays i e' cs

/-- No fill of the command is one of the order of a slot: a placement leaves it as
it is, and a fill with its order id is one of another order with the same id. -/
structure Engine.Spares
    (e e' : Engine) (c : Command) (es : List OutputEvent) (i : Nat) : Prop where
  untouched : c.isPlace = true → e'.book.arena.orderAt i = e.book.arena.orderAt i
  fills : ∀ o ev, e.book.arena.orderAt i = some o → ev ∈ es → ev.resting? = some o.orderId →
    ∃ j o', j ≠ i ∧ e.book.arena.orderAt j = some o' ∧ o'.orderId = o.orderId

section Abstraction

variable {cfg : Config} {e e' : Engine} {s s' : State} {loc loc' : Nat → Nat}
variable {free free' : List Nat} {side : Side} {i j : Nat} {k : Level} {x : Entry}

/-- Who is ahead in the arena is ahead on the plain book. -/
theorem Engine.Refines.ahead_iff
    (h : Engine.Refines cfg e s loc free) :
    e.Ahead i j ↔ ∃ side a b, s.Before side a b ∧ loc a = i ∧ loc b = j := by
  have hline : e.Ahead i j ↔ ∃ side, [i, j].Sublist (e.line side) := by
    refine exists_congr fun side => ?_
    rw [Engine.line, pair_sublist_line]
    constructor
    · rintro ⟨t, t', ht, ht', hi, hj, hbetter | ⟨rfl, hsub⟩⟩
      · refine Or.inr ⟨(side, t), (side, t'), pair_sublist_ranked.mpr ⟨?_, ?_, hbetter⟩, hi, hj⟩
        · exact mem_ranked.mpr ⟨rfl, ht⟩
        · exact mem_ranked.mpr ⟨rfl, ht'⟩
      · exact Or.inl ⟨(side, t), mem_ranked.mpr ⟨rfl, ht⟩, hsub⟩
    · rintro (⟨⟨side', t⟩, hk, hsub⟩ | ⟨⟨side₁, t⟩, ⟨side₂, t'⟩, hkk', hi, hj⟩)
      · obtain ⟨rfl, ht⟩ := mem_ranked.mp hk
        exact ⟨t, t, ht, ht, hsub.subset (by simp), hsub.subset (by simp), Or.inr ⟨rfl, hsub⟩⟩
      · obtain ⟨hk, hk', hbetter⟩ := pair_sublist_ranked.mp hkk'
        obtain ⟨hside₁, ht⟩ := mem_ranked.mp hk
        obtain ⟨hside₂, ht'⟩ := mem_ranked.mp hk'
        dsimp only at hside₁ hside₂
        subst hside₁ hside₂
        exact ⟨t, t', ht, ht', hi, hj, Or.inl hbetter⟩
  rw [hline]
  refine exists_congr fun side => ?_
  have hnums : e.line side = (s.nums side).map loc := by
    rw [h.line_eq, State.nums, List.map_map]
    rfl
  rw [hnums, List.sublist_map_iff]
  constructor
  · rintro ⟨l, hsub, hl⟩
    rcases l with - | ⟨a, - | ⟨b, - | ⟨c, l⟩⟩⟩
    · simp at hl
    · simp at hl
    · simp only [List.map_cons, List.map_nil, List.cons.injEq, and_true] at hl
      exact ⟨a, b, hsub, hl.1.symm, hl.2.symm⟩
    · simp at hl
  · rintro ⟨a, b, hsub, rfl, rfl⟩
    exact ⟨[a, b], hsub, rfl⟩

theorem Engine.Refines.requeues_iff
    (h : Engine.Refines cfg e s loc free) (hc : Consistent cfg s) (hx : x ∈ s.queue k)
    (c : Command) :
    e.Requeues c (loc x.num) ↔ PriceTime.Requeues s c x.num := by
  cases c with
  | place => exact Iff.rfl
  | cancel => exact Iff.rfl
  | modify clientId clientOrderId newPrice newQty =>
      constructor
      · rintro ⟨o, hn, hqty, hmoved⟩
        obtain ⟨k', y, hy, hindex, hloc, rfl⟩ := (h.names_iff hc).mp hn
        obtain rfl := h.loc_inj hy hx hloc
        exact ⟨k', y, hy, rfl, hindex, hqty, hmoved⟩
      · rintro ⟨k', y, hy, hnum, hindex, hqty, hmoved⟩
        obtain rfl := hc.distinct.eq hy hx hnum
        exact ⟨_, (h.names_iff hc).mpr ⟨k', y, hy, hindex, rfl, rfl⟩, hqty, hmoved⟩

/-- An order that is still in its slot is still in line. -/
theorem Engine.Refines.mem_nums_of_same
    {c : Command}
    (h : Engine.Refines cfg e s loc free) (hc : Consistent cfg s)
    (h' : Engine.Refines cfg e' (PriceTime.handle cfg s c).1 loc' free')
    (hloc : ∀ m, m < s.nextNum → loc' m = loc m)
    (hx : x ∈ s.queue k) (hsame : e.SameOrder e' (loc x.num)) :
    x.num ∈ (PriceTime.handle cfg s c).1.nums k.1 := by
  have hc' := handle_consistent hc c
  obtain ⟨o, o', ho, ho', -, hside⟩ := hsame
  rw [h.orderAt hx, Option.some.injEq] at ho
  subst ho
  obtain ⟨k', y, hy, hslot, rfl⟩ := h'.entry ho'
  rw [(hc'.entry hy).side, (hc.entry hx).side] at hside
  rcases handle_origin hc c hy with ⟨kz, z, hz, hnum⟩ | hstay
  · rw [← hnum, hloc z.num (hc.entry hz).num] at hslot
    obtain rfl := h.loc_inj hz hx hslot
    exact (mem_nums hc').mpr ⟨k', y, hy, hside, hnum.symm⟩
  · exact (mem_nums hc').mpr ⟨k, x, hstay k x hx hside.symm, rfl, rfl⟩

end Abstraction

section Steps

variable {cfg : Config} {e e' e₁ : Engine} {s : State} {loc : Nat → Nat} {free : List Nat}
variable {i j : Nat} {c : Command} {es : List OutputEvent}

/-- **One command** does not fill an order while one ahead of it stays, and keeps
the order of the two. -/
theorem Engine.Refines.ahead_step
    (h : Engine.Refines cfg e s loc free) (hc : Consistent cfg s)
    (he : e.handle Build.release c = .ok (e', es)) (hahead : e.Ahead i j)
    (hi : ¬ e.Requeues c i) (hj : ¬ e.Requeues c j) (hsame : e.SameOrder e' i) :
    e.Spares e' c es j ∧ (e.SameOrder e' j → e'.Ahead i j) := by
  obtain ⟨rfl, loc', free', h', hloc⟩ := h.handle_loc hc he
  obtain ⟨side, a, b, hbefore, rfl, rfl⟩ := h.ahead_iff.mp hahead
  obtain ⟨⟨ka, x, hx, hka, rfl⟩, kb, y, hy, hkb, rfl⟩ := hbefore.mem hc
  have hlocx := hloc x.num (hc.entry hx).num
  have hlocy := hloc y.num (hc.entry hy).num
  have ha := h.mem_nums_of_same hc h' hloc hx hsame
  rw [hka] at ha
  obtain ⟨huntouched, hfills⟩ := handle_spares hc c hbefore hy ha
  refine ⟨⟨fun hplace => ?_, fun o ev ho hev hid => ?_⟩, fun hsame' => ?_⟩
  · rw [h.orderAt hy, ← hlocy]
    exact h'.orderAt (huntouched hplace)
  · rw [h.orderAt hy, Option.some.injEq] at ho
    subst ho
    obtain ⟨kz, z, hz, hne, hzid⟩ := hfills ev hev hid
    refine ⟨loc z.num, z.order, fun heq => ?_, h.orderAt hz, hzid⟩
    obtain rfl := h.loc_inj hz hy heq
    exact hne rfl
  · have hb := h.mem_nums_of_same hc h' hloc hy hsame'
    rw [hkb] at hb
    refine h'.ahead_iff.mpr ⟨side, x.num, y.num, ?_, hlocx, hlocy⟩
    exact handle_before hc c hbefore ha hb (mt (h.requeues_iff hc hx c).mpr hi)
      (mt (h.requeues_iff hc hy c).mpr hj)

/-- **One command** that fills an order has filled the one ahead of it in whole
before. -/
theorem Engine.Refines.ahead_in_turn
    {o o' : Order} {front back : List OutputEvent} {ev : OutputEvent}
    (h : Engine.Refines cfg e s loc free) (hc : Consistent cfg s)
    (he : e.handle Build.release c = .ok (e', es)) (hahead : e.Ahead i j)
    (ho : e.book.arena.orderAt i = some o) (ho' : e.book.arena.orderAt j = some o')
    (hid : ∀ j₁ o₁, e.book.arena.orderAt j₁ = some o₁ → o₁.orderId = o'.orderId → j₁ = j)
    (hes : es = front ++ ev :: back) (hev : ev.resting? = some o'.orderId) :
    ∃ ev', ev' ∈ front ∧ ev'.resting? = some o.orderId ∧
      ev'.fillQty = o.leavesQty.toNat := by
  obtain ⟨rfl, -⟩ := h.handle_loc hc he
  obtain ⟨side, a, b, hbefore, rfl, rfl⟩ := h.ahead_iff.mp hahead
  obtain ⟨⟨ka, x, hx, -, rfl⟩, kb, y, hy, -, rfl⟩ := hbefore.mem hc
  rw [h.orderAt hx, Option.some.injEq] at ho
  rw [h.orderAt hy, Option.some.injEq] at ho'
  subst ho ho'
  have hnums : ∀ k z, z ∈ s.queue k → z.order.orderId = y.order.orderId → z.num = y.num := by
    intro k z hz hsame
    obtain rfl := h.loc_inj hz hy (hid (loc z.num) z.order (h.orderAt hz) hsame)
    rfl
  obtain ⟨kz, z, hz, hnum, p, hfill⟩ := handle_in_turn hc c hbefore hy hnums hes hev
  obtain rfl := hc.distinct.eq hz hx hnum
  exact ⟨_, hfill, rfl, rfl⟩

/-- A run keeps the order of two orders that stay. -/
theorem Engine.Refines.ahead_run
    {mid : List Command} {evs : List (List OutputEvent)}
    (h : Engine.Refines cfg e s loc free) (hc : Consistent cfg s)
    (hrun : e.run Build.release mid = .ok (e₁, evs)) (hahead : e.Ahead i j)
    (hi : e.Stays i mid) (hj : e.Stays j mid) :
    e₁.Ahead i j := by
  induction mid generalizing e s loc free evs with
  | nil =>
      obtain ⟨rfl, -⟩ := Prod.mk.inj (Except.ok.inj hrun)
      exact hahead
  | cons c mid ih =>
      rw [Engine.run] at hrun
      obtain ⟨⟨e', es⟩, he, hrun⟩ := bind_eq_ok.mp hrun
      obtain ⟨⟨e'', evs'⟩, hrest, hrun⟩ := bind_eq_ok.mp hrun
      obtain ⟨rfl, -⟩ := Prod.mk.inj (Except.ok.inj hrun)
      obtain ⟨hni, hi⟩ := hi
      obtain ⟨hnj, hj⟩ := hj
      obtain ⟨hsame, hi⟩ := hi e' es he
      obtain ⟨hsame', hj⟩ := hj e' es he
      obtain ⟨-, hkept⟩ := h.ahead_step hc he hahead hni hnj hsame
      obtain ⟨-, loc', free', h', -⟩ := h.handle_loc hc he
      exact ih h' (handle_consistent hc c) hrest (hkept hsame') hi hj

end Steps

section Results

variable {cfg : Config} {e e₁ e₂ : Engine} {pre mid : List Command}
variable {evs evs₁ : List (List OutputEvent)} {c : Command} {es : List OutputEvent} {i j : Nat}

/-- **Price-time priority.**  Take two orders of a side in a state of a run, one
ahead of the other, and the commands that follow.  As long as both rest and
neither is put into another queue, the one stays ahead of the other, and as long
as the one rests no command fills the other.  With fewer than `2 ^ 64` commands,
when order ids are distinct, no fill carries the id of the other at all, and in the
command that ends the one no fill does before the fill of all that is left of it. -/
theorem run_keeps_priority
    (hpos : 1 ≤ cfg.capacity) (hlt : cfg.capacity < 2 ^ 32)
    (hrun : (Engine.new cfg).run Build.release pre = .ok (e, evs)) (hahead : e.Ahead i j)
    (hmid : e.run Build.release mid = .ok (e₁, evs₁))
    (hi : e.Stays i mid) (hj : e.Stays j mid)
    (he : e₁.handle Build.release c = .ok (e₂, es))
    (hci : ¬ e₁.Requeues c i) (hcj : ¬ e₁.Requeues c j) :
    e₁.Ahead i j ∧
      (e₁.SameOrder e₂ i →
        (e₁.SameOrder e₂ j → e₂.Ahead i j) ∧ e₁.Spares e₂ c es j ∧
          ((pre ++ mid).length < 2 ^ 64 → ∀ o ev, e₁.book.arena.orderAt j = some o → ev ∈ es →
            ev.resting? ≠ some o.orderId)) ∧
      ((pre ++ mid).length < 2 ^ 64 → ∀ o o' front ev back,
        e₁.book.arena.orderAt i = some o → e₁.book.arena.orderAt j = some o' →
        es = front ++ ev :: back → ev.resting? = some o'.orderId →
        ∃ ev', ev' ∈ front ∧ ev'.resting? = some o.orderId ∧
          ev'.fillQty = o.leavesQty.toNat) := by
  have hcfg := consistent_new cfg
  obtain ⟨⟨loc, free, h⟩, -⟩ := Engine.simulates_of_run Build.wrapping_release hpos hlt hrun
  have hahead₁ := h.ahead_run (run_consistent hcfg pre) hmid hahead hi hj
  have hrun₁ : (Engine.new cfg).run Build.release (pre ++ mid) = .ok (e₁, evs ++ evs₁) := by
    simp only [Engine.run_append, hrun, ok_bind, hmid]
  obtain ⟨⟨loc₁, free₁, h₁⟩, -⟩ := Engine.simulates_of_run Build.wrapping_release hpos hlt hrun₁
  have hc₁ := run_consistent hcfg (pre ++ mid)
  have hdistinct : (pre ++ mid).length < 2 ^ 64 → ∀ {o'}, e₁.book.arena.orderAt j = some o' →
      ∀ j₁ o₁, e₁.book.arena.orderAt j₁ = some o₁ → o₁.orderId = o'.orderId → j₁ = j := by
    intro hlen o' ho' j₁ o₁ ho₁ hsameId
    have hnum : (run cfg State.new (pre ++ mid)).1.nextNum ≤ 2 ^ 64 := by
      have hle := run_nextNum_le cfg State.new (pre ++ mid)
      have hplace := List.countP_le_length (p := Command.isPlace) (l := pre ++ mid)
      have hnew : State.new.nextNum = 1 := rfl
      omega
    exact (h₁.indexSound hc₁ hnum).distinct j₁ j o₁ o' ho₁ ho' hsameId
  refine ⟨hahead₁, fun hsame => ?_, fun hlen o o' front ev back ho ho' hes hev => ?_⟩
  · obtain ⟨hspares, hkept⟩ := h₁.ahead_step hc₁ he hahead₁ hci hcj hsame
    refine ⟨hkept, hspares, fun hlen o ev ho hev hid => ?_⟩
    obtain ⟨j', o', hne, ho', hsameId⟩ := hspares.fills o ev ho hev hid
    exact hne (hdistinct hlen ho j' o' ho' hsameId)
  · exact h₁.ahead_in_turn hc₁ he hahead₁ ho ho' (hdistinct hlen ho') hes hev

/-- Two bids for two lots at one price. -/
def twoBids : List Command :=
  [.place 1 0 (Vector.replicate 8 0) .buy .limit (some 100) 2 .gtc,
    .place 2 0 (Vector.replicate 8 0) .buy .limit (some 100) 2 .gtc]

/-- An ask for two lots. -/
def askTwo : Command :=
  .place 4 0 (Vector.replicate 8 0) .sell .limit (some 100) 2 .gtc

/-- An ask for one lot fills the first bid in part, and one for two lots what is
left of it and then a part of the second. -/
theorem run_keeps_priority_twoBids :
    ∃ e evs e₁ evs₁ e₂,
      (Engine.new smallConfig).run Build.release twoBids = .ok (e, evs) ∧ e.Ahead 0 1 ∧
      e.run Build.release [askOne 3 100] = .ok (e₁, evs₁) ∧ e₁.Ahead 0 1 ∧
      e₁.handle Build.release askTwo = .ok (e₂,
        [.fill 4 1 4 1 (Vector.replicate 8 0) 100 1 .sell,
          .fill 4 2 4 2 (Vector.replicate 8 0) 100 1 .sell]) ∧
      ∃ ev', ev' ∈ [OutputEvent.fill 4 1 4 1 (Vector.replicate 8 0) 100 1 .sell] ∧
        ev'.resting? = some 1 ∧ ev'.fillQty = 1 := by
  obtain ⟨⟨⟨e, evs⟩, ⟨e₁, evs₁⟩, e₂, es⟩, hsteps, hbids⟩ := exists_of_yields
    (x := do
      let r ← (Engine.new smallConfig).run Build.release twoBids
      let r₁ ← r.1.run Build.release [askOne 3 100]
      let r₂ ← r₁.1.handle Build.release askTwo
      .ok (r, r₁, r₂))
    (p := fun r => decide (r.1.1.book.slots .buy 0 = [0, 1]) &&
      decide ([0, 1].map (fun i => (r.1.1.book.arena.orderAt i).map
          (fun o => (o.orderId, o.side))) = [some (1, .buy), some (2, .buy)]) &&
      decide ([0, 1].map (fun i => (r.2.1.1.book.arena.orderAt i).map
          (fun o => (o.orderId, o.side, o.leavesQty))) =
        [some (1, .buy, 1), some (2, .buy, 2)]) &&
      decide (r.2.2.2 = [.fill 4 1 4 1 (Vector.replicate 8 0) 100 1 .sell,
        .fill 4 2 4 2 (Vector.replicate 8 0) 100 1 .sell]))
    (by decide +kernel)
  simp only [Bool.and_eq_true, decide_eq_true_eq, List.map_cons, List.map_nil, List.cons.injEq,
    Option.map_eq_some_iff, Prod.mk.injEq, and_true] at hbids
  obtain ⟨⟨⟨hslots, ⟨a, ha, haid, haside⟩, b, hb, hbid, hbside⟩, ⟨a', ha', haid', haside', hleft⟩,
    b', hb', hbid', hbside', -⟩, rfl⟩ := hbids
  obtain ⟨r, hrun, hsteps⟩ := bind_eq_ok.mp hsteps
  obtain ⟨r₁, hmid, hsteps⟩ := bind_eq_ok.mp hsteps
  obtain ⟨r₂, he, hsteps⟩ := bind_eq_ok.mp hsteps
  obtain ⟨rfl, hrest⟩ := Prod.mk.inj (Except.ok.inj hsteps)
  obtain ⟨rfl, rfl⟩ := Prod.mk.inj hrest
  have htick : 0 < numTicks := by rw [numTicks_eq]; decide
  have hahead : e.Ahead 0 1 :=
    ⟨.buy, 0, 0, htick, htick, by simp [hslots], by simp [hslots],
      Or.inr ⟨rfl, by rw [hslots]⟩⟩
  -- both bids are still there after the ask for one lot
  have hstays : ∀ {i o o'}, e.book.arena.orderAt i = some o → e₁.book.arena.orderAt i = some o' →
      o'.orderId = o.orderId → o'.side = o.side → e.Stays i [askOne 3 100] := by
    intro i o o' ho ho' hid hside
    refine ⟨id, fun e' es' he' => ⟨?_, trivial⟩⟩
    have hsame : e.run Build.release [askOne 3 100] = .ok (e', [es']) := by
      simp only [Engine.run, he', ok_bind]
    rw [hmid, Except.ok.injEq, Prod.mk.injEq] at hsame
    obtain ⟨rfl, -⟩ := hsame
    exact ⟨o, o', ho, ho', hid, hside⟩
  obtain ⟨hahead₁, -, hturn⟩ := run_keeps_priority (by decide) (by decide) hrun hahead hmid
    (hstays ha ha' (haid'.trans haid.symm) (haside'.trans haside.symm))
    (hstays hb hb' (hbid'.trans hbid.symm) (hbside'.trans hbside.symm)) he id id
  obtain ⟨ev', hmem, hrest, hqty⟩ :=
    hturn (by decide) a' b' [_] _ [] ha' hb' rfl (congrArg some hbid'.symm)
  rw [haid'] at hrest
  rw [hleft] at hqty
  exact ⟨e, evs, e₁, evs₁, e₂, hrun, hahead, hmid, hahead₁, he, ev', hmem, hrest, hqty⟩

end Results

end LmaxEngine
