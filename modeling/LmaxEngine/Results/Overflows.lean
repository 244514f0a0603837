import LmaxEngine.Refinement.Builds
import LmaxEngine.Refinement.Overflows
import LmaxEngine.Results.Executions

/-!
# Where additions on quantities overflow

The engine adds quantities in three places, and no handler bounds what is added.
Here is what a command must be for one of the sums to exceed its type, in terms
of the state before it, and that a build that checks the sums completes exactly
the runs without such commands.

The total of a level is kept by additions that may wrap and by subtractions that
saturate.  A run that aborts nowhere with checked arithmetic has no command that
overflows, so after each of its commands every total is the sum of what the orders
of the level have left, and no subtraction from a total saturates.
-/

namespace LmaxEngine

open Checked Queues Arena PriceTime

/-- The build that checks the additions on quantities and nothing else. -/
def Build.sums : Build
  | .qtyOverflow => true
  | _ => false

theorem Build.uncounted_sums :
    Build.Uncounted Build.sums :=
  ⟨rfl, rfl⟩

/-- The quantity that the orders of a list of slots hold together. -/
def Engine.heldQty (e : Engine) (slots : List Nat) : Nat :=
  (slots.map e.leavesAt).sum

/-- A placement that comes to rest at a level that cannot take what is left of
it. -/
def Engine.Overloads
    (cfg : Config) (e : Engine)
    (clientId : UInt64) (side : Side) (price quantity : UInt64) : Prop :=
  e.Rests cfg clientId side price quantity ∧ ∃ t, e.book.priceToTick price = .ok (some t) ∧
    2 ^ 64 ≤ e.heldQty (e.book.slots side t) + (quantity.toNat - e.across cfg side price)

/-- A command for which some addition on quantities exceeds its type: an accepted
placement that fills an order in part beyond its counter or rests at a level that
cannot take it, or a modification that takes more off an order in place than its
counter can count or moves it to a level that cannot take it. -/
def Engine.Overflows (cfg : Config) (e : Engine) : Command → Prop
  | .place clientId _ _ side orderType price quantity _ =>
      e.Accepts clientId orderType price quantity ∧
        (e.Overfills cfg side (limitOf orderType price) quantity ∨
          ∃ limit, orderType = .limit ∧ price = some limit ∧
            e.Overloads cfg clientId side limit quantity)
  | .modify clientId clientOrderId newPrice newQty =>
      ∃ i o, e.Names (clientId, clientOrderId) i o ∧ newQty.getD o.leavesQty ≠ 0 ∧
        ((newPrice.getD o.price = o.price ∧ newQty.getD o.leavesQty ≤ o.leavesQty ∧
            2 ^ 64 ≤ o.filledQty.toNat +
              (o.leavesQty.toNat - (newQty.getD o.leavesQty).toNat)) ∨
          (¬ (newPrice.getD o.price = o.price ∧ newQty.getD o.leavesQty ≤ o.leavesQty) ∧
            ∃ t, e.book.priceToTick (newPrice.getD o.price) = .ok (some t) ∧
              2 ^ 64 ≤ e.heldQty ((e.book.slots o.side t).filter (fun j => decide (j ≠ i))) +
                (newQty.getD o.leavesQty).toNat))
  | _ => False

/-- No command of a run overflows in the state before it. -/
def Engine.SumsFit (cfg : Config) (cs : List Command) : Prop :=
  ∀ pre c post e evs, cs = pre ++ c :: post →
    (Engine.new cfg).run Build.release pre = .ok (e, evs) → ¬ e.Overflows cfg c

section Abstraction

variable {cfg : Config} {e : Engine} {s : State} {loc : Nat → Nat} {free : List Nat}
variable {side : Side} {t : Nat}

/-- Slots hold what their entries do. -/
theorem Engine.Refines.heldQty_map
    {k : Level} {xs : List Entry}
    (h : Engine.Refines cfg e s loc free) (hxs : ∀ x, x ∈ xs → x ∈ s.queue k) :
    e.heldQty (xs.map (fun x => loc x.num)) = (xs.map Entry.leaves).sum := by
  rw [Engine.heldQty, List.map_map]
  congr 1
  refine List.map_congr_left fun x hx => ?_
  rw [Function.comp_apply, Engine.leavesAt, h.orderAt (hxs x hx)]
  rfl

theorem Engine.Refines.heldQty_slots
    (h : Engine.Refines cfg e s loc free) (ht : t < numTicks) :
    e.heldQty (e.book.slots side t) = s.held (side, t) := by
  rw [h.slots_eq ht, h.heldQty_map fun x hx => hx, State.held, weigh, Finset.sum_singleton]

/-- The orders of a level but one hold what the queue does without its entry. -/
theorem Engine.Refines.heldQty_others
    {k : Level} {x : Entry}
    (h : Engine.Refines cfg e s loc free) (hc : Consistent cfg s) (hx : x ∈ s.queue k)
    (ht : t < numTicks) :
    e.heldQty ((e.book.slots side t).filter (fun j => decide (j ≠ loc x.num))) =
      (s.leave k x).held (side, t) := by
  have hqueue : (s.leave k x).queue (side, t) =
      (s.queue (side, t)).filter (fun y => decide (y.num ≠ x.num)) :=
    hc.distinct.discard_eq_filter hx
  have hslots : (e.book.slots side t).filter (fun j => decide (j ≠ loc x.num)) =
      ((s.leave k x).queue (side, t)).map (fun y => loc y.num) := by
    rw [hqueue]
    exact h.slots_others ht fun y hy =>
      ⟨fun hnum => congrArg loc hnum, fun hloc => by rw [h.loc_inj hy hx hloc]⟩
  rw [hslots, h.heldQty_map (k := (side, t)), State.held, weigh, Finset.sum_singleton]
  intro y hy
  rw [hqueue] at hy
  exact List.mem_of_mem_filter hy

theorem Engine.Refines.overloads_iff
    {clientId price quantity : UInt64}
    (h : Engine.Refines cfg e s loc free) :
    e.Overloads cfg clientId side price quantity ↔
      PriceTime.Overloads cfg s clientId side price quantity := by
  refine and_congr h.rests_iff (exists_congr fun t => ?_)
  rw [h.priceToTick_iff, h.across_eq]
  exact and_congr_right fun ht => by rw [h.heldQty_slots (tickOf_lt ht)]

/-- **The engine overflows where the plain book says so.** -/
theorem Engine.Refines.overflows_iff
    (h : Engine.Refines cfg e s loc free) (hc : Consistent cfg s) (c : Command) :
    e.Overflows cfg c ↔ PriceTime.Overflows cfg s c := by
  cases c with
  | place clientId clientOrderId symbol side orderType price quantity tif =>
      refine and_congr h.accepts_iff (or_congr ?_ ?_)
      · exact h.overfills_iff hc
          (s.placement clientId clientOrderId symbol side (limitOf orderType price) quantity)
      · exact exists_congr fun limit =>
          and_congr_right fun _ => and_congr_right fun _ => h.overloads_iff
  | cancel clientId clientOrderId => exact Iff.rfl
  | modify clientId clientOrderId newPrice newQty =>
      constructor
      · rintro ⟨i, o, hn, hqty, hsum⟩
        obtain ⟨k, x, hx, hindex, rfl, rfl⟩ := (h.names_iff hc).mp hn
        refine ⟨k, x, hx, hindex, hqty, hsum.imp_right fun ⟨hmove, t, ht, hover⟩ => ?_⟩
        rw [h.priceToTick_iff] at ht
        rw [h.heldQty_others hc hx (tickOf_lt ht)] at hover
        exact ⟨hmove, t, ht, hover⟩
      · rintro ⟨k, x, hx, hindex, hqty, hsum⟩
        refine ⟨_, _, (h.names_iff hc).mpr ⟨k, x, hx, hindex, rfl, rfl⟩, hqty,
          hsum.imp_right fun ⟨hmove, t, ht, hover⟩ => ?_⟩
        rw [← h.heldQty_others hc hx (tickOf_lt ht)] at hover
        exact ⟨hmove, t, h.priceToTick_iff.mpr ht, hover⟩

/-- What overflows is about some resting order or some tick. -/
theorem PriceTime.Overflows.ne_zero
    {c : Command}
    (hc : Consistent cfg s) (hbad : PriceTime.Overflows cfg s c) :
    cfg.tickSize ≠ 0 := by
  cases c with
  | place clientId clientOrderId symbol side orderType price quantity tif =>
      obtain ⟨-, hover | ⟨limit, -, -, -, t, ht, -⟩⟩ := hbad
      · obtain ⟨k, x, hx, -⟩ := hover
        exact ne_zero_of_tickOf (hc.entry hx).tick
      · exact ne_zero_of_tickOf ht
  | cancel clientId clientOrderId => exact absurd hbad id
  | modify clientId clientOrderId newPrice newQty =>
      obtain ⟨k, x, hx, -⟩ := hbad
      exact ne_zero_of_tickOf (hc.entry hx).tick

theorem Engine.tallies_new
    (cfg : Config) :
    (Engine.new cfg).Tallies State.new := by
  rintro ⟨side, t⟩ -
  cases side <;> rfl

end Abstraction

section Results

variable {β : Build} {cfg : Config} {e : Engine} {s : State} {loc : Nat → Nat}
variable {free : List Nat}

/-- A run without a sum beyond 64 bits is the run of the plain book, also where
the sums are checked. -/
theorem Engine.run_tracks
    (hβ : β.Uncounted)
    (h : Engine.Simulates cfg e s) (hc : Consistent cfg s) (htallies : e.Tallies s)
    (cs : List Command)
    (hno : ∀ pre c post, cs = pre ++ c :: post →
      ¬ PriceTime.Overflows cfg (PriceTime.run cfg s pre).1 c) :
    (∃ e', e.run β cs = .ok (e', (PriceTime.run cfg s cs).2)) ∨
      e.run β cs = .error .divisionByZero := by
  induction cs generalizing e s with
  | nil => exact Or.inl ⟨e, rfl⟩
  | cons c cs ih =>
      obtain ⟨loc, free, h⟩ := h
      have hfirst : ¬ PriceTime.Overflows cfg s c := hno [] c cs rfl
      have hrest : ∀ pre c' post, cs = pre ++ c' :: post →
          ¬ PriceTime.Overflows cfg
            (PriceTime.run cfg (PriceTime.handle cfg s c).1 pre).1 c' := by
        intro pre c' post hcs
        exact hno (c :: pre) c' post (by rw [hcs, List.cons_append])
      rw [Engine.run, PriceTime.run]
      have htrack : Engine.Tracks cfg loc s.nextNum True (e.handle β c)
          (PriceTime.handle cfg s c) :=
        Engine.handle_tracks hβ.counter (fun _ => trivial) h hc c (fun _ => htallies)
          (fun _ => hfirst)
      rcases htrack with ⟨e₁, loc', free', he, h', -, htallies'⟩ | ⟨-, he⟩
      · rcases ih ⟨loc', free', h'⟩ (handle_consistent hc c) (htallies' trivial) hrest with
          ⟨e', hrun⟩ | hrun
        · simp only [he, ok_bind, hrun]
          exact Or.inl ⟨e', rfl⟩
        · simp only [he, ok_bind, hrun, error_bind]
          exact Or.inr trivial
      · simp only [he, error_bind]
        exact Or.inr trivial

/-- A command at which no check of the sums aborts does not overflow. -/
theorem Engine.not_overflows_of_cons
    {c : Command} {cs : List Command}
    (hβ : β.Uncounted) (hqty : β .qtyOverflow = true)
    (h : Engine.Refines cfg e s loc free) (hc : Consistent cfg s) (htallies : e.Tallies s)
    (hok : ∀ k, e.run β (c :: cs) ≠ .error (.check k)) :
    ¬ PriceTime.Overflows cfg s c := by
  intro hover
  refine hok .qtyOverflow ?_
  rw [Engine.run, Engine.handle_overflows hβ.counter hqty h hc htallies c hover, error_bind]

/-- A run that no check of the sums aborts has no command that overflows. -/
theorem Engine.not_overflows_of_run
    {pre post : List Command} {c : Command}
    (hβ : β.Uncounted) (hqty : β .qtyOverflow = true)
    (h : Engine.Simulates cfg e s) (hc : Consistent cfg s) (htallies : e.Tallies s)
    (hok : ∀ k, e.run β (pre ++ c :: post) ≠ .error (.check k)) :
    ¬ PriceTime.Overflows cfg (PriceTime.run cfg s pre).1 c := by
  induction pre generalizing e s with
  | nil =>
      obtain ⟨loc, free, h⟩ := h
      exact Engine.not_overflows_of_cons hβ hqty h hc htallies hok
  | cons d pre ih =>
      obtain ⟨loc, free, h⟩ := h
      have hno := Engine.not_overflows_of_cons hβ hqty h hc htallies hok
      have htrack : Engine.Tracks cfg loc s.nextNum True (e.handle β d)
          (PriceTime.handle cfg s d) :=
        Engine.handle_tracks hβ.counter (fun _ => trivial) h hc d (fun _ => htallies)
          (fun _ => hno)
      rw [PriceTime.run]
      rcases htrack with ⟨e₁, loc', free', he, h', -, htallies'⟩ | ⟨hz, -⟩
      · refine ih ⟨loc', free', h'⟩ (handle_consistent hc d) (htallies' trivial) fun k hk => ?_
        refine hok k ?_
        rw [List.cons_append, Engine.run]
        simp only [he, ok_bind, hk, error_bind]
      · exact fun hover => hover.ne_zero (run_consistent (handle_consistent hc d) pre) hz

/-- **Where the sums of quantities fit.**  If no command of a run overflows in the
state before it, then no sum of the run exceeds its type: a build that checks
the sums aborts nowhere, and the run is the same as without the checks.  Every
other run is aborted by a build that checks the sums. -/
theorem run_sums_fit
    (hβ : β.Uncounted) (hpos : 1 ≤ cfg.capacity) (hlt : cfg.capacity < 2 ^ 32)
    (cs : List Command) :
    (Engine.SumsFit cfg cs →
        (∀ k, (Engine.new cfg).run β cs ≠ .error (.check k)) ∧
          (Engine.new cfg).run β cs = (Engine.new cfg).run Build.release cs) ∧
      (β .qtyOverflow = true →
        ((∀ k, (Engine.new cfg).run β cs ≠ .error (.check k)) ↔ Engine.SumsFit cfg cs)) := by
  have hnew := Engine.simulates_new hpos hlt
  have hcfg := consistent_new cfg
  have hfit : Engine.SumsFit cfg cs →
      (∀ k, (Engine.new cfg).run β cs ≠ .error (.check k)) ∧
        (Engine.new cfg).run β cs = (Engine.new cfg).run Build.release cs := by
    intro hno
    have hplain : ∀ pre c post, cs = pre ++ c :: post →
        ¬ PriceTime.Overflows cfg (PriceTime.run cfg State.new pre).1 c := by
      intro pre c post hcs hover
      have hc := run_consistent hcfg pre
      rcases Engine.run_agrees Build.wrapping_release hnew hcfg pre with
        ⟨e, hrun, loc, free, h⟩ | ⟨hz, -⟩
      · exact hno pre c post e _ hcs hrun ((h.overflows_iff hc c).mpr hover)
      · exact hover.ne_zero hc hz
    have htracks := Engine.run_tracks hβ hnew hcfg (Engine.tallies_new cfg) cs hplain
    have hcheck : ∀ k, (Engine.new cfg).run β cs ≠ .error (.check k) := by
      intro k hk
      rcases htracks with ⟨e', hrun⟩ | hrun
      · rw [hk] at hrun
        exact absurd hrun (by simp)
      · rw [hk] at hrun
        exact absurd hrun (by simp)
    exact ⟨hcheck, (Engine.run_guards β.covers_release _ cs).eq hcheck⟩
  refine ⟨hfit, fun hqty => ⟨fun hok pre c post e evs hcs hrun hover => ?_,
    fun hno => (hfit hno).1⟩⟩
  · obtain ⟨⟨loc, free, h⟩, -⟩ := Engine.simulates_of_run Build.wrapping_release hpos hlt hrun
    rw [hcs] at hok
    exact Engine.not_overflows_of_run hβ hqty hnew hcfg (Engine.tallies_new cfg) hok
      ((h.overflows_iff (run_consistent hcfg pre) c).mp hover)

/-- A bid of client 1 for a quantity. -/
def bidFor (key quantity : UInt64) : Command :=
  .place 1 key (Vector.replicate 8 0) .buy .limit (some 100) quantity .gtc

/-- Two bids at one price that hold more than 64 bits together. -/
def heavyBids : List Command :=
  [bidFor 0 18446744073709551615, bidFor 1 1]

/-- No sum of the session exceeds its type, and one of the heavy bids does. -/
theorem run_sums_fit_session :
    Engine.SumsFit smallConfig session ∧
      (Engine.new smallConfig).run Build.sums session =
        (Engine.new smallConfig).run Build.release session ∧
      ¬ Engine.SumsFit smallConfig heavyBids := by
  obtain ⟨hfit, hiff⟩ :=
    run_sums_fit Build.uncounted_sums (by decide) (by decide : smallConfig.capacity < 2 ^ 32)
      session
  obtain ⟨-, hheavy⟩ :=
    run_sums_fit Build.uncounted_sums (by decide) (by decide : smallConfig.capacity < 2 ^ 32)
      heavyBids
  obtain ⟨r, hrun, -⟩ := exists_of_yields
    (x := (Engine.new smallConfig).run Build.sums session) (p := fun _ => true)
    (by decide +kernel)
  have hsums : Engine.SumsFit smallConfig session :=
    (hiff rfl).mp fun k hk => by simp [hrun] at hk
  refine ⟨hsums, (hfit hsums).2, fun hno => ?_⟩
  exact (hheavy rfl).mpr hno .qtyOverflow (eq_error_of_fault? (by decide +kernel))

/-- The total of their level does not fit, and wraps to zero where nothing is
checked. -/
theorem sums_unfit_heavyBids :
    heavyBids.length < 2 ^ 32 ∧
      (Engine.new smallConfig).run Build.sums heavyBids = .error (.check .qtyOverflow) ∧
      ∃ e evs, (Engine.new smallConfig).run Build.release heavyBids = .ok (e, evs) ∧
        e.book.total (.buy, 0) = 0 ∧
        e.heldQty (e.book.slots .buy 0) = 2 ^ 64 := by
  refine ⟨by decide, eq_error_of_fault? (by decide +kernel), ?_⟩
  obtain ⟨⟨e, evs⟩, hrun, htotal⟩ := exists_of_yields
    (x := (Engine.new smallConfig).run Build.release heavyBids)
    (p := fun r => decide (r.1.book.total (.buy, 0) = 0) &&
      decide (r.1.heldQty (r.1.book.slots .buy 0) = 2 ^ 64))
    (by decide +kernel)
  simp only [Bool.and_eq_true, decide_eq_true_eq] at htotal
  exact ⟨e, evs, hrun, htotal⟩

end Results

/-- The build that checks for all but counters that wrap: also for totals that
saturate. -/
def Build.exact : Build
  | .counterOverflow => false
  | _ => true

theorem Build.exact_covers_sums :
    Build.exact.Covers Build.sums := by
  intro k hk
  cases k with
  | qtyOverflow => rfl
  | _ => exact absurd hk (by simp [Build.sums])

theorem Build.debug_covers_sums :
    Build.debug.Covers Build.sums := by
  intro k hk
  cases k with
  | qtyOverflow => rfl
  | _ => exact absurd hk (by simp [Build.sums])

section Totals

variable {cfg : Config} {e e' : Engine} {s : State} {loc : Nat → Nat} {free : List Nat}
variable {cs : List Command} {es : List OutputEvent} {evs : List (List OutputEvent)}

/-- A command whose sums are checked and fit keeps the totals right, and no total
saturates. -/
theorem Engine.handle_exact
    {c : Command}
    (h : Engine.Refines cfg e s loc free) (hc : Consistent cfg s) (htallies : e.Tallies s)
    (hok : e.handle Build.sums c = .ok (e', es)) :
    Engine.Simulates cfg e' (PriceTime.handle cfg s c).1 ∧
      e'.Tallies (PriceTime.handle cfg s c).1 ∧
      e.handle Build.exact c = .ok (e', es) := by
  have hno : ¬ PriceTime.Overflows cfg s c := by
    intro hover
    rw [Engine.handle_overflows rfl rfl h hc htallies c hover] at hok
    exact absurd hok (by simp)
  have hguards := Engine.handle_guards Build.exact_covers_sums e c
  have htracks : Engine.Tracks cfg loc s.nextNum True (e.handle Build.exact c)
      (PriceTime.handle cfg s c) :=
    Engine.handle_tracks rfl (fun _ => trivial) h hc c (fun _ => htallies) (fun _ => hno)
  rw [hok] at hguards
  rcases htracks with ⟨e₁, loc', free', he, h', -, htallies'⟩ | ⟨-, he⟩
  · have hsame := hguards.eq fun k hk => by simp [he] at hk
    rw [he, Except.ok.injEq, Prod.mk.injEq] at hsame
    obtain ⟨rfl, -⟩ := hsame
    exact ⟨⟨loc', free', h'⟩, htallies' trivial, hguards.eq fun k hk => by simp [he] at hk⟩
  · have hsame := hguards.eq fun k hk => by simp [he] at hk
    rw [he] at hsame
    exact absurd hsame (by simp)

/-- A run whose sums are checked and fit keeps the totals right, and no total
saturates. -/
theorem Engine.run_exact
    (h : Engine.Simulates cfg e s) (hc : Consistent cfg s) (htallies : e.Tallies s)
    (hrun : e.run Build.sums cs = .ok (e', evs)) :
    Engine.Simulates cfg e' (PriceTime.run cfg s cs).1 ∧
      e'.Tallies (PriceTime.run cfg s cs).1 ∧
      e.run Build.exact cs = .ok (e', evs) := by
  induction cs generalizing e s evs with
  | nil =>
      obtain ⟨rfl, rfl⟩ := Prod.mk.inj (Except.ok.inj hrun)
      exact ⟨h, htallies, rfl⟩
  | cons c cs ih =>
      obtain ⟨loc, free, h⟩ := h
      rw [Engine.run] at hrun
      obtain ⟨⟨e₁, es⟩, he, hafter⟩ := bind_eq_ok.mp hrun
      obtain ⟨⟨e₂, rest⟩, hrest, hout⟩ := bind_eq_ok.mp hafter
      obtain ⟨rfl, rfl⟩ := Prod.mk.inj (Except.ok.inj hout)
      obtain ⟨h₁, ht₁, hexact⟩ := Engine.handle_exact h hc htallies he
      obtain ⟨h₂, ht₂, hexact'⟩ := ih h₁ (handle_consistent hc c) ht₁ hrest
      refine ⟨h₂, ht₂, ?_⟩
      simp only [Engine.run, hexact, ok_bind, hexact']

/-- The total of a level is the sum of what its orders have left. -/
theorem Engine.Refines.total_eq
    {side : Side} {t : Nat} {pl : PriceLevel}
    (h : Engine.Refines cfg e s loc free) (htallies : e.Tallies s) (ht : t < numTicks)
    (hpl : (e.book.half side).priceLevels t = some pl) :
    pl.totalQty.toNat = e.heldQty (e.book.slots side t) := by
  rw [h.heldQty_slots ht, ← htallies (side, t) ht, OrderBook.total, HalfBook.total, hpl]
  rfl

/-- **The totals of the levels are exact.**  If a run completes with checked
arithmetic, then after each of its commands the total of every level is the sum of
what the orders of its list have left, and the run has the same result in a build
that also aborts where a subtraction from a total saturates. -/
theorem run_totals
    (hpos : 1 ≤ cfg.capacity) (hlt : cfg.capacity < 2 ^ 32)
    (hrun : (Engine.new cfg).run Build.debug cs = .ok (e, evs)) :
    (∀ pre post, cs = pre ++ post → ∃ e' evs',
        (Engine.new cfg).run Build.debug pre = .ok (e', evs') ∧
        ∀ side t pl, t < numTicks → (e'.book.half side).priceLevels t = some pl →
          pl.totalQty.toNat = e'.heldQty (e'.book.slots side t)) ∧
      (Engine.new cfg).run Build.exact cs = .ok (e, evs) := by
  have hsums : ∀ {cs e evs}, (Engine.new cfg).run Build.debug cs = .ok (e, evs) →
      (Engine.new cfg).run Build.sums cs = .ok (e, evs) := by
    intro cs e evs hrun
    have hguards := Engine.run_guards Build.debug_covers_sums (Engine.new cfg) cs
    rw [hrun] at hguards
    exact (hguards.eq (by simp)).symm
  have hnew := Engine.simulates_new hpos hlt
  have htallies := Engine.tallies_new cfg
  refine ⟨fun pre post hcs => ?_,
    (Engine.run_exact hnew (consistent_new cfg) htallies (hsums hrun)).2.2⟩
  rw [hcs, Engine.run_append] at hrun
  obtain ⟨⟨e', evs'⟩, hpre, -⟩ := bind_eq_ok.mp hrun
  obtain ⟨⟨loc, free, h⟩, htallies, -⟩ :=
    Engine.run_exact hnew (consistent_new cfg) htallies (hsums hpre)
  exact ⟨e', evs', hpre, fun side t pl ht hpl => h.total_eq htallies ht hpl⟩

/-- Two bids at one price, the first of which is filled in part. -/
def tradedBids : List Command :=
  [bidFor 0 5, bidFor 1 4, .place 2 0 (Vector.replicate 8 0) .sell .limit (some 100) 3 .gtc]

theorem run_totals_tradedBids :
    ∃ e evs, (Engine.new smallConfig).run Build.debug tradedBids = .ok (e, evs) ∧
      (e.book.half .buy).priceLevels 0 =
        some { head := some 0, tail := some 1, orderCount := 2, totalQty := 6 } ∧
      e.heldQty (e.book.slots .buy 0) = 6 ∧
      (Engine.new smallConfig).run Build.exact tradedBids = .ok (e, evs) := by
  obtain ⟨⟨e, evs⟩, hrun, hlevel⟩ := exists_of_yields
    (x := (Engine.new smallConfig).run Build.debug tradedBids)
    (p := fun r => decide ((r.1.book.half .buy).priceLevels 0 =
      some { head := some 0, tail := some 1, orderCount := 2, totalQty := 6 }))
    (by decide +kernel)
  have hlevel := of_decide_eq_true hlevel
  obtain ⟨hall, hexact⟩ := run_totals (by decide) (by decide) hrun
  obtain ⟨e', evs', hrun', htotal⟩ := hall tradedBids [] (List.append_nil _).symm
  obtain ⟨rfl, -⟩ := Prod.mk.inj (Except.ok.inj (hrun.symm.trans hrun'))
  exact ⟨e, evs, hrun, hlevel, (htotal .buy 0 _ (by rw [numTicks_eq]; decide) hlevel).symm, hexact⟩

end Totals

end LmaxEngine
