import LmaxEngine.Results.Index
import LmaxEngine.Spec.Breaches

/-!
# What a run can break

Two properties that the engine does not keep, each with the commands that end
it.  The index forgets an order when another order of the client comes to rest
under the same key.  The book is crossed when an order is moved to a price that
crosses, or rests at a price inside the tick of an order that it does not hit.
-/

namespace LmaxEngine

open Checked Queues Arena PriceTime

section Runs

variable {β : Build} {cfg : Config} {e e' : Engine}

/-- A run in two parts. -/
theorem Engine.run_append
    (e : Engine) (cs ds : List Command) :
    e.run β (cs ++ ds) = (do
      let (e, evs) ← e.run β cs
      let (e, evs') ← e.run β ds
      .ok (e, evs ++ evs')) := by
  induction cs generalizing e with
  | nil =>
      simp only [List.nil_append, Engine.run, ok_bind]
      cases e.run β ds with
      | error f => rfl
      | ok r => rfl
  | cons d cs ih =>
      rw [List.cons_append, Engine.run, Engine.run]
      cases e.handle β d with
      | error f => rfl
      | ok r =>
          simp only [ok_bind, ih]
          cases r.1.run β cs with
          | error f => rfl
          | ok r' =>
              simp only [ok_bind]
              cases r'.1.run β ds with
              | error f => rfl
              | ok q => rfl

/-- There is an answer for every command. -/
theorem Engine.length_events
    {β : Build} {e e' : Engine} {cs : List Command} {evs : List (List OutputEvent)}
    (hrun : e.run β cs = .ok (e', evs)) :
    evs.length = cs.length := by
  induction cs generalizing e evs with
  | nil =>
      obtain ⟨rfl, rfl⟩ := Prod.mk.inj (Except.ok.inj hrun)
      rfl
  | cons c cs ih =>
      rw [Engine.run] at hrun
      obtain ⟨⟨e₁, es⟩, -, hrun⟩ := bind_eq_ok.mp hrun
      obtain ⟨⟨e₂, rest⟩, hrest, hrun⟩ := bind_eq_ok.mp hrun
      obtain ⟨rfl, rfl⟩ := Prod.mk.inj (Except.ok.inj hrun)
      rw [List.length_cons, List.length_cons, ih hrest]

/-- A run with one more command. -/
theorem Engine.run_snoc
    (e : Engine) (cs : List Command) (c : Command) :
    e.run β (cs ++ [c]) = (do
      let (e, evs) ← e.run β cs
      let (e, events) ← e.handle β c
      .ok (e, evs ++ [events])) := by
  rw [Engine.run_append]
  cases e.run β cs with
  | error f => rfl
  | ok r =>
      simp only [ok_bind, Engine.run]
      cases r.1.handle β c with
      | error f => rfl
      | ok q => rfl

theorem Engine.simulates_of_handle
    {s : State} {c : Command} {es : List OutputEvent}
    (hβ : β.Wrapping)
    (h : Engine.Simulates cfg e s) (hc : Consistent cfg s)
    (he : e.handle β c = .ok (e', es)) :
    Engine.Simulates cfg e' (PriceTime.handle cfg s c).1 := by
  rcases Engine.handle_agrees hβ h hc c with ⟨e₁, he₁, hs⟩ | ⟨-, he₁⟩
  · rw [he, Except.ok.injEq, Prod.mk.injEq] at he₁
    obtain ⟨rfl, -⟩ := he₁
    exact hs
  · rw [he] at he₁
    exact absurd he₁ (by simp)

/-- **Induction on runs.**  What holds at the start and is kept by every command
holds at the end of a run, of the commands, the engine, the plain book and the
events of each command. -/
theorem Engine.run_induction
    {P : List Command → Engine → State → List (List OutputEvent) → Prop}
    {cs : List Command} {evs : List (List OutputEvent)}
    (hpos : 1 ≤ cfg.capacity) (hlt : cfg.capacity < 2 ^ 32)
    (hrun : (Engine.new cfg).run Build.release cs = .ok (e, evs))
    (hnew : P [] (Engine.new cfg) State.new [])
    (hstep : ∀ {cs e s evs c e' es}, (Engine.new cfg).run Build.release cs = .ok (e, evs) →
      Engine.Simulates cfg e s → Consistent cfg s → e.handle Build.release c = .ok (e', es) →
      P cs e s evs → P (cs ++ [c]) e' (PriceTime.handle cfg s c).1 (evs ++ [es])) :
    P cs e (PriceTime.run cfg State.new cs).1 evs := by
  induction cs using List.reverseRecOn generalizing e evs with
  | nil =>
      obtain ⟨rfl, rfl⟩ := Prod.mk.inj (Except.ok.inj hrun)
      exact hnew
  | append_singleton cs c ih =>
      rw [Engine.run_snoc] at hrun
      obtain ⟨⟨e₁, evs₁⟩, hrun₁, hrun⟩ := bind_eq_ok.mp hrun
      obtain ⟨⟨e₂, es⟩, he, hrun⟩ := bind_eq_ok.mp hrun
      obtain ⟨rfl, rfl⟩ := Prod.mk.inj (Except.ok.inj hrun)
      obtain ⟨hs, -⟩ := Engine.simulates_of_run Build.wrapping_release hpos hlt hrun₁
      rw [PriceTime.run_snoc]
      exact hstep hrun₁ hs (run_consistent (consistent_new cfg) cs) he (ih hrun₁)

/-- **The rule of runs.**  Where a good state goes good under exactly the
commands that are not bad there, the states of a run are all good exactly if
none of its commands is bad where it is handled.  What is good may depend on the
events so far. -/
theorem Engine.run_kept_iff
    (good : List OutputEvent → Engine → Prop) {bad : Engine → Command → Prop}
    (hpos : 1 ≤ cfg.capacity) (hlt : cfg.capacity < 2 ^ 32) (cs : List Command)
    (hnew : good [] (Engine.new cfg))
    (htick : ∀ {pre e evs c}, (Engine.new cfg).run Build.release pre = .ok (e, evs) →
      bad e c → cfg.tickSize ≠ 0)
    (hstep : ∀ {pre c post e evs e' es}, cs = pre ++ c :: post →
      (Engine.new cfg).run Build.release pre = .ok (e, evs) →
      e.handle Build.release c = .ok (e', es) →
      good evs.flatten e → (good (evs.flatten ++ es) e' ↔ ¬ bad e c)) :
    (∀ pre c post e evs, cs = pre ++ c :: post →
        (Engine.new cfg).run Build.release pre = .ok (e, evs) → ¬ bad e c) ↔
      ∀ pre post e evs, cs = pre ++ post →
        (Engine.new cfg).run Build.release pre = .ok (e, evs) → good evs.flatten e := by
  constructor
  · intro hno pre
    induction pre using List.reverseRecOn with
    | nil =>
        intro post e evs _ hrun
        obtain ⟨rfl, rfl⟩ := Prod.mk.inj (Except.ok.inj hrun)
        exact hnew
    | append_singleton pre c ih =>
        intro post e evs hcs hrun
        rw [Engine.run_snoc] at hrun
        obtain ⟨⟨e₁, evs₁⟩, hrun₁, hrun⟩ := bind_eq_ok.mp hrun
        obtain ⟨⟨e₂, es⟩, hc, hrun⟩ := bind_eq_ok.mp hrun
        obtain ⟨rfl, rfl⟩ := Prod.mk.inj (Except.ok.inj hrun)
        have hcs' : cs = pre ++ c :: post := by
          rw [hcs, List.append_assoc]
          rfl
        rw [List.flatten_append, List.flatten_singleton]
        exact (hstep hcs' hrun₁ hc (ih (c :: post) e₁ evs₁ hcs' hrun₁)).mpr
          (hno pre c post e₁ evs₁ hcs' hrun₁)
  · intro hgood pre c post e evs hcs hrun hbad
    obtain ⟨hs, -⟩ := Engine.simulates_of_run Build.wrapping_release hpos hlt hrun
    have hc := run_consistent (consistent_new cfg) pre
    rcases Engine.handle_agrees Build.wrapping_release hs hc c with ⟨e', he, -⟩ | ⟨hz, -⟩
    · have hcs' : cs = (pre ++ [c]) ++ post := by
        rw [hcs, List.append_assoc]
        rfl
      have hrun' : ∃ es, e.handle Build.release c = .ok (e', es) ∧
          (Engine.new cfg).run Build.release (pre ++ [c]) = .ok (e', evs ++ [es]) := by
        simp only [Engine.run_snoc, hrun, ok_bind, he]
        exact ⟨_, rfl, rfl⟩
      obtain ⟨es, he, hrun'⟩ := hrun'
      have hgood' := hgood (pre ++ [c]) post e' (evs ++ [es]) hcs' hrun'
      rw [List.flatten_append, List.flatten_singleton] at hgood'
      exact (hstep hcs hrun he (hgood pre (c :: post) e evs hcs hrun)).mp hgood' hbad
    · exact htick hrun hbad hz

/-- The rule of runs for what does not depend on the events. -/
theorem Engine.run_good_iff
    {good : Engine → Prop} {bad : Engine → Command → Prop}
    (hpos : 1 ≤ cfg.capacity) (hlt : cfg.capacity < 2 ^ 32)
    (hnew : good (Engine.new cfg))
    (htick : ∀ {e s c}, Engine.Simulates cfg e s → bad e c → cfg.tickSize ≠ 0)
    (hstep : ∀ {e e' s c}, Engine.Simulates cfg e s → Consistent cfg s →
      Engine.Simulates cfg e' (PriceTime.handle cfg s c).1 → good e → (good e' ↔ ¬ bad e c))
    (cs : List Command) :
    (∀ pre c post e evs, cs = pre ++ c :: post →
        (Engine.new cfg).run Build.release pre = .ok (e, evs) → ¬ bad e c) ↔
      ∀ pre post e evs, cs = pre ++ post →
        (Engine.new cfg).run Build.release pre = .ok (e, evs) → good e := by
  refine Engine.run_kept_iff (fun _ e => good e) hpos hlt cs hnew ?_ ?_
  · intro pre e evs c hrun hbad
    exact htick (Engine.simulates_of_run Build.wrapping_release hpos hlt hrun).1 hbad
  · intro pre c post e evs e' es _ hrun he hgood
    obtain ⟨hs, -⟩ := Engine.simulates_of_run Build.wrapping_release hpos hlt hrun
    have hc := run_consistent (consistent_new cfg) pre
    exact hstep hs hc (Engine.simulates_of_handle Build.wrapping_release hs hc he) hgood

end Runs

/-- The slot and the order that a client names with a key. -/
def Engine.Names (e : Engine) (key : Key) (i : Nat) (o : Order) : Prop :=
  ∃ locator, e.orderIndex key = some locator ∧
    e.book.arena.validate locator.oid = .ok (some i) ∧ e.book.arena.orderAt i = some o

/-- Every resting order is named by its key, no two by one key, and its owner
can cancel or modify it. -/
structure Engine.IndexComplete (e : Engine) : Prop where
  names : ∀ i o, e.book.arena.orderAt i = some o → e.Names o.key i o
  keys : ∀ i j o o', e.book.arena.orderAt i = some o → e.book.arena.orderAt j = some o' →
    o.key = o'.key → i = j
  cancels : ∀ i o, e.book.arena.orderAt i = some o → ∃ e',
    e.handle Build.release (.cancel o.clientId o.clientOrderId) =
      .ok (e', [.orderCancelled o.orderId o.clientId o.leavesQty])
  modifies : ∀ i o newPrice newQty, e.book.arena.orderAt i = some o →
    newQty.getD o.leavesQty ≠ 0 →
    (∃ t, e.book.priceToTick (newPrice.getD o.price) = .ok (some t)) → ∃ e',
    e.handle Build.release (.modify o.clientId o.clientOrderId newPrice newQty) =
      .ok (e', [.orderModified o.orderId o.clientId (newPrice.getD o.price)
        (newQty.getD o.leavesQty)])

/-- Every resting bid is below every resting ask. -/
def Engine.NotCrossed (e : Engine) : Prop :=
  ∀ i j bid ask, e.book.arena.orderAt i = some bid → e.book.arena.orderAt j = some ask →
    bid.side = .buy → ask.side = .sell → bid.price < ask.price

/-- The quantity that the orders hit by a limit order hold together. -/
def Engine.across (cfg : Config) (e : Engine) (side : Side) (price : UInt64) : Nat :=
  ∑ i ∈ Finset.range e.book.arena.orderStore.size,
    (e.book.arena.orderAt i).elim 0 (hitQty cfg side (some price))

/-- A limit order that passes the checks of a placement, is not used up by
matching and finds a slot. -/
structure Engine.Rests
    (cfg : Config) (e : Engine)
    (clientId : UInt64) (side : Side) (price quantity : UInt64) : Prop where
  qty : quantity ≠ 0
  limit : (accountOf e.clients clientId).openOrders < maxOpenOrders
  tick : ∃ t, e.book.priceToTick price = .ok (some t)
  left : e.across cfg side price < quantity.toNat
  room : e.book.arena.orderCount < cfg.capacity ∨
    ∃ i o, e.book.arena.orderAt i = some o ∧ hits cfg side (some price) o = true

/-- A placement that comes to rest under the key of a resting order that it
does not hit. -/
def Engine.DuplicatesKey (cfg : Config) (e : Engine) : Command → Prop
  | .place clientId clientOrderId _ side .limit (some price) quantity _ =>
      e.Rests cfg clientId side price quantity ∧
        ∃ i o, e.book.arena.orderAt i = some o ∧ o.key = (clientId, clientOrderId) ∧
          hits cfg side (some price) o = false
  | _ => False

/-- A placement that comes to rest at a price that crosses the price of an order
that it does not hit, or a modification to a price that crosses. -/
def Engine.CrossesBook (cfg : Config) (e : Engine) : Command → Prop
  | .place clientId _ _ side .limit (some price) quantity _ =>
      e.Rests cfg clientId side price quantity ∧
        ∃ i o, e.book.arena.orderAt i = some o ∧ o.side = side.opposite ∧
          crosses side price o.price = true ∧ hits cfg side (some price) o = false
  | .modify clientId clientOrderId newPrice newQty =>
      ∃ i o, e.Names (clientId, clientOrderId) i o ∧ newQty.getD o.leavesQty ≠ 0 ∧
        (∃ t, e.book.priceToTick (newPrice.getD o.price) = .ok (some t)) ∧
        ∃ j o', e.book.arena.orderAt j = some o' ∧ o'.side = o.side.opposite ∧
          crosses o.side (newPrice.getD o.price) o'.price = true
  | _ => False

section Abstraction

variable {cfg : Config} {e : Engine} {s : State} {loc : Nat → Nat} {free : List Nat}

theorem Engine.Refines.exists_order_iff
    (h : Engine.Refines cfg e s loc free) (P : Order → Prop) :
    (∃ i o, e.book.arena.orderAt i = some o ∧ P o) ↔ ∃ k x, x ∈ s.queue k ∧ P x.order := by
  constructor
  · rintro ⟨i, o, ho, hp⟩
    obtain ⟨k, x, hx, -, rfl⟩ := h.entry ho
    exact ⟨k, x, hx, hp⟩
  · rintro ⟨k, x, hx, hp⟩
    exact ⟨_, _, h.orderAt hx, hp⟩

theorem Engine.Refines.priceToTick_iff
    {price : UInt64} {t : Nat}
    (h : Engine.Refines cfg e s loc free) :
    e.book.priceToTick price = .ok (some t) ↔ tickOf cfg price = some t := by
  constructor
  · intro ht
    rcases h.book.priceToTick price with hp | ⟨-, hp⟩
    · rwa [hp, Except.ok.injEq] at ht
    · rw [hp] at ht
      exact absurd ht (by simp)
  · exact h.book.priceToTick_some

theorem Engine.Refines.tick_iff
    {price : UInt64}
    (h : Engine.Refines cfg e s loc free) :
    (∃ t, e.book.priceToTick price = .ok (some t)) ↔ (tickOf cfg price).isSome = true := by
  rw [Option.isSome_iff_exists]
  exact exists_congr fun t => h.priceToTick_iff

theorem Engine.Refines.across_eq
    (h : Engine.Refines cfg e s loc free) (side : Side) (price : UInt64) :
    e.across cfg side price = s.across cfg side (some price) := by
  have hw := h.book.arena.weight (hitQty cfg side (some price))
  rw [weigh_image] at hw
  rw [Engine.across, State.across]
  simp only [orderAt_eq]
  exact hw

theorem Engine.Refines.openOrders_lt_iff
    {clientId : UInt64}
    (h : Engine.Refines cfg e s loc free) :
    (accountOf e.clients clientId).openOrders < maxOpenOrders ↔
      openOrders s.clients clientId < 1000 := by
  rw [h.clients, UInt32.lt_iff_toNat_lt]
  rfl

theorem Engine.Refines.rests_iff
    {clientId price quantity : UInt64} {side : Side}
    (h : Engine.Refines cfg e s loc free) :
    e.Rests cfg clientId side price quantity ↔
      PriceTime.Rests cfg s clientId side price quantity := by
  have hroom := h.exists_order_iff (fun o => hits cfg side (some price) o = true)
  constructor
  · intro hr
    exact
      { qty := hr.qty
        limit := h.openOrders_lt_iff.mp hr.limit
        tick := h.tick_iff.mp hr.tick
        left := by rw [← h.across_eq]; exact hr.left
        room := by rw [← h.resting_eq, ← hroom]; exact hr.room }
  · intro hr
    exact
      { qty := hr.qty
        limit := h.openOrders_lt_iff.mpr hr.limit
        tick := h.tick_iff.mpr hr.tick
        left := by rw [h.across_eq]; exact hr.left
        room := by rw [h.resting_eq, hroom]; exact hr.room }

theorem Engine.Refines.names_iff
    {key : Key} {i : Nat} {o : Order}
    (h : Engine.Refines cfg e s loc free) (hc : Consistent cfg s) :
    e.Names key i o ↔
      ∃ k x, x ∈ s.queue k ∧ s.index key = some (x.locator k) ∧ loc x.num = i ∧
        x.order = o := by
  constructor
  · rintro ⟨locator, hidx, hvalid, ho⟩
    cases hs : s.index key with
    | none =>
        rw [h.lookup_none hs] at hidx
        exact absurd hidx (by simp)
    | some l =>
        obtain ⟨x, oid, -, -, -, -, hx, -, hnum, hidx', hvalid', -, -⟩ := h.lookup hc hs
        have hloc : x.locator l.level = l := by
          rw [Entry.locator, hnum]
          rfl
        rw [hidx', Option.some.injEq] at hidx
        subst hidx
        rw [hvalid', Except.ok.injEq, Option.some.injEq] at hvalid
        subst hvalid
        rw [h.orderAt hx, Option.some.injEq] at ho
        exact ⟨l.level, x, hx, by rw [hloc], rfl, ho⟩
  · rintro ⟨k, x, hx, hindex, rfl, rfl⟩
    obtain ⟨y, oid, -, -, -, -, hy, -, hnum, hidx, hvalid, -, -⟩ := h.lookup hc hindex
    obtain rfl : y = x := hc.distinct.eq hy hx hnum
    exact ⟨_, hidx, hvalid, h.orderAt hx⟩

theorem Engine.Refines.duplicatesKey_iff
    (h : Engine.Refines cfg e s loc free) (c : Command) :
    e.DuplicatesKey cfg c ↔ PriceTime.DuplicatesKey cfg s c := by
  cases c with
  | place clientId clientOrderId symbol side orderType price quantity tif =>
      cases orderType with
      | market => exact Iff.rfl
      | limit =>
          cases price with
          | none => exact Iff.rfl
          | some price =>
              exact and_congr h.rests_iff (h.exists_order_iff fun o =>
                o.key = (clientId, clientOrderId) ∧ hits cfg side (some price) o = false)
  | cancel clientId clientOrderId => exact Iff.rfl
  | modify clientId clientOrderId newPrice newQty => exact Iff.rfl

theorem Engine.Refines.crossesBook_iff
    (h : Engine.Refines cfg e s loc free) (hc : Consistent cfg s) (c : Command) :
    e.CrossesBook cfg c ↔ PriceTime.CrossesBook cfg s c := by
  cases c with
  | place clientId clientOrderId symbol side orderType price quantity tif =>
      cases orderType with
      | market => exact Iff.rfl
      | limit =>
          cases price with
          | none => exact Iff.rfl
          | some price =>
              exact and_congr h.rests_iff (h.exists_order_iff fun o =>
                o.side = side.opposite ∧ crosses side price o.price = true ∧
                  hits cfg side (some price) o = false)
  | cancel clientId clientOrderId => exact Iff.rfl
  | modify clientId clientOrderId newPrice newQty =>
      constructor
      · rintro ⟨i, o, hn, hqty, htick, hmeet⟩
        obtain ⟨k, x, hx, hindex, -, rfl⟩ := (h.names_iff hc).mp hn
        obtain ⟨k', y, hy, hyside, hcross⟩ := (h.exists_order_iff _).mp hmeet
        exact ⟨k, x, hx, hindex, hqty, h.tick_iff.mp htick, k', y, hy, hyside, hcross, trivial⟩
      · rintro ⟨k, x, hx, hindex, hqty, htick, k', y, hy, hyside, hcross, -⟩
        exact ⟨_, _, (h.names_iff hc).mpr ⟨k, x, hx, hindex, rfl, rfl⟩, hqty,
          h.tick_iff.mpr htick, _, _, h.orderAt hy, hyside, hcross⟩

theorem Engine.Refines.notCrossed_iff
    (h : Engine.Refines cfg e s loc free) :
    e.NotCrossed ↔ Apart s.queue := by
  constructor
  · intro hn k k' x y hx hy hside
    cases hs : x.order.side with
    | buy =>
        have := hn _ _ _ _ (h.orderAt hx) (h.orderAt hy) hs (by rw [hside, hs]; rfl)
        simpa [crosses] using this
    | sell =>
        have := hn _ _ _ _ (h.orderAt hy) (h.orderAt hx) (by rw [hside, hs]; rfl) hs
        simpa [crosses] using this
  · intro ha i j bid ask hbid hask hbuy hsell
    obtain ⟨k, x, hx, -, rfl⟩ := h.entry hbid
    obtain ⟨k', y, hy, -, rfl⟩ := h.entry hask
    have := ha k k' x y hx hy (by rw [hbuy, hsell]; rfl)
    rw [hbuy] at this
    simpa [crosses] using this

theorem ne_zero_of_tickOf
    {price : UInt64} {t : Nat}
    (h : tickOf cfg price = some t) :
    cfg.tickSize ≠ 0 := by
  intro hz
  simp [tickOf, hz] at h

/-- Without a division by zero a command is handled, with the events of the
plain book. -/
theorem Engine.Refines.handle_ok
    (h : Engine.Refines cfg e s loc free) (hc : Consistent cfg s)
    (htick : cfg.tickSize ≠ 0) (c : Command) :
    ∃ e', e.handle Build.release c = .ok (e', (PriceTime.handle cfg s c).2) := by
  rcases Engine.handle_agrees Build.wrapping_release ⟨loc, free, h⟩ hc c with
    ⟨e', he, -⟩ | ⟨hz, -⟩
  · exact ⟨e', he⟩
  · exact absurd hz htick

theorem Engine.Refines.complete_of_names
    (h : Engine.Refines cfg e s loc free) (hc : Consistent cfg s)
    (hnames : ∀ i o, e.book.arena.orderAt i = some o → e.Names o.key i o) :
    s.Complete := by
  intro k x hx
  obtain ⟨k', y, hy, hindex, hloc, -⟩ := (h.names_iff hc).mp (hnames _ _ (h.orderAt hx))
  obtain rfl := h.loc_inj hy hx hloc
  rw [hindex, hc.distinct.same_key hy hx rfl]

theorem Engine.Refines.indexComplete
    (h : Engine.Refines cfg e s loc free) (hc : Consistent cfg s) (hcomplete : s.Complete) :
    e.IndexComplete where
  names i o ho := by
    obtain ⟨k, x, hx, rfl, rfl⟩ := h.entry ho
    exact (h.names_iff hc).mpr ⟨k, x, hx, hcomplete k x hx, rfl, rfl⟩
  keys i j o o' ho ho' hkey := by
    obtain ⟨k, x, hx, rfl, rfl⟩ := h.entry ho
    obtain ⟨k', y, hy, rfl, rfl⟩ := h.entry ho'
    have hindex := hcomplete k x hx
    rw [hkey, hcomplete k' y hy, Option.some.injEq] at hindex
    rw [eq_of_locator_eq hc hy hx hindex]
  cancels i o ho := by
    obtain ⟨k, x, hx, -, rfl⟩ := h.entry ho
    rw [← cancel_events hc hx (hcomplete k x hx)]
    exact h.handle_ok hc (ne_zero_of_tickOf (hc.entry hx).tick) _
  modifies i o newPrice newQty ho hqty htick := by
    obtain ⟨k, x, hx, -, rfl⟩ := h.entry ho
    rw [← modify_events hc hx (hcomplete k x hx) hqty (h.tick_iff.mp htick)]
    exact h.handle_ok hc (ne_zero_of_tickOf (hc.entry hx).tick) _

theorem Engine.Refines.ne_zero_of_tick
    {price : UInt64}
    (h : Engine.Refines cfg e s loc free)
    (ht : ∃ t, e.book.priceToTick price = .ok (some t)) :
    cfg.tickSize ≠ 0 := by
  obtain ⟨t, ht⟩ := Option.isSome_iff_exists.mp (h.tick_iff.mp ht)
  exact ne_zero_of_tickOf ht

theorem Engine.DuplicatesKey.ne_zero
    {c : Command}
    (h : Engine.Refines cfg e s loc free) (hbad : e.DuplicatesKey cfg c) :
    cfg.tickSize ≠ 0 := by
  unfold Engine.DuplicatesKey at hbad
  split at hbad
  · exact h.ne_zero_of_tick hbad.1.tick
  · exact absurd hbad id

theorem Engine.CrossesBook.ne_zero
    {c : Command}
    (h : Engine.Refines cfg e s loc free) (hbad : e.CrossesBook cfg c) :
    cfg.tickSize ≠ 0 := by
  unfold Engine.CrossesBook at hbad
  split at hbad
  · exact h.ne_zero_of_tick hbad.1.tick
  · obtain ⟨i, o, -, -, htick, -⟩ := hbad
    exact h.ne_zero_of_tick htick
  · exact absurd hbad id

end Abstraction

section Results

variable {cfg : Config}

/-- **When the index is complete.**  The states of a run are all complete
exactly if none of its placements comes to rest under the key of a resting order
that it does not hit. -/
theorem run_index_complete_iff
    (hpos : 1 ≤ cfg.capacity) (hlt : cfg.capacity < 2 ^ 32) (cs : List Command) :
    (∀ pre c post e evs, cs = pre ++ c :: post →
        (Engine.new cfg).run Build.release pre = .ok (e, evs) → ¬ e.DuplicatesKey cfg c) ↔
      ∀ pre post e evs, cs = pre ++ post →
        (Engine.new cfg).run Build.release pre = .ok (e, evs) → e.IndexComplete := by
  refine Engine.run_good_iff hpos hlt ?_ ?_ ?_ cs
  · obtain ⟨loc, free, h⟩ := Engine.simulates_new hpos hlt
    exact h.indexComplete (consistent_new cfg) complete_new
  · rintro e s c ⟨loc, free, h⟩ hbad
    exact hbad.ne_zero h
  · rintro e e' s c ⟨loc, free, h⟩ hc ⟨loc', free', h'⟩ hgood
    have hc' := handle_consistent hc c
    rw [h.duplicatesKey_iff,
      ← handle_complete_iff hc (h.complete_of_names hc hgood.names) c]
    exact ⟨fun hg => h'.complete_of_names hc' hg.names, h'.indexComplete hc'⟩

/-- Two bids of one client under one key. -/
theorem run_index_complete_iff_bidOne_bidOne :
    (∀ pre c post e evs, [bidOne 1 100, bidOne 1 100] = pre ++ c :: post →
        (Engine.new smallConfig).run Build.release pre = .ok (e, evs) →
          ¬ e.DuplicatesKey smallConfig c) ↔
      ∀ pre post e evs, [bidOne 1 100, bidOne 1 100] = pre ++ post →
        (Engine.new smallConfig).run Build.release pre = .ok (e, evs) → e.IndexComplete :=
  run_index_complete_iff (by decide) (by decide) _

/-- After the two bids the older one is not found under its key. -/
theorem index_incomplete_bidOne_bidOne :
    ∃ e evs, (Engine.new smallConfig).run Build.release [bidOne 1 100, bidOne 1 100] =
        .ok (e, evs) ∧
      ¬ e.IndexComplete := by
  obtain ⟨⟨e, evs⟩, hrun, hkeys⟩ := exists_of_yields
    (x := (Engine.new smallConfig).run Build.release [bidOne 1 100, bidOne 1 100])
    (p := fun r => (r.1.book.arena.orderAt 0).any (fun o => o.key = (1, 0)) &&
      (r.1.book.arena.orderAt 1).any (fun o => o.key = (1, 0)))
    (by decide +kernel)
  refine ⟨e, evs, hrun, fun hc => ?_⟩
  simp only [Bool.and_eq_true, Option.any_eq_true, decide_eq_true_eq] at hkeys
  obtain ⟨⟨o, ho, hkey⟩, o', ho', hkey'⟩ := hkeys
  exact absurd (hc.keys 0 1 o o' ho ho' (hkey.trans hkey'.symm)) (by decide)

/-- **When the book is crossed.**  In no state of a run does a bid reach an ask
exactly if none of its commands rests or moves an order to a price that crosses
a resting order that it does not hit. -/
theorem run_not_crossed_iff
    (hpos : 1 ≤ cfg.capacity) (hlt : cfg.capacity < 2 ^ 32) (cs : List Command) :
    (∀ pre c post e evs, cs = pre ++ c :: post →
        (Engine.new cfg).run Build.release pre = .ok (e, evs) → ¬ e.CrossesBook cfg c) ↔
      ∀ pre post e evs, cs = pre ++ post →
        (Engine.new cfg).run Build.release pre = .ok (e, evs) → e.NotCrossed := by
  refine Engine.run_good_iff hpos hlt ?_ ?_ ?_ cs
  · obtain ⟨loc, free, h⟩ := Engine.simulates_new hpos hlt
    refine h.notCrossed_iff.mpr fun k k' x y hx => ?_
    simp [State.new] at hx
  · rintro e s c ⟨loc, free, h⟩ hbad
    exact hbad.ne_zero h
  · rintro e e' s c ⟨loc, free, h⟩ hc ⟨loc', free', h'⟩ hgood
    rw [h'.notCrossed_iff, h.crossesBook_iff hc]
    exact handle_apart_iff hc (h.notCrossed_iff.mp hgood) c

/-- A bid below an ask is moved above it. -/
def raisedBid : List Command :=
  [askOne 2 105, bidOne 1 100, .modify 1 0 (some 110) none]

theorem run_not_crossed_iff_raisedBid :
    (∀ pre c post e evs, raisedBid = pre ++ c :: post →
        (Engine.new smallConfig).run Build.release pre = .ok (e, evs) →
          ¬ e.CrossesBook smallConfig c) ↔
      ∀ pre post e evs, raisedBid = pre ++ post →
        (Engine.new smallConfig).run Build.release pre = .ok (e, evs) → e.NotCrossed :=
  run_not_crossed_iff (by decide) (by decide) _

/-- The raised bid rests at 110 and the ask still rests at 105. -/
theorem crossed_raisedBid :
    ∃ e evs, (Engine.new smallConfig).run Build.release raisedBid = .ok (e, evs) ∧
      ¬ e.NotCrossed := by
  obtain ⟨⟨e, evs⟩, hrun, hprices⟩ := exists_of_yields
    (x := (Engine.new smallConfig).run Build.release raisedBid)
    (p := fun r =>
      (r.1.book.arena.orderAt 0).any (fun o => o.side = .sell && o.price = 105) &&
      (r.1.book.arena.orderAt 1).any (fun o => o.side = .buy && o.price = 110))
    (by decide +kernel)
  refine ⟨e, evs, hrun, fun hn => ?_⟩
  simp only [Bool.and_eq_true, Option.any_eq_true, decide_eq_true_eq] at hprices
  obtain ⟨⟨ask, hask, hsell, h105⟩, bid, hbid, hbuy, h110⟩ := hprices
  have := hn 1 0 bid ask hbid hask hbuy hsell
  rw [h105, h110] at this
  exact absurd this (by decide)

/-- A book of ticks of ten. -/
def coarseConfig : Config where
  basePrice := 100
  tickSize := 10
  capacity := 4

/-- Without a modification: the lowest price of the tick of the bid is 100, so an
ask at 103 does not hit the bid at 105, and rests. -/
example :
    yields ((Engine.new coarseConfig).run Build.release [bidOne 1 105, askOne 2 103])
      (fun r =>
        (r.1.book.arena.orderAt 0).any (fun o => o.side = .buy && o.price = 105) &&
        (r.1.book.arena.orderAt 1).any (fun o => o.side = .sell && o.price = 103)) = true := by
  decide +kernel

end Results

end LmaxEngine
