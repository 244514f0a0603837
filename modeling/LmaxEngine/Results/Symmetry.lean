import LmaxEngine.Results.Feed
import LmaxEngine.Spec.Symmetry

/-!
# What the engine makes of names

The engine compares client ids and the order ids of clients, and does nothing else
with them.  Symbols and times in force it does not look at.  Buyers and sellers are
treated alike, as long as the limits are prices of ticks.  And an engine whose last
order has gone is as good as a new one, but for the ids it has handed out.
-/

namespace LmaxEngine

open Checked Queues Arena PriceTime

/-- Other names for clients and for the orders of clients, and any symbols and times
in force. -/
structure Renaming where
  client : UInt64 → UInt64
  clientOrder : UInt64 → UInt64
  symbol : Symbol → Symbol
  timeInForce : TimeInForce → TimeInForce
  client_injective : Function.Injective client
  clientOrder_injective : Function.Injective clientOrder

/-- The book under other names, after a number of ids have been handed out. -/
def Renaming.symmetry (ρ : Renaming) (cfg : Config) (ids : Nat) : Symmetry cfg where
  client := ρ.client
  clientOrder := ρ.clientOrder
  symbol := ρ.symbol
  timeInForce := ρ.timeInForce
  side := id
  price := id
  tick := id
  ids := ids
  prices := Set.univ
  client_injective := ρ.client_injective
  clientOrder_injective := ρ.clientOrder_injective
  side_opposite _ := rfl
  price_injOn := Set.injOn_id _
  tickOf_price _ := Option.map_id'.symm
  better_iff _ _ _ _ := Iff.rfl
  crosses_eq _ _ _ := rfl

/-- Every name as it is. -/
def Renaming.refl : Renaming where
  client := id
  clientOrder := id
  symbol := id
  timeInForce := id
  client_injective := Function.injective_id
  clientOrder_injective := Function.injective_id

section Mirror

/-- No tick of the book has a price beyond 64 bits. -/
def Config.Fits (cfg : Config) : Prop :=
  cfg.basePrice.toNat + (numTicks - 1) * cfg.tickSize.toNat < 2 ^ 64

/-- The price as far from the top of the book as this one is from the bottom. -/
def mirrorPrice (cfg : Config) (price : UInt64) : UInt64 :=
  cfg.basePrice + (priceOf cfg (numTicks - 1) - price)

variable {cfg : Config} {t u : Nat}

theorem Config.Fits.toNat_priceOf
    (hfit : cfg.Fits) (ht : t < numTicks) :
    (priceOf cfg t).toNat = cfg.basePrice.toNat + t * cfg.tickSize.toNat := by
  have hle : t * cfg.tickSize.toNat ≤ (numTicks - 1) * cfg.tickSize.toNat :=
    Nat.mul_le_mul_right _ (by omega)
  have hlt : cfg.basePrice.toNat + t * cfg.tickSize.toNat < 2 ^ 64 :=
    lt_of_le_of_lt (Nat.add_le_add_left hle _) hfit
  rw [priceOf, UInt64.toNat_add, UInt64.toNat_mul, toNat_ofNat_tick ht,
    Nat.mod_eq_of_lt (a := t * _) (by omega), Nat.mod_eq_of_lt hlt]

theorem Config.Fits.priceOf_le_iff
    (hfit : cfg.Fits) (hpos : cfg.tickSize ≠ 0) (ht : t < numTicks) (hu : u < numTicks) :
    priceOf cfg t ≤ priceOf cfg u ↔ t ≤ u := by
  have hsize : 0 < cfg.tickSize.toNat := by
    rw [← UInt64.toNat_zero, ← UInt64.lt_iff_toNat_lt]
    exact UInt64.pos_iff_ne_zero.mpr hpos
  rw [UInt64.le_iff_toNat_le, hfit.toNat_priceOf ht, hfit.toNat_priceOf hu,
    Nat.add_le_add_iff_left]
  exact Nat.mul_le_mul_right_iff hsize

theorem Config.Fits.tickOf_priceOf
    (hfit : cfg.Fits) (hpos : cfg.tickSize ≠ 0) (ht : t < numTicks) :
    tickOf cfg (priceOf cfg t) = some t := by
  have hprice := hfit.toNat_priceOf ht
  have hsize : 0 < cfg.tickSize.toNat := by
    rw [← UInt64.toNat_zero, ← UInt64.lt_iff_toNat_lt]
    exact UInt64.pos_iff_ne_zero.mpr hpos
  have hbase : cfg.basePrice ≤ priceOf cfg t := by
    rw [UInt64.le_iff_toNat_le, hprice]
    exact Nat.le_add_right _ _
  have hquot : ((priceOf cfg t - cfg.basePrice) / cfg.tickSize).toNat = t := by
    rw [UInt64.toNat_div, UInt64.toNat_sub_of_le _ _ hbase, hprice, Nat.add_sub_cancel_left,
      Nat.mul_div_cancel _ hsize]
  rw [tickOf, if_neg (not_or.mpr ⟨UInt64.not_lt.mpr hbase, hpos⟩)]
  dsimp only
  rw [hquot, if_neg (Nat.not_le.mpr ht)]

theorem Config.Fits.mirrorPrice_priceOf
    (hfit : cfg.Fits) (ht : t < numTicks) :
    mirrorPrice cfg (priceOf cfg t) = priceOf cfg (numTicks - 1 - t) := by
  have htop : numTicks - 1 < numTicks := by omega
  have hrev : numTicks - 1 - t < numTicks := by omega
  have hle : t * cfg.tickSize.toNat ≤ (numTicks - 1) * cfg.tickSize.toNat :=
    Nat.mul_le_mul_right _ (by omega)
  have hbelow : priceOf cfg t ≤ priceOf cfg (numTicks - 1) := by
    rw [UInt64.le_iff_toNat_le, hfit.toNat_priceOf ht, hfit.toNat_priceOf htop]
    exact Nat.add_le_add_left hle _
  have hlt := hfit
  unfold Config.Fits at hlt
  refine UInt64.toNat_inj.mp ?_
  rw [mirrorPrice, UInt64.toNat_add, UInt64.toNat_sub_of_le _ _ hbelow, hfit.toNat_priceOf ht,
    hfit.toNat_priceOf htop, hfit.toNat_priceOf hrev, Nat.sub_mul (numTicks - 1),
    Nat.mod_eq_of_lt (by omega)]
  omega

theorem mirrorPrice_injective (cfg : Config) :
    Function.Injective (mirrorPrice cfg) := by
  intro p q h
  exact (UInt64.sub_right_inj _).mp ((UInt64.add_right_inj _).mp h)

/-- The prices of the ticks. -/
def tickPrices (cfg : Config) : Set UInt64 :=
  {p | ∃ t, t < numTicks ∧ p = priceOf cfg t}

theorem Config.Fits.tickOf_mirrorPrice
    {p : UInt64} (hfit : cfg.Fits) (hp : p ∈ tickPrices cfg) :
    tickOf cfg (mirrorPrice cfg p) = (tickOf cfg p).map (fun u => numTicks - 1 - u) := by
  obtain ⟨t, ht, rfl⟩ := hp
  rw [hfit.mirrorPrice_priceOf ht]
  by_cases hz : cfg.tickSize = 0
  · simp [tickOf, hz]
  · rw [hfit.tickOf_priceOf hz ht, hfit.tickOf_priceOf hz (by omega), Option.map_some]

theorem better_opposite_iff
    {side : Side} (ht : t < numTicks) (hu : u < numTicks) :
    side.opposite.Better (numTicks - 1 - t) (numTicks - 1 - u) ↔ side.Better t u := by
  cases side <;> simp only [Side.opposite, Side.Better] <;> omega

theorem Config.Fits.crosses_mirrorPrice
    {side : Side} {p p' : UInt64} (hfit : cfg.Fits) (hp : p ∈ tickPrices cfg)
    (htick : tickOf cfg p' = some t) :
    crosses side.opposite (mirrorPrice cfg p) (priceOf cfg (numTicks - 1 - t)) =
      crosses side p (priceOf cfg t) := by
  obtain ⟨v, hv, rfl⟩ := hp
  have hpos : cfg.tickSize ≠ 0 := ne_zero_of_tickOf htick
  have ht := tickOf_lt htick
  rw [hfit.mirrorPrice_priceOf hv]
  cases side
  all_goals
    simp only [Side.opposite, crosses]
    rw [decide_eq_decide, hfit.priceOf_le_iff hpos (by omega) (by omega),
      hfit.priceOf_le_iff hpos (by omega) (by omega)]
    omega

/-- Bids for asks and asks for bids, the book upside down.  The limits are prices of
ticks. -/
def mirror (cfg : Config) (hfit : cfg.Fits) : Symmetry cfg where
  client := id
  clientOrder := id
  symbol := id
  timeInForce := id
  side := Side.opposite
  price := mirrorPrice cfg
  tick t := numTicks - 1 - t
  ids := 0
  prices := tickPrices cfg
  client_injective := Function.injective_id
  clientOrder_injective := Function.injective_id
  side_opposite _ := rfl
  price_injOn := (mirrorPrice_injective cfg).injOn
  tickOf_price := hfit.tickOf_mirrorPrice
  better_iff _ _ ht hu := better_opposite_iff (tickOf_lt ht) (tickOf_lt hu)
  crosses_eq hp _ htick := hfit.crosses_mirrorPrice hp htick

end Mirror

/-- The second engine has the orders of the first one under other names, level by
level and in the same order. -/
structure Engine.Renamed {cfg : Config} (ρ : Symmetry cfg) (e e' : Engine) : Prop where
  quotes : ∀ side t, t < numTicks →
    e'.quotes (ρ.side side) (ρ.tick t) = (e.quotes side t).map ρ.quote
  openOrders : ∀ c,
    (accountOf e'.clients (ρ.client c)).openOrders = (accountOf e.clients c).openOrders
  nextOrderId : e'.nextOrderId = ρ.orderId e.nextOrderId

section Reached

variable {cfg : Config} {ρ : Symmetry cfg} {e e' : Engine} {s s' : State}
variable {cs : List Command} {evs evs' : List (List OutputEvent)}

/-- Every tick of the book is the image of one tick. -/
def KeepsTicks (ρ : Symmetry cfg) : Prop :=
  ∀ t, t < numTicks → ρ.tick t < numTicks ∧ ∀ u, u < numTicks → ρ.tick u = ρ.tick t → u = t

theorem Engine.Simulates.renamed
    (h : e.Simulates cfg s) (h' : e'.Simulates cfg s') (hrel : ρ.Related s s')
    (hticks : KeepsTicks ρ) :
    e.Renamed ρ e' := by
  obtain ⟨loc, free, h⟩ := h
  obtain ⟨loc', free', h'⟩ := h'
  refine ⟨fun side t ht => ?_, fun c => ?_, ?_⟩
  · obtain ⟨ht', hone⟩ := hticks t ht
    have hqueue : s'.queue (ρ.side side, ρ.tick t) = (s.queue (side, t)).map ρ.entry := by
      by_cases hk : (side, t) ∈ ρ.levels
      · exact hrel.queue.along hk
      · rw [not_not.mp (mt hrel.queue.within hk), List.map_nil]
        by_contra hne
        obtain ⟨⟨sd, u⟩, hu, heq⟩ := hrel.queue.beyond hne
        obtain ⟨hside, htick⟩ := Prod.mk.inj heq
        obtain rfl := Symmetry.side_injective hside
        obtain rfl := hone u (PriceTime.mem_levels.mp (Symmetry.mem_levels hu)) htick
        exact hk hu
    rw [h'.quotes_eq ht', h.quotes_eq ht, image, image, hqueue, List.map_map, List.map_map]
    rfl
  · rw [h.clients, h'.clients, hrel.accounts]
  · rw [h.nextOrderId, h'.nextOrderId, hrel.nextNum, Symmetry.orderId_ofNat]

/-- The command modifies an order under a key that the index does not have. -/
def Engine.lacks (e : Engine) : Command → Bool
  | .modify clientId clientOrderId _ _ => (e.orderIndex (clientId, clientOrderId)).isNone
  | _ => false

/-- The same for the commands of a run, each in the state that it finds. -/
def Engine.lacking (e : Engine) : List Command → List Bool
  | [] => []
  | c :: cs =>
      e.lacks c :: match e.handle Build.release c with
        | .ok (e', _) => e'.lacking cs
        | .error _ => []

theorem Engine.Simulates.lacks_eq
    (h : e.Simulates cfg s) (hc : Consistent cfg s) (c : Command) :
    e.lacks c = s.lacks c := by
  obtain ⟨loc, free, h⟩ := h
  cases c with
  | modify clientId clientOrderId newPrice newQty =>
      rw [Engine.lacks, State.lacks]
      cases hl : s.index (clientId, clientOrderId) with
      | none =>
          rw [h.lookup_none hl]
          rfl
      | some l =>
          obtain ⟨x, oid, slot, prev, next, -, -, -, -, hindex, -⟩ := h.lookup hc hl
          rw [hindex]
          rfl
  | place => rfl
  | cancel => rfl

theorem Engine.Simulates.lacking_eq
    {e₀ : Engine}
    (h : e₀.Simulates cfg s) (hc : Consistent cfg s)
    (hrun : e₀.run Build.release cs = .ok (e, evs)) :
    e₀.lacking cs = s.lacking cfg cs := by
  induction cs generalizing e₀ s evs with
  | nil => rfl
  | cons c cs ih =>
      rw [Engine.run] at hrun
      obtain ⟨⟨e₁, es⟩, he, hrun⟩ := bind_eq_ok.mp hrun
      obtain ⟨⟨e₂, later⟩, hrest, hrun⟩ := bind_eq_ok.mp hrun
      obtain ⟨rfl, rfl⟩ := Prod.mk.inj (Except.ok.inj hrun)
      have hs := Engine.simulates_of_handle Build.wrapping_release h hc he
      simp only [Engine.lacking, State.lacking, h.lacks_eq hc, he]
      rw [ih hs (handle_consistent hc c) hrest]

theorem State.length_lacking
    (cfg : Config) (s : State) (cs : List Command) :
    (s.lacking cfg cs).length = cs.length := by
  induction cs generalizing s with
  | nil => rfl
  | cons c cs ih => rw [State.lacking, List.length_cons, List.length_cons, ih]

/-- From related states the engine does the renamed commands as it does the
commands. -/
theorem Engine.Simulates.run_related
    {e₀ e₀' : Engine}
    (h : e₀.Simulates cfg s) (h' : e₀'.Simulates cfg s')
    (hc : Consistent cfg s) (hc' : Consistent cfg s')
    (hrel : ρ.Related s s') (hticks : KeepsTicks ρ) (hcovers : ∀ c, c ∈ cs → ρ.Covers c)
    (hrun : e₀.run Build.release cs = .ok (e, evs))
    (hrun' : e₀'.run Build.release (cs.map ρ.command) = .ok (e', evs')) :
    evs' = ρ.answers (e₀.lacking cs) evs ∧ e.Renamed ρ e' := by
  rw [h.lacking_eq hc hrun]
  obtain ⟨hs, rfl⟩ := h.of_run Build.wrapping_release hc hrun
  obtain ⟨hs', rfl⟩ := h'.of_run Build.wrapping_release hc' hrun'
  obtain ⟨hrel', hevs⟩ := hrel.run hc hcovers
  exact ⟨hevs, hs.renamed hs' hrel' hticks⟩

/-- An empty book has no accounts to speak of. -/
theorem Consistent.account_of_empty
    (hc : Consistent cfg s) (hempty : ∀ k, s.queue k = []) (c : UInt64) :
    accountOf s.clients c = default := by
  have hzero : openOrders s.clients c = 0 := by
    rw [hc.accounts, funext hempty]
    exact weigh_empty
  have hopen : (accountOf s.clients c).openOrders = 0 := UInt32.toNat_inj.mp hzero
  cases hac : accountOf s.clients c with
  | mk n =>
      rw [hac] at hopen
      exact congrArg ClientAccount.mk hopen

/-- An empty book has no orders to name. -/
theorem Consistent.index_of_empty
    (hc : Consistent cfg s) (hempty : ∀ k, s.queue k = []) (key : Key) :
    s.index key = none := by
  by_contra hne
  obtain ⟨l, hl⟩ := Option.ne_none_iff_exists'.mp hne
  obtain ⟨x, hx, -⟩ := hc.sound hl
  rw [hempty] at hx
  exact List.not_mem_nil hx

/-- Two empty books are related, once the ids of the one count from those of the
other. -/
theorem related_of_empty
    (hc : Consistent cfg s) (hc' : Consistent cfg s')
    (hempty : ∀ k, s.queue k = []) (hempty' : ∀ k, s'.queue k = [])
    (hnext : s'.nextNum = s.nextNum + ρ.ids) :
    ρ.Related s s' where
  queue := by
    rw [funext hempty, funext hempty']
    exact carried_empty
  priced {k x} hx := by
    rw [hempty] at hx
    exact absurd hx List.not_mem_nil
  accounts c := by
    rw [Consistent.account_of_empty hc hempty, Consistent.account_of_empty hc' hempty']
  index key := by
    rw [Consistent.index_of_empty hc hempty, Consistent.index_of_empty hc' hempty']
    rfl
  nextNum := hnext

/-- No slot is taken when the arena counts none. -/
theorem Engine.Refines.queue_eq_nil
    {loc : Nat → Nat} {free : List Nat} {k : Level}
    (h : Engine.Refines cfg e s loc free) (hc : Consistent cfg s)
    (hcount : e.book.arena.orderCount = 0) :
    s.queue k = [] := by
  rw [h.resting_eq] at hcount
  refine List.eq_nil_iff_forall_not_mem.mpr fun x hx => ?_
  have hle : 1 ≤ s.resting := le_weigh (g := fun _ => 1) (hc.entry hx).mem_levels hx
  omega

/-- Where the order ids of clients are left and ids are not shifted, the events are
the renamed ones. -/
theorem answers_eq_map
    {lacks : List Bool}
    (hids : ρ.ids = 0) (horder : ρ.clientOrder = id) (hlen : lacks.length = evs.length) :
    ρ.answers lacks evs = evs.map (List.map ρ.event) := by
  have hone : ∀ b, ρ.answer b = ρ.event := by
    intro b
    funext ev
    cases ev with
    | modifyRejected orderId clientId =>
        rw [Symmetry.answer, Symmetry.event, Symmetry.orderId, hids, horder,
          show UInt64.ofNat 0 = 0 from rfl, UInt64.add_zero, id, ite_self]
    | _ => rfl
  rw [Symmetry.answers, funext fun b => funext fun es => congrArg (List.map · es) (hone b)]
  induction lacks generalizing evs with
  | nil =>
      obtain rfl := List.eq_nil_of_length_eq_zero hlen.symm
      rfl
  | cons b lacks ih =>
      cases evs with
      | nil => exact absurd hlen (by simp)
      | cons es evs => rw [List.zipWith_cons_cons, List.map_cons, ih (Nat.succ.inj hlen)]

end Reached

section Results

variable {cfg : Config} {e e' : Engine} {cs ds : List Command}
variable {evs evs' : List (List OutputEvent)}

theorem keepsTicks_symmetry
    (ρ : Renaming) (ids : Nat) :
    KeepsTicks (ρ.symmetry cfg ids) :=
  fun _ ht => ⟨ht, fun _ _ h => h⟩

theorem keepsTicks_mirror
    (hfit : cfg.Fits) :
    KeepsTicks (mirror cfg hfit) := by
  intro t ht
  refine ⟨?_, fun u hu h => ?_⟩
  · dsimp only [mirror]
    omega
  · dsimp only [mirror] at h
    omega

theorem Renaming.covers
    (ρ : Renaming) (ids : Nat) (c : Command) :
    (ρ.symmetry cfg ids).Covers c := by
  cases c with
  | place => exact fun _ _ _ => Set.mem_univ _
  | cancel => trivial
  | modify => exact fun _ _ => Set.mem_univ _

/-- From the empty book the engine does the renamed commands as it does the
commands. -/
theorem Engine.run_symmetric
    {ρ : Symmetry cfg}
    (hpos : 1 ≤ cfg.capacity) (hlt : cfg.capacity < 2 ^ 32)
    (hids : ρ.ids = 0) (hticks : KeepsTicks ρ) (hcovers : ∀ c, c ∈ cs → ρ.Covers c)
    (hrun : (Engine.new cfg).run Build.release cs = .ok (e, evs))
    (hrun' : (Engine.new cfg).run Build.release (cs.map ρ.command) = .ok (e', evs')) :
    evs' = ρ.answers ((Engine.new cfg).lacking cs) evs ∧ e.Renamed ρ e' := by
  have hs := Engine.simulates_new hpos hlt
  have hc := consistent_new cfg
  have hrel : ρ.Related State.new State.new :=
    related_of_empty hc hc (fun _ => rfl) (fun _ => rfl) (by rw [hids, Nat.add_zero])
  exact hs.run_related hs hc hc hrel hticks hcovers hrun hrun'

/-- **The engine has no use for names.**  Give other ids to the clients and to their
orders, and other symbols and times in force to the orders: the engine answers the
renamed commands with the renamed events and ends with the renamed book. -/
theorem run_renamed
    (ρ : Renaming)
    (hpos : 1 ≤ cfg.capacity) (hlt : cfg.capacity < 2 ^ 32)
    (hrun : (Engine.new cfg).run Build.release cs = .ok (e, evs)) :
    (cfg.tickSize ≠ 0 → ∃ e' evs', (Engine.new cfg).run Build.release
      (cs.map (ρ.symmetry cfg 0).command) = .ok (e', evs')) ∧
    ∀ e' evs', (Engine.new cfg).run Build.release (cs.map (ρ.symmetry cfg 0).command) =
        .ok (e', evs') →
      evs' = (ρ.symmetry cfg 0).answers ((Engine.new cfg).lacking cs) evs ∧
        e.Renamed (ρ.symmetry cfg 0) e' :=
  ⟨fun htick => Engine.exists_run Build.wrapping_release htick hpos hlt _,
    fun _ _ hrun' => Engine.run_symmetric hpos hlt rfl (keepsTicks_symmetry ρ 0)
      (fun c _ => ρ.covers 0 c) hrun hrun'⟩

/-- The next numbers for clients and orders, one symbol and one time in force. -/
def nextNames : Renaming where
  client c := c + 1
  clientOrder o := o + 1
  symbol _ := Vector.replicate 8 1
  timeInForce _ := .fok
  client_injective _ _ h := (UInt64.add_left_inj 1).mp h
  clientOrder_injective _ _ h := (UInt64.add_left_inj 1).mp h

/-- The session under the next names. -/
theorem run_renamed_session :
    ∃ e e' evs', (Engine.new smallConfig).run Build.release session = .ok (e, sessionEvents) ∧
      (Engine.new smallConfig).run Build.release
        (session.map (nextNames.symmetry smallConfig 0).command) = .ok (e', evs') ∧
      evs' = (nextNames.symmetry smallConfig 0).answers ((Engine.new smallConfig).lacking session)
        sessionEvents ∧
      e.Renamed (nextNames.symmetry smallConfig 0) e' := by
  obtain ⟨e, hrun⟩ := exists_run_session
  obtain ⟨hexists, hall⟩ := run_renamed nextNames (by decide) (by decide) hrun
  obtain ⟨e', evs', hrun'⟩ := hexists (by decide)
  exact ⟨e, e', evs', hrun, hrun', hall e' evs' hrun'⟩

/-- **Buyers and sellers are treated alike.**  Where all limits are prices of ticks,
the engine answers the bids for asks and asks for bids of the book upside down with the
same events upside down, and ends with the book upside down. -/
theorem run_mirrored
    (hfit : cfg.Fits) (hpos : 1 ≤ cfg.capacity) (hlt : cfg.capacity < 2 ^ 32)
    (hcovers : ∀ c, c ∈ cs → (mirror cfg hfit).Covers c)
    (hrun : (Engine.new cfg).run Build.release cs = .ok (e, evs)) :
    (cfg.tickSize ≠ 0 → ∃ e' evs', (Engine.new cfg).run Build.release
      (cs.map (mirror cfg hfit).command) = .ok (e', evs')) ∧
    ∀ e' evs', (Engine.new cfg).run Build.release (cs.map (mirror cfg hfit).command) =
        .ok (e', evs') →
      evs' = evs.map (List.map (mirror cfg hfit).event) ∧ e.Renamed (mirror cfg hfit) e' := by
  refine ⟨fun htick => Engine.exists_run Build.wrapping_release htick hpos hlt _,
    fun e' evs' hrun' => ?_⟩
  obtain ⟨hevs, hbook⟩ := Engine.run_symmetric hpos hlt (by rfl) (keepsTicks_mirror hfit)
    hcovers hrun hrun'
  refine ⟨hevs.trans (answers_eq_map rfl rfl ?_), hbook⟩
  rw [(Engine.simulates_new hpos hlt).lacking_eq (consistent_new cfg) hrun,
    State.length_lacking, Engine.length_events hrun]

theorem fits_smallConfig :
    smallConfig.Fits := by
  rw [Config.Fits, numTicks_eq]
  decide

/-- The prices of the session are prices of ticks. -/
theorem covers_session :
    ∀ c, c ∈ session → (mirror smallConfig fits_smallConfig).Covers c := by
  have hprice : ∀ t, t < 11 → priceOf smallConfig t ∈ tickPrices smallConfig :=
    fun t ht => ⟨t, by rw [numTicks_eq]; omega, rfl⟩
  have hsome : ∀ {p : UInt64} {t : Nat}, t < 11 → priceOf smallConfig t = p →
      ∀ q, some p = some q → q ∈ tickPrices smallConfig := by
    rintro p t ht rfl q hq
    rw [← Option.some.inj hq]
    exact hprice t ht
  intro c hc
  simp only [session, List.mem_cons, List.not_mem_nil, or_false] at hc
  rcases hc with rfl | rfl | rfl | rfl | rfl | rfl | rfl | rfl | rfl | rfl
  · exact fun _ => hsome (t := 0) (by decide) rfl
  · exact fun _ => hsome (t := 1) (by decide) rfl
  · exact fun _ => hsome (t := 0) (by decide) rfl
  · exact fun _ => hsome (t := 0) (by decide) rfl
  · exact fun _ => nofun
  · exact hsome (t := 2) (by decide) rfl
  · exact fun _ => hsome (t := 1) (by decide) rfl
  · exact trivial
  · exact fun _ => hsome (t := 10) (by decide) rfl
  · exact fun _ => nofun

/-- The session upside down. -/
theorem run_mirrored_session :
    ∃ e e' evs', (Engine.new smallConfig).run Build.release session = .ok (e, sessionEvents) ∧
      (Engine.new smallConfig).run Build.release
        (session.map (mirror smallConfig fits_smallConfig).command) = .ok (e', evs') ∧
      evs' = sessionEvents.map (List.map (mirror smallConfig fits_smallConfig).event) ∧
      e.Renamed (mirror smallConfig fits_smallConfig) e' := by
  obtain ⟨e, hrun⟩ := exists_run_session
  obtain ⟨hexists, hall⟩ :=
    run_mirrored fits_smallConfig (by decide) (by decide) covers_session hrun
  obtain ⟨e', evs', hrun'⟩ := hexists (by decide)
  exact ⟨e, e', evs', hrun, hrun', hall e' evs' hrun'⟩

theorem Renaming.refl_command
    (n : Nat) (c : Command) :
    (Renaming.refl.symmetry cfg n).command c = c := by
  cases c with
  | place clientId clientOrderId symbol side orderType price quantity tif =>
      exact congrArg (fun p => Command.place clientId clientOrderId symbol side orderType p
        quantity tif) Option.map_id'
  | cancel => rfl
  | modify clientId clientOrderId newPrice newQty =>
      exact congrArg (fun p => Command.modify clientId clientOrderId p newQty) Option.map_id'

theorem nextNum_le_run
    {s : State} (hc : Consistent cfg s) (cs : List Command) :
    s.nextNum ≤ (PriceTime.run cfg s cs).1.nextNum :=
  (run_trail hc cs).preserves (P := fun m => s.nextNum ≤ m.state.nextNum)
    (fun hm hstep => hm.trans hstep.nextNum_le) (Nat.le_refl _)

/-- **An engine that has run empty is as good as new.**  Whatever commands have gone
before, once no order rests the engine answers further commands as a new engine does,
with ids that count on. -/
theorem run_renewed
    {e₀ : Engine} {evs₀ : List (List OutputEvent)}
    (hpos : 1 ≤ cfg.capacity) (hlt : cfg.capacity < 2 ^ 32)
    (hrun : (Engine.new cfg).run Build.release cs = .ok (e₀, evs₀))
    (hempty : e₀.book.arena.orderCount = 0) :
    (cfg.tickSize ≠ 0 → ∀ ds, (∃ e evs, (Engine.new cfg).run Build.release ds = .ok (e, evs)) ∧
      ∃ e' evs', e₀.run Build.release ds = .ok (e', evs')) ∧
    ∃ n, e₀.nextOrderId = UInt64.ofNat (n + 1) ∧
      ∀ ds e evs e' evs', (Engine.new cfg).run Build.release ds = .ok (e, evs) →
        e₀.run Build.release ds = .ok (e', evs') →
        evs' = (Renaming.refl.symmetry cfg n).answers ((Engine.new cfg).lacking ds) evs ∧
          e.Renamed (Renaming.refl.symmetry cfg n) e' := by
  obtain ⟨hs, -⟩ := Engine.simulates_of_run Build.wrapping_release hpos hlt hrun
  have hc := run_consistent (consistent_new cfg) cs
  refine ⟨fun htick ds => ⟨Engine.exists_run Build.wrapping_release htick hpos hlt ds,
    hs.exists_run Build.wrapping_release htick hc ds⟩, ?_⟩
  have hle : 1 ≤ (PriceTime.run cfg State.new cs).1.nextNum :=
    nextNum_le_run (consistent_new cfg) cs
  generalize (PriceTime.run cfg State.new cs).1 = s at hs hc hle
  obtain ⟨n, hn⟩ := Nat.exists_eq_add_of_le' hle
  have hqueue : ∀ k, s.queue k = [] := by
    obtain ⟨loc, free, h⟩ := hs
    exact fun k => h.queue_eq_nil hc hempty
  have hnext : e₀.nextOrderId = UInt64.ofNat s.nextNum := by
    obtain ⟨loc, free, h⟩ := hs
    exact h.nextOrderId
  have hrel : (Renaming.refl.symmetry cfg n).Related State.new s :=
    related_of_empty (consistent_new cfg) hc (fun _ => rfl) hqueue (hn.trans (Nat.add_comm n 1))
  refine ⟨n, hnext.trans (congrArg UInt64.ofNat hn), fun ds e evs e' evs' hnew hthen => ?_⟩
  have hsame : ds.map (Renaming.refl.symmetry cfg n).command = ds :=
    (List.map_congr_left fun c _ => Renaming.refl_command n c).trans (List.map_id ds)
  refine (Engine.simulates_new hpos hlt).run_related hs (consistent_new cfg) hc hrel
    (keepsTicks_symmetry _ n) (fun c _ => Renaming.covers _ n c) hnew ?_
  rw [hsame]
  exact hthen

/-- The session on an engine whose only order has been cancelled. -/
theorem run_renewed_session :
    ∃ e₀ evs₀ e' evs',
      (Engine.new smallConfig).run Build.release [bidOne 1 100, .cancel 1 0] = .ok (e₀, evs₀) ∧
      e₀.book.arena.orderCount = 0 ∧ e₀.run Build.release session = .ok (e', evs') ∧
      ∃ n e, e₀.nextOrderId = UInt64.ofNat (n + 1) ∧
        (Engine.new smallConfig).run Build.release session = .ok (e, sessionEvents) ∧
        evs' = (Renaming.refl.symmetry smallConfig n).answers
          ((Engine.new smallConfig).lacking session) sessionEvents ∧
        e.Renamed (Renaming.refl.symmetry smallConfig n) e' := by
  obtain ⟨⟨e₀, evs₀⟩, hrun, hempty⟩ := exists_of_yields
    (x := (Engine.new smallConfig).run Build.release [bidOne 1 100, .cancel 1 0])
    (p := fun r => decide (r.1.book.arena.orderCount = 0)) (by decide +kernel)
  have hempty := of_decide_eq_true hempty
  obtain ⟨e, hnew⟩ := exists_run_session
  obtain ⟨hexists, n, hnext, hall⟩ := run_renewed (by decide) (by decide) hrun hempty
  obtain ⟨e', evs', hthen⟩ := (hexists (by decide) session).2
  exact ⟨e₀, evs₀, e', evs', hrun, hempty, hthen, n, e, hnext, hnew,
    hall session e sessionEvents e' evs' hnew hthen⟩

end Results

end LmaxEngine
