import LmaxEngine.Lib.Carried
import LmaxEngine.Spec.Feed
import LmaxEngine.Spec.Priority

/-!
# Symmetries of the plain book

A symmetry renames what a book is about: the clients, their order ids, the symbols,
the sides, the prices, and the ids from one on.  It keeps which names are the same,
which tick is the better one and which price crosses a tick.  The plain book has no
other use for names: it does the renamed commands as it does the commands, with
the renamed events.
-/

namespace LmaxEngine
namespace PriceTime

open Queues

/-- The command modifies an order under a key that the book does not have. -/
def State.lacks (s : State) : Command → Bool
  | .modify clientId clientOrderId _ _ => (s.index (clientId, clientOrderId)).isNone
  | _ => false

/-- The same for the commands of a run, each in the state that it finds. -/
noncomputable def State.lacking (cfg : Config) (s : State) : List Command → List Bool
  | [] => []
  | c :: cs => s.lacks c :: (handle cfg s c).1.lacking cfg cs

/-- A renaming that a book with this configuration does not notice.  The prices that
it is about may be some of all prices. -/
structure Symmetry (cfg : Config) where
  client : UInt64 → UInt64
  clientOrder : UInt64 → UInt64
  symbol : Symbol → Symbol
  timeInForce : TimeInForce → TimeInForce
  side : Side → Side
  price : UInt64 → UInt64
  tick : Nat → Nat
  /-- The order ids handed out before the first one. -/
  ids : Nat
  prices : Set UInt64
  client_injective : Function.Injective client
  clientOrder_injective : Function.Injective clientOrder
  side_opposite : ∀ s, side s.opposite = (side s).opposite
  price_injOn : Set.InjOn price prices
  tickOf_price : ∀ {p}, p ∈ prices → tickOf cfg (price p) = (tickOf cfg p).map tick
  better_iff : ∀ {s p p' t u}, p ∈ prices → p' ∈ prices →
    tickOf cfg p = some t → tickOf cfg p' = some u →
    ((side s).Better (tick t) (tick u) ↔ s.Better t u)
  crosses_eq : ∀ {s p p' t}, p ∈ prices → p' ∈ prices → tickOf cfg p' = some t →
    crosses (side s) (price p) (priceOf cfg (tick t)) = crosses s p (priceOf cfg t)

namespace Symmetry

variable {cfg : Config} (ρ : Symmetry cfg)

/-- The levels that orders at the prices of the symmetry have. -/
def levels : Set Level :=
  {k | ∃ p, p ∈ ρ.prices ∧ tickOf cfg p = some k.2}

def level (k : Level) : Level :=
  (ρ.side k.1, ρ.tick k.2)

def key (k : Key) : Key :=
  (ρ.client k.1, ρ.clientOrder k.2)

def orderId (i : UInt64) : UInt64 :=
  i + UInt64.ofNat ρ.ids

def order (o : Order) : Order :=
  { o with
    orderId := ρ.orderId o.orderId
    clientId := ρ.client o.clientId
    clientOrderId := ρ.clientOrder o.clientOrderId
    symbol := ρ.symbol o.symbol
    side := ρ.side o.side
    price := ρ.price o.price }

def entry (x : Entry) : Entry where
  num := x.num + ρ.ids
  order := ρ.order x.order

def locator (l : Locator) : Locator where
  num := l.num + ρ.ids
  tick := ρ.tick l.tick
  side := ρ.side l.side

def quote (r : Quote) : Quote where
  orderId := ρ.orderId r.orderId
  clientId := ρ.client r.clientId
  clientOrderId := ρ.clientOrder r.clientOrderId
  symbol := ρ.symbol r.symbol
  side := ρ.side r.side
  price := ρ.price r.price
  leavesQty := r.leavesQty

def placement (p : Placement) : Placement where
  num := p.num + ρ.ids
  clientId := ρ.client p.clientId
  clientOrderId := ρ.clientOrder p.clientOrderId
  symbol := ρ.symbol p.symbol
  side := ρ.side p.side
  limitPrice := p.limitPrice.map ρ.price
  quantity := p.quantity
  leavesQty := p.leavesQty

def command : Command → Command
  | .place clientId clientOrderId symbol side orderType price quantity timeInForce =>
      .place (ρ.client clientId) (ρ.clientOrder clientOrderId) (ρ.symbol symbol) (ρ.side side)
        orderType (price.map ρ.price) quantity (ρ.timeInForce timeInForce)
  | .cancel clientId clientOrderId =>
      .cancel (ρ.client clientId) (ρ.clientOrder clientOrderId)
  | .modify clientId clientOrderId newPrice newQty =>
      .modify (ρ.client clientId) (ρ.clientOrder clientOrderId) (newPrice.map ρ.price) newQty

/-- The commands whose prices the symmetry is about.  A market order has none. -/
def Covers : Command → Prop
  | .place _ _ _ _ orderType price _ _ =>
      orderType = .limit → ∀ p, price = some p → p ∈ ρ.prices
  | .cancel .. => True
  | .modify _ _ newPrice _ => ∀ p, newPrice = some p → p ∈ ρ.prices

def event : OutputEvent → OutputEvent
  | .orderAccepted orderId clientId clientOrderId symbol side price quantity =>
      .orderAccepted (ρ.orderId orderId) (ρ.client clientId) (ρ.clientOrder clientOrderId)
        (ρ.symbol symbol) (ρ.side side) (ρ.price price) quantity
  | .orderRejected clientId clientOrderId reason =>
      .orderRejected (ρ.client clientId) (ρ.clientOrder clientOrderId) reason
  | .fill aggressorOrderId restingOrderId aggressorClientId restingClientId symbol price
        quantity aggressorSide =>
      .fill (ρ.orderId aggressorOrderId) (ρ.orderId restingOrderId) (ρ.client aggressorClientId)
        (ρ.client restingClientId) (ρ.symbol symbol) (ρ.price price) quantity
        (ρ.side aggressorSide)
  | .orderCancelled orderId clientId leavesQty =>
      .orderCancelled (ρ.orderId orderId) (ρ.client clientId) leavesQty
  | .cancelRejected clientOrderId clientId =>
      .cancelRejected (ρ.clientOrder clientOrderId) (ρ.client clientId)
  | .orderModified orderId clientId newPrice newQty =>
      .orderModified (ρ.orderId orderId) (ρ.client clientId) (ρ.price newPrice) newQty
  | .modifyRejected orderId clientId =>
      .modifyRejected (ρ.orderId orderId) (ρ.client clientId)

/-- The event renamed, of a command under a key that the book has or lacks.  If it lacks
it, the order id of `ModifyRejected` is that of the client, and else its own. -/
def answer (lacks : Bool) : OutputEvent → OutputEvent
  | .modifyRejected orderId clientId =>
      .modifyRejected (if lacks then ρ.clientOrder orderId else ρ.orderId orderId)
        (ρ.client clientId)
  | ev => ρ.event ev

/-- The events of a run renamed, command by command. -/
def answers (lacks : List Bool) (evs : List (List OutputEvent)) : List (List OutputEvent) :=
  List.zipWith (fun lacks es => es.map (ρ.answer lacks)) lacks evs

/-- The second state is the first one renamed, and all prices of resting orders are
among those that the symmetry is about. -/
structure Related (s s' : State) : Prop where
  queue : Carried ρ.levels ρ.level ρ.entry s.queue s'.queue
  priced : ∀ {k x}, x ∈ s.queue k → x.order.price ∈ ρ.prices
  accounts : ∀ c, accountOf s'.clients (ρ.client c) = accountOf s.clients c
  index : ∀ key, s'.index (ρ.key key) = (s.index key).map ρ.locator
  nextNum : s'.nextNum = s.nextNum + ρ.ids

/-- The second outcome of a command is the first one renamed. -/
structure Outcomes (r r' : State × List OutputEvent) : Prop where
  state : ρ.Related r.1 r'.1
  events : r'.2 = r.2.map ρ.event

variable {ρ}

theorem side_injective :
    Function.Injective ρ.side := by
  have hne : ρ.side .buy ≠ ρ.side .sell := by
    intro h
    have hflip : ρ.side .sell = (ρ.side .buy).opposite := ρ.side_opposite .buy
    rw [h] at hflip
    cases hs : ρ.side .sell <;> rw [hs] at hflip <;> exact absurd hflip (by decide)
  intro a b h
  cases a <;> cases b
  · rfl
  · exact absurd h hne
  · exact absurd h.symm hne
  · rfl

theorem key_injective :
    Function.Injective ρ.key := by
  rintro ⟨c, o⟩ ⟨c', o'⟩ h
  obtain ⟨hc, ho⟩ := Prod.mk.inj h
  exact Prod.ext (ρ.client_injective hc) (ρ.clientOrder_injective ho)

theorem better_of_levels
    {k k' : Level}
    (hk : k ∈ ρ.levels) (hk' : k' ∈ ρ.levels) (side : Side) :
    (ρ.side side).Better (ρ.tick k.2) (ρ.tick k'.2) ↔ side.Better k.2 k'.2 := by
  obtain ⟨p, hp, ht⟩ := hk
  obtain ⟨p', hp', ht'⟩ := hk'
  exact ρ.better_iff hp hp' ht ht'

theorem level_injOn :
    Set.InjOn ρ.level ρ.levels := by
  rintro ⟨s, t⟩ hk ⟨s', t'⟩ hk' h
  obtain ⟨hside, htick⟩ := Prod.mk.inj h
  obtain rfl := side_injective hside
  have hne : ∀ sd : Side, ¬ sd.Better t t' ∧ ¬ sd.Better t' t := by
    intro sd
    rw [← better_of_levels hk hk' sd, ← better_of_levels hk' hk sd, htick]
    cases ρ.side sd <;> exact ⟨Nat.lt_irrefl _, Nat.lt_irrefl _⟩
  obtain ⟨hlt, hgt⟩ := hne .sell
  rw [Nat.le_antisymm (Nat.not_lt.mp hgt) (Nat.not_lt.mp hlt)]

theorem mem_levels
    {k : Level} (hk : k ∈ ρ.levels) :
    k ∈ PriceTime.levels := by
  obtain ⟨p, -, ht⟩ := hk
  exact PriceTime.mem_levels.mpr (tickOf_lt ht)

theorem level_mem_levels
    {k : Level} (hk : k ∈ ρ.levels) :
    ρ.level k ∈ PriceTime.levels := by
  obtain ⟨p, hp, ht⟩ := hk
  have htick := ρ.tickOf_price hp
  rw [ht, Option.map_some] at htick
  exact PriceTime.mem_levels.mpr (tickOf_lt htick)

theorem orderId_ofNat
    (n : Nat) :
    ρ.orderId (UInt64.ofNat n) = UInt64.ofNat (n + ρ.ids) := by
  rw [orderId, UInt64.ofNat_add]

/-- A tick crosses for the renamed limit as it does for the limit. -/
theorem crossesTick_eq
    {side : Side} {limitPrice : Option UInt64} {k : Level}
    (hlimit : ∀ p, limitPrice = some p → p ∈ ρ.prices) (hk : k ∈ ρ.levels) :
    crossesTick cfg (ρ.side side) (limitPrice.map ρ.price) (ρ.tick k.2) =
      crossesTick cfg side limitPrice k.2 := by
  cases limitPrice with
  | none => rfl
  | some p =>
      obtain ⟨p', hp', ht⟩ := hk
      exact ρ.crosses_eq (hlimit p rfl) hp' ht

end Symmetry

section Bests

variable {s : State} {side : Side} {t : Nat}

theorem bestTick_eq_none_iff :
    s.bestTick side = none ↔ ∀ u, u < numTicks → s.queue (side, u) = [] := by
  cases side with
  | buy => exact highest_eq_none_iff
  | sell => exact lowest_eq_none_iff

theorem bestTick_eq_some_iff :
    s.bestTick side = some t ↔ t < numTicks ∧ s.queue (side, t) ≠ [] ∧
      ∀ u, u < numTicks → s.queue (side, u) ≠ [] → ¬ side.Better u t := by
  cases side with
  | buy =>
      refine highest_eq_some_iff.trans (and_congr_right' (and_congr_right' ?_))
      exact forall₃_congr fun _ _ _ => Nat.not_lt.symm
  | sell =>
      refine lowest_eq_some_iff.trans (and_congr_right' (and_congr_right' ?_))
      exact forall₃_congr fun _ _ _ => Nat.not_lt.symm

end Bests

section Accounts

variable {clients : Clients} {c c' : UInt64}

theorem accountOf_closeAccount :
    accountOf (closeAccount clients c) c' =
      if c' = c then
        { openOrders := if (accountOf clients c).openOrders < 1 then 0
            else (accountOf clients c).openOrders - 1 }
      else accountOf clients c' := by
  cases hc : clients c with
  | none =>
      have hnone : accountOf clients c = default := by rw [accountOf, hc, Option.getD_none]
      simp only [closeAccount, hc]
      by_cases h : c' = c
      · rw [if_pos h, h, hnone]
        rfl
      · rw [if_neg h]
  | some ac =>
      have hsome : accountOf clients c = ac := by rw [accountOf, hc, Option.getD_some]
      simp only [closeAccount, hc]
      rw [accountOf_update, hsome]

theorem accountOf_openAccount :
    accountOf (openAccount clients c) c' =
      if c' = c then { openOrders := (accountOf clients c).openOrders + 1 }
      else accountOf clients c' :=
  accountOf_update

end Accounts

namespace Symmetry

variable {cfg : Config} {ρ : Symmetry cfg} {s s' : State} {k k' : Level} {x : Entry}

section Steps

/-- Two accounts that change in the same way. -/
theorem Related.accountOf_eq
    {clients clients' : Clients} {c : UInt64} {ac : ClientAccount}
    (h : ρ.Related s s')
    (hc : ∀ d, accountOf clients d = if d = c then ac else accountOf s.clients d)
    (hc' : ∀ d, accountOf clients' d =
      if d = ρ.client c then ac else accountOf s'.clients d) (d : UInt64) :
    accountOf clients' (ρ.client d) = accountOf clients d := by
  rw [hc, hc']
  by_cases hd : d = c
  · rw [if_pos hd, if_pos (congrArg ρ.client hd)]
  · rw [if_neg hd, if_neg fun heq => hd (ρ.client_injective heq), h.accounts]

/-- The index after a change of one key. -/
theorem Related.index_update
    (h : ρ.Related s s') (key : Key) (l : Option Locator) (key' : Key) :
    Function.update s'.index (ρ.key key) (l.map ρ.locator) (ρ.key key') =
      (Function.update s.index key l key').map ρ.locator := by
  by_cases hkey : key' = key
  · rw [hkey, Function.update_self, Function.update_self]
  · rw [Function.update_of_ne hkey, Function.update_of_ne (key_injective.ne hkey), h.index]

theorem num_eq_iff
    (y : Entry) (n : Nat) :
    y.num = n ↔ (ρ.entry y).num = n + ρ.ids :=
  (Nat.add_right_cancel_iff).symm

theorem Related.leave
    (h : ρ.Related s s') (hx : x ∈ s.queue k) :
    ρ.Related (s.leave k x) (s'.leave (ρ.level k) (ρ.entry x)) where
  queue := h.queue.discard level_injOn (h.queue.dom_of_mem hx) fun y => num_eq_iff y x.num
  priced hy := h.priced (mem_discard.mp hy).1
  accounts := by
    refine h.accountOf_eq (fun d => accountOf_closeAccount) fun d => ?_
    rw [← h.accounts]
    exact accountOf_closeAccount
  index := h.index_update x.order.key none
  nextNum := h.nextNum

theorem Related.change
    {f : Order → Order}
    (h : ρ.Related s s') (hx : x ∈ s.queue k) (hf : Keeps f)
    (hcomm : ∀ o, f (ρ.order o) = ρ.order (f o)) :
    ρ.Related (s.change k x f) (s'.change (ρ.level k) (ρ.entry x) f) where
  queue := by
    refine h.queue.revise level_injOn (h.queue.dom_of_mem hx) (fun y => num_eq_iff y x.num) ?_
    intro y
    rw [entry, hcomm]
    rfl
  priced hy := by
    rcases mem_revise.mp hy with ⟨hy, -⟩ | ⟨-, z, hz, -, rfl⟩
    · exact h.priced hy
    · rw [hf.price]
      exact h.priced hz
  accounts := h.accounts
  index := h.index
  nextNum := h.nextNum

theorem Related.rest
    (h : ρ.Related s s') (hk : k ∈ ρ.levels) (hp : x.order.price ∈ ρ.prices) :
    ρ.Related (s.rest k x) (s'.rest (ρ.level k) (ρ.entry x)) where
  queue := h.queue.push level_injOn hk rfl
  priced hy := by
    rcases mem_push.mp hy with hy | ⟨-, rfl⟩
    · exact h.priced hy
    · exact hp
  accounts := by
    refine h.accountOf_eq (fun d => accountOf_openAccount) fun d => ?_
    rw [← h.accounts]
    exact accountOf_openAccount
  index := h.index_update x.order.key (some { num := x.num, tick := k.2, side := k.1 })
  nextNum := h.nextNum

theorem Related.move
    {o : Order}
    (h : ρ.Related s s') (hx : x ∈ s.queue k) (hk' : k' ∈ ρ.levels) (hp : o.price ∈ ρ.prices) :
    ρ.Related (s.move k x k' o) (s'.move (ρ.level k) (ρ.entry x) (ρ.level k') (ρ.order o)) where
  queue := by
    refine Carried.push ?_ level_injOn hk' rfl
    exact h.queue.discard level_injOn (h.queue.dom_of_mem hx) fun y => num_eq_iff y x.num
  priced hy := by
    rcases mem_push.mp hy with hy | ⟨-, rfl⟩
    · exact h.priced (mem_discard.mp hy).1
    · exact hp
  accounts := h.accounts
  index := h.index_update x.order.key (some { num := x.num, tick := k'.2, side := k'.1 })
  nextNum := h.nextNum

theorem Related.account
    (h : ρ.Related s s') (c : UInt64) :
    ρ.Related (s.account c) (s'.account (ρ.client c)) where
  queue := h.queue
  priced := h.priced
  accounts d := by
    rw [accountOf_account, accountOf_account]
    exact h.accounts d
  index := h.index
  nextNum := h.nextNum

theorem Related.number
    (h : ρ.Related s s') :
    ρ.Related s.number s'.number where
  queue := h.queue
  priced := h.priced
  accounts := h.accounts
  index := h.index
  nextNum := by
    have := h.nextNum
    dsimp only [State.number]
    omega

end Steps

section Looks

theorem Related.resting
    (h : ρ.Related s s') :
    s'.resting = s.resting :=
  h.queue.weigh level_injOn (fun _ => mem_levels) (fun _ => level_mem_levels) fun _ => rfl

theorem Related.bestTick
    (h : ρ.Related s s') (side : Side) :
    s'.bestTick (ρ.side side) = (s.bestTick side).map ρ.tick := by
  -- What stands on the side are images of what stands on the side.
  have hback : ∀ u, s'.queue (ρ.side side, u) ≠ [] →
      ∃ v, (side, v) ∈ ρ.levels ∧ ρ.tick v = u ∧ s.queue (side, v) ≠ [] := by
    intro u hne
    obtain ⟨⟨sd, v⟩, hk, heq⟩ := h.queue.beyond hne
    obtain ⟨hside, htick⟩ := Prod.mk.inj heq
    obtain rfl := side_injective hside
    refine ⟨v, hk, htick, (h.queue.ne_nil_iff hk).mp ?_⟩
    rw [heq]
    exact hne
  cases hb : s.bestTick side with
  | none =>
      refine bestTick_eq_none_iff.mpr fun u _ => ?_
      by_contra hne
      obtain ⟨v, hk, -, hne⟩ := hback u hne
      exact hne (bestTick_eq_none_iff.mp hb v (PriceTime.mem_levels.mp (mem_levels hk)))
  | some t =>
      obtain ⟨-, hne, hbest⟩ := bestTick_eq_some_iff.mp hb
      have hk : (side, t) ∈ ρ.levels := h.queue.within hne
      refine bestTick_eq_some_iff.mpr
        ⟨PriceTime.mem_levels.mp (level_mem_levels hk), (h.queue.ne_nil_iff hk).mpr hne, ?_⟩
      intro u _ hne'
      obtain ⟨v, hkv, rfl, hnev⟩ := hback u hne'
      rw [better_of_levels hkv hk]
      exact hbest v (PriceTime.mem_levels.mp (mem_levels hkv)) hnev

theorem Related.best
    (h : ρ.Related s s') (side : Side) :
    s'.best (ρ.side side) = (s.best side).map (fun tx => (ρ.tick tx.1, ρ.entry tx.2)) := by
  rw [State.best, State.best, h.bestTick]
  cases hb : s.bestTick side with
  | none => rfl
  | some t =>
      obtain ⟨-, hne, -⟩ := bestTick_eq_some_iff.mp hb
      have hq : s'.queue (ρ.side side, ρ.tick t) = (s.queue (side, t)).map ρ.entry :=
        h.queue.along (h.queue.within hne)
      rw [Option.map_some, Option.bind_some, Option.bind_some, hq, List.head?_map,
        Option.map_map, Option.map_map]
      rfl

theorem Related.find
    {l : Locator}
    (h : ρ.Related s s') (hx : x ∈ s.queue l.level) :
    s'.find (ρ.locator l) = (s.find l).map ρ.entry := by
  have hq : s'.queue (ρ.locator l).level = (s.queue l.level).map ρ.entry :=
    h.queue.along (h.queue.dom_of_mem hx)
  rw [State.find, State.find, hq, List.find?_map]
  refine congrArg (Option.map ρ.entry) (congrArg (fun p => List.find? p _) (funext fun y => ?_))
  exact decide_eq_decide.mpr (num_eq_iff y l.num).symm

end Looks

section Matching

variable {p : Placement} {fuel : Nat} {t : Nat}

theorem fill_eq
    (p : Placement) (o : Order) (qty : UInt64) :
    (ρ.placement p).fill (ρ.order o) qty = ρ.event (p.fill o qty) := by
  simp only [Placement.fill, fillEvent, placement, event, order, orderId_ofNat]

theorem entry_eq
    (p : Placement) (price : UInt64) :
    ρ.entry (p.entry price) = (ρ.placement p).entry (ρ.price price) := by
  simp only [Placement.entry, Placement.order, restingOrder, entry, order, placement,
    orderId_ofNat]

theorem Related.best_opposite
    (h : ρ.Related s s') (p : Placement) :
    s'.best (ρ.placement p).side.opposite =
      (s.best p.side.opposite).map (fun tx => (ρ.tick tx.1, ρ.entry tx.2)) := by
  rw [← h.best, ρ.side_opposite]
  rfl

theorem Related.crosses_best
    (h : ρ.Related s s') (hlimit : ∀ q, p.limitPrice = some q → q ∈ ρ.prices)
    (hb : s.best p.side.opposite = some (t, x)) :
    crossesTick cfg (ρ.placement p).side (ρ.placement p).limitPrice (ρ.tick t) =
      crossesTick cfg p.side p.limitPrice t :=
  crossesTick_eq (k := (p.side.opposite, t)) hlimit (h.queue.dom_of_mem (State.best_mem hb))

theorem Related.swept
    (h : ρ.Related s s') (hlimit : ∀ q, p.limitPrice = some q → q ∈ ρ.prices)
    (hswept : Swept cfg s p) :
    Swept cfg s' (ρ.placement p) := by
  intro u y hb
  rw [h.best_opposite, Option.map_eq_some_iff] at hb
  obtain ⟨⟨t, x⟩, hb, heq⟩ := hb
  obtain ⟨rfl, rfl⟩ := Prod.mk.inj heq
  rw [h.crosses_best hlimit hb]
  exact hswept hb

/-- **Matching does to the renamed book what it does to the book.** -/
theorem Related.sweep
    (h : ρ.Related s s') (hlimit : ∀ q, p.limitPrice = some q → q ∈ ρ.prices) (fuel : Nat) :
    ρ.Related (p.sweep cfg fuel s).1 ((ρ.placement p).sweep cfg fuel s').1 ∧
      ((ρ.placement p).sweep cfg fuel s').2.1 = (p.sweep cfg fuel s).2.1 ∧
      ((ρ.placement p).sweep cfg fuel s').2.2 = (p.sweep cfg fuel s).2.2.map ρ.event := by
  induction fuel generalizing p s s' with
  | zero => exact ⟨h, rfl, rfl⟩
  | succ fuel ih =>
      rcases sweep_cases cfg p s with hstop | ⟨t, x, h0, hb, hc, hqty⟩
      · have hstop' : (ρ.placement p).leavesQty = 0 ∨ Swept cfg s' (ρ.placement p) :=
          hstop.imp_right (h.swept hlimit)
        rw [sweep_stop hstop, sweep_stop hstop']
        exact ⟨h, rfl, rfl⟩
      have hx := State.best_mem hb
      have hb' : s'.best (ρ.placement p).side.opposite = some (ρ.tick t, ρ.entry x) := by
        rw [h.best_opposite, hb]
        rfl
      have hc' := (h.crosses_best hlimit hb).trans hc
      have hlevel : ((ρ.placement p).side.opposite, ρ.tick t) = ρ.level (p.side.opposite, t) :=
        Prod.ext (ρ.side_opposite p.side).symm rfl
      rcases hqty with hle | hlt
      · obtain ⟨hrel, hleft, hevs⟩ := ih (p := p.less x.order.leavesQty) (h.leave hx) hlimit
        rw [sweep_whole h0 hb hc hle, sweep_whole (p := ρ.placement p) h0 hb' hc' hle, hlevel]
        refine ⟨hrel, hleft, ?_⟩
        rw [List.map_cons, ← fill_eq]
        exact congrArg _ hevs
      · rw [sweep_part h0 hb hc hlt, sweep_part (p := ρ.placement p) h0 hb' hc' hlt, hlevel]
        refine ⟨h.change hx (keeps_filledBy _) fun _ => rfl, rfl, ?_⟩
        rw [List.map_singleton, ← fill_eq]
        rfl

end Matching

section Commands

theorem answer_false :
    ρ.answer false = ρ.event := by
  funext ev
  cases ev <;> rfl

theorem Related.outcomes
    {es : List OutputEvent} (h : ρ.Related s s') :
    ρ.Outcomes (s, es) (s', es.map ρ.event) :=
  ⟨h, rfl⟩

theorem Related.outcomes_one
    {ev ev' : OutputEvent}
    (h : ρ.Related s s') (hev : ρ.event ev = ev') :
    ρ.Outcomes (s, [ev]) (s', [ev']) := by
  rw [← hev]
  exact h.outcomes

/-- The fills of a placement and what becomes of the rest. -/
theorem Related.outcomes_append
    {fills : List OutputEvent} {ev ev' : OutputEvent}
    (h : ρ.Related s s') (hev : ρ.event ev = ev') :
    ρ.Outcomes (s, fills ++ [ev]) (s', fills.map ρ.event ++ [ev']) := by
  rw [← hev, ← List.map_singleton (f := ρ.event), ← List.map_append]
  exact h.outcomes

theorem Related.placeMarket
    {p : Placement}
    (h : ρ.Related s s') (hleaves : p.leavesQty = p.quantity) (hlimit : p.limitPrice = none) :
    ρ.Outcomes (PriceTime.placeMarket cfg s p.num p.clientId p.symbol p.side p.quantity)
      (PriceTime.placeMarket cfg s' (ρ.placement p).num (ρ.placement p).clientId
        (ρ.placement p).symbol (ρ.placement p).side (ρ.placement p).quantity) := by
  have hlimit' : (ρ.placement p).limitPrice = none := by rw [Symmetry.placement, hlimit]; rfl
  obtain ⟨hrel, hleft, hevs⟩ := h.sweep (p := p) (by simp [hlimit]) (s.resting + 1)
  unfold PriceTime.placeMarket
  rw [matchAll_eq_sweep hleaves hlimit, matchAll_eq_sweep (p := ρ.placement p) hleaves hlimit',
    h.resting]
  generalize p.sweep cfg (s.resting + 1) s = r at hrel hleft hevs ⊢
  generalize (ρ.placement p).sweep cfg (s.resting + 1) s' = r' at hrel hleft hevs ⊢
  obtain ⟨s₁, left, fills⟩ := r
  obtain ⟨s₁', left', fills'⟩ := r'
  dsimp only at hrel hleft hevs ⊢
  subst hleft hevs
  split_ifs with hpos
  · exact hrel.outcomes_append (by rw [event, orderId_ofNat]; rfl)
  · exact hrel.outcomes

theorem Related.placeLimit
    {p : Placement} {price : UInt64} {t : Nat}
    (h : ρ.Related s s') (hleaves : p.leavesQty = p.quantity)
    (hlimit : p.limitPrice = some price) (hprice : price ∈ ρ.prices)
    (htick : tickOf cfg price = some t) :
    ρ.Outcomes
      (PriceTime.placeLimit cfg s p.num p.clientId p.clientOrderId p.symbol p.side
        price p.quantity t)
      (PriceTime.placeLimit cfg s' (ρ.placement p).num (ρ.placement p).clientId
        (ρ.placement p).clientOrderId (ρ.placement p).symbol (ρ.placement p).side
        (ρ.price price) (ρ.placement p).quantity (ρ.tick t)) := by
  have hlimit' : (ρ.placement p).limitPrice = some (ρ.price price) := by
    rw [Symmetry.placement, hlimit]
    rfl
  have hmem : ∀ q, p.limitPrice = some q → q ∈ ρ.prices := by
    intro q hq
    rw [hlimit, Option.some.injEq] at hq
    exact hq ▸ hprice
  obtain ⟨hrel, hleft, hevs⟩ := h.sweep hmem (s.resting + 1)
  unfold PriceTime.placeLimit
  rw [matchAll_eq_sweep hleaves hlimit, matchAll_eq_sweep (p := ρ.placement p) hleaves hlimit',
    h.resting]
  generalize p.sweep cfg (s.resting + 1) s = r at hrel hleft hevs ⊢
  generalize (ρ.placement p).sweep cfg (s.resting + 1) s' = r' at hrel hleft hevs ⊢
  obtain ⟨s₁, left, fills⟩ := r
  obtain ⟨s₁', left', fills'⟩ := r'
  dsimp only at hrel hleft hevs ⊢
  subst hleft hevs
  rw [hrel.resting]
  split_ifs with hpos hfull
  · exact hrel.outcomes_append rfl
  · have hlevel : (p.side, t) ∈ ρ.levels := ⟨price, hprice, htick⟩
    have hrest := hrel.rest (x := Placement.entry { p with leavesQty := left' } price) hlevel hprice
    rw [entry_eq] at hrest
    exact hrest.outcomes_append (by rw [event, orderId_ofNat]; rfl)
  · exact hrel.outcomes

theorem Related.place
    {orderType : OrderType} {price : Option UInt64}
    (h : ρ.Related s s') (hprice : orderType = .limit → ∀ p, price = some p → p ∈ ρ.prices)
    (clientId clientOrderId : UInt64) (symbol : Symbol) (side : Side) (quantity : UInt64) :
    ρ.Outcomes (PriceTime.place cfg s clientId clientOrderId symbol side orderType price quantity)
      (PriceTime.place cfg s' (ρ.client clientId) (ρ.clientOrder clientOrderId) (ρ.symbol symbol)
        (ρ.side side) orderType (price.map ρ.price) quantity) := by
  have hnumbered := (h.account clientId).number
  rw [PriceTime.place, PriceTime.place, h.accounts]
  by_cases hqty : quantity = 0
  · rw [if_pos hqty, if_pos hqty]
    exact h.outcomes
  by_cases hlimit : maxOpenOrders ≤ (accountOf s.clients clientId).openOrders
  · rw [if_neg hqty, if_neg hqty, if_pos hlimit, if_pos hlimit]
    exact (h.account clientId).outcomes
  rw [if_neg hqty, if_neg hqty, if_neg hlimit, if_neg hlimit, h.nextNum]
  cases orderType with
  | market =>
      exact hnumbered.placeMarket
        (p := s.placement clientId clientOrderId symbol side none quantity) rfl rfl
  | limit =>
      cases price with
      | none => exact hnumbered.outcomes
      | some price =>
          have hmem := hprice rfl price rfl
          have htick := ρ.tickOf_price hmem
          cases ht : tickOf cfg price with
          | none =>
              rw [ht, Option.map_none] at htick
              simp only [Option.map_some, htick, ht]
              exact hnumbered.outcomes
          | some t =>
              rw [ht, Option.map_some] at htick
              simp only [Option.map_some, htick, ht]
              exact hnumbered.placeLimit
                (p := s.placement clientId clientOrderId symbol side (some price) quantity)
                rfl rfl hmem ht

/-- What the index of the renamed state names. -/
theorem Related.lookup
    {key : Key} {l : Locator}
    (h : ρ.Related s s') (hc : Consistent cfg s) (hl : s.index key = some l) :
    ∃ x, s.find l = some x ∧ x ∈ s.queue l.level ∧ x.order.key = key ∧
      s'.index (ρ.key key) = some (ρ.locator l) ∧
      s'.find (ρ.locator l) = some (ρ.entry x) := by
  obtain ⟨x, hfind, hx, hkey, -, -⟩ := hc.find hl
  refine ⟨x, hfind, hx, hkey, ?_, ?_⟩
  · rw [h.index, hl, Option.map_some]
  · rw [h.find hx, hfind, Option.map_some]

theorem Related.cancel
    (h : ρ.Related s s') (hc : Consistent cfg s) (clientId clientOrderId : UInt64) :
    ρ.Outcomes (PriceTime.cancel s clientId clientOrderId)
      (PriceTime.cancel s' (ρ.client clientId) (ρ.clientOrder clientOrderId)) := by
  cases hl : s.index (clientId, clientOrderId) with
  | none =>
      have hl' : s'.index (ρ.client clientId, ρ.clientOrder clientOrderId) = none := by
        have := h.index (clientId, clientOrderId)
        rw [hl] at this
        exact this
      simp only [PriceTime.cancel, hl, hl']
      exact h.outcomes
  | some l =>
      obtain ⟨x, hfind, hx, hkey, hl', hfind'⟩ := h.lookup hc hl
      have hclient : x.order.clientId = clientId := congrArg Prod.fst hkey
      have hclient' : (ρ.entry x).order.clientId = ρ.client clientId := congrArg ρ.client hclient
      rw [key] at hl'
      simp only [PriceTime.cancel, hl, hl', hfind, hfind', hclient, hclient', ne_eq,
        not_true_eq_false, if_false]
      have hevent : ρ.event (.orderCancelled (UInt64.ofNat l.num) clientId x.order.leavesQty) =
          .orderCancelled (UInt64.ofNat (ρ.locator l).num) (ρ.client clientId)
            (ρ.entry x).order.leavesQty := by
        rw [event, orderId_ofNat]
        rfl
      exact (h.leave hx).outcomes_one hevent

theorem Related.modifyRequeue
    {l : Locator} {price : UInt64}
    (h : ρ.Related s s') (hx : x ∈ s.queue l.level) (hprice : price ∈ ρ.prices)
    (clientId target : UInt64) :
    ρ.Outcomes (PriceTime.modifyRequeue cfg s l clientId x price target)
      (PriceTime.modifyRequeue cfg s' (ρ.locator l) (ρ.client clientId) (ρ.entry x)
        (ρ.price price) target) := by
  have hleft : ρ.Related (s.leave l.level x)
      (s'.leave (ρ.locator l).level (ρ.entry x)) := h.leave hx
  have hrejected : ρ.event (.modifyRejected (UInt64.ofNat l.num) clientId) =
      .modifyRejected (UInt64.ofNat (ρ.locator l).num) (ρ.client clientId) := by
    rw [event, orderId_ofNat]
    rfl
  have htick := ρ.tickOf_price hprice
  unfold PriceTime.modifyRequeue
  cases ht : tickOf cfg price with
  | none =>
      rw [ht, Option.map_none] at htick
      simp only [htick]
      exact hleft.outcomes_one hrejected
  | some t =>
      rw [ht, Option.map_some] at htick
      simp only [htick, hleft.resting]
      split_ifs with hfull
      · exact hleft.outcomes_one hrejected
      · have hlevel : (x.order.side, t) ∈ ρ.levels := ⟨price, hprice, ht⟩
        have hmove := h.move (o := requeuedAs price target x.order) hx hlevel hprice
        refine hmove.outcomes_one ?_
        rw [event, orderId_ofNat]
        rfl

/-- A modification under a key that the book lacks. -/
theorem Related.modify_lacking
    (h : ρ.Related s s') {clientId clientOrderId : UInt64}
    (hl : s.index (clientId, clientOrderId) = none) (newPrice newQty : Option UInt64) :
    PriceTime.modify cfg s clientId clientOrderId newPrice newQty =
        (s, [.modifyRejected clientOrderId clientId]) ∧
      PriceTime.modify cfg s' (ρ.client clientId) (ρ.clientOrder clientOrderId)
          (newPrice.map ρ.price) newQty =
        (s', [.modifyRejected (ρ.clientOrder clientOrderId) (ρ.client clientId)]) := by
  have hl' := h.index (clientId, clientOrderId)
  rw [hl, key, Option.map_none] at hl'
  simp only [PriceTime.modify, hl, hl', and_self]

theorem Related.modify
    {newPrice : Option UInt64} {l : Locator}
    (h : ρ.Related s s') (hc : Consistent cfg s)
    (hprice : ∀ p, newPrice = some p → p ∈ ρ.prices)
    (clientId clientOrderId : UInt64) (newQty : Option UInt64)
    (hl : s.index (clientId, clientOrderId) = some l) :
    ρ.Outcomes (PriceTime.modify cfg s clientId clientOrderId newPrice newQty)
      (PriceTime.modify cfg s' (ρ.client clientId) (ρ.clientOrder clientOrderId)
        (newPrice.map ρ.price) newQty) := by
  obtain ⟨x, hfind, hx, hkey, hl', hfind'⟩ := h.lookup hc hl
  have hclient : x.order.clientId = clientId := congrArg Prod.fst hkey
  have hclient' : (ρ.entry x).order.clientId = ρ.client clientId := congrArg ρ.client hclient
  have htarget : (newPrice.map ρ.price).getD (ρ.entry x).order.price =
      ρ.price (newPrice.getD x.order.price) := by
    cases newPrice <;> rfl
  have hmem : newPrice.getD x.order.price ∈ ρ.prices := by
    cases newPrice with
    | none => exact h.priced hx
    | some p => exact hprice p rfl
  have hsame : ρ.price (newPrice.getD x.order.price) = (ρ.entry x).order.price ↔
      newPrice.getD x.order.price = x.order.price :=
    ρ.price_injOn.eq_iff hmem (h.priced hx)
  have hleaves : (ρ.entry x).order.leavesQty = x.order.leavesQty := rfl
  have hrejected : ρ.event (.modifyRejected (UInt64.ofNat l.num) clientId) =
      .modifyRejected (UInt64.ofNat (ρ.locator l).num) (ρ.client clientId) := by
    rw [event, orderId_ofNat]
    rfl
  have hdone : ∀ p q, ρ.event (.orderModified (UInt64.ofNat l.num) clientId p q) =
      .orderModified (UInt64.ofNat (ρ.locator l).num) (ρ.client clientId) (ρ.price p) q := by
    intro p q
    rw [event, orderId_ofNat]
    rfl
  rw [key] at hl'
  simp only [PriceTime.modify, hl, hl', hfind, hfind', hclient, hclient', ne_eq,
    not_true_eq_false, if_false, htarget, hsame, hleaves]
  split_ifs with hzero hkeep
  · exact h.outcomes_one hrejected
  · exact (h.change hx (keeps_reducedTo _) fun _ => rfl).outcomes_one (hdone _ _)
  · exact h.modifyRequeue hx hmem clientId _

/-- **A book does the renamed command as it does the command.** -/
theorem Related.handle
    {c : Command}
    (h : ρ.Related s s') (hc : Consistent cfg s) (hcovers : ρ.Covers c) :
    ρ.Related (PriceTime.handle cfg s c).1 (PriceTime.handle cfg s' (ρ.command c)).1 ∧
      (PriceTime.handle cfg s' (ρ.command c)).2 =
        (PriceTime.handle cfg s c).2.map (ρ.answer (s.lacks c)) := by
  have hout : s.lacks c = false →
      ρ.Outcomes (PriceTime.handle cfg s c) (PriceTime.handle cfg s' (ρ.command c)) →
      ρ.Related (PriceTime.handle cfg s c).1 (PriceTime.handle cfg s' (ρ.command c)).1 ∧
        (PriceTime.handle cfg s' (ρ.command c)).2 =
          (PriceTime.handle cfg s c).2.map (ρ.answer (s.lacks c)) := by
    intro hlacks hout
    rw [hlacks, answer_false]
    exact ⟨hout.state, hout.events⟩
  cases c with
  | place clientId clientOrderId symbol side orderType price quantity tif =>
      exact hout rfl (h.place hcovers clientId clientOrderId symbol side quantity)
  | cancel clientId clientOrderId =>
      exact hout rfl (h.cancel hc clientId clientOrderId)
  | modify clientId clientOrderId newPrice newQty =>
      cases hl : s.index (clientId, clientOrderId) with
      | none =>
          obtain ⟨hone, hother⟩ := h.modify_lacking hl newPrice newQty
          have hlacks : s.lacks (.modify clientId clientOrderId newPrice newQty) = true := by
            rw [State.lacks, hl, Option.isNone_none]
          rw [hlacks, PriceTime.handle, command, PriceTime.handle, hone, hother]
          exact ⟨h, rfl⟩
      | some l =>
          refine hout ?_ (h.modify hc hcovers clientId clientOrderId newQty hl)
          rw [State.lacks, hl, Option.isNone_some]

/-- **A book does the renamed commands as it does the commands.** -/
theorem Related.run
    {cs : List Command}
    (h : ρ.Related s s') (hc : Consistent cfg s) (hcovers : ∀ c, c ∈ cs → ρ.Covers c) :
    ρ.Related (PriceTime.run cfg s cs).1 (PriceTime.run cfg s' (cs.map ρ.command)).1 ∧
      (PriceTime.run cfg s' (cs.map ρ.command)).2 =
        ρ.answers (s.lacking cfg cs) (PriceTime.run cfg s cs).2 := by
  induction cs generalizing s s' with
  | nil => exact ⟨h, rfl⟩
  | cons c cs ih =>
      obtain ⟨hone, hes⟩ := h.handle hc (hcovers c List.mem_cons_self)
      obtain ⟨hrel, hevs⟩ := ih hone (handle_consistent hc c)
        fun d hd => hcovers d (List.mem_cons_of_mem c hd)
      exact ⟨hrel, List.cons_eq_cons.mpr ⟨hes, hevs⟩⟩

end Commands

end Symmetry

end PriceTime
end LmaxEngine
