import Mathlib.Data.Finite.Prod
import Mathlib.Order.Interval.Finset.Nat
import LmaxEngine.Lib.Queues
import LmaxEngine.Model.Handlers

/-!
# The plain price-time book

What the engine is for, without bitmap, arena and generational ids.  A resting
order is an entry in the queue of its side and tick.  The best tick is found
by looking at the queues, a full book is one whose queues hold `capacity`
entries, and the index names an entry by its number.

The number of an order is the count of ids handed out before it; it is kept
when the order moves to another queue.  The order id that the outside sees is
the number as a `u64`, so orders have distinct ids as long as fewer than `2^64`
ids are handed out, and distinct numbers in every run.

The handlers are those of the engine, over these queues.
-/

namespace LmaxEngine
namespace PriceTime

open Queues

structure Entry where
  num : Nat
  order : Order
deriving DecidableEq, Repr

/-- The name of a queue: a side and a tick. -/
abbrev Level := Side × Nat

structure Locator where
  num : Nat
  tick : Nat
  side : Side
deriving DecidableEq, Repr

def Locator.level (l : Locator) : Level :=
  (l.side, l.tick)

structure State where
  queue : Family Level Entry
  clients : Clients
  index : Key → Option Locator
  nextNum : Nat

/-- The empty book: no accounts, and the next order has number one. -/
def State.new : State where
  queue := fun _ => []
  clients := fun _ => none
  index := fun _ => none
  nextNum := 1

theorem finite_levels :
    {k : Level | k.2 < numTicks}.Finite := by
  refine (Set.Finite.prod (Set.toFinite ({.buy, .sell} : Set Side))
    (Set.finite_lt_nat numTicks)).subset ?_
  rintro ⟨side, t⟩ ht
  cases side <;> exact ⟨by simp, ht⟩

/-- The levels of a book. -/
noncomputable def levels : Finset Level :=
  finite_levels.toFinset

theorem mem_levels
    {k : Level} :
    k ∈ levels ↔ k.2 < numTicks :=
  finite_levels.mem_toFinset

/-- The number of resting orders. -/
noncomputable def State.resting (s : State) : Nat :=
  weigh levels s.queue (fun _ => 1)

/-- The highest tick with bids, the lowest with asks. -/
def State.bestTick (s : State) : Side → Option Nat
  | .buy => highest numTicks (fun t => s.queue (.buy, t))
  | .sell => lowest numTicks (fun t => s.queue (.sell, t))

/-- The tick of a price, if it has one.  No price has a tick of size zero. -/
def tickOf (cfg : Config) (price : UInt64) : Option Nat :=
  if price < cfg.basePrice ∨ cfg.tickSize = 0 then
    none
  else
    let tick := ((price - cfg.basePrice) / cfg.tickSize).toNat
    if numTicks ≤ tick then none else some tick

/-- The lowest price of a tick. -/
def priceOf (cfg : Config) (tick : Nat) : UInt64 :=
  cfg.basePrice + UInt64.ofNat tick * cfg.tickSize

/-- Does an aggressor with this limit trade with the orders of this tick? -/
def crossesTick
    (cfg : Config) (side : Side) (limitPrice : Option UInt64) (tick : Nat) : Bool :=
  match limitPrice with
  | none => true
  | some limitPrice => crosses side limitPrice (priceOf cfg tick)

/-- One open order less, if there is an account. -/
def closeAccount (clients : Clients) (c : UInt64) : Clients :=
  match clients c with
  | none => clients
  | some ac =>
      Function.update clients c
        (some { ac with
          openOrders := if ac.openOrders < 1 then 0 else ac.openOrders - 1 })

/-- One open order more. -/
def openAccount (clients : Clients) (c : UInt64) : Clients :=
  Function.update clients c
    (some { accountOf clients c with
      openOrders := (accountOf clients c).openOrders + 1 })

/-- An entry leaves the book for good. -/
def State.leave (s : State) (k : Level) (x : Entry) : State where
  queue := discard Entry.num s.queue k x.num
  clients := closeAccount s.clients x.order.clientId
  index := Function.update s.index x.order.key none
  nextNum := s.nextNum

/-- An entry joins the book as a new resting order. -/
def State.rest (s : State) (k : Level) (x : Entry) : State where
  queue := push s.queue k x
  clients := openAccount s.clients x.order.clientId
  index := Function.update s.index x.order.key
    (some { num := x.num, tick := k.2, side := k.1 })
  nextNum := s.nextNum

/-- An order after a part of it is filled. -/
def filledBy (qty : UInt64) (o : Order) : Order :=
  { o with leavesQty := o.leavesQty - qty, filledQty := o.filledQty + qty }

/-- An order after its quantity is reduced to `target` by its owner. -/
def reducedTo (target : UInt64) (o : Order) : Order :=
  { o with leavesQty := target, filledQty := o.filledQty + (o.leavesQty - target) }

/-- An order as it enters another queue. -/
def requeuedAs (price target : UInt64) (o : Order) : Order :=
  { o with timeInForce := .gtc, price := price, leavesQty := target }

/-- The order of an entry changes and keeps its place. -/
def State.change (s : State) (k : Level) (x : Entry) (f : Order → Order) : State :=
  { s with
    queue := revise Entry.num s.queue k x.num
      (fun y => { y with order := f y.order }) }

/-- An entry leaves its queue for the end of another. -/
def State.move (s : State) (k : Level) (x : Entry) (k' : Level) (o : Order) : State :=
  { s with
    queue := push (discard Entry.num s.queue k x.num) k'
      { num := x.num, order := o }
    index := Function.update s.index x.order.key
      (some { num := x.num, tick := k'.2, side := k'.1 }) }

section Matching

variable (cfg : Config)
variable (aggressor : Nat) (aggressorClientId : UInt64)
variable (symbol : Symbol) (side : Side) (limitPrice : Option UInt64)

/-- The event of a fill against a resting order. -/
def fillEvent (resting : Order) (qty : UInt64) : OutputEvent :=
  .fill (UInt64.ofNat aggressor) resting.orderId aggressorClientId resting.clientId
    symbol resting.price qty side

/-- The first entry of the best level of a side. -/
def State.best (s : State) (side : Side) : Option (Nat × Entry) :=
  (s.bestTick side).bind fun t => (s.queue (side, t)).head?.map fun x => (t, x)

/-- Match a quantity against the opposite side: the best entry first, until the
quantity is used up, no entry is left or the best tick does not cross. -/
def matchLoop : Nat → State → UInt64 → State × UInt64 × List OutputEvent
  | 0, s, leavesQty => (s, leavesQty, [])
  | fuel + 1, s, leavesQty =>
    if leavesQty = 0 then
      (s, leavesQty, [])
    else
      match s.best side.opposite with
      | none => (s, leavesQty, [])
      | some (t, x) =>
          if crossesTick cfg side limitPrice t = false then
            (s, leavesQty, [])
          else
            let fillQty := min leavesQty x.order.leavesQty
            let event := fillEvent aggressor aggressorClientId symbol side x.order fillQty
            if fillQty = x.order.leavesQty then
              let r := matchLoop fuel (s.leave (side.opposite, t) x) (leavesQty - fillQty)
              (r.1, r.2.1, event :: r.2.2)
            else
              (s.change (side.opposite, t) x (filledBy fillQty),
                leavesQty - fillQty, [event])

/-- Every round but the last removes an entry, so the rounds are enough. -/
noncomputable def matchAll (s : State) (leavesQty : UInt64) : State × UInt64 × List OutputEvent :=
  matchLoop cfg aggressor aggressorClientId symbol side limitPrice
    (s.resting + 1) s leavesQty

end Matching

section Handlers

variable (cfg : Config)

noncomputable def placeLimit
    (s : State) (num : Nat) (clientId clientOrderId : UInt64)
    (symbol : Symbol) (side : Side)
    (price quantity : UInt64) (tick : Nat) :
    State × List OutputEvent :=
  let r := matchAll cfg num clientId symbol side (some price) s quantity
  if 0 < r.2.1 then
    if r.1.resting = cfg.capacity then
      (r.1, r.2.2 ++ [.orderRejected clientId clientOrderId .arenaFull])
    else
      (r.1.rest (side, tick)
        { num := num
          order := restingOrder (UInt64.ofNat num) clientId clientOrderId symbol side
            price quantity r.2.1 (quantity - r.2.1) },
        r.2.2 ++ [.orderAccepted (UInt64.ofNat num) clientId clientOrderId symbol side
          price r.2.1])
  else
    (r.1, r.2.2)

noncomputable def placeMarket
    (s : State) (num : Nat) (clientId : UInt64)
    (symbol : Symbol) (side : Side) (quantity : UInt64) :
    State × List OutputEvent :=
  let r := matchAll cfg num clientId symbol side none s quantity
  if 0 < r.2.1 then
    (r.1, r.2.2 ++ [.orderCancelled (UInt64.ofNat num) clientId r.2.1])
  else
    (r.1, r.2.2)

/-- The state once a placement has its account. -/
def State.account (s : State) (c : UInt64) : State :=
  { s with clients := Function.update s.clients c (some (accountOf s.clients c)) }

/-- The state once a placement has its number. -/
def State.number (s : State) : State :=
  { s with nextNum := s.nextNum + 1 }

noncomputable def place
    (s : State) (clientId clientOrderId : UInt64)
    (symbol : Symbol) (side : Side) (orderType : OrderType)
    (price : Option UInt64) (quantity : UInt64) :
    State × List OutputEvent :=
  if quantity = 0 then
    (s, [.orderRejected clientId clientOrderId .invalidQuantity])
  else if maxOpenOrders ≤ (accountOf s.clients clientId).openOrders then
    (s.account clientId,
      [.orderRejected clientId clientOrderId .clientOrderLimitExceeded])
  else
    let s' := (s.account clientId).number
    match orderType with
    | .market => placeMarket cfg s' s.nextNum clientId symbol side quantity
    | .limit =>
        match price with
        | none => (s', [.orderRejected clientId clientOrderId .invalidPrice])
        | some price =>
            match tickOf cfg price with
            | none => (s', [.orderRejected clientId clientOrderId .invalidPrice])
            | some tick =>
                placeLimit cfg s' s.nextNum clientId clientOrderId symbol side
                  price quantity tick

section Accepted

variable {cfg} {s : State} {clientId clientOrderId : UInt64} {symbol : Symbol} {side : Side}
variable {quantity : UInt64}

/-- A market order that passes the checks of its quantity and its client. -/
theorem place_market
    {price : Option UInt64}
    (hqty : quantity ≠ 0)
    (hlimit : ¬ maxOpenOrders ≤ (accountOf s.clients clientId).openOrders) :
    place cfg s clientId clientOrderId symbol side .market price quantity =
      placeMarket cfg (s.account clientId).number s.nextNum clientId symbol side quantity := by
  rw [place, if_neg hqty, if_neg hlimit]

/-- A limit order that passes all checks. -/
theorem place_limit
    {price : UInt64} {tick : Nat}
    (hqty : quantity ≠ 0)
    (hlimit : ¬ maxOpenOrders ≤ (accountOf s.clients clientId).openOrders)
    (htick : tickOf cfg price = some tick) :
    place cfg s clientId clientOrderId symbol side .limit (some price) quantity =
      placeLimit cfg (s.account clientId).number s.nextNum clientId clientOrderId symbol side
        price quantity tick := by
  rw [place, if_neg hqty, if_neg hlimit]
  simp only [htick]

variable (cfg s clientId clientOrderId symbol side quantity)

/-- What a placement comes to. -/
theorem place_cases
    (orderType : OrderType) (price : Option UInt64) :
    (quantity = 0 ∧
        place cfg s clientId clientOrderId symbol side orderType price quantity =
          (s, [.orderRejected clientId clientOrderId .invalidQuantity])) ∨
      (maxOpenOrders ≤ (accountOf s.clients clientId).openOrders ∧
        place cfg s clientId clientOrderId symbol side orderType price quantity =
          (s.account clientId,
            [.orderRejected clientId clientOrderId .clientOrderLimitExceeded])) ∨
      (quantity ≠ 0 ∧ ¬ maxOpenOrders ≤ (accountOf s.clients clientId).openOrders ∧
        ((orderType = .limit ∧ price.bind (tickOf cfg) = none ∧
            place cfg s clientId clientOrderId symbol side orderType price quantity =
              ((s.account clientId).number,
                [.orderRejected clientId clientOrderId .invalidPrice])) ∨
          (orderType = .market ∧
            place cfg s clientId clientOrderId symbol side orderType price quantity =
              placeMarket cfg (s.account clientId).number s.nextNum clientId symbol side
                quantity) ∨
          ∃ limit tick, orderType = .limit ∧ price = some limit ∧
            tickOf cfg limit = some tick ∧
            place cfg s clientId clientOrderId symbol side orderType price quantity =
              placeLimit cfg (s.account clientId).number s.nextNum clientId clientOrderId
                symbol side limit quantity tick)) := by
  by_cases hqty : quantity = 0
  · exact Or.inl ⟨hqty, by rw [place, if_pos hqty]⟩
  by_cases hlimit : maxOpenOrders ≤ (accountOf s.clients clientId).openOrders
  · exact Or.inr (Or.inl ⟨hlimit, by rw [place, if_neg hqty, if_pos hlimit]⟩)
  refine Or.inr (Or.inr ⟨hqty, hlimit, ?_⟩)
  cases orderType with
  | market => exact Or.inr (Or.inl ⟨rfl, place_market hqty hlimit⟩)
  | limit =>
      cases price with
      | none => exact Or.inl ⟨rfl, rfl, by rw [place, if_neg hqty, if_neg hlimit]⟩
      | some price =>
          cases htick : tickOf cfg price with
          | none =>
              refine Or.inl ⟨rfl, htick, ?_⟩
              rw [place, if_neg hqty, if_neg hlimit]
              simp only [htick]
          | some tick =>
              exact Or.inr (Or.inr
                ⟨price, tick, rfl, rfl, htick, place_limit hqty hlimit htick⟩)

end Accepted

/-- The entry that the index names. -/
def State.find (s : State) (l : Locator) : Option Entry :=
  (s.queue l.level).find? (fun x => decide (x.num = l.num))

def cancel (s : State) (clientId clientOrderId : UInt64) : State × List OutputEvent :=
  let rejected := [OutputEvent.cancelRejected clientOrderId clientId]
  match s.index (clientId, clientOrderId) with
  | none => (s, rejected)
  | some l =>
      match s.find l with
      | none => (s, rejected)
      | some x =>
          if x.order.clientId ≠ clientId then
            (s, rejected)
          else
            (s.leave l.level x,
              [.orderCancelled (UInt64.ofNat l.num) clientId x.order.leavesQty])

noncomputable def modifyRequeue
    (s : State) (l : Locator) (clientId : UInt64) (x : Entry)
    (targetPrice targetLeaves : UInt64) :
    State × List OutputEvent :=
  let rejected := [OutputEvent.modifyRejected (UInt64.ofNat l.num) clientId]
  match tickOf cfg targetPrice with
  | none => (s.leave l.level x, rejected)
  | some newTick =>
      if (s.leave l.level x).resting = cfg.capacity then
        (s.leave l.level x, rejected)
      else
        (s.move l.level x (x.order.side, newTick)
            (requeuedAs targetPrice targetLeaves x.order),
          [.orderModified (UInt64.ofNat l.num) clientId targetPrice targetLeaves])

noncomputable def modify
    (s : State) (clientId clientOrderId : UInt64)
    (newPrice newQty : Option UInt64) :
    State × List OutputEvent :=
  match s.index (clientId, clientOrderId) with
  | none => (s, [.modifyRejected clientOrderId clientId])
  | some l =>
      let rejected := [OutputEvent.modifyRejected (UInt64.ofNat l.num) clientId]
      match s.find l with
      | none => (s, rejected)
      | some x =>
          if x.order.clientId ≠ clientId then
            (s, rejected)
          else
            let targetPrice := newPrice.getD x.order.price
            let targetLeaves := newQty.getD x.order.leavesQty
            if targetLeaves = 0 then
              (s, rejected)
            else if targetPrice = x.order.price ∧ targetLeaves ≤ x.order.leavesQty then
              (s.change l.level x (reducedTo targetLeaves),
                [.orderModified (UInt64.ofNat l.num) clientId targetPrice targetLeaves])
            else
              modifyRequeue cfg s l clientId x targetPrice targetLeaves

noncomputable def handle (s : State) : Command → State × List OutputEvent
  | .place clientId clientOrderId symbol side orderType price quantity _ =>
      place cfg s clientId clientOrderId symbol side orderType price quantity
  | .cancel clientId clientOrderId =>
      cancel s clientId clientOrderId
  | .modify clientId clientOrderId newPrice newQty =>
      modify cfg s clientId clientOrderId newPrice newQty

/-- A run: the state after a list of commands and the events of each. -/
noncomputable def run (s : State) : List Command → State × List (List OutputEvent)
  | [] => (s, [])
  | c :: cs =>
      ((run (handle cfg s c).1 cs).1,
        (handle cfg s c).2 :: (run (handle cfg s c).1 cs).2)

end Handlers

end PriceTime
end LmaxEngine
