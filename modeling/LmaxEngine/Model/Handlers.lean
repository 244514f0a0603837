import LmaxEngine.Model.Matching

/-!
# The command handlers

`blp/handlers.rs`, and runs of the engine: a run hands a finite list of
commands to the handlers, one by one, as the loop of `consumer/blp.rs` does.
-/

namespace LmaxEngine

open Checked

/-- `clients.entry(c).or_default()` -/
def accountOf (clients : Clients) (c : UInt64) : ClientAccount :=
  (clients c).getD default

/-- The limit order that rests what matching has left over. -/
def restingOrder
    (orderId clientId clientOrderId : UInt64)
    (symbol : Symbol) (side : Side)
    (price quantity leavesQty filledQty : UInt64) : Order where
  orderId := orderId
  clientId := clientId
  clientOrderId := clientOrderId
  symbol := symbol
  side := side
  orderType := .limit
  timeInForce := .gtc
  price := price
  quantity := quantity
  leavesQty := leavesQty
  filledQty := filledQty

section Handlers

variable (β : Build)

/-- The `LIMIT` branch of `process_place` from the point where the price is
known to lie in the tick range. -/
def placeLimit
    (e : Engine) (orderId clientId clientOrderId : UInt64)
    (symbol : Symbol) (side : Side)
    (price quantity : UInt64) (tickIdx : Nat) :
    Run (Engine × List OutputEvent) := do
  let (e, leavesQty, fills) ←
    matchAggressor β orderId clientId symbol side (some price) e quantity
  if 0 < leavesQty then
    let filledQty ← sub64 β quantity leavesQty
    let order := restingOrder orderId clientId clientOrderId symbol side
      price quantity leavesQty filledQty
    let (result, book) ← e.book.addOrder β side tickIdx order
    match result with
    | .ok oid =>
        let account := accountOf e.clients clientId
        let n ← addCounter32 β account.openOrders 1
        let clients := Function.update e.clients clientId
          (some { account with openOrders := n })
        let orderIndex := Function.update e.orderIndex (clientId, clientOrderId)
          (some { oid := oid, tick := tickIdx, side := side, internalId := orderId })
        .ok ({ e with book := book, clients := clients, orderIndex := orderIndex },
          fills ++ [.orderAccepted orderId clientId clientOrderId symbol side
            price leavesQty])
    | .error _ =>
        .ok ({ e with book := book },
          fills ++ [.orderRejected clientId clientOrderId .arenaFull])
  else
    .ok (e, fills)

/-- The `MARKET` branch of `process_place`. -/
def placeMarket
    (e : Engine) (orderId clientId : UInt64)
    (symbol : Symbol) (side : Side) (quantity : UInt64) :
    Run (Engine × List OutputEvent) := do
  let (e, leavesQty, fills) ←
    matchAggressor β orderId clientId symbol side none e quantity
  if 0 < leavesQty then
    .ok (e, fills ++ [.orderCancelled orderId clientId leavesQty])
  else
    .ok (e, fills)

def processPlace
    (e : Engine) (clientId clientOrderId : UInt64)
    (symbol : Symbol) (side : Side) (orderType : OrderType)
    (price : Option UInt64) (quantity : UInt64) :
    Run (Engine × List OutputEvent) :=
  if quantity = 0 then
    .ok (e, [.orderRejected clientId clientOrderId .invalidQuantity])
  else
    let account := accountOf e.clients clientId
    let e := { e with clients := Function.update e.clients clientId (some account) }
    if maxOpenOrders ≤ account.openOrders then
      .ok (e, [.orderRejected clientId clientOrderId .clientOrderLimitExceeded])
    else do
      let orderId := e.nextOrderId
      let nextOrderId ← addCounter β e.nextOrderId 1
      let e := { e with nextOrderId := nextOrderId }
      match orderType with
      | .market => placeMarket β e orderId clientId symbol side quantity
      | .limit =>
          match price with
          | none =>
              .ok (e, [.orderRejected clientId clientOrderId .invalidPrice])
          | some price => do
              let tick ← e.book.priceToTick price
              match tick with
              | none =>
                  .ok (e, [.orderRejected clientId clientOrderId .invalidPrice])
              | some tickIdx =>
                  placeLimit β e orderId clientId clientOrderId symbol side
                    price quantity tickIdx

def processCancel
    (e : Engine) (clientId clientOrderId : UInt64) :
    Run (Engine × List OutputEvent) :=
  let key : Key := (clientId, clientOrderId)
  let rejected := [OutputEvent.cancelRejected clientOrderId clientId]
  match e.orderIndex key with
  | none => .ok (e, rejected)
  | some locator => do
      let valid ← e.book.arena.validate locator.oid
      match valid with
      | none =>
          fallback β
            ({ e with orderIndex := Function.update e.orderIndex key none }, rejected)
      | some slotIdx => do
          let slot ← ix e.book.arena.orderStore slotIdx
          match slot.state with
          | .free _ => fallback β (e, rejected)
          | .occupied order _ _ =>
              if order.clientId ≠ clientId then
                fallback β (e, rejected)
              else do
                let book ← e.book.removeOrder β locator.side locator.tick slotIdx
                let orderIndex := Function.update e.orderIndex key none
                let clients ← closeOrder β e.clients clientId
                .ok ({ e with book := book, orderIndex := orderIndex, clients := clients },
                  [.orderCancelled locator.internalId clientId order.leavesQty])

/-- The branch of `process_modify` for an unchanged price and a quantity that
does not grow: the order keeps its slot and its place in the queue. -/
def modifyInPlace
    (e : Engine) (locator : OrderLocator) (clientId : UInt64)
    (slotIdx : Nat) (slot : Slot)
    (order : Order) (prev next : Option Nat)
    (targetPrice targetLeaves : UInt64) :
    Run (Engine × List OutputEvent) := do
  let diff ← sub64 β order.leavesQty targetLeaves
  let filledQty ← addQty β order.filledQty diff
  let arena ← putOrder e.book.arena slotIdx slot
    { order with leavesQty := targetLeaves, filledQty := filledQty } prev next
  let book ← OrderBook.reduceTotal β { e.book with arena := arena }
    locator.side locator.tick diff
  .ok ({ e with book := book },
    [.orderModified locator.internalId clientId targetPrice targetLeaves])

/-- The branch of `process_modify` for a changed price or a larger quantity:
the order is removed and added again behind the orders of its new level. -/
def modifyRequeue
    (e : Engine) (locator : OrderLocator) (clientId clientOrderId : UInt64)
    (slotIdx : Nat) (order : Order)
    (targetPrice targetLeaves : UInt64) :
    Run (Engine × List OutputEvent) := do
  let key : Key := (clientId, clientOrderId)
  let rejected := [OutputEvent.modifyRejected locator.internalId clientId]
  let book ← e.book.removeOrder β locator.side locator.tick slotIdx
  let orderIndex := Function.update e.orderIndex key none
  let tick ← book.priceToTick targetPrice
  match tick with
  | none => do
      let clients ← closeOrder β e.clients clientId
      .ok ({ e with book := book, orderIndex := orderIndex, clients := clients }, rejected)
  | some newTick => do
      let newOrder : Order :=
        { orderId := locator.internalId
          clientOrderId := clientOrderId
          clientId := clientId
          symbol := order.symbol
          side := order.side
          orderType := order.orderType
          timeInForce := .gtc
          price := targetPrice
          quantity := order.quantity
          leavesQty := targetLeaves
          filledQty := order.filledQty }
      let (result, book) ← book.addOrder β order.side newTick newOrder
      match result with
      | .ok newOid =>
          let orderIndex := Function.update orderIndex key
            (some { oid := newOid, tick := newTick, side := order.side,
                    internalId := locator.internalId })
          .ok ({ e with book := book, orderIndex := orderIndex },
            [.orderModified locator.internalId clientId targetPrice targetLeaves])
      | .error _ => do
          let clients ← closeOrder β e.clients clientId
          .ok ({ e with book := book, orderIndex := orderIndex, clients := clients },
            rejected)

def processModify
    (e : Engine) (clientId clientOrderId : UInt64)
    (newPrice newQty : Option UInt64) :
    Run (Engine × List OutputEvent) :=
  let key : Key := (clientId, clientOrderId)
  match e.orderIndex key with
  | none => .ok (e, [.modifyRejected clientOrderId clientId])
  | some locator => do
      let rejected := [OutputEvent.modifyRejected locator.internalId clientId]
      let valid ← e.book.arena.validate locator.oid
      match valid with
      | none =>
          fallback β
            ({ e with orderIndex := Function.update e.orderIndex key none }, rejected)
      | some slotIdx => do
          let slot ← ix e.book.arena.orderStore slotIdx
          match slot.state with
          | .free _ => fallback β (e, rejected)
          | .occupied order prev next =>
              if order.clientId ≠ clientId then
                fallback β (e, rejected)
              else
                let targetPrice := newPrice.getD order.price
                let targetLeaves := newQty.getD order.leavesQty
                if targetLeaves = 0 then
                  .ok (e, rejected)
                else if targetPrice = order.price ∧ targetLeaves ≤ order.leavesQty then
                  modifyInPlace β e locator clientId slotIdx slot order prev next
                    targetPrice targetLeaves
                else
                  modifyRequeue β e locator clientId clientOrderId slotIdx order
                    targetPrice targetLeaves

/-- The dispatch of a command to its handler.  The time in force of a `Place`
is dropped, as in the source. -/
def Engine.handle (e : Engine) : Command → Run (Engine × List OutputEvent)
  | .place clientId clientOrderId symbol side orderType price quantity _ =>
      processPlace β e clientId clientOrderId symbol side orderType price quantity
  | .cancel clientId clientOrderId =>
      processCancel β e clientId clientOrderId
  | .modify clientId clientOrderId newPrice newQty =>
      processModify β e clientId clientOrderId newPrice newQty

/-- A run: the engine after a list of commands and the events of each. -/
def Engine.run (e : Engine) : List Command → Run (Engine × List (List OutputEvent))
  | [] => .ok (e, [])
  | c :: cs => do
      let (e, events) ← Engine.handle β e c
      let (e, rest) ← run e cs
      .ok (e, events :: rest)

end Handlers

end LmaxEngine
