import LmaxEngine.Model.Book

/-!
# Matching

`blp/matching.rs`, with the state that the handlers share.  The source passes
the book, the accounts, the order index and the next order id as separate
mutable references; here they travel together as an `Engine`.  A `HashMap` is
a function to `Option`.  What the source passes to `emit` is returned as a
list, in the order of emission.
-/

namespace LmaxEngine

open Checked

structure ClientAccount where
  openOrders : UInt32
deriving DecidableEq, Repr

instance : Inhabited ClientAccount :=
  ⟨{ openOrders := 0 }⟩

def maxOpenOrders : UInt32 := 1000

structure OrderLocator where
  oid : OrderId
  tick : Nat
  side : Side
  internalId : UInt64
deriving DecidableEq, Repr

abbrev Clients := UInt64 → Option ClientAccount

abbrev OrderIndex := Key → Option OrderLocator

structure Engine where
  book : OrderBook
  clients : Clients
  orderIndex : OrderIndex
  nextOrderId : UInt64

/-- The state that the loop of `consumer/blp.rs` starts from. -/
def Engine.new (cfg : Config) : Engine where
  book := OrderBook.new cfg
  clients := fun _ => none
  orderIndex := fun _ => none
  nextOrderId := 1

/-- `if let Some(ac) = clients.get_mut(&c)` with
`ac.open_orders = ac.open_orders.saturating_sub(1)` -/
def closeOrder (β : Build) (clients : Clients) (c : UInt64) : Run Clients :=
  match clients c with
  | none => .ok clients
  | some ac => do
      let n ← saturatingSubOpen β ac.openOrders 1
      .ok (Function.update clients c (some { ac with openOrders := n }))

/-- Does an aggressor with this limit trade at this price? -/
def crosses (side : Side) (limitPrice bestPrice : UInt64) : Bool :=
  match side with
  | .buy => bestPrice ≤ limitPrice
  | .sell => limitPrice ≤ bestPrice

/-- The crossing test of the matching loop.  Without a limit it is skipped. -/
def crossesAt
    (β : Build) (b : OrderBook) (side : Side)
    (limitPrice : Option UInt64) (tick : Nat) :
    Run Bool :=
  match limitPrice with
  | none => .ok true
  | some limitPrice => do
      let bestPrice ← b.tickToPrice β tick
      .ok (crosses side limitPrice bestPrice)

/-- Write the order of an occupied slot. -/
def putOrder (arena : Arena) (i : Nat) (slot : Slot)
    (order : Order) (prev next : Option Nat) :
    Run Arena := do
  let store ← put arena.orderStore i
    { slot with state := .occupied order prev next }
  .ok { arena with orderStore := store }

section MatchAggressor

variable (β : Build)
variable (aggressorOrderId aggressorClientId : UInt64)
variable (symbol : Symbol) (side : Side) (limitPrice : Option UInt64)

/-- The `loop` of `match_aggressor`, for at most `fuel` rounds.  The result is
the engine, the quantity left and the events of the rounds. -/
def matchLoop :
    Nat → Engine → UInt64 → Run (Engine × UInt64 × List OutputEvent)
  | 0, _, _ => .error .outOfFuel
  | fuel + 1, e, leavesQty =>
    if leavesQty = 0 then
      .ok (e, leavesQty, [])
    else do
      let best ← e.book.bestTick β side.opposite
      match best with
      | none => .ok (e, leavesQty, [])
      | some bestTick =>
        let crossing ← crossesAt β e.book side limitPrice bestTick
        if crossing = false then
          .ok (e, leavesQty, [])
        else
          let level ← (e.book.half side.opposite).getPriceLevel bestTick
          match level.bind PriceLevel.head with
          | none => fallback β (e, leavesQty, [])
          | some restingSlotIdx =>
            let slot ← ix e.book.arena.orderStore restingSlotIdx
            match slot.state with
            | .free _ => fallback β (e, leavesQty, [])
            | .occupied resting prev next =>
              let fillQty := min leavesQty resting.leavesQty
              let event := OutputEvent.fill aggressorOrderId resting.orderId
                aggressorClientId resting.clientId symbol resting.price fillQty side
              let leavesQty ← sub64 β leavesQty fillQty
              if fillQty = resting.leavesQty then
                let book ← e.book.removeOrder β side.opposite bestTick restingSlotIdx
                let orderIndex := Function.update e.orderIndex resting.key none
                let clients ← closeOrder β e.clients resting.clientId
                let (e, leavesQty, events) ← matchLoop fuel
                  { e with book := book, orderIndex := orderIndex, clients := clients }
                  leavesQty
                .ok (e, leavesQty, event :: events)
              else
                let restingLeaves ← sub64 β resting.leavesQty fillQty
                let restingFilled ← addQty β resting.filledQty fillQty
                let arena ← putOrder e.book.arena restingSlotIdx slot
                  { resting with
                    leavesQty := restingLeaves
                    filledQty := restingFilled } prev next
                let book ← OrderBook.reduceTotal β { e.book with arena := arena }
                  side.opposite bestTick fillQty
                if leavesQty = 0 then
                  .ok ({ e with book := book }, leavesQty, [event])
                else
                  let (e, leavesQty, events) ← matchLoop fuel
                    { e with book := book } leavesQty
                  .ok (e, leavesQty, event :: events)

/-- Match an incoming order against the opposite side.  The loop of the source
has no bound; here it has one round for each slot of the arena and one more,
which is enough (`matchLoop_refines`). -/
def matchAggressor (e : Engine) (leavesQty : UInt64) :
    Run (Engine × UInt64 × List OutputEvent) :=
  matchLoop β aggressorOrderId aggressorClientId symbol side limitPrice
    (e.book.arena.orderStore.size + 1) e leavesQty

end MatchAggressor

end LmaxEngine
