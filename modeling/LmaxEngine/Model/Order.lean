import Mathlib.Algebra.GroupWithZero.Nat
import LmaxEngine.Lib.Checked

/-!
# Orders, commands and events

The data of the modules `order` and `output_event`, the generational ids of
`blp/order_id.rs`, and the checked arithmetic that the engine is written in.
Integers keep their widths: `u64` and `u32` are `UInt64` and `UInt32`.  The
type `usize` of array indices and lengths is `Nat`.
-/

namespace LmaxEngine

open Checked

inductive Side where
  | buy
  | sell
deriving DecidableEq, Repr

/-- The side an order of the given side trades against. -/
def Side.opposite : Side → Side
  | .buy => .sell
  | .sell => .buy

@[simp] theorem Side.opposite_opposite
    (s : Side) :
    s.opposite.opposite = s := by
  cases s <;> rfl

inductive OrderType where
  | market
  | limit
deriving DecidableEq, Repr

inductive TimeInForce where
  | day
  | ioc
  | fok
  | gtc
  | gtd
deriving DecidableEq, Repr

/-- The arguments of `OrderBook::new`. -/
structure Config where
  basePrice : UInt64
  tickSize : UInt64
  capacity : Nat
deriving DecidableEq, Repr

/-- Eight raw bytes. -/
abbrev Symbol := Vector UInt8 8

/-- What the engine stores for a resting order. -/
structure Order where
  orderId : UInt64
  clientId : UInt64
  clientOrderId : UInt64
  symbol : Symbol
  side : Side
  orderType : OrderType
  timeInForce : TimeInForce
  price : UInt64
  quantity : UInt64
  leavesQty : UInt64
  filledQty : UInt64
deriving DecidableEq, Repr

/-- The name a client gives an order: its client id and its own order id. -/
abbrev Key := UInt64 × UInt64

def Order.key (o : Order) : Key :=
  (o.clientId, o.clientOrderId)

inductive Command where
  | place
      (clientId clientOrderId : UInt64)
      (symbol : Symbol)
      (side : Side)
      (orderType : OrderType)
      (price : Option UInt64)
      (quantity : UInt64)
      (timeInForce : TimeInForce)
  | cancel
      (clientId clientOrderId : UInt64)
  | modify
      (clientId clientOrderId : UInt64)
      (newPrice newQty : Option UInt64)
deriving DecidableEq, Repr

def Command.isPlace : Command → Bool
  | .place .. => true
  | _ => false

inductive RejectReason where
  | invalidPrice
  | invalidQuantity
  | invalidSymbol
  | arenaFull
  | clientOrderLimitExceeded
  | noLiquidityForMarketOrder
deriving DecidableEq, Repr

inductive OutputEvent where
  | orderAccepted
      (orderId clientId clientOrderId : UInt64)
      (symbol : Symbol)
      (side : Side)
      (price quantity : UInt64)
  | orderRejected
      (clientId clientOrderId : UInt64)
      (reason : RejectReason)
  | fill
      (aggressorOrderId restingOrderId : UInt64)
      (aggressorClientId restingClientId : UInt64)
      (symbol : Symbol)
      (price quantity : UInt64)
      (aggressorSide : Side)
  | orderCancelled
      (orderId clientId leavesQty : UInt64)
  | cancelRejected
      (orderId clientId : UInt64)
  | orderModified
      (orderId clientId newPrice newQty : UInt64)
  | modifyRejected
      (orderId clientId : UInt64)
deriving DecidableEq, Repr

/-- A generational id: a slot and the generation it had when it was handed out. -/
structure OrderId where
  index : UInt32
  generation : UInt32
deriving DecidableEq, Repr

/-- The events a build of the engine can check for. -/
inductive Check where
  /-- An addition of quantities exceeds its type. -/
  | qtyOverflow
  /-- An addition on a counter, an id or a generation exceeds its type. -/
  | counterOverflow
  /-- The price of a tick exceeds its type. -/
  | priceOverflow
  /-- A subtraction goes below zero. -/
  | underflow
  /-- A saturating subtraction on a client's open orders saturates. -/
  | openOrdersSaturation
  /-- A saturating subtraction on a level's total saturates. -/
  | totalQtySaturation
  /-- A branch is taken that only a broken book or a stale id can reach. -/
  | fallback
deriving DecidableEq, Repr

/-- The set of checks that abort. -/
abbrev Build := Check → Bool

/-- The release build: arithmetic wraps and no check aborts. -/
def Build.release : Build :=
  fun _ => false

/-- The build with checked arithmetic: it aborts on overflow and underflow. -/
def Build.debug : Build
  | .qtyOverflow => true
  | .counterOverflow => true
  | .priceOverflow => true
  | .underflow => true
  | _ => false

/-- A build whose additions on quantities, counters and generations wrap.  It
may check for anything else. -/
structure Build.Wrapping (β : Build) : Prop where
  qty : β .qtyOverflow = false
  counter : β .counterOverflow = false
  total : β .totalQtySaturation = false

theorem Build.wrapping_release :
    Build.Wrapping Build.release :=
  ⟨rfl, rfl, rfl⟩

/-- A computation of the engine. -/
abbrev Run (α : Type) := Res Check α

section Arithmetic

variable (β : Build)

/-- Addition of quantities. -/
def addQty (a b : UInt64) : Run UInt64 :=
  probe β .qtyOverflow (2 ^ 64 ≤ a.toNat + b.toNat) (a + b)

/-- Addition on a 64-bit counter. -/
def addCounter (a b : UInt64) : Run UInt64 :=
  probe β .counterOverflow (2 ^ 64 ≤ a.toNat + b.toNat) (a + b)

/-- Addition on a 32-bit counter. -/
def addCounter32 (a b : UInt32) : Run UInt32 :=
  probe β .counterOverflow (2 ^ 32 ≤ a.toNat + b.toNat) (a + b)

/-- Subtraction on `u64`. -/
def sub64 (a b : UInt64) : Run UInt64 :=
  probe β .underflow (a < b) (a - b)

/-- Subtraction on `u32`. -/
def sub32 (a b : UInt32) : Run UInt32 :=
  probe β .underflow (a < b) (a - b)

/-- Subtraction on `usize`, which has 64 bits. -/
def subUsize (a b : Nat) : Run Nat :=
  probe β .underflow (a < b) (if a < b then a + 2 ^ 64 - b else a - b)

theorem subUsize_eq
    {a b : Nat} (h : b ≤ a) :
    subUsize β a b = .ok (a - b) := by
  rw [subUsize, probe_pass (Nat.not_lt.mpr h), if_neg (Nat.not_lt.mpr h)]

/-- `saturating_sub` on the total of a price level. -/
def saturatingSubTotal (a b : UInt64) : Run UInt64 :=
  probe β .totalQtySaturation (a < b) (if a < b then 0 else a - b)

/-- `saturating_sub` on the open orders of a client. -/
def saturatingSubOpen (a b : UInt32) : Run UInt32 :=
  probe β .openOrdersSaturation (a < b) (if a < b then 0 else a - b)

/-- The value of a branch that the source keeps for a state it takes to be
impossible.  A release build returns it. -/
def fallback {α : Type} (a : α) : Run α :=
  probe β .fallback True a

end Arithmetic

end LmaxEngine
