import LmaxEngine.Model.Order

/-!
# The arena

`blp/arena.rs` and `blp/price_level.rs`.  Orders live in the slots of one
array.  An occupied slot is an element of the doubly linked list of its price
level; a free slot is an element of the free list.  A slot's generation grows
each time it is freed, so an id handed out for an earlier use of the slot does
not validate.
-/

namespace LmaxEngine

open Checked

structure PriceLevel where
  head : Option Nat
  tail : Option Nat
  orderCount : UInt32
  totalQty : UInt64
deriving DecidableEq, Repr

def PriceLevel.new : PriceLevel where
  head := none
  tail := none
  orderCount := 0
  totalQty := 0

inductive SlotState where
  | occupied
      (order : Order)
      (prev next : Option Nat)
  | free
      (nextFree : Option Nat)
deriving DecidableEq, Repr

structure Slot where
  generation : UInt32
  state : SlotState
deriving DecidableEq, Repr

def Slot.newFree (nextFree : Option Nat) : Slot where
  generation := 0
  state := .free nextFree

structure Arena where
  orderStore : Array Slot
  freeOrderHead : Option Nat
  orderCount : Nat
deriving DecidableEq, Repr

namespace Arena

/-- An arena of `capacity` free slots, for `0 < capacity`: the source counts up
to `capacity - 1` and aborts on zero. -/
def new (capacity : Nat) : Arena where
  orderStore :=
    ((List.range (capacity - 1)).map (fun i => Slot.newFree (some (i + 1)))
      ++ [Slot.newFree none]).toArray
  freeOrderHead := some 0
  orderCount := 0

def validate (a : Arena) (orderId : OrderId) : Run (Option Nat) :=
  let idx := orderId.index.toNat
  if a.orderStore.size ≤ idx then
    .ok none
  else do
    let slot ← ix a.orderStore idx
    if slot.generation ≠ orderId.generation then
      .ok none
    else
      match slot.state with
      | .occupied .. => .ok (some idx)
      | .free _ => .ok none

/-- `if let Occupied { ref mut next, .. } = order_store[i].state { *next = v }` -/
def setNext
    (β : Build) (store : Array Slot)
    (i : Nat) (v : Option Nat) :
    Run (Array Slot) := do
  let slot ← ix store i
  match slot.state with
  | .occupied order prev _ =>
      put store i { slot with state := .occupied order prev v }
  | .free _ => fallback β store

/-- `if let Occupied { ref mut prev, .. } = order_store[i].state { *prev = v }` -/
def setPrev
    (β : Build) (store : Array Slot)
    (i : Nat) (v : Option Nat) :
    Run (Array Slot) := do
  let slot ← ix store i
  match slot.state with
  | .occupied order _ next =>
      put store i { slot with state := .occupied order v next }
  | .free _ => fallback β store

/-- `if let Some(i) = i?` around `setNext` -/
def setNext?
    (β : Build) (store : Array Slot)
    (i? : Option Nat) (v : Option Nat) :
    Run (Array Slot) :=
  match i? with
  | some i => setNext β store i v
  | none => .ok store

/-- `if let Some(i) = i?` around `setPrev` -/
def setPrev?
    (β : Build) (store : Array Slot)
    (i? : Option Nat) (v : Option Nat) :
    Run (Array Slot) :=
  match i? with
  | some i => setPrev β store i v
  | none => .ok store

/-- Put an order into the first free slot and link it behind the last order of
the level.  With no free slot the order comes back. -/
def allocOrder
    (β : Build) (a : Arena)
    (order : Order) (level : PriceLevel) :
    Run (Except Order OrderId × Arena × PriceLevel) :=
  match a.freeOrderHead with
  | none => .ok (.error order, a, level)
  | some idx => do
      let slot ← ix a.orderStore idx
      let nextFree ←
        match slot.state with
        | .free nextFree => .ok nextFree
        | .occupied .. => fallback β none
      let generation := slot.generation
      let store ← put a.orderStore idx
        { slot with state := .occupied order level.tail none }
      let store ← setNext? β store level.tail (some idx)
      let head := if level.head.isNone then some idx else level.head
      let stored ← ix store idx
      let totalQty ←
        match stored.state with
        | .occupied order _ _ => addQty β level.totalQty order.leavesQty
        | .free _ => fallback β level.totalQty
      let orderCount ← addCounter32 β level.orderCount 1
      .ok (.ok { index := UInt32.ofNat idx, generation := generation },
        { orderStore := store
          freeOrderHead := nextFree
          orderCount := a.orderCount + 1 },
        { head := head
          tail := some idx
          orderCount := orderCount
          totalQty := totalQty })

/-- Unlink the order of slot `idx` from its level and put the slot at the head
of the free list, one generation older. -/
def freeOrder
    (β : Build) (a : Arena)
    (idx : Nat) (level : PriceLevel) :
    Run (Arena × PriceLevel) := do
  let slot ← ix a.orderStore idx
  match slot.state with
  | .free _ => fallback β (a, level)
  | .occupied order prev1 next1 =>
      let totalQty ← saturatingSubTotal β level.totalQty order.leavesQty
      let store ← setNext? β a.orderStore prev1 next1
      let store ← setPrev? β store next1 prev1
      let head := if level.head = some idx then next1 else level.head
      let tail := if level.tail = some idx then prev1 else level.tail
      let orderCount ← sub32 β level.orderCount 1
      let slot ← ix store idx
      let generation ← addCounter32 β slot.generation 1
      let store ← put store idx
        { generation := generation, state := .free a.freeOrderHead }
      let count ← subUsize β a.orderCount 1
      .ok ({ orderStore := store
             freeOrderHead := some idx
             orderCount := count },
        { head := head
          tail := tail
          orderCount := orderCount
          totalQty := totalQty })

/-- The order of an occupied slot. -/
def orderAt (a : Arena) (i : Nat) : Option Order :=
  match a.orderStore[i]? with
  | some { state := .occupied order _ _, .. } => some order
  | _ => none

end Arena

end LmaxEngine
