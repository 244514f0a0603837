import LmaxEngine.Lib.Bits
import LmaxEngine.Model.Arena

/-!
# The bitmap and the order book

`blp/bitmap.rs` and `blp/book.rs`.  A half-book has a slot for each of the
`64 * 64 * 64` ticks and a bitmap with one bit a tick.  The bitmap has three
levels: a bit of a word of `l1` says that a word of `l2` is not zero, and a bit
of `l0` that a word of `l1` is not.
-/

namespace LmaxEngine

open Checked Bits

/-- The number of ticks of a half-book. -/
@[irreducible] def numTicks : Nat := 64 * 64 * 64

theorem numTicks_eq : numTicks = 64 * 64 * 64 := by
  rw [numTicks]

/-- The fields `l1` and `l2` are arrays of `64` and `64 * 64` words. -/
structure BitMap where
  l0 : BitVec 64
  l1 : Nat → BitVec 64
  l2 : Nat → BitVec 64

namespace BitMap

def new : BitMap where
  l0 := 0
  l1 := fun _ => 0
  l2 := fun _ => 0

def setBit (m : BitMap) (n : Nat) : Run BitMap := do
  let l0Bit := n >>> 12
  let l1Bit := (n >>> 6) &&& 63
  let l2Bit := n &&& 63
  let word ← cell (64 * 64) m.l2 (l0Bit * 64 + l1Bit)
  let l2 ← setCell (64 * 64) m.l2 (l0Bit * 64 + l1Bit) (word ||| 1#64 <<< l2Bit)
  let word ← cell 64 m.l1 l0Bit
  let l1 ← setCell 64 m.l1 l0Bit (word ||| 1#64 <<< l1Bit)
  .ok { l0 := m.l0 ||| 1#64 <<< l0Bit, l1 := l1, l2 := l2 }

def clearBit (m : BitMap) (n : Nat) : Run BitMap := do
  let l0Bit := n >>> 12
  let l1Bit := (n >>> 6) &&& 63
  let l2Bit := n &&& 63
  let word ← cell (64 * 64) m.l2 (l0Bit * 64 + l1Bit)
  let l2 ← setCell (64 * 64) m.l2 (l0Bit * 64 + l1Bit) (word &&& ~~~(1#64 <<< l2Bit))
  let word ← cell (64 * 64) l2 (l0Bit * 64 + l1Bit)
  let l1 ←
    if word = 0 then do
      let upper ← cell 64 m.l1 l0Bit
      setCell 64 m.l1 l0Bit (upper &&& ~~~(1#64 <<< l1Bit))
    else .ok m.l1
  let upper ← cell 64 l1 l0Bit
  let l0 := if upper = 0 then m.l0 &&& ~~~(1#64 <<< l0Bit) else m.l0
  .ok { l0 := l0, l1 := l1, l2 := l2 }

def bestAsk (m : BitMap) : Run (Option Nat) :=
  if m.l0 = 0 then
    .ok none
  else do
    let i0 := trailingZeros m.l0
    let word ← cell 64 m.l1 i0
    let i1 := trailingZeros word
    let word ← cell (64 * 64) m.l2 (i0 * 64 + i1)
    let i2 := trailingZeros word
    .ok (some (i0 <<< 12 ||| i1 <<< 6 ||| i2))

def bestBid (β : Build) (m : BitMap) : Run (Option Nat) :=
  if m.l0 = 0 then
    .ok none
  else do
    let i0 ← subUsize β 63 (leadingZeros m.l0)
    let word ← cell 64 m.l1 i0
    let i1 ← subUsize β 63 (leadingZeros word)
    let word ← cell (64 * 64) m.l2 (i0 * 64 + i1)
    let i2 ← subUsize β 63 (leadingZeros word)
    .ok (some (i0 <<< 12 ||| i1 <<< 6 ||| i2))

end BitMap

/-- The field `priceLevels` is an array of `numTicks` entries. -/
structure HalfBook where
  bitmap : BitMap
  priceLevels : Nat → Option PriceLevel

namespace HalfBook

def new : HalfBook where
  bitmap := BitMap.new
  priceLevels := fun _ => none

/-- Append an order to the level of a tick, which is created for it if there is
none and dropped again if the arena has no free slot. -/
def addOrder
    (β : Build) (hb : HalfBook)
    (tickIdx : Nat) (order : Order) (arena : Arena) :
    Run (Except Order OrderId × HalfBook × Arena) := do
  let level ← cell numTicks hb.priceLevels tickIdx
  let priceLevels ←
    (if level.isNone then
      setCell numTicks hb.priceLevels tickIdx (some PriceLevel.new)
    else .ok hb.priceLevels)
  let level ← cell numTicks priceLevels tickIdx
  let priceLevel ← unwrap level
  let (result, arena, priceLevel) ← arena.allocOrder β order priceLevel
  let priceLevels ← setCell numTicks priceLevels tickIdx (some priceLevel)
  match result with
  | .ok _ => do
      let bitmap ← hb.bitmap.setBit tickIdx
      .ok (result, { bitmap := bitmap, priceLevels := priceLevels }, arena)
  | .error _ => do
      let priceLevels ←
        (if priceLevel.orderCount = 0 then
          setCell numTicks priceLevels tickIdx none
        else .ok priceLevels)
      .ok (result, { hb with priceLevels := priceLevels }, arena)

/-- Free the order of a slot, and drop its level with its last order. -/
def removeOrder
    (β : Build) (hb : HalfBook)
    (tickIdx slotIdx : Nat) (arena : Arena) :
    Run (HalfBook × Arena) := do
  let level ← cell numTicks hb.priceLevels tickIdx
  match level with
  | none => fallback β (hb, arena)
  | some priceLevel => do
      let (arena, priceLevel) ← arena.freeOrder β slotIdx priceLevel
      let priceLevels ← setCell numTicks hb.priceLevels tickIdx (some priceLevel)
      if priceLevel.orderCount = 0 then do
        let priceLevels ← setCell numTicks priceLevels tickIdx none
        let bitmap ← hb.bitmap.clearBit tickIdx
        .ok ({ bitmap := bitmap, priceLevels := priceLevels }, arena)
      else
        .ok ({ hb with priceLevels := priceLevels }, arena)

def bestAsk (hb : HalfBook) : Run (Option Nat) :=
  hb.bitmap.bestAsk

def bestBid (β : Build) (hb : HalfBook) : Run (Option Nat) :=
  hb.bitmap.bestBid β

def getPriceLevel (hb : HalfBook) (tickIdx : Nat) : Run (Option PriceLevel) :=
  cell numTicks hb.priceLevels tickIdx

/-- `if let Some(pl) = price_levels[tick].as_mut()` with
`pl.total_qty = pl.total_qty.saturating_sub(qty)` -/
def reduceTotal
    (β : Build) (hb : HalfBook)
    (tickIdx : Nat) (qty : UInt64) :
    Run HalfBook := do
  let level ← cell numTicks hb.priceLevels tickIdx
  match level with
  | none => fallback β hb
  | some pl => do
      let totalQty ← saturatingSubTotal β pl.totalQty qty
      let priceLevels ← setCell numTicks hb.priceLevels tickIdx
        (some { pl with totalQty := totalQty })
      .ok { hb with priceLevels := priceLevels }

end HalfBook

structure OrderBook where
  bids : HalfBook
  asks : HalfBook
  arena : Arena
  basePrice : UInt64
  tickSize : UInt64

namespace OrderBook

def new (cfg : Config) : OrderBook where
  bids := HalfBook.new
  asks := HalfBook.new
  arena := Arena.new cfg.capacity
  basePrice := cfg.basePrice
  tickSize := cfg.tickSize

def priceToTick (b : OrderBook) (price : UInt64) : Run (Option Nat) :=
  if price < b.basePrice then
    .ok none
  else if b.tickSize = 0 then
    .error .divisionByZero
  else
    let tick := ((price - b.basePrice) / b.tickSize).toNat
    if numTicks ≤ tick then .ok none else .ok (some tick)

def tickToPrice (β : Build) (b : OrderBook) (tick : Nat) : Run UInt64 := do
  let tick := UInt64.ofNat tick
  let offset ← probe β .priceOverflow
    (2 ^ 64 ≤ tick.toNat * b.tickSize.toNat) (tick * b.tickSize)
  probe β .priceOverflow
    (2 ^ 64 ≤ b.basePrice.toNat + offset.toNat) (b.basePrice + offset)

/-- The half-book that holds the orders of a side. -/
def half (b : OrderBook) : Side → HalfBook
  | .buy => b.bids
  | .sell => b.asks

/-- The book with the half-book of a side and the arena replaced. -/
def withHalf (b : OrderBook) (side : Side) (hb : HalfBook) (arena : Arena) :
    OrderBook :=
  match side with
  | .buy => { b with bids := hb, arena := arena }
  | .sell => { b with asks := hb, arena := arena }

/-- `match side` with `bids.add_order` for `BUY` and `asks.add_order` for `SELL` -/
def addOrder
    (β : Build) (b : OrderBook)
    (side : Side) (tickIdx : Nat) (order : Order) :
    Run (Except Order OrderId × OrderBook) := do
  let (result, hb, arena) ← (b.half side).addOrder β tickIdx order b.arena
  .ok (result, b.withHalf side hb arena)

/-- `match side` with `bids.remove_order` for `BUY` and `asks.remove_order` for
`SELL` -/
def removeOrder
    (β : Build) (b : OrderBook)
    (side : Side) (tickIdx slotIdx : Nat) :
    Run OrderBook := do
  let (hb, arena) ← (b.half side).removeOrder β tickIdx slotIdx b.arena
  .ok (b.withHalf side hb arena)

/-- `match side` with `reduceTotal` on `bids` for `BUY` and on `asks` for `SELL` -/
def reduceTotal
    (β : Build) (b : OrderBook)
    (side : Side) (tickIdx : Nat) (qty : UInt64) :
    Run OrderBook := do
  let hb ← (b.half side).reduceTotal β tickIdx qty
  .ok (b.withHalf side hb b.arena)

/-- The best tick of the orders of a side: the highest of the bids, the lowest
of the asks. -/
def bestTick (β : Build) (b : OrderBook) : Side → Run (Option Nat)
  | .buy => b.bids.bestBid β
  | .sell => b.asks.bestAsk

end OrderBook

end LmaxEngine
