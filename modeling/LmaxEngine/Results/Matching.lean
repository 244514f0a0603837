import LmaxEngine.Results.Lines
import LmaxEngine.Spec.Greedy

/-!
# What the matching loop does

The loop walks the orders of the other side in the order of their priority and takes
from each what it holds, until the quantity is used up, the side is empty or the best
tick does not cross.  Its defensive branches are never taken, and it needs one round
more than there are orders on the other side.
-/

namespace LmaxEngine

open Checked Queues Arena PriceTime

/-- A resting order with its tick and its slot. -/
structure Resting where
  tick : Nat
  slot : Nat
  order : Order
deriving DecidableEq, Repr

/-- The quantity left of a resting order. -/
def Resting.leaves (r : Resting) : Nat :=
  r.order.leavesQty.toNat

/-- A resting order after a quantity of it is filled. -/
def Resting.filled (n : Nat) (r : Resting) : Resting :=
  { r with order :=
    { r.order with
      leavesQty := r.order.leavesQty - UInt64.ofNat n
      filledQty := r.order.filledQty + UInt64.ofNat n } }

/-- Does the tick of the resting order cross? -/
def Engine.meets (e : Engine) (side : Side) (limitPrice : Option UInt64) (r : Resting) : Bool :=
  yields (crossesAt Build.release e.book side limitPrice r.tick) (fun crossing => crossing)

section Lineups

variable {cfg : Config} {e : Engine} {s : State} {loc : Nat → Nat} {free : List Nat}

variable {p : Placement}

end Lineups

section Results

variable {cfg : Config} {e : Engine} {cs : List Command} {evs : List (List OutputEvent)}
variable {β : Build}

end Results

end LmaxEngine
