import LmaxEngine.Model.Handlers

/-!
# Builds that check more

Two builds differ only in the checks that abort.  The one that checks more ends
with a check or as the other one does, in every function of the engine and in
every run.
-/

namespace LmaxEngine

open Checked

/-- The first build makes all checks of the second. -/
def Build.Covers (β β' : Build) : Prop :=
  ∀ k, β' k = true → β k = true

theorem Build.covers_release
    (β : Build) :
    β.Covers Build.release :=
  fun _ h => absurd h Bool.false_ne_true

variable {β β' : Build}

theorem fallback_guards
    {α : Type}
    (hβ : β.Covers β') (a : α) :
    Guards (fallback β a) (fallback β' a) :=
  Guards.probe hβ _ _ _

namespace Arena

theorem setNext_guards
    (hβ : β.Covers β') (store : Array Slot) (i : Nat) (v : Option Nat) :
    Guards (setNext β store i v) (setNext β' store i v) := by
  refine Guards.bind (Guards.refl _) fun slot => ?_
  cases slot.state with
  | occupied => exact Guards.refl _
  | free => exact fallback_guards hβ store

theorem setPrev_guards
    (hβ : β.Covers β') (store : Array Slot) (i : Nat) (v : Option Nat) :
    Guards (setPrev β store i v) (setPrev β' store i v) := by
  refine Guards.bind (Guards.refl _) fun slot => ?_
  cases slot.state with
  | occupied => exact Guards.refl _
  | free => exact fallback_guards hβ store

theorem setNext?_guards
    (hβ : β.Covers β') (store : Array Slot) (i? : Option Nat) (v : Option Nat) :
    Guards (setNext? β store i? v) (setNext? β' store i? v) := by
  cases i? with
  | none => exact Guards.refl _
  | some i => exact setNext_guards hβ store i v

theorem setPrev?_guards
    (hβ : β.Covers β') (store : Array Slot) (i? : Option Nat) (v : Option Nat) :
    Guards (setPrev? β store i? v) (setPrev? β' store i? v) := by
  cases i? with
  | none => exact Guards.refl _
  | some i => exact setPrev_guards hβ store i v

theorem allocOrder_guards
    (hβ : β.Covers β') (a : Arena) (order : Order) (level : PriceLevel) :
    Guards (a.allocOrder β order level) (a.allocOrder β' order level) := by
  rw [allocOrder, allocOrder]
  cases a.freeOrderHead with
  | none => exact Guards.refl _
  | some idx =>
      refine Guards.bind (Guards.refl _) fun slot => ?_
      cases slot.state with
      | occupied =>
          refine Guards.bind (fallback_guards hβ none) fun nextFree =>
            Guards.bind (Guards.refl _) fun store =>
            Guards.bind (setNext?_guards hβ store level.tail (some idx)) fun store =>
            Guards.bind (Guards.refl _) fun stored => ?_
          cases stored.state <;>
            exact Guards.bind (Guards.probe hβ _ _ _) fun totalQty =>
              Guards.bind (Guards.probe hβ _ _ _) fun orderCount => Guards.refl _
      | free nextFree =>
          refine Guards.bind (Guards.refl _) fun nextFree =>
            Guards.bind (Guards.refl _) fun store =>
            Guards.bind (setNext?_guards hβ store level.tail (some idx)) fun store =>
            Guards.bind (Guards.refl _) fun stored => ?_
          cases stored.state <;>
            exact Guards.bind (Guards.probe hβ _ _ _) fun totalQty =>
              Guards.bind (Guards.probe hβ _ _ _) fun orderCount => Guards.refl _

theorem freeOrder_guards
    (hβ : β.Covers β') (a : Arena) (idx : Nat) (level : PriceLevel) :
    Guards (a.freeOrder β idx level) (a.freeOrder β' idx level) := by
  refine Guards.bind (Guards.refl _) fun slot => ?_
  cases slot.state with
  | free => exact fallback_guards hβ (a, level)
  | occupied order prev1 next1 =>
      exact Guards.bind (Guards.probe hβ _ _ _) fun totalQty =>
        Guards.bind (setNext?_guards hβ _ prev1 next1) fun store =>
        Guards.bind (setPrev?_guards hβ store next1 prev1) fun store =>
        Guards.bind (Guards.probe hβ _ _ _) fun orderCount =>
        Guards.bind (Guards.refl _) fun slot =>
        Guards.bind (Guards.probe hβ _ _ _) fun generation =>
        Guards.bind (Guards.refl _) fun store =>
        Guards.bind (Guards.probe hβ _ _ _) fun count => Guards.refl _

end Arena

section Books

theorem bestBid_guards
    (hβ : β.Covers β') (m : BitMap) :
    Guards (m.bestBid β) (m.bestBid β') :=
  Guards.ite (Guards.refl _) <|
    Guards.bind (Guards.probe hβ _ _ _) fun _ =>
    Guards.bind (Guards.refl _) fun _ =>
    Guards.bind (Guards.probe hβ _ _ _) fun _ =>
    Guards.bind (Guards.refl _) fun _ =>
    Guards.bind (Guards.probe hβ _ _ _) fun _ => Guards.refl _

theorem HalfBook.addOrder_guards
    (hβ : β.Covers β') (hb : HalfBook) (t : Nat) (order : Order) (arena : Arena) :
    Guards (hb.addOrder β t order arena) (hb.addOrder β' t order arena) :=
  Guards.bind (Guards.refl _) fun _ =>
    Guards.bind (Guards.refl _) fun _ =>
    Guards.bind (Guards.refl _) fun _ =>
    Guards.bind (Guards.refl _) fun priceLevel =>
    Guards.bind (Arena.allocOrder_guards hβ arena order priceLevel) fun _ =>
    Guards.refl _

theorem HalfBook.removeOrder_guards
    (hβ : β.Covers β') (hb : HalfBook) (t i : Nat) (arena : Arena) :
    Guards (hb.removeOrder β t i arena) (hb.removeOrder β' t i arena) := by
  refine Guards.bind (Guards.refl _) fun level => ?_
  cases level with
  | none => exact fallback_guards hβ (hb, arena)
  | some priceLevel =>
      exact Guards.bind (Arena.freeOrder_guards hβ arena i priceLevel) fun r => Guards.refl _

theorem HalfBook.reduceTotal_guards
    (hβ : β.Covers β') (hb : HalfBook) (t : Nat) (qty : UInt64) :
    Guards (hb.reduceTotal β t qty) (hb.reduceTotal β' t qty) := by
  refine Guards.bind (Guards.refl _) fun level => ?_
  cases level with
  | none => exact fallback_guards hβ hb
  | some pl => exact Guards.bind (Guards.probe hβ _ _ _) fun totalQty => Guards.refl _

namespace OrderBook

theorem addOrder_guards
    (hβ : β.Covers β') (b : OrderBook) (side : Side) (t : Nat) (order : Order) :
    Guards (b.addOrder β side t order) (b.addOrder β' side t order) :=
  Guards.bind (HalfBook.addOrder_guards hβ (b.half side) t order b.arena) fun _ => Guards.refl _

theorem removeOrder_guards
    (hβ : β.Covers β') (b : OrderBook) (side : Side) (t i : Nat) :
    Guards (b.removeOrder β side t i) (b.removeOrder β' side t i) :=
  Guards.bind (HalfBook.removeOrder_guards hβ (b.half side) t i b.arena) fun _ => Guards.refl _

theorem reduceTotal_guards
    (hβ : β.Covers β') (b : OrderBook) (side : Side) (t : Nat) (qty : UInt64) :
    Guards (b.reduceTotal β side t qty) (b.reduceTotal β' side t qty) :=
  Guards.bind (HalfBook.reduceTotal_guards hβ (b.half side) t qty) fun _ => Guards.refl _

theorem bestTick_guards
    (hβ : β.Covers β') (b : OrderBook) (side : Side) :
    Guards (b.bestTick β side) (b.bestTick β' side) := by
  cases side with
  | buy => exact bestBid_guards hβ b.bids.bitmap
  | sell => exact Guards.refl _

theorem tickToPrice_guards
    (hβ : β.Covers β') (b : OrderBook) (t : Nat) :
    Guards (b.tickToPrice β t) (b.tickToPrice β' t) :=
  Guards.bind (Guards.probe hβ _ _ _) fun _ => Guards.probe hβ _ _ _

end OrderBook

end Books

section Matching

theorem closeOrder_guards
    (hβ : β.Covers β') (clients : Clients) (c : UInt64) :
    Guards (closeOrder β clients c) (closeOrder β' clients c) := by
  rw [closeOrder, closeOrder]
  cases clients c with
  | none => exact Guards.refl _
  | some ac => exact Guards.bind (Guards.probe hβ _ _ _) fun n => Guards.refl _

theorem crossesAt_guards
    (hβ : β.Covers β') (b : OrderBook) (side : Side) (limitPrice : Option UInt64) (t : Nat) :
    Guards (crossesAt β b side limitPrice t) (crossesAt β' b side limitPrice t) := by
  cases limitPrice with
  | none => exact Guards.refl _
  | some price => exact Guards.bind (OrderBook.tickToPrice_guards hβ b t) fun _ => Guards.refl _

theorem matchLoop_guards
    (hβ : β.Covers β') (aggressor clientId : UInt64) (symbol : Symbol) (side : Side)
    (limitPrice : Option UInt64) (fuel : Nat) (e : Engine) (qty : UInt64) :
    Guards (matchLoop β aggressor clientId symbol side limitPrice fuel e qty)
      (matchLoop β' aggressor clientId symbol side limitPrice fuel e qty) := by
  induction fuel generalizing e qty with
  | zero => exact Guards.refl _
  | succ fuel ih =>
      refine Guards.ite (Guards.refl _) ?_
      refine Guards.bind (OrderBook.bestTick_guards hβ _ _) fun best => ?_
      cases best with
      | none => exact Guards.refl _
      | some bestTick =>
          refine Guards.bind (crossesAt_guards hβ _ _ _ _) fun crossing => ?_
          refine Guards.ite (Guards.refl _) ?_
          refine Guards.bind (Guards.refl _) fun level => ?_
          cases level.bind PriceLevel.head with
          | none => exact fallback_guards hβ _
          | some restingSlotIdx =>
              refine Guards.bind (Guards.refl _) fun slot => ?_
              cases slot.state with
              | free => exact fallback_guards hβ _
              | occupied resting prev next =>
                  refine Guards.bind (Guards.probe hβ _ _ _) fun leavesQty => ?_
                  refine Guards.ite ?_ ?_
                  · exact Guards.bind (OrderBook.removeOrder_guards hβ _ _ _ _) fun book =>
                      Guards.bind (closeOrder_guards hβ _ _) fun clients =>
                      Guards.bind (ih _ _) fun r => Guards.refl _
                  · refine Guards.bind (Guards.probe hβ _ _ _) fun restingLeaves =>
                      Guards.bind (Guards.probe hβ _ _ _) fun restingFilled =>
                      Guards.bind (Guards.refl _) fun arena =>
                      Guards.bind (OrderBook.reduceTotal_guards hβ _ _ _ _) fun book =>
                      Guards.ite (Guards.refl _) ?_
                    exact Guards.bind (ih _ _) fun r => Guards.refl _

theorem matchAggressor_guards
    (hβ : β.Covers β') (aggressor clientId : UInt64) (symbol : Symbol) (side : Side)
    (limitPrice : Option UInt64) (e : Engine) (qty : UInt64) :
    Guards (matchAggressor β aggressor clientId symbol side limitPrice e qty)
      (matchAggressor β' aggressor clientId symbol side limitPrice e qty) :=
  matchLoop_guards hβ _ _ _ _ _ _ _ _

end Matching

section Handlers

theorem placeLimit_guards
    (hβ : β.Covers β') (e : Engine) (orderId clientId clientOrderId : UInt64)
    (symbol : Symbol) (side : Side) (price quantity : UInt64) (t : Nat) :
    Guards (placeLimit β e orderId clientId clientOrderId symbol side price quantity t)
      (placeLimit β' e orderId clientId clientOrderId symbol side price quantity t) := by
  refine Guards.bind (matchAggressor_guards hβ _ _ _ _ _ _ _) fun r => ?_
  refine Guards.ite ?_ (Guards.refl _)
  refine Guards.bind (Guards.probe hβ _ _ _) fun filledQty =>
    Guards.bind (OrderBook.addOrder_guards hβ _ _ _ _) fun ⟨result, book⟩ => ?_
  cases result with
  | error err => exact Guards.refl _
  | ok oid => exact Guards.bind (Guards.probe hβ _ _ _) fun n => Guards.refl _

theorem placeMarket_guards
    (hβ : β.Covers β') (e : Engine) (orderId clientId : UInt64)
    (symbol : Symbol) (side : Side) (quantity : UInt64) :
    Guards (placeMarket β e orderId clientId symbol side quantity)
      (placeMarket β' e orderId clientId symbol side quantity) :=
  Guards.bind (matchAggressor_guards hβ _ _ _ _ _ _ _) fun _ => Guards.refl _

theorem processPlace_guards
    (hβ : β.Covers β') (e : Engine) (clientId clientOrderId : UInt64)
    (symbol : Symbol) (side : Side) (orderType : OrderType)
    (price : Option UInt64) (quantity : UInt64) :
    Guards (processPlace β e clientId clientOrderId symbol side orderType price quantity)
      (processPlace β' e clientId clientOrderId symbol side orderType price quantity) := by
  refine Guards.ite (Guards.refl _) (Guards.ite (Guards.refl _) ?_)
  refine Guards.bind (Guards.probe hβ _ _ _) fun nextOrderId => ?_
  cases orderType with
  | market => exact placeMarket_guards hβ _ _ _ _ _ _
  | limit =>
      cases price with
      | none => exact Guards.refl _
      | some price =>
          refine Guards.bind (Guards.refl _) fun tick => ?_
          cases tick with
          | none => exact Guards.refl _
          | some t => exact placeLimit_guards hβ _ _ _ _ _ _ _ _ _

theorem processCancel_guards
    (hβ : β.Covers β') (e : Engine) (clientId clientOrderId : UInt64) :
    Guards (processCancel β e clientId clientOrderId)
      (processCancel β' e clientId clientOrderId) := by
  rw [processCancel, processCancel]
  cases e.orderIndex (clientId, clientOrderId) with
  | none => exact Guards.refl _
  | some locator =>
      refine Guards.bind (Guards.refl _) fun valid => ?_
      cases valid with
      | none => exact fallback_guards hβ _
      | some i =>
          refine Guards.bind (Guards.refl _) fun slot => ?_
          cases slot.state with
          | free => exact fallback_guards hβ _
          | occupied order prev next =>
              exact Guards.ite (fallback_guards hβ _) <|
                Guards.bind (OrderBook.removeOrder_guards hβ _ _ _ _) fun book =>
                Guards.bind (closeOrder_guards hβ _ _) fun clients => Guards.refl _

theorem modifyInPlace_guards
    (hβ : β.Covers β') (e : Engine) (locator : OrderLocator) (clientId : UInt64)
    (i : Nat) (slot : Slot) (order : Order) (prev next : Option Nat)
    (targetPrice targetLeaves : UInt64) :
    Guards (modifyInPlace β e locator clientId i slot order prev next targetPrice targetLeaves)
      (modifyInPlace β' e locator clientId i slot order prev next targetPrice targetLeaves) :=
  Guards.bind (Guards.probe hβ _ _ _) fun diff =>
    Guards.bind (Guards.probe hβ _ _ _) fun _ =>
    Guards.bind (Guards.refl _) fun _ =>
    Guards.bind (OrderBook.reduceTotal_guards hβ _ _ _ diff) fun _ => Guards.refl _

theorem modifyRequeue_guards
    (hβ : β.Covers β') (e : Engine) (locator : OrderLocator) (clientId clientOrderId : UInt64)
    (i : Nat) (order : Order) (targetPrice targetLeaves : UInt64) :
    Guards (modifyRequeue β e locator clientId clientOrderId i order targetPrice targetLeaves)
      (modifyRequeue β' e locator clientId clientOrderId i order targetPrice targetLeaves) := by
  refine Guards.bind (OrderBook.removeOrder_guards hβ _ _ _ _) fun book =>
    Guards.bind (Guards.refl _) fun tick => ?_
  cases tick with
  | none => exact Guards.bind (closeOrder_guards hβ _ _) fun clients => Guards.refl _
  | some newTick =>
      refine Guards.bind (OrderBook.addOrder_guards hβ _ _ _ _) fun ⟨result, book⟩ => ?_
      cases result with
      | ok newOid => exact Guards.refl _
      | error err => exact Guards.bind (closeOrder_guards hβ _ _) fun clients => Guards.refl _

theorem processModify_guards
    (hβ : β.Covers β') (e : Engine) (clientId clientOrderId : UInt64)
    (newPrice newQty : Option UInt64) :
    Guards (processModify β e clientId clientOrderId newPrice newQty)
      (processModify β' e clientId clientOrderId newPrice newQty) := by
  rw [processModify, processModify]
  cases e.orderIndex (clientId, clientOrderId) with
  | none => exact Guards.refl _
  | some locator =>
      refine Guards.bind (Guards.refl _) fun valid => ?_
      cases valid with
      | none => exact fallback_guards hβ _
      | some i =>
          refine Guards.bind (Guards.refl _) fun slot => ?_
          cases slot.state with
          | free => exact fallback_guards hβ _
          | occupied order prev next =>
              refine Guards.ite (fallback_guards hβ _) (Guards.ite (Guards.refl _) ?_)
              exact Guards.ite (modifyInPlace_guards hβ _ _ _ _ _ _ _ _ _ _)
                (modifyRequeue_guards hβ _ _ _ _ _ _ _ _)

namespace Engine

theorem handle_guards
    (hβ : β.Covers β') (e : Engine) (c : Command) :
    Guards (e.handle β c) (e.handle β' c) := by
  cases c with
  | place clientId clientOrderId symbol side orderType price quantity tif =>
      exact processPlace_guards hβ e _ _ _ _ _ _ _
  | cancel clientId clientOrderId => exact processCancel_guards hβ e _ _
  | modify clientId clientOrderId newPrice newQty => exact processModify_guards hβ e _ _ _ _

/-- **A build that checks more ends with a check or as the other build does.** -/
theorem run_guards
    (hβ : β.Covers β') (e : Engine) (cs : List Command) :
    Guards (e.run β cs) (e.run β' cs) := by
  induction cs generalizing e with
  | nil => exact Guards.refl _
  | cons c cs ih =>
      exact Guards.bind (handle_guards hβ e c) fun r =>
        Guards.bind (ih r.1) fun rest => Guards.refl _

end Engine

end Handlers

end LmaxEngine
