import LmaxEngine.Lib.Tape
import LmaxEngine.Spec.Breaches
import LmaxEngine.Spec.Ledger

/-!
# The book that the events tell of

Somebody who only has the events keeps one list of the orders that rest, in the
order in which they came to where they are.  An accepted order is written at its
end, fills and cancellations name what they are about, and whether a modified
order keeps its place follows from its old and its new price and quantity.

The list has the queues of the plain book as its parts, as long as no
modification evicts an order: the event of that is the one of a modification that
is refused.
-/

namespace LmaxEngine

open Queues

/-- What the events tell of a resting order. -/
structure Quote where
  orderId : UInt64
  clientId : UInt64
  clientOrderId : UInt64
  symbol : Symbol
  side : Side
  price : UInt64
  leavesQty : UInt64
deriving DecidableEq, Repr

def Order.quote (o : Order) : Quote where
  orderId := o.orderId
  clientId := o.clientId
  clientOrderId := o.clientOrderId
  symbol := o.symbol
  side := o.side
  price := o.price
  leavesQty := o.leavesQty

/-- The side and the tick of a quote, if its price has a tick. -/
def Quote.level (cfg : Config) (r : Quote) : Option PriceTime.Level :=
  (PriceTime.tickOf cfg r.price).map fun t => (r.side, t)

def Quote.withLeaves (leavesQty : UInt64) (r : Quote) : Quote :=
  { r with leavesQty := leavesQty }

def Quote.filledBy (qty : UInt64) (r : Quote) : Quote :=
  { r with leavesQty := r.leavesQty - qty }

def Quote.movedTo (price leavesQty : UInt64) (r : Quote) : Quote :=
  { r with price := price, leavesQty := leavesQty }

namespace Feed

def find (tape : List Quote) (orderId : UInt64) : Option Quote :=
  tape.find? fun r => decide (r.orderId = orderId)

def remove (tape : List Quote) (orderId : UInt64) : List Quote :=
  tape.filter fun r => decide (r.orderId ≠ orderId)

def change (tape : List Quote) (orderId : UInt64) (f : Quote → Quote) : List Quote :=
  tape.map fun r => if r.orderId = orderId then f r else r

/-- A fill takes a quantity from a quote, or all of it. -/
def fill (tape : List Quote) (orderId qty : UInt64) : List Quote :=
  match find tape orderId with
  | none => tape
  | some r =>
      if r.leavesQty = qty then
        remove tape orderId
      else
        change tape orderId (Quote.filledBy qty)

/-- A modified quote keeps its place if its price is the same and it has not grown. -/
def modify (tape : List Quote) (orderId price qty : UInt64) : List Quote :=
  match find tape orderId with
  | none => tape
  | some r =>
      if price = r.price ∧ qty ≤ r.leavesQty then
        change tape orderId (Quote.withLeaves qty)
      else
        remove tape orderId ++ [r.movedTo price qty]

/-- What one event does to the list. -/
def note (tape : List Quote) : OutputEvent → List Quote
  | .orderAccepted orderId clientId clientOrderId symbol side price quantity =>
      tape ++ [{ orderId := orderId, clientId := clientId, clientOrderId := clientOrderId,
                 symbol := symbol, side := side, price := price, leavesQty := quantity }]
  | .fill _ restingOrderId _ _ _ _ quantity _ => fill tape restingOrderId quantity
  | .orderCancelled orderId _ _ => remove tape orderId
  | .orderModified orderId _ newPrice newQty => modify tape orderId newPrice newQty
  | .orderRejected .. => tape
  | .cancelRejected .. => tape
  | .modifyRejected .. => tape

/-- The list after a history of events. -/
def tapeOf (evs : List OutputEvent) : List Quote :=
  evs.foldl note []

theorem tapeOf_append
    (evs es : List OutputEvent) :
    tapeOf (evs ++ es) = es.foldl note (tapeOf evs) :=
  List.foldl_append

theorem note_rejection
    {tape : List Quote} {ev : OutputEvent} (h : PriceTime.IsRejection ev) :
    note tape ev = tape := by
  cases ev <;> first | rfl | exact h.elim

theorem remove_of_forall_ne
    {tape : List Quote} {orderId : UInt64}
    (h : ∀ r, r ∈ tape → r.orderId ≠ orderId) :
    remove tape orderId = tape :=
  List.filter_eq_self.mpr fun r hr => decide_eq_true (h r hr)

end Feed

namespace PriceTime

open Transition Feed

/-- The list has the queues of the book as its parts. -/
def State.Mirrored (cfg : Config) (s : State) (tape : List Quote) : Prop :=
  Sorts Quote.orderId (Quote.level cfg) tape (image (fun x : Entry => x.order.quote) s.queue)

section Mirrors

variable {cfg : Config} {s : State} {tape : List Quote} {k : Level} {x : Entry}

theorem mem_quotes
    (hx : x ∈ s.queue k) :
    x.order.quote ∈ image (fun x : Entry => x.order.quote) s.queue k :=
  List.mem_map_of_mem hx

/-- A quote in the list is that of an entry. -/
theorem State.Mirrored.exists_entry
    (h : s.Mirrored cfg tape) {r : Quote} (hr : r ∈ tape) :
    ∃ k x, x ∈ s.queue k ∧ x.order.quote = r := by
  obtain ⟨k, hk⟩ := h.exists_mem hr
  obtain ⟨x, hx, rfl⟩ := List.mem_map.mp hk
  exact ⟨k, x, hx, rfl⟩

theorem State.Mirrored.find
    (h : s.Mirrored cfg tape) (hx : x ∈ s.queue k) :
    Feed.find tape x.order.orderId = some x.order.quote :=
  Sorts.find h (mem_quotes hx)

/-- The numbers of entries tell their ids apart. -/
theorem num_eq_iff
    (hc : Consistent cfg s) (hnum : s.nextNum ≤ 2 ^ 64) (hx : x ∈ s.queue k) :
    ∀ y, y ∈ s.queue k → (y.num = x.num ↔ y.order.quote.orderId = x.order.orderId) := by
  intro y hy
  constructor
  · intro h
    rw [hc.distinct.eq hy hx h]
    rfl
  · intro h
    rw [eq_of_orderId_eq hc hnum hy hx h]

theorem State.Mirrored.leave
    (h : s.Mirrored cfg tape)
    (hc : Consistent cfg s) (hnum : s.nextNum ≤ 2 ^ 64) (hx : x ∈ s.queue k) :
    (s.leave k x).Mirrored cfg (remove tape x.order.orderId) := by
  have himage : image (fun x : Entry => x.order.quote) (s.leave k x).queue =
      discard Quote.orderId (image (fun x : Entry => x.order.quote) s.queue) k
        x.order.orderId :=
    image_discard (num_eq_iff hc hnum hx)
  unfold State.Mirrored
  rw [himage]
  exact Sorts.discard h (mem_quotes hx)

theorem State.Mirrored.change
    {f : Order → Order} {g : Quote → Quote}
    (h : s.Mirrored cfg tape)
    (hc : Consistent cfg s) (hnum : s.nextNum ≤ 2 ^ 64) (hx : x ∈ s.queue k)
    (hf : Keeps f) (hfg : ∀ o, (f o).quote = g o.quote) :
    (s.change k x f).Mirrored cfg (Feed.change tape x.order.orderId g) := by
  have himage : image (fun x : Entry => x.order.quote) (s.change k x f).queue =
      revise Quote.orderId (image (fun x : Entry => x.order.quote) s.queue) k
        x.order.orderId g :=
    image_revise (num_eq_iff hc hnum hx) fun y _ _ => hfg y.order
  unfold State.Mirrored
  rw [himage]
  refine Sorts.revise h (mem_quotes hx) ?_ ?_
  · rw [← hfg]
    exact hf.orderId x.order
  · rw [← hfg, Quote.level, Quote.level]
    change (tickOf cfg (f x.order).price).map (fun t => ((f x.order).side, t)) = _
    rw [hf.price, hf.side]
    rfl

/-- An entry that joins the end of a queue. -/
theorem State.Mirrored.push
    {s' : State} {r : Quote}
    (h : s.Mirrored cfg tape)
    (hqueue : image (fun x : Entry => x.order.quote) s'.queue =
      push (image (fun x : Entry => x.order.quote) s.queue) k r)
    (hlevel : r.level cfg = some k) (hfresh : ∀ y, y ∈ tape → y.orderId ≠ r.orderId) :
    s'.Mirrored cfg (tape ++ [r]) := by
  unfold State.Mirrored
  rw [hqueue]
  exact Sorts.push h hlevel hfresh

/-- An order that is reduced in place. -/
theorem State.Mirrored.reduce
    {target : UInt64}
    (h : s.Mirrored cfg tape)
    (hc : Consistent cfg s) (hnum : s.nextNum ≤ 2 ^ 64) (hx : x ∈ s.queue k)
    (hle : target ≤ x.order.leavesQty) :
    (s.change k x (reducedTo target)).Mirrored cfg
      (Feed.modify tape x.order.orderId x.order.price target) := by
  have hmodify : Feed.modify tape x.order.orderId x.order.price target =
      Feed.change tape x.order.orderId (Quote.withLeaves target) := by
    rw [Feed.modify, h.find hx]
    exact if_pos ⟨rfl, hle⟩
  rw [hmodify]
  exact h.change hc hnum hx (keeps_reducedTo target) fun o => rfl

/-- An order that goes to the end of a queue. -/
theorem State.Mirrored.move
    {price target : UInt64} {t : Nat}
    (h : s.Mirrored cfg tape)
    (hc : Consistent cfg s) (hnum : s.nextNum ≤ 2 ^ 64) (hx : x ∈ s.queue k)
    (htick : tickOf cfg price = some t)
    (hmoved : ¬ (price = x.order.price ∧ target ≤ x.order.leavesQty)) :
    (s.move k x (x.order.side, t) (requeuedAs price target x.order)).Mirrored cfg
      (Feed.modify tape x.order.orderId price target) := by
  have hmodify : Feed.modify tape x.order.orderId price target =
      remove tape x.order.orderId ++ [x.order.quote.movedTo price target] := by
    rw [Feed.modify, h.find hx]
    exact if_neg hmoved
  rw [hmodify]
  refine (h.leave hc hnum hx).push (k := (x.order.side, t)) ?_ ?_ fun r hr => ?_
  · exact image_push
  · change (tickOf cfg price).map _ = _
    rw [htick]
    rfl
  · exact of_decide_eq_true (List.mem_filter.mp hr).2

/-- A list that still has an order that is gone. -/
theorem State.Mirrored.not_leave
    (h : s.Mirrored cfg tape)
    (hc : Consistent cfg s) (hnum : s.nextNum ≤ 2 ^ 64) (hx : x ∈ s.queue k) :
    ¬ (s.leave k x).Mirrored cfg tape := by
  intro hgone
  obtain ⟨hmem, -⟩ := h.mem_iff.mp (mem_quotes hx)
  obtain ⟨k', y, hy, hquote⟩ := hgone.exists_entry hmem
  obtain ⟨hy, hne⟩ := (hc.distinct.mem_discard hx).mp hy
  exact orderId_ne hc hnum hx hy hne (congrArg Quote.orderId hquote)

/-- What the list says depends on the queues only. -/
theorem State.Mirrored.congr
    {s' : State}
    (h : s.Mirrored cfg tape) (hqueue : s'.queue = s.queue) :
    s'.Mirrored cfg tape := by
  unfold State.Mirrored
  rw [hqueue]
  exact h

end Mirrors

section Steps

variable {cfg : Config} {m m' : Moment} {es : List OutputEvent} {tape : List Quote}

/-- **The steps of a placement keep the list a mirror of the book.** -/
theorem Trade.mirrored
    (hm : MomentOk cfg m) (hnum : m'.state.nextNum ≤ 2 ^ 64)
    (h : m.state.Mirrored cfg tape) (htrade : Trade cfg m es m') :
    m'.state.Mirrored cfg (es.foldl note tape) := by
  obtain ⟨hstep, hactive⟩ := htrade
  have hnum' : m.state.nextNum ≤ 2 ^ 64 := hstep.nextNum_le.trans hnum
  have hc := hm.consistent
  cases hstep with
  | account | number | finish => exact h
  | @fillWhole s p t x hbest hcross hle =>
      have hx := State.best_mem hbest
      have hfill : Feed.fill tape x.order.orderId x.order.leavesQty =
          remove tape x.order.orderId := by
        rw [Feed.fill, h.find hx]
        exact if_pos rfl
      change (s.leave (p.side.opposite, t) x).Mirrored cfg
        (Feed.fill tape x.order.orderId x.order.leavesQty)
      rw [hfill]
      exact h.leave hc hnum' hx
  | @fillPart s p t x hbest hcross hpos hlt =>
      have hx := State.best_mem hbest
      have hfill : Feed.fill tape x.order.orderId p.leavesQty =
          Feed.change tape x.order.orderId (Quote.filledBy p.leavesQty) := by
        rw [Feed.fill, h.find hx]
        exact if_neg (UInt64.ne_of_lt hlt).symm
      change (s.change (p.side.opposite, t) x (filledBy p.leavesQty)).Mirrored cfg
        (Feed.fill tape x.order.orderId p.leavesQty)
      rw [hfill]
      exact h.change hc hnum' hx (keeps_filledBy _) fun o => rfl
  | @rest s p price t hlimit htick hpos hswept hroom =>
      refine h.push image_push ?_ fun r hr => ?_
      · change (tickOf cfg price).map _ = _
        rw [htick]
        rfl
      · obtain ⟨k, y, hy, rfl⟩ := h.exists_entry hr
        exact (ne_of_pending hm hnum' hy (pending_active rfl)).symm
  | @leftover s p hlimit =>
      change s.Mirrored cfg (remove tape (UInt64.ofNat p.num))
      rw [remove_of_forall_ne]
      · exact h
      · intro r hr
        obtain ⟨k, y, hy, rfl⟩ := h.exists_entry hr
        exact (ne_of_pending hm hnum' hy (pending_active rfl)).symm
  | reject hev =>
      rw [List.foldl_cons, note_rejection hev]
      exact h
  | @cancel s k x hx hindex => exact h.leave hc hnum' hx
  | reduce hx hindex hpos hle => exact h.reduce hc hnum' hx hle
  | move hx hindex hpos htick hmoved => exact h.move hc hnum' hx htick hmoved
  | evict => exact h.congr (hactive.resolve_left fun hno => hno rfl)

/-- A modification that names an order, asks for a positive quantity and has a price
without a tick. -/
def Evicts (cfg : Config) (s : State) : Command → Prop
  | .modify clientId clientOrderId newPrice newQty =>
      ∃ k x, x ∈ s.queue k ∧ s.index (clientId, clientOrderId) = some (x.locator k) ∧
        newQty.getD x.order.leavesQty ≠ 0 ∧
          tickOf cfg (newPrice.getD x.order.price) = none
  | _ => False

/-- A modification of a resting order evicts it exactly if it asks for a positive quantity
at a price without a tick. -/
theorem Consistent.evicts_modify_iff
    {s : State} {k : Level} {x : Entry} {clientId clientOrderId : UInt64}
    {newPrice newQty : Option UInt64}
    (hc : Consistent cfg s) (hx : x ∈ s.queue k)
    (hindex : s.index (clientId, clientOrderId) = some (x.locator k)) :
    Evicts cfg s (.modify clientId clientOrderId newPrice newQty) ↔
      newQty.getD x.order.leavesQty ≠ 0 ∧ tickOf cfg (newPrice.getD x.order.price) = none := by
  constructor
  · rintro ⟨k', y, hy, hindex', hbad⟩
    rw [hindex, Option.some.injEq] at hindex'
    obtain rfl := eq_of_locator_eq hc hx hy hindex'
    exact hbad
  · exact fun hbad => ⟨k, x, hx, hindex, hbad⟩

/-- A placement keeps the list a mirror of the book, trade by trade. -/
theorem State.Mirrored.place
    {s : State}
    (h : s.Mirrored cfg tape) (hc : Consistent cfg s)
    (clientId clientOrderId : UInt64) (symbol : Symbol) (side : Side)
    (orderType : OrderType) (price : Option UInt64) (quantity : UInt64)
    (hnum : (PriceTime.place cfg s clientId clientOrderId symbol side orderType price
      quantity).1.nextNum ≤ 2 ^ 64) :
    (PriceTime.place cfg s clientId clientOrderId symbol side orderType price quantity).1.Mirrored
      cfg ((PriceTime.place cfg s clientId clientOrderId symbol side orderType price
        quantity).2.foldl note tape) := by
  have htrail := place_trades hc clientId clientOrderId symbol side orderType price quantity
  have hinv := htrail.invariant
    (P := fun hist m => MomentOk cfg m ∧
      (m.state.nextNum ≤ 2 ^ 64 → m.state.Mirrored cfg (hist.foldl note tape)))
    (fun {hist m es m'} ⟨hm, hkept⟩ htrade => ⟨htrade.1.momentOk hm, fun hle => by
      rw [List.foldl_append]
      exact Trade.mirrored hm hle (hkept (htrade.1.nextNum_le.trans hle)) htrade⟩)
    [] ⟨hc.moment, fun _ => h⟩
  exact hinv.2 hnum

/-- **A command keeps the list a mirror of the book exactly if it does not evict.** -/
theorem handle_mirrored_iff
    {s : State}
    (hc : Consistent cfg s) (h : s.Mirrored cfg tape) (c : Command)
    (hnum : (handle cfg s c).1.nextNum ≤ 2 ^ 64) :
    (handle cfg s c).1.Mirrored cfg ((handle cfg s c).2.foldl note tape) ↔
      ¬ Evicts cfg s c := by
  have hnum' : s.nextNum ≤ 2 ^ 64 := (nextNum_le_handle hc c).trans hnum
  cases c with
  | place clientId clientOrderId symbol side orderType price quantity tif =>
      exact iff_of_true
        (h.place hc clientId clientOrderId symbol side orderType price quantity hnum) id
  | cancel clientId clientOrderId =>
      refine iff_of_true ?_ id
      rw [handle]
      rcases cancel_outcomes hc clientId clientOrderId with ⟨-, he⟩ | ⟨k, x, hx, -, -, he⟩
      · rw [he]
        exact h
      · rw [he]
        exact h.leave hc hnum' hx
  | modify clientId clientOrderId newPrice newQty =>
      rw [handle]
      rcases modify_outcomes hc clientId clientOrderId newPrice newQty with
        ⟨hl, he⟩ | ⟨k, x, hx, hkey, hindex, hout⟩
      · rw [he]
        refine iff_of_true h ?_
        rintro ⟨k, x, -, hindex, -⟩
        rw [hl] at hindex
        exact absurd hindex (by simp)
      · rw [hkey] at hindex
        rw [Consistent.evicts_modify_iff hc hx hindex]
        generalize modify cfg s clientId clientOrderId newPrice newQty = r at hout
        cases hout with
        | refused hzero => exact iff_of_true h fun hbad => hbad.1 hzero
        | kept hpos hprice hle =>
            refine iff_of_true ?_ fun hbad => ?_
            · rw [hprice]
              exact h.reduce hc hnum' hx hle
            · rw [hprice, (hc.entry hx).tick] at hbad
              exact absurd hbad.2 (by simp)
        | evicted hpos hmoved htick =>
            exact iff_of_false (h.not_leave hc hnum' hx) fun hbad => hbad ⟨hpos, htick⟩
        | moved hpos hmoved htick =>
            refine iff_of_true (h.move hc hnum' hx htick hmoved) fun hbad => ?_
            rw [htick] at hbad
            exact absurd hbad.2 (by simp)

end Steps

end PriceTime
end LmaxEngine
