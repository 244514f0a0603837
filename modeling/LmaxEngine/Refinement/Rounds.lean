import LmaxEngine.Model.Handlers

/-!
# What the handlers do in any state

Facts about the code that ask nothing of the state: what a round of the matching
loop can do, what an allocation that fails leaves, and that an order which is taken
out of the book leaves a free slot.
-/

namespace LmaxEngine

open Checked

/-- The value of a branch that is not taken, in a build that lets it pass. -/
theorem eq_of_fallback
    {β : Build} {α : Type} {a b : α}
    (h : fallback β a = .ok b) :
    a = b := by
  rw [fallback, probe] at h
  split_ifs at h
  exact Except.ok.inj h

/-- A check that does not abort has its value. -/
theorem eq_of_probe
    {β : Build} {α : Type} {k : Check} {bad : Prop} [Decidable bad] {a b : α}
    (h : probe β k bad a = .ok b) :
    a = b := by
  rw [probe] at h
  split_ifs at h
  exact Except.ok.inj h

section Slots

variable {β : Build} {a a' : Arena} {level level' : PriceLevel} {order order' : Order} {i : Nat}

/-- An allocation fails for want of a free slot only, and then changes nothing. -/
theorem Arena.allocOrder_error
    (h : a.allocOrder β order level = .ok (.error order', a', level')) :
    a.freeOrderHead = none ∧ a' = a ∧ level' = level := by
  rw [Arena.allocOrder] at h
  cases hfree : a.freeOrderHead with
  | none =>
      simp only [hfree, Except.ok.injEq, Prod.mk.injEq] at h
      exact ⟨rfl, h.2.1.symm, h.2.2.symm⟩
  | some idx =>
      -- no other branch gives the order back
      have hbind : ∀ {γ : Type} {x : Run γ}
          {f : γ → Run (Except Order OrderId × Arena × PriceLevel)},
          (∀ c, f c ≠ .ok (.error order', a', level')) →
            (x >>= f) ≠ .ok (.error order', a', level') := by
        intro γ x f hf h
        obtain ⟨c, -, h⟩ := bind_eq_ok.mp h
        exact hf c h
      simp only [hfree] at h
      refine absurd h (hbind fun slot => ?_)
      split
      · refine hbind fun nextFree => hbind fun store => hbind fun store' => hbind fun stored => ?_
        split
        · exact hbind fun totalQty => hbind fun orderCount => nofun
        · exact hbind fun totalQty => hbind fun orderCount => nofun
      · refine hbind fun nextFree => hbind fun store => hbind fun store' => hbind fun stored => ?_
        split
        · exact hbind fun totalQty => hbind fun orderCount => nofun
        · exact hbind fun totalQty => hbind fun orderCount => nofun

/-- A slot that is freed is the next one to be taken. -/
theorem Arena.freeOrder_head
    {slot : Slot} {prev next : Option Nat}
    (hslot : a.orderStore[i]? = some slot) (hstate : slot.state = .occupied order prev next)
    (h : a.freeOrder β i level = .ok (a', level')) :
    a'.freeOrderHead = some i := by
  rw [Arena.freeOrder, ix_eq hslot, ok_bind] at h
  simp only [hstate] at h
  obtain ⟨totalQty, -, h⟩ := bind_eq_ok.mp h
  obtain ⟨store, -, h⟩ := bind_eq_ok.mp h
  obtain ⟨store', -, h⟩ := bind_eq_ok.mp h
  obtain ⟨orderCount, -, h⟩ := bind_eq_ok.mp h
  obtain ⟨slot', -, h⟩ := bind_eq_ok.mp h
  obtain ⟨generation, -, h⟩ := bind_eq_ok.mp h
  obtain ⟨store'', -, h⟩ := bind_eq_ok.mp h
  obtain ⟨count, -, h⟩ := bind_eq_ok.mp h
  rw [← (Prod.mk.inj (Except.ok.inj h)).1]

end Slots

section Books

variable {β : Build} {b b' : OrderBook} {side : Side} {t i : Nat}

/-- An order that is taken out of a level leaves a free slot. -/
theorem OrderBook.removeOrder_head
    {pl : PriceLevel} {slot : Slot} {order : Order} {prev next : Option Nat}
    (hlevel : (b.half side).getPriceLevel t = .ok (some pl))
    (hslot : b.arena.orderStore[i]? = some slot)
    (hstate : slot.state = .occupied order prev next)
    (h : b.removeOrder β side t i = .ok b') :
    b'.arena.freeOrderHead = some i := by
  have harena : ∀ hb a, (b.withHalf side hb a).arena = a := by
    intro hb a
    cases side <;> rfl
  rw [OrderBook.removeOrder] at h
  obtain ⟨⟨hb, a⟩, hremove, h⟩ := bind_eq_ok.mp h
  rw [← Except.ok.inj h, harena]
  rw [HalfBook.removeOrder] at hremove
  rw [HalfBook.getPriceLevel] at hlevel
  rw [hlevel, ok_bind] at hremove
  dsimp only at hremove
  obtain ⟨⟨a₁, pl₁⟩, hfree, hremove⟩ := bind_eq_ok.mp hremove
  obtain ⟨levels, -, hremove⟩ := bind_eq_ok.mp hremove
  have hhead := Arena.freeOrder_head hslot hstate hfree
  split_ifs at hremove
  · obtain ⟨levels', -, hremove⟩ := bind_eq_ok.mp hremove
    obtain ⟨bitmap, -, hremove⟩ := bind_eq_ok.mp hremove
    rwa [← (Prod.mk.inj (Except.ok.inj hremove)).2]
  · rwa [← (Prod.mk.inj (Except.ok.inj hremove)).2]

/-- The side without its level at a tick. -/
def HalfBook.dropLevel (hb : HalfBook) (t : Nat) : HalfBook :=
  { hb with priceLevels := Function.update hb.priceLevels t none }

/-- The book without the level of a side at a tick. -/
def OrderBook.dropLevel (b : OrderBook) (side : Side) (t : Nat) : OrderBook :=
  b.withHalf side ((b.half side).dropLevel t) b.arena

/-- There is a level at the tick, and its counter stands at zero. -/
def HalfBook.Uncounted (hb : HalfBook) (t : Nat) : Prop :=
  ∃ pl, hb.priceLevels t = some pl ∧ pl.orderCount = 0

theorem OrderBook.withHalf_half
    (b : OrderBook) (side : Side) :
    b.withHalf side (b.half side) b.arena = b := by
  cases side <;> rfl

/-- The level that an allocation without a free slot writes back, and drops again if
it counts no order, is an old one or was made for the order. -/
theorem HalfBook.addOrder_error
    {hb hb' : HalfBook} {arena arena' : Arena} {order order' : Order}
    (h : hb.addOrder β t order arena = .ok (.error order', hb', arena')) :
    arena.freeOrderHead = none ∧ arena' = arena ∧
      (hb' = hb ∨ hb.Uncounted t ∧ hb' = hb.dropLevel t) := by
  rw [HalfBook.addOrder] at h
  obtain ⟨old, hold, h⟩ := bind_eq_ok.mp h
  obtain ⟨levels, hlevels, h⟩ := bind_eq_ok.mp h
  obtain ⟨level, hlevel, h⟩ := bind_eq_ok.mp h
  obtain ⟨pl, hpl, h⟩ := bind_eq_ok.mp h
  obtain ⟨⟨result, a, pl'⟩, halloc, h⟩ := bind_eq_ok.mp h
  obtain ⟨levels', hset, h⟩ := bind_eq_ok.mp h
  cases result with
  | ok oid =>
      obtain ⟨bitmap, -, h⟩ := bind_eq_ok.mp h
      exact absurd (Except.ok.inj h) (by simp)
  | error o =>
      obtain ⟨levels'', hdrop, h⟩ := bind_eq_ok.mp h
      obtain ⟨-, hhb⟩ := Prod.mk.inj (Except.ok.inj h)
      obtain ⟨rfl, rfl⟩ := Prod.mk.inj hhb
      obtain ⟨hfree, rfl, rfl⟩ := Arena.allocOrder_error halloc
      refine ⟨hfree, rfl, ?_⟩
      obtain ⟨ht, rfl⟩ := cell_eq_ok.mp hold
      obtain ⟨-, hpl'⟩ := cell_eq_ok.mp hlevel
      obtain ⟨-, rfl⟩ := setCell_eq_ok.mp hset
      rw [unwrap_eq_ok.mp hpl] at hpl'
      cases hold : hb.priceLevels t with
      | none =>
          -- the level was made for the order
          refine Or.inl ?_
          rw [hold, Option.isNone_none, if_pos rfl] at hlevels
          obtain ⟨-, rfl⟩ := setCell_eq_ok.mp hlevels
          rw [Function.update_self, Option.some.injEq] at hpl'
          subst hpl'
          have hzero : PriceLevel.new.orderCount = 0 := rfl
          rw [if_pos hzero] at hdrop
          obtain ⟨-, rfl⟩ := setCell_eq_ok.mp hdrop
          rw [Function.update_idem, Function.update_idem, ← hold, Function.update_eq_self]
      | some old =>
          rw [hold, Option.isNone_some, if_neg (by simp)] at hlevels
          obtain rfl := Except.ok.inj hlevels
          rw [hold, Option.some.injEq] at hpl'
          subst hpl'
          split_ifs at hdrop with hzero
          · obtain ⟨-, rfl⟩ := setCell_eq_ok.mp hdrop
            refine Or.inr ⟨⟨old, hold, hzero⟩, ?_⟩
            rw [Function.update_idem, HalfBook.dropLevel]
          · obtain rfl := Except.ok.inj hdrop
            refine Or.inl ?_
            rw [← hold, Function.update_eq_self]

/-- An order that finds no free slot leaves the book as it was, but for its level if
that counts no order. -/
theorem OrderBook.addOrder_error
    {order order' : Order}
    (h : b.addOrder β side t order = .ok (.error order', b')) :
    b.arena.freeOrderHead = none ∧
      (b' = b ∨ (b.half side).Uncounted t ∧ b' = b.dropLevel side t) := by
  rw [OrderBook.addOrder] at h
  obtain ⟨⟨result, hb, arena⟩, hadd, h⟩ := bind_eq_ok.mp h
  obtain ⟨rfl, rfl⟩ := Prod.mk.inj (Except.ok.inj h)
  obtain ⟨hfree, rfl, rfl | ⟨hzero, rfl⟩⟩ := HalfBook.addOrder_error hadd
  · exact ⟨hfree, Or.inl (b.withHalf_half side)⟩
  · exact ⟨hfree, Or.inr ⟨hzero, rfl⟩⟩

end Books

/-- Two orders have met. -/
def OutputEvent.IsFill : OutputEvent → Prop
  | .fill .. => True
  | _ => False

section Matching

variable {β : Build} {aggressor clientId qty left : UInt64} {symbol : Symbol} {side : Side}
variable {limitPrice : Option UInt64} {fuel : Nat} {e e' : Engine} {es : List OutputEvent}

/-- What a round of the loop that goes through can do: it stops without an event,
or it meets the order at the head of a level and reports a fill.  Then either the
order leaves the book, or the quantity is used up. -/
theorem matchLoop_cases
    (h : LmaxEngine.matchLoop β aggressor clientId symbol side limitPrice (fuel + 1) e qty =
      .ok (e', left, es)) :
    (e' = e ∧ left = qty ∧ es = []) ∨
    ∃ t pl i slot resting prev next,
      (e.book.half side.opposite).getPriceLevel t = .ok (some pl) ∧ pl.head = some i ∧
      e.book.arena.orderStore[i]? = some slot ∧ slot.state = .occupied resting prev next ∧
      ((∃ book clients rest,
          e.book.removeOrder β side.opposite t i = .ok book ∧
          closeOrder β e.clients resting.clientId = .ok clients ∧
          LmaxEngine.matchLoop β aggressor clientId symbol side limitPrice fuel
              { e with book := book
                       orderIndex := Function.update e.orderIndex resting.key none
                       clients := clients }
              (qty - resting.leavesQty) = .ok (e', left, rest) ∧
          es = .fill aggressor resting.orderId clientId resting.clientId symbol resting.price
            resting.leavesQty side :: rest) ∨
        (left = 0 ∧ es = [.fill aggressor resting.orderId clientId resting.clientId symbol
          resting.price qty side])) := by
  have hstop : ∀ {q : UInt64}, ((e, q, []) : Engine × UInt64 × List OutputEvent) = (e', left, es) →
      e' = e ∧ left = q ∧ es = [] := by
    intro q hq
    rw [Prod.mk.injEq, Prod.mk.injEq] at hq
    exact ⟨hq.1.symm, hq.2.1.symm, hq.2.2.symm⟩
  rw [LmaxEngine.matchLoop] at h
  split_ifs at h with h0
  · exact Or.inl (hstop (Except.ok.inj h))
  obtain ⟨best, -, h⟩ := bind_eq_ok.mp h
  cases best with
  | none => exact Or.inl (hstop (Except.ok.inj h))
  | some t =>
      obtain ⟨crossing, -, h⟩ := bind_eq_ok.mp h
      dsimp only at h
      split_ifs at h with hcross
      · exact Or.inl (hstop (Except.ok.inj h))
      obtain ⟨level, hlevel, h⟩ := bind_eq_ok.mp h
      cases hhead : level.bind PriceLevel.head with
      | none =>
          simp only [hhead] at h
          exact Or.inl (hstop (eq_of_fallback h))
      | some i =>
          obtain ⟨pl, rfl, hpl⟩ := Option.bind_eq_some_iff.mp hhead
          simp only [hhead] at h
          obtain ⟨slot, hslot, h⟩ := bind_eq_ok.mp h
          rw [ix_eq_ok] at hslot
          cases hstate : slot.state with
          | free n =>
              simp only [hstate] at h
              exact Or.inl (hstop (eq_of_fallback h))
          | occupied resting prev next =>
              simp only [hstate] at h
              refine Or.inr ⟨t, pl, i, slot, resting, prev, next, hlevel, hpl, hslot, hstate, ?_⟩
              obtain ⟨q, hq, h⟩ := bind_eq_ok.mp h
              obtain rfl := eq_of_probe hq
              by_cases hwhole : min qty resting.leavesQty = resting.leavesQty
              · rw [if_pos hwhole] at h
                obtain ⟨book, hremove, h⟩ := bind_eq_ok.mp h
                obtain ⟨clients, hclose, h⟩ := bind_eq_ok.mp h
                obtain ⟨⟨e₁, left₁, rest⟩, hloop, h⟩ := bind_eq_ok.mp h
                rw [Except.ok.injEq, Prod.mk.injEq, Prod.mk.injEq] at h
                obtain ⟨rfl, rfl, rfl⟩ := h
                rw [hwhole] at hloop ⊢
                exact Or.inl ⟨book, clients, rest, hremove, hclose, hloop, rfl⟩
              · rw [if_neg hwhole] at h
                obtain ⟨restingLeaves, -, h⟩ := bind_eq_ok.mp h
                obtain ⟨restingFilled, -, h⟩ := bind_eq_ok.mp h
                obtain ⟨arena, -, h⟩ := bind_eq_ok.mp h
                obtain ⟨book, -, h⟩ := bind_eq_ok.mp h
                -- an order filled in part takes all of the quantity
                have hmin : min qty resting.leavesQty = qty :=
                  (Std.MinEqOr.min_eq_or qty resting.leavesQty).resolve_right hwhole
                rw [hmin, UInt64.sub_self, if_pos rfl, Except.ok.injEq, Prod.mk.injEq,
                  Prod.mk.injEq] at h
                exact Or.inr ⟨h.2.1.symm, h.2.2.symm⟩

/-- The loop reports fills only. -/
theorem matchLoop_isFill
    (h : LmaxEngine.matchLoop β aggressor clientId symbol side limitPrice fuel e qty =
      .ok (e', left, es)) :
    ∀ ev, ev ∈ es → ev.IsFill := by
  induction fuel generalizing e qty es with
  | zero => exact absurd h (by simp [LmaxEngine.matchLoop])
  | succ fuel ih =>
      rcases matchLoop_cases h with ⟨-, -, rfl⟩ |
        ⟨t, pl, i, slot, resting, prev, next, -, -, -, -,
          ⟨book, clients, rest, -, -, hloop, rfl⟩ | ⟨-, rfl⟩⟩
      · exact fun ev hev => absurd hev List.not_mem_nil
      · intro ev hev
        rcases List.mem_cons.mp hev with rfl | hev
        · exact trivial
        · exact ih hloop ev hev
      · intro ev hev
        rw [List.mem_singleton] at hev
        rw [hev]
        exact trivial

/-- **A loop that has reported a fill and has quantity left over has freed a slot.**
Its last round took an order out of the book. -/
theorem matchLoop_frees
    (h : LmaxEngine.matchLoop β aggressor clientId symbol side limitPrice fuel e qty =
      .ok (e', left, es))
    (hleft : left ≠ 0) :
    (e' = e ∧ es = []) ∨ ∃ i, e'.book.arena.freeOrderHead = some i := by
  induction fuel generalizing e qty es with
  | zero => exact absurd h (by simp [LmaxEngine.matchLoop])
  | succ fuel ih =>
      rcases matchLoop_cases h with ⟨rfl, -, rfl⟩ |
        ⟨t, pl, i, slot, resting, prev, next, hlevel, -, hslot, hstate,
          ⟨book, clients, rest, hremove, -, hloop, -⟩ | ⟨hzero, -⟩⟩
      · exact Or.inl ⟨rfl, rfl⟩
      · refine Or.inr ?_
        rcases ih hloop with ⟨rfl, -⟩ | hfree
        · exact ⟨i, OrderBook.removeOrder_head hlevel hslot hstate hremove⟩
        · exact hfree
      · exact absurd hzero hleft

end Matching

/-- After a placement that is rejected the book is the same, nothing is indexed or
counted for the order, and at most an empty account and the next id are new.  If the
order found no slot, and the level at its own price counts no order, this level is
dropped. -/
structure Engine.Rejects
    (e e' : Engine)
    (clientId : UInt64) (side : Side) (price : Option UInt64) (reason : RejectReason) :
    Prop where
  book : e'.book = e.book ∨
    ∃ p t, reason = .arenaFull ∧ price = some p ∧ e.book.priceToTick p = .ok (some t) ∧
      (e.book.half side).Uncounted t ∧ e'.book = e.book.dropLevel side t
  index : e'.orderIndex = e.orderIndex
  clients : e'.clients = e.clients ∨
    (e.clients clientId = none ∧
      e'.clients = Function.update e.clients clientId (some default))
  nextOrderId : e'.nextOrderId = e.nextOrderId ∨ e'.nextOrderId = e.nextOrderId + 1

section Placements

variable {β : Build} {orderId clientId clientOrderId price quantity c co : UInt64}
variable {symbol : Symbol} {side : Side} {reason : RejectReason} {t : Nat}
variable {e e' : Engine} {es : List OutputEvent}

theorem not_rejected_of_isFill
    (c co : UInt64) (reason : RejectReason)
    (hfill : ∀ ev, ev ∈ es → ev.IsFill) :
    .orderRejected c co reason ∉ es :=
  fun hrej => hfill _ hrej

/-- A market order is not rejected any more when it comes to be matched. -/
theorem placeMarket_not_rejected
    (h : placeMarket β e orderId clientId symbol side quantity = .ok (e', es)) :
    .orderRejected c co reason ∉ es := by
  rw [placeMarket, matchAggressor] at h
  obtain ⟨⟨e₁, left, fills⟩, hloop, h⟩ := bind_eq_ok.mp h
  have hfills := not_rejected_of_isFill c co reason (matchLoop_isFill hloop)
  dsimp only at h
  split_ifs at h
  · rw [← (Prod.mk.inj (Except.ok.inj h)).2, List.mem_append, List.mem_singleton]
    rintro (hrej | hrej)
    · exact hfills hrej
    · exact absurd hrej (by simp)
  · rw [← (Prod.mk.inj (Except.ok.inj h)).2]
    exact hfills

/-- **A limit order that is rejected for want of a slot has met no order.**  A fill
with quantity left over would have freed one. -/
theorem placeLimit_rejected
    (h : placeLimit β e orderId clientId clientOrderId symbol side price quantity t =
      .ok (e', es))
    (hrej : .orderRejected c co reason ∈ es) :
    es = [.orderRejected c co reason] ∧ reason = .arenaFull ∧
      ∃ book, e' = { e with book := book } ∧
        (book = e.book ∨ (e.book.half side).Uncounted t ∧ book = e.book.dropLevel side t) := by
  rw [placeLimit, matchAggressor] at h
  obtain ⟨⟨e₁, left, fills⟩, hloop, h⟩ := bind_eq_ok.mp h
  have hfills := not_rejected_of_isFill c co reason (matchLoop_isFill hloop)
  dsimp only at h
  split_ifs at h with hpos
  · obtain ⟨filledQty, -, h⟩ := bind_eq_ok.mp h
    obtain ⟨⟨result, book⟩, hadd, h⟩ := bind_eq_ok.mp h
    cases result with
    | ok oid =>
        obtain ⟨n, -, h⟩ := bind_eq_ok.mp h
        rw [← (Prod.mk.inj (Except.ok.inj h)).2, List.mem_append, List.mem_singleton] at hrej
        rcases hrej with hrej | hrej
        · exact absurd hrej hfills
        · exact absurd hrej (by simp)
    | error o =>
        obtain ⟨hfree, hsame⟩ := OrderBook.addOrder_error hadd
        obtain ⟨rfl, rfl⟩ := Prod.mk.inj (Except.ok.inj h)
        have hleft : left ≠ 0 := by
          rintro rfl
          exact absurd hpos (UInt64.lt_irrefl 0)
        rcases matchLoop_frees hloop hleft with ⟨rfl, rfl⟩ | ⟨i, hhead⟩
        · rw [List.nil_append, List.mem_singleton] at hrej
          rw [List.nil_append, hrej]
          exact ⟨rfl, (OutputEvent.orderRejected.inj hrej).2.2, book, rfl, hsame⟩
        · rw [hfree] at hhead
          exact absurd hhead (by simp)
  · rw [← (Prod.mk.inj (Except.ok.inj h)).2] at hrej
    exact absurd hrej hfills

/-- **A rejected placement changes nothing** but, perhaps, the next id, an empty
account, and the level at the price of the order if its counter stands at zero. -/
theorem processPlace_rejected
    {orderType : OrderType} {price : Option UInt64}
    (h : processPlace β e clientId clientOrderId symbol side orderType price quantity =
      .ok (e', es))
    (hrej : .orderRejected c co reason ∈ es) :
    es = [.orderRejected c co reason] ∧ e.Rejects e' clientId side price reason := by
  have hclients : Function.update e.clients clientId (some (accountOf e.clients clientId)) =
        e.clients ∨
      (e.clients clientId = none ∧
        Function.update e.clients clientId (some (accountOf e.clients clientId)) =
          Function.update e.clients clientId (some default)) := by
    rw [accountOf]
    cases hac : e.clients clientId with
    | none => exact Or.inr ⟨rfl, rfl⟩
    | some ac =>
        refine Or.inl ?_
        rw [Option.getD_some, ← hac, Function.update_eq_self]
  have hsole : ∀ {e₁ : Engine} {ev : OutputEvent},
      (Except.ok (e₁, [ev]) : Run _) = .ok (e', es) →
        e.Rejects e₁ clientId side price reason →
        es = [.orderRejected c co reason] ∧ e.Rejects e' clientId side price reason := by
    intro e₁ ev h hsame
    obtain ⟨rfl, rfl⟩ := Prod.mk.inj (Except.ok.inj h)
    rw [List.mem_singleton] at hrej
    rw [hrej]
    exact ⟨rfl, hsame⟩
  rw [processPlace] at h
  split_ifs at h with hqty
  · exact hsole h ⟨Or.inl rfl, rfl, Or.inl rfl, Or.inl rfl⟩
  dsimp only at h
  split_ifs at h
  · exact hsole h ⟨Or.inl rfl, rfl, hclients, Or.inl rfl⟩
  · obtain ⟨nextOrderId, hnext, h⟩ := bind_eq_ok.mp h
    obtain rfl := eq_of_probe hnext
    cases orderType with
    | market => exact absurd hrej (placeMarket_not_rejected h)
    | limit =>
        cases price with
        | none => exact hsole h ⟨Or.inl rfl, rfl, hclients, Or.inr rfl⟩
        | some price =>
            obtain ⟨tick, htick, h⟩ := bind_eq_ok.mp h
            cases tick with
            | none => exact hsole h ⟨Or.inl rfl, rfl, hclients, Or.inr rfl⟩
            | some t =>
                obtain ⟨hes, rfl, book, rfl, hsame⟩ := placeLimit_rejected h hrej
                refine ⟨hes, ?_, rfl, hclients, Or.inr rfl⟩
                exact hsame.imp_right fun ⟨hzero, hdrop⟩ =>
                  ⟨price, t, rfl, rfl, htick, hzero, hdrop⟩

end Placements

end LmaxEngine
