import LmaxEngine.Spec.Placing

/-!
# The commands that break the book

Two properties of the book are kept by every command but a few.  The index is
complete until an order rests under the key of another resting order.  Bids
stand below asks until an order rests, or is moved, at a price that crosses a
resting order.  For both the commands at fault are told from the state before
them.
-/

namespace LmaxEngine
namespace PriceTime

open Queues

/-- Bids and asks do not cross: no order of the family trades with another. -/
def Apart (q : Family Level Entry) : Prop :=
  ∀ k k' x y, x ∈ q k → y ∈ q k' → y.order.side = x.order.side.opposite →
    crosses x.order.side x.order.price y.order.price = false

/-- Another order rests under the key and is not hit. -/
def State.Holds
    (cfg : Config) (s : State) (key : Key) (side : Side) (price : UInt64) : Prop :=
  ∃ k y, y ∈ s.queue k ∧ y.order.key = key ∧ hits cfg side (some price) y.order = false

/-- An order of the other side has a price that crosses. -/
def State.Meets (s : State) (side : Side) (price : UInt64) (p : Order → Prop) : Prop :=
  ∃ k y, y ∈ s.queue k ∧ y.order.side = side.opposite ∧
    crosses side price y.order.price = true ∧ p y.order

/-- A placement that comes to rest under the key of another resting order. -/
def DuplicatesKey (cfg : Config) (s : State) : Command → Prop
  | .place clientId clientOrderId _ side .limit (some price) quantity _ =>
      Rests cfg s clientId side price quantity ∧
        s.Holds cfg (clientId, clientOrderId) side price
  | _ => False

/-- A placement that comes to rest, or a modification that is carried out, at a
price that crosses a resting order. -/
def CrossesBook (cfg : Config) (s : State) : Command → Prop
  | .place clientId _ _ side .limit (some price) quantity _ =>
      Rests cfg s clientId side price quantity ∧
        s.Meets side price (fun o => hits cfg side (some price) o = false)
  | .modify clientId clientOrderId newPrice newQty =>
      ∃ k x, x ∈ s.queue k ∧ s.index (clientId, clientOrderId) = some (x.locator k) ∧
        newQty.getD x.order.leavesQty ≠ 0 ∧
        (tickOf cfg (newPrice.getD x.order.price)).isSome = true ∧
        s.Meets x.order.side (newPrice.getD x.order.price) (fun _ => True)
  | _ => False

section Modifications

variable {cfg : Config} {s : State} {k k' : Level} {x y : Entry}

theorem eq_of_locator_eq
    (hc : Consistent cfg s) (hx : x ∈ s.queue k) (hy : y ∈ s.queue k')
    (h : x.locator k = y.locator k') :
    x = y :=
  hc.distinct.eq hx hy (Locator.mk.inj h).1

/-- What a modification does to the resting orders: nothing without an index
entry; else it moves the order or leaves fewer of them, and the latter only if
the target quantity is zero, the target price has no tick or is the present
price. -/
theorem modify_cases
    (hc : Consistent cfg s) (clientId clientOrderId : UInt64)
    (newPrice newQty : Option UInt64) :
    (s.index (clientId, clientOrderId) = none ∧
        (modify cfg s clientId clientOrderId newPrice newQty).1 = s) ∨
      ∃ k x, x ∈ s.queue k ∧ x.order.key = (clientId, clientOrderId) ∧
        s.index (clientId, clientOrderId) = some (x.locator k) ∧
        ((Fewer s (modify cfg s clientId clientOrderId newPrice newQty).1 ∧
            (newQty.getD x.order.leavesQty = 0 ∨
              tickOf cfg (newPrice.getD x.order.price) = none ∨
              newPrice.getD x.order.price = x.order.price)) ∨
          ∃ t, newQty.getD x.order.leavesQty ≠ 0 ∧
            tickOf cfg (newPrice.getD x.order.price) = some t ∧
            (modify cfg s clientId clientOrderId newPrice newQty).1 =
              s.move k x (x.order.side, t)
                (requeuedAs (newPrice.getD x.order.price) (newQty.getD x.order.leavesQty)
                  x.order)) := by
  rcases modify_outcomes hc clientId clientOrderId newPrice newQty with
    ⟨hnone, he⟩ | ⟨k, x, hx, hkey, hindex, hout⟩
  · exact Or.inl ⟨hnone, by rw [he]⟩
  · rw [hkey] at hindex
    refine Or.inr ⟨k, x, hx, hkey, hindex, ?_⟩
    generalize modify cfg s clientId clientOrderId newPrice newQty = r at hout ⊢
    cases hout with
    | refused hzero => exact Or.inl ⟨Fewer.refl s, Or.inl hzero⟩
    | kept hpos hprice hle =>
        exact Or.inl ⟨hc.fewer_change hx (keeps_reducedTo _), Or.inr (Or.inr hprice)⟩
    | evicted hpos hmoved htick => exact Or.inl ⟨fewer_leave hx, Or.inr (Or.inl htick)⟩
    | moved hpos hmoved htick => exact Or.inr ⟨_, hpos, htick, rfl⟩

theorem cancel_fewer
    (hc : Consistent cfg s) (clientId clientOrderId : UInt64) :
    Fewer s (cancel s clientId clientOrderId).1 := by
  rcases cancel_outcomes hc clientId clientOrderId with ⟨-, he⟩ | ⟨k, x, hx, -, -, he⟩
  · rw [he]
    exact Fewer.refl s
  · rw [he]
    exact fewer_leave hx

/-- A cancellation of an order that the index names reports what is left. -/
theorem cancel_events
    (hc : Consistent cfg s) (hx : x ∈ s.queue k)
    (hindex : s.index x.order.key = some (x.locator k)) :
    (cancel s x.order.clientId x.order.clientOrderId).2 =
      [.orderCancelled x.order.orderId x.order.clientId x.order.leavesQty] := by
  have hl : s.index (x.order.clientId, x.order.clientOrderId) = some (x.locator k) := hindex
  rcases cancel_outcomes hc x.order.clientId x.order.clientOrderId with
    ⟨hnone, -⟩ | ⟨k', y, hy, hkey, hy', he⟩
  · rw [hl] at hnone
    exact absurd hnone (by simp)
  · rw [hkey, hl, Option.some.injEq] at hy'
    obtain rfl := eq_of_locator_eq hc hx hy hy'
    rw [he]

/-- What a modification does with the entry that the index has under its key. -/
theorem modified_of_index
    {clientId clientOrderId : UInt64}
    (newPrice newQty : Option UInt64)
    (hc : Consistent cfg s) (hx : x ∈ s.queue k)
    (hindex : s.index (clientId, clientOrderId) = some (x.locator k)) :
    x.order.key = (clientId, clientOrderId) ∧
      Modified cfg s k x (newPrice.getD x.order.price) (newQty.getD x.order.leavesQty)
        (modify cfg s clientId clientOrderId newPrice newQty) := by
  rcases modify_outcomes hc clientId clientOrderId newPrice newQty with
    ⟨hnone, -⟩ | ⟨k', y, hy, hkey, hy', hout⟩
  · rw [hindex] at hnone
    exact absurd hnone (by simp)
  · rw [hkey, hindex, Option.some.injEq] at hy'
    obtain rfl := eq_of_locator_eq hc hx hy hy'
    obtain rfl := hc.distinct.same_key hx hy rfl
    exact ⟨hkey, hout⟩

/-- A modification of an order that the index names, with a positive quantity and
a price in the tick range, is carried out. -/
theorem modify_events
    {newPrice newQty : Option UInt64}
    (hc : Consistent cfg s) (hx : x ∈ s.queue k)
    (hindex : s.index x.order.key = some (x.locator k))
    (hqty : newQty.getD x.order.leavesQty ≠ 0)
    (htick : (tickOf cfg (newPrice.getD x.order.price)).isSome = true) :
    (modify cfg s x.order.clientId x.order.clientOrderId newPrice newQty).2 =
      [.orderModified x.order.orderId x.order.clientId (newPrice.getD x.order.price)
        (newQty.getD x.order.leavesQty)] := by
  obtain ⟨-, hout⟩ := modified_of_index newPrice newQty hc hx hindex
  generalize modify cfg s x.order.clientId x.order.clientOrderId newPrice newQty = r at hout ⊢
  cases hout with
  | refused hzero => exact absurd hzero hqty
  | kept => rfl
  | evicted hpos hmoved hnone =>
      rw [hnone] at htick
      exact absurd htick (by simp)
  | moved => rfl

end Modifications

section Completeness

variable {cfg : Config} {s r : State} {k k' : Level} {x y : Entry}

theorem complete_new :
    State.new.Complete := by
  intro k x hx
  simp [State.new] at hx

/-- After an order has come to rest the index is complete if no other order
rests under its key. -/
theorem State.Complete.rest_iff
    (h : r.Complete) (hfresh : ∀ k y, y ∈ r.queue k → y.num ≠ x.num) :
    (r.rest k x).Complete ↔ ∀ k' y, y ∈ r.queue k' → y.order.key ≠ x.order.key := by
  constructor
  · intro hc k' y hy hkey
    have hindex := hc k' y (mem_push.mpr (Or.inl hy))
    rw [hkey, State.rest] at hindex
    dsimp only at hindex
    rw [Function.update_self, Option.some.injEq] at hindex
    exact hfresh k' y hy (Locator.mk.inj hindex).1.symm
  · intro hkeys k' y hy
    rcases mem_push.mp hy with hy | ⟨rfl, rfl⟩
    · exact (Function.update_of_ne (hkeys k' y hy) _ _).trans (h k' y hy)
    · exact Function.update_self _ _ _

theorem State.Complete.move
    {o : Order}
    (h : s.Complete) (hx : x ∈ s.queue k) (hkey : o.key = x.order.key) :
    (s.move k x k' o).Complete := by
  intro k'' y hy
  rcases mem_push.mp hy with hy | ⟨rfl, rfl⟩
  · have hleft := h.leave hx k'' y hy
    have hne : y.order.key ≠ x.order.key := by
      intro he
      rw [he, State.leave] at hleft
      dsimp only at hleft
      rw [Function.update_self] at hleft
      exact absurd hleft (by simp)
    exact (Function.update_of_ne hne _ _).trans (h k'' y (mem_discard.mp hy).1)
  · dsimp only
    rw [hkey]
    exact Function.update_self _ _ _

theorem place_complete_iff
    {clientId clientOrderId price quantity : UInt64} {symbol : Symbol} {side : Side}
    (hc : Consistent cfg s) (h : s.Complete)
    (hrests : Rests cfg s clientId side price quantity) :
    (place cfg s clientId clientOrderId symbol side .limit (some price) quantity).1.Complete ↔
      ¬ s.Holds cfg (clientId, clientOrderId) side price := by
  obtain ⟨r, t, x, hr, -, hkey, -, -, hrem⟩ := place_rests clientOrderId symbol hc hrests
  rw [hr, (hrem.complete h).rest_iff hrem.fresh, hkey]
  constructor
  · rintro hall ⟨k, y, hy, hykey, hmiss⟩
    exact hall k y ((hrem.mem_iff k y).mpr ⟨hy, hmiss⟩) hykey
  · intro hno k y hy hykey
    obtain ⟨hy, hmiss⟩ := (hrem.mem_iff k y).mp hy
    exact hno ⟨k, y, hy, hykey, hmiss⟩

/-- **A command keeps the index complete unless it duplicates a key.** -/
theorem handle_complete_iff
    (hc : Consistent cfg s) (h : s.Complete) (c : Command) :
    (handle cfg s c).1.Complete ↔ ¬ DuplicatesKey cfg s c := by
  cases c with
  | place clientId clientOrderId symbol side orderType price quantity tif =>
      have hfewer := place_fewer clientId clientOrderId symbol side orderType price quantity hc
      cases orderType with
      | market => exact ⟨fun _ h => h, fun _ => (hfewer (by simp)).complete h⟩
      | limit =>
          cases price with
          | none => exact ⟨fun _ h => h, fun _ => (hfewer (by simp)).complete h⟩
          | some price =>
              by_cases hrests : Rests cfg s clientId side price quantity
              · refine (place_complete_iff hc h hrests).trans (not_congr ?_)
                exact ⟨fun hd => ⟨hrests, hd⟩, And.right⟩
              · refine ⟨fun _ hd => hrests hd.1, fun _ => (hfewer ?_).complete h⟩
                rintro price' - he
                obtain rfl := Option.some.inj he
                exact hrests
  | cancel clientId clientOrderId =>
      exact ⟨fun _ h => h, fun _ => (cancel_fewer hc clientId clientOrderId).complete h⟩
  | modify clientId clientOrderId newPrice newQty =>
      refine ⟨fun _ h => h, fun _ => ?_⟩
      rcases modify_cases hc clientId clientOrderId newPrice newQty with
        ⟨-, he⟩ | ⟨k, x, hx, -, -, ⟨hfewer, -⟩ | ⟨t, -, -, he⟩⟩
      · rw [handle, he]
        exact h
      · exact hfewer.complete h
      · rw [handle, he]
        exact h.move hx rfl

end Completeness

section Crossing

variable {cfg : Config} {s r : State} {k : Level} {x y : Entry} {q q' : Family Level Entry}

theorem crosses_opposite
    (side : Side) (a b : UInt64) :
    crosses side.opposite a b = crosses side b a := by
  cases side <;> rfl

theorem Apart.mono
    (h : Apart q)
    (hsub : ∀ k x, x ∈ q' k →
      ∃ y, y ∈ q k ∧ y.order.side = x.order.side ∧ y.order.price = x.order.price) :
    Apart q' := by
  intro k k' x y hx hy hside
  obtain ⟨x', hx', hxs, hxp⟩ := hsub k x hx
  obtain ⟨y', hy', hys, hyp⟩ := hsub k' y hy
  rw [← hxs, ← hxp, ← hyp]
  refine h k k' x' y' hx' hy' ?_
  rw [hys, hxs, hside]

/-- One more order keeps the book apart if it crosses no order that is there. -/
theorem Apart.push_iff
    (h : Apart q) :
    Apart (push q k x) ↔
      ∀ k' y, y ∈ q k' → y.order.side = x.order.side.opposite →
        crosses x.order.side x.order.price y.order.price = false := by
  constructor
  · intro hp k' y hy hside
    exact hp k k' x y (mem_push.mpr (Or.inr ⟨rfl, rfl⟩)) (mem_push.mpr (Or.inl hy)) hside
  · intro hx k₁ k₂ y z hy hz hside
    rcases mem_push.mp hy with hold | ⟨rfl, rfl⟩
    · rcases mem_push.mp hz with hz | ⟨rfl, rfl⟩
      · exact h k₁ k₂ y z hold hz hside
      · have hback : y.order.side = z.order.side.opposite := by
          rw [hside, Side.opposite_opposite]
        have := hx k₁ y hold hback
        rwa [← crosses_opposite, ← hback] at this
    · rcases mem_push.mp hz with hz | ⟨-, rfl⟩
      · exact hx k₂ z hz hside
      · cases hs : z.order.side <;> simp [hs, Side.opposite] at hside

theorem place_apart_iff
    {clientId clientOrderId price quantity : UInt64} {symbol : Symbol} {side : Side}
    (hc : Consistent cfg s) (h : Apart s.queue)
    (hrests : Rests cfg s clientId side price quantity) :
    Apart (place cfg s clientId clientOrderId symbol side .limit (some price) quantity).1.queue ↔
      ¬ s.Meets side price (fun o => hits cfg side (some price) o = false) := by
  obtain ⟨r, t, x, hr, -, -, hside, hprice, hrem⟩ := place_rests clientOrderId symbol hc hrests
  have hapart : Apart r.queue :=
    h.mono fun k y hy => ⟨y, ((hrem.mem_iff k y).mp hy).1, rfl, rfl⟩
  rw [hr]
  refine hapart.push_iff.trans ?_
  rw [hside, hprice]
  constructor
  · rintro hall ⟨k, y, hy, hyside, hcross, hmiss⟩
    rw [hall k y ((hrem.mem_iff k y).mpr ⟨hy, hmiss⟩) hyside] at hcross
    exact absurd hcross (by simp)
  · intro hno k y hy hyside
    obtain ⟨hy, hmiss⟩ := (hrem.mem_iff k y).mp hy
    exact Bool.eq_false_iff.mpr fun hcross => hno ⟨k, y, hy, hyside, hcross, hmiss⟩

/-- Moving an order keeps the book apart if it crosses no resting order at its
new price. -/
theorem Apart.move_iff
    {k' : Level} {o : Order}
    (h : Apart s.queue) (hx : x ∈ s.queue k) (hside : o.side = x.order.side)
    (hd : Distinct Entry.num s.queue) :
    Apart (s.move k x k' o).queue ↔ ¬ s.Meets o.side o.price (fun _ => True) := by
  have hapart : Apart (discard Entry.num s.queue k x.num) :=
    h.mono fun k y hy => ⟨y, (mem_discard.mp hy).1, rfl, rfl⟩
  refine hapart.push_iff.trans ?_
  constructor
  · rintro hall ⟨k'', y, hy, hyside, hcross, -⟩
    refine absurd (hall k'' y ((hd.mem_discard hx).mpr ⟨hy, fun he => ?_⟩) hyside)
      (by simp [hcross])
    obtain rfl := hd.eq hy hx he
    rw [← hside] at hyside
    cases hs : o.side <;> simp [hs, Side.opposite] at hyside
  · intro hno k'' y hy hyside
    refine Bool.eq_false_iff.mpr fun hcross => hno ?_
    exact ⟨k'', y, (mem_discard.mp hy).1, hyside, hcross, trivial⟩

theorem modify_apart_iff
    {clientId clientOrderId : UInt64} {newPrice newQty : Option UInt64}
    (hc : Consistent cfg s) (h : Apart s.queue) :
    Apart (modify cfg s clientId clientOrderId newPrice newQty).1.queue ↔
      ¬ CrossesBook cfg s (.modify clientId clientOrderId newPrice newQty) := by
  rcases modify_cases hc clientId clientOrderId newPrice newQty with
    ⟨hnone, he⟩ | ⟨k, x, hx, -, hindex, hcase⟩
  · rw [he]
    refine ⟨?_, fun _ => h⟩
    rintro - ⟨k, x, -, hindex, -⟩
    rw [hnone] at hindex
    exact absurd hindex (by simp)
  · have hsame : ∀ {k' x'}, x' ∈ s.queue k' →
        s.index (clientId, clientOrderId) = some (x'.locator k') → x' = x := by
      intro k' x' hx' hindex'
      rw [hindex', Option.some.injEq] at hindex
      exact eq_of_locator_eq hc hx' hx hindex
    rcases hcase with ⟨hfewer, hquiet⟩ | ⟨t, hqty, htick, he⟩
    · refine ⟨?_, fun _ => h.mono hfewer.origin⟩
      rintro - ⟨k', x', hx', hindex', hqty, htick, k'', y, hy, hyside, hcross, -⟩
      obtain rfl := hsame hx' hindex'
      rcases hquiet with hzero | hnone | hkeep
      · exact hqty hzero
      · rw [hnone] at htick
        exact absurd htick (by simp)
      · rw [hkeep, h k k'' x' y hx hy hyside] at hcross
        exact absurd hcross (by simp)
    · rw [he]
      refine (h.move_iff (o := requeuedAs (newPrice.getD x.order.price)
        (newQty.getD x.order.leavesQty) x.order) hx rfl hc.distinct).trans (not_congr ?_)
      constructor
      · exact fun hm => ⟨k, x, hx, hindex, hqty, by rw [htick]; rfl, hm⟩
      · rintro ⟨k', x', hx', hindex', -, -, hm⟩
        obtain rfl := hsame hx' hindex'
        exact hm

/-- **A command keeps the book apart unless it crosses it.** -/
theorem handle_apart_iff
    (hc : Consistent cfg s) (h : Apart s.queue) (c : Command) :
    Apart (handle cfg s c).1.queue ↔ ¬ CrossesBook cfg s c := by
  cases c with
  | place clientId clientOrderId symbol side orderType price quantity tif =>
      have hfewer := place_fewer clientId clientOrderId symbol side orderType price quantity hc
      cases orderType with
      | market => exact ⟨fun _ h => h, fun _ => h.mono (hfewer (by simp)).origin⟩
      | limit =>
          cases price with
          | none => exact ⟨fun _ h => h, fun _ => h.mono (hfewer (by simp)).origin⟩
          | some price =>
              by_cases hrests : Rests cfg s clientId side price quantity
              · refine (place_apart_iff hc h hrests).trans (not_congr ?_)
                exact ⟨fun hd => ⟨hrests, hd⟩, And.right⟩
              · refine ⟨fun _ hd => hrests hd.1, fun _ => h.mono (hfewer ?_).origin⟩
                rintro price' - he
                obtain rfl := Option.some.inj he
                exact hrests
  | cancel clientId clientOrderId =>
      exact ⟨fun _ h => h, fun _ => h.mono (cancel_fewer hc clientId clientOrderId).origin⟩
  | modify clientId clientOrderId newPrice newQty => exact modify_apart_iff hc h

end Crossing

end PriceTime
end LmaxEngine
