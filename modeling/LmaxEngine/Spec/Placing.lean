import LmaxEngine.Spec.Sweep

/-!
# Which placements rest, and what they meet

A limit order rests when the orders it hits do not hold its quantity and there
is room for what is left.  The order then stands in the book together with all
orders that it did not hit.  Two properties of the book hang on what these are:
whether the index is complete, and whether bids and asks stay apart.
-/

namespace LmaxEngine
namespace PriceTime

open Queues Transition

/-- A limit order that passes the checks of a placement, is not used up by
matching and finds a place. -/
structure Rests
    (cfg : Config) (s : State)
    (clientId : UInt64) (side : Side) (price quantity : UInt64) : Prop where
  qty : quantity ≠ 0
  limit : openOrders s.clients clientId < 1000
  tick : (tickOf cfg price).isSome = true
  left : s.across cfg side (some price) < quantity.toNat
  room : s.resting < cfg.capacity ∨
    ∃ k y, y ∈ s.queue k ∧ hits cfg side (some price) y.order = true

/-- The state `r` is what a resting order finds: the entries that it does not
hit. -/
structure Remainder
    (cfg : Config) (s r : State) (side : Side) (price : UInt64) (x : Entry) : Prop where
  mem_iff : ∀ k y, y ∈ r.queue k ↔
    y ∈ s.queue k ∧ hits cfg side (some price) y.order = false
  fresh : ∀ k y, y ∈ r.queue k → y.num ≠ x.num
  complete : s.Complete → r.Complete

/-- Every resting order of `r` rests in `s`, with another quantity perhaps. -/
structure Fewer (s r : State) : Prop where
  origin : ∀ k x, x ∈ r.queue k →
    ∃ y, y ∈ s.queue k ∧ y.order.side = x.order.side ∧ y.order.price = x.order.price
  complete : s.Complete → r.Complete

theorem Fewer.refl
    (s : State) :
    Fewer s s where
  origin _ x hx := ⟨x, hx, rfl, rfl⟩
  complete h := h

theorem fewer_leave
    {s : State} {k : Level} {x : Entry}
    (hx : x ∈ s.queue k) :
    Fewer s (s.leave k x) where
  origin _ y hy := ⟨y, (mem_discard.mp hy).1, rfl, rfl⟩
  complete h := h.leave hx

theorem Consistent.fewer_change
    {cfg : Config} {s : State} {k : Level} {x : Entry} {f : Order → Order}
    (hc : Consistent cfg s) (hx : x ∈ s.queue k) (hf : Keeps f) :
    Fewer s (s.change k x f) where
  origin k' y hy := by
    rcases (mem_change hc.distinct hx).mp hy with ⟨hy, -⟩ | ⟨rfl, rfl⟩
    · exact ⟨y, hy, rfl, rfl⟩
    · exact ⟨x, hx, (hf.side _).symm, (hf.price _).symm⟩
  complete h := h.change hc.distinct hf hx

section Placements

variable {cfg : Config} {s : State} {p : Placement} {price : UInt64} {t : Nat}

/-- Matching leaves fewer resting orders. -/
theorem sweep_fewer
    (fuel : Nat) (hm : MomentOk cfg ⟨s, some p⟩) :
    Fewer s (p.sweep cfg fuel s).1 where
  origin _ _ hx := sweep_origin hm hx
  complete := sweep_complete hm

/-- When there is room for what matching leaves. -/
theorem sweep_resting_ne_iff
    (hm : MomentOk cfg ⟨s, some p⟩)
    (hleft : (p.sweep cfg (s.resting + 1) s).2.1 ≠ 0) :
    (p.sweep cfg (s.resting + 1) s).1.resting ≠ cfg.capacity ↔
      (s.resting < cfg.capacity ∨
        ∃ k y, y ∈ s.queue k ∧ hits cfg p.side p.limitPrice y.order = true) := by
  have hroom : s.resting ≤ cfg.capacity := hm.consistent.room
  constructor
  · intro hne
    by_contra hcon
    obtain ⟨hfull, hmiss⟩ := not_or.mp hcon
    rw [sweep_no_hits hm fun k x hx => Bool.eq_false_iff.mpr fun hhit => hmiss ⟨k, x, hx, hhit⟩]
      at hne
    change s.resting ≠ cfg.capacity at hne
    omega
  · rintro (hlt | ⟨k, y, hy, hhit⟩)
    · have := sweep_resting_le (s.resting + 1) hm
      omega
    · have := sweep_resting_lt hm hleft hy hhit
      omega

theorem sweep_left_pos_iff
    (hm : MomentOk cfg ⟨s, some p⟩) :
    0 < (p.sweep cfg (s.resting + 1) s).2.1 ↔
      s.across cfg p.side p.limitPrice < p.leavesQty.toNat := by
  have := sweep_left hm (Nat.lt_succ_self s.resting)
  rw [UInt64.lt_iff_toNat_lt, this, UInt64.toNat_zero]
  omega

/-- What the `LIMIT` branch does from the start of matching. -/
theorem placeLimit_cases
    (hm : MomentOk cfg ⟨s, some p⟩)
    (hleaves : p.leavesQty = p.quantity)
    (hlimit : p.limitPrice = some price) :
    (s.across cfg p.side (some price) < p.quantity.toNat ∧
        (s.resting < cfg.capacity ∨
          ∃ k y, y ∈ s.queue k ∧ hits cfg p.side (some price) y.order = true) ∧
        ∃ r left,
          (PriceTime.placeLimit cfg s p.num p.clientId p.clientOrderId p.symbol p.side
            price p.quantity t).1 =
            r.rest (p.side, t) (Placement.entry { p with leavesQty := left } price) ∧
          Remainder cfg s r p.side price (p.entry price)) ∨
      (¬ (s.across cfg p.side (some price) < p.quantity.toNat ∧
          (s.resting < cfg.capacity ∨
            ∃ k y, y ∈ s.queue k ∧ hits cfg p.side (some price) y.order = true)) ∧
        Fewer s (PriceTime.placeLimit cfg s p.num p.clientId p.clientOrderId p.symbol p.side
          price p.quantity t).1) := by
  have hfewer := sweep_fewer (s.resting + 1) hm
  have hpos := sweep_left_pos_iff hm
  have hroom := sweep_resting_ne_iff hm
  have hmem := fun k y => sweep_mem_iff (x := y) (k := k) hm (Nat.lt_succ_self s.resting)
  rw [hlimit, hleaves] at hpos
  rw [hlimit] at hroom
  simp only [hlimit] at hmem
  unfold PriceTime.placeLimit
  simp only [matchAll_eq_sweep hleaves hlimit]
  generalize p.sweep cfg (s.resting + 1) s = r at hfewer hpos hroom hmem ⊢
  obtain ⟨r, left, fills⟩ := r
  dsimp only at hfewer hpos hroom hmem ⊢
  split_ifs with hlt hfull
  · right
    have hne : left ≠ 0 := UInt64.pos_iff_ne_zero.mp hlt
    exact ⟨fun h => (hroom hne).mpr h.2 hfull, hfewer⟩
  · left
    have hne : left ≠ 0 := UInt64.pos_iff_ne_zero.mp hlt
    refine ⟨hpos.mp hlt, (hroom hne).mp hfull, r, left, rfl, ?_⟩
    exact
      { mem_iff := fun k y => hmem k y hne
        fresh := fun k y hy => hm.fresh rfl ((hmem k y hne).mp hy).1
        complete := hfewer.complete }
  · right
    exact ⟨fun h => hlt (hpos.mpr h.1), hfewer⟩

theorem placeMarket_fewer
    (hm : MomentOk cfg ⟨s, some p⟩)
    (hleaves : p.leavesQty = p.quantity)
    (hlimit : p.limitPrice = none) :
    Fewer s (PriceTime.placeMarket cfg s p.num p.clientId p.symbol p.side p.quantity).1 := by
  have hfewer := sweep_fewer (s.resting + 1) hm
  unfold PriceTime.placeMarket
  simp only [matchAll_eq_sweep hleaves hlimit]
  split_ifs
  · exact hfewer
  · exact hfewer

/-- Opening an account and handing out a number moves no order. -/
theorem fewer_number
    (s : State) (c : UInt64) :
    Fewer s (s.account c).number where
  origin _ x hx := ⟨x, hx, rfl, rfl⟩
  complete h := h

/-- A limit order that rests stands in the book beside the orders that it does
not hit. -/
theorem place_rests
    {clientId quantity : UInt64} {side : Side} (clientOrderId : UInt64) (symbol : Symbol)
    (hc : Consistent cfg s) (h : Rests cfg s clientId side price quantity) :
    ∃ r t x,
      (place cfg s clientId clientOrderId symbol side .limit (some price) quantity).1 =
        r.rest (side, t) x ∧
      x.num = s.nextNum ∧ x.order.key = (clientId, clientOrderId) ∧ x.order.side = side ∧
      x.order.price = price ∧
      Remainder cfg s r side price x := by
  obtain ⟨t, htick⟩ := Option.isSome_iff_exists.mp h.tick
  have hlimit := not_limit_iff.mpr h.limit
  have hm := started_ok hc h.qty hlimit clientOrderId symbol side (some price)
  rw [place_limit h.qty hlimit htick]
  rcases placeLimit_cases (t := t) hm rfl rfl with ⟨-, -, r, left, hr, hrem⟩ | ⟨hno, -⟩
  · exact ⟨r, t, _, hr, rfl, rfl, rfl, rfl, hrem.mem_iff, hrem.fresh, hrem.complete⟩
  · exact absurd ⟨h.left, h.room⟩ hno

/-- A placement that does not rest leaves fewer resting orders. -/
theorem place_fewer
    (clientId clientOrderId : UInt64) (symbol : Symbol) (side : Side)
    (orderType : OrderType) (limitPrice : Option UInt64) (quantity : UInt64)
    (hc : Consistent cfg s)
    (h : ∀ price, orderType = .limit → limitPrice = some price →
      ¬ Rests cfg s clientId side price quantity) :
    Fewer s (place cfg s clientId clientOrderId symbol side orderType limitPrice quantity).1 := by
  rcases place_cases cfg s clientId clientOrderId symbol side quantity orderType limitPrice with
    ⟨-, hp⟩ | ⟨-, hp⟩ |
      ⟨hqty, hlimit, ⟨-, -, hp⟩ | ⟨-, hp⟩ | ⟨price, t, htype, hprice, htick, hp⟩⟩
  · rw [hp]
    exact Fewer.refl s
  · rw [hp]
    exact ⟨fun _ x hx => ⟨x, hx, rfl, rfl⟩, id⟩
  · rw [hp]
    exact fewer_number s clientId
  · have hm := started_ok hc hqty hlimit clientOrderId symbol side none
    have hfewer := placeMarket_fewer hm rfl rfl
    rw [hp]
    exact ⟨hfewer.origin, hfewer.complete⟩
  · have hm := started_ok hc hqty hlimit clientOrderId symbol side (some price)
    rcases placeLimit_cases (t := t) hm rfl rfl with ⟨hleft, hroom, -⟩ | ⟨-, hfewer⟩
    · refine absurd ?_ (h price htype hprice)
      exact ⟨hqty, not_limit_iff.mp hlimit, by rw [htick]; rfl, hleft, hroom⟩
    · rw [hp]
      exact ⟨hfewer.origin, hfewer.complete⟩

end Placements

/-- The number of resting orders that a command hits. -/
noncomputable def State.hitBy (cfg : Config) (s : State) : Command → Nat
  | .place _ _ _ side .market _ _ _ => s.hitCount cfg side none
  | .place _ _ _ side .limit (some price) _ _ => s.hitCount cfg side (some price)
  | _ => 0

section Events

variable {cfg : Config} {s : State} {p : Placement}

theorem hitCount_number
    (s : State) (c : UInt64) (side : Side) (limitPrice : Option UInt64) :
    (s.account c).number.hitCount cfg side limitPrice = s.hitCount cfg side limitPrice := rfl

theorem placeMarket_events_le
    (hm : MomentOk cfg ⟨s, some p⟩)
    (hleaves : p.leavesQty = p.quantity) (hlimit : p.limitPrice = none) :
    (PriceTime.placeMarket cfg s p.num p.clientId p.symbol p.side p.quantity).2.length ≤
      s.hitCount cfg p.side none + 1 := by
  have hle := sweep_events_le (s.resting + 1) hm
  rw [hlimit] at hle
  unfold PriceTime.placeMarket
  simp only [matchAll_eq_sweep hleaves hlimit]
  split_ifs
  · simp only [List.length_append, List.length_singleton]
    omega
  · exact hle.trans (Nat.le_succ _)

theorem placeLimit_events_le
    {price : UInt64} {t : Nat}
    (hm : MomentOk cfg ⟨s, some p⟩)
    (hleaves : p.leavesQty = p.quantity) (hlimit : p.limitPrice = some price) :
    (PriceTime.placeLimit cfg s p.num p.clientId p.clientOrderId p.symbol p.side
      price p.quantity t).2.length ≤ s.hitCount cfg p.side (some price) + 1 := by
  have hle := sweep_events_le (s.resting + 1) hm
  rw [hlimit] at hle
  unfold PriceTime.placeLimit
  simp only [matchAll_eq_sweep hleaves hlimit]
  split_ifs
  · simp only [List.length_append, List.length_singleton]
    omega
  · simp only [List.length_append, List.length_singleton]
    omega
  · exact hle.trans (Nat.le_succ _)

theorem cancel_events_length
    (s : State) (c k : UInt64) :
    (cancel s c k).2.length = 1 := by
  simp only [cancel]
  split
  · rfl
  · split
    · rfl
    · split_ifs <;> rfl

theorem modify_events_length
    (s : State) (c k : UInt64) (newPrice newQty : Option UInt64) :
    (PriceTime.modify cfg s c k newPrice newQty).2.length = 1 := by
  simp only [PriceTime.modify]
  split
  · rfl
  · split
    · rfl
    · split_ifs
      · rfl
      · rfl
      · rfl
      · unfold PriceTime.modifyRequeue
        dsimp only
        split
        · rfl
        · split_ifs <;> rfl

/-- **The events of a command** are fills of orders that it hits, and one more
at most. -/
theorem handle_events_le
    (hc : Consistent cfg s) (c : Command) :
    (handle cfg s c).2.length ≤ s.hitBy cfg c + 1 := by
  cases c with
  | place clientId clientOrderId symbol side orderType price quantity tif =>
      rw [handle]
      rcases place_cases cfg s clientId clientOrderId symbol side quantity orderType price with
        ⟨-, hp⟩ | ⟨-, hp⟩ |
          ⟨hqty, hlimit, ⟨-, -, hp⟩ | ⟨rfl, hp⟩ | ⟨limit, t, rfl, rfl, -, hp⟩⟩
      · rw [hp]
        exact Nat.succ_le_succ (Nat.zero_le _)
      · rw [hp]
        exact Nat.succ_le_succ (Nat.zero_le _)
      · rw [hp]
        exact Nat.succ_le_succ (Nat.zero_le _)
      · have hle := placeMarket_events_le
          (started_ok hc hqty hlimit clientOrderId symbol side none) rfl rfl
        rw [hitCount_number] at hle
        rw [hp]
        exact hle
      · have hle := placeLimit_events_le (t := t)
          (started_ok hc hqty hlimit clientOrderId symbol side (some limit)) rfl rfl
        rw [hitCount_number] at hle
        rw [hp]
        exact hle
  | cancel clientId clientOrderId => exact (cancel_events_length s clientId clientOrderId).le
  | modify clientId clientOrderId newPrice newQty =>
      exact (modify_events_length s clientId clientOrderId newPrice newQty).le

end Events

end PriceTime
end LmaxEngine
