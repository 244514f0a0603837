import LmaxEngine.Spec.TimeInForce
import LmaxEngine.Spec.Priority

/-!
# How a placement ends

A placement that passes all checks is matched, and what is left of it is
cancelled or comes to rest.  It finds the book full only if it has filled nothing:
a placement that is not used up by matching has taken every order that it filled
out of the book.  The orders of the other side lose what is filled, and those of
its own side gain what rests.
-/

namespace LmaxEngine
namespace PriceTime

open Queues Transition

/-- The quantity that the orders of a side hold together. -/
noncomputable def State.sideQty (s : State) (side : Side) : Nat :=
  weigh levels s.queue (fun x => if x.order.side = side then x.order.leavesQty.toNat else 0)

/-- What matching has done to the book of a placement: its fills, and what is left. -/
structure Traded
    (s : State) (p : Placement) (s' : State) (fills : List OutputEvent) (left : UInt64) :
    Prop where
  positive : ∀ ev, ev ∈ fills → 0 < ev.fillQty
  sum : filled fills + left.toNat = p.leavesQty.toNat
  own : ∀ t, s'.queue (p.side, t) = s.queue (p.side, t)
  oppositeQty : s'.sideQty p.side.opposite + filled fills = s.sideQty p.side.opposite
  ownQty : s'.sideQty p.side = s.sideQty p.side

/-- How a placement ends that passes all checks. -/
inductive Ended (cfg : Config) (s : State) (p : Placement) : State × List OutputEvent → Prop
  | filled {s' : State} {fills : List OutputEvent}
      (htraded : Traded s p s' fills 0) :
      Ended cfg s p (s', fills)
  | cancelled {s' : State} {fills : List OutputEvent} {left : UInt64}
      (htraded : Traded s p s' fills left)
      (hlimit : p.limitPrice = none) (hpos : 0 < left) :
      Ended cfg s p
        (s', fills ++ [.orderCancelled (UInt64.ofNat p.num) p.clientId left])
  | rested {s' : State} {fills : List OutputEvent} {left price : UInt64} {t : Nat}
      (htraded : Traded s p s' fills left)
      (hlimit : p.limitPrice = some price) (htick : tickOf cfg price = some t)
      (hpos : 0 < left) :
      Ended cfg s p
        (s'.rest (p.side, t) (Placement.entry { p with leavesQty := left } price),
          fills ++ [.orderAccepted (UInt64.ofNat p.num) p.clientId p.clientOrderId p.symbol
            p.side price left])
  | full {price : UInt64}
      (hlimit : p.limitPrice = some price) :
      Ended cfg s p (s, [.orderRejected p.clientId p.clientOrderId .arenaFull])

section Quantities

variable {cfg : Config} {s : State} {p : Placement} {fuel : Nat}

/-- **Matching takes from the other side what it fills,** and nothing from its own. -/
theorem sweep_sideQty
    (hm : MomentOk cfg ⟨s, some p⟩) (fuel : Nat) :
    (p.sweep cfg fuel s).1.sideQty p.side.opposite + filled (p.sweep cfg fuel s).2.2 =
        s.sideQty p.side.opposite ∧
      (p.sweep cfg fuel s).1.sideQty p.side = s.sideQty p.side := by
  have hne : p.side.opposite ≠ p.side := by cases p.side <;> exact nofun
  induction fuel generalizing p s with
  | zero => exact ⟨rfl, rfl⟩
  | succ fuel ih =>
      have hc : Consistent cfg s := hm.consistent
      rcases sweep_cases cfg p s with hstop | ⟨t, x, h0, hb, hcross, hle | hlt⟩
      · rw [sweep_stop hstop]
        exact ⟨rfl, rfl⟩
      · have hx := State.best_mem hb
        have hside : x.order.side = p.side.opposite := (hc.entry hx).side
        have hstep : Step cfg ⟨s, some p⟩ _ _ := Step.fillWhole hb hcross hle
        have hleave : ∀ side, (s.leave (p.side.opposite, t) x).sideQty side +
            (if x.order.side = side then x.order.leavesQty.toNat else 0) = s.sideQty side :=
          fun side => weigh_discard
            (g := fun y : Entry => if y.order.side = side then y.order.leavesQty.toNat else 0)
            hc.distinct (hc.entry hx).mem_levels hx
        have hopposite := hleave p.side.opposite
        have hown := hleave p.side
        rw [if_pos hside] at hopposite
        rw [hside, if_neg hne] at hown
        obtain ⟨ihopposite, ihown⟩ := ih (p := p.less x.order.leavesQty) (hstep.momentOk hm) hne
        have hfill : (p.fill x.order x.order.leavesQty).fillQty = x.order.leavesQty.toNat := rfl
        rw [sweep_whole h0 hb hcross hle, filled_cons, hfill]
        dsimp only [Placement.less] at ihopposite ihown ⊢
        exact ⟨by omega, by omega⟩
      · have hx := State.best_mem hb
        have hside : x.order.side = p.side.opposite := (hc.entry hx).side
        have hchange : ∀ side,
            (s.change (p.side.opposite, t) x (filledBy p.leavesQty)).sideQty side +
              (if x.order.side = side then x.order.leavesQty.toNat else 0) =
            s.sideQty side + (if x.order.side = side then
              (x.order.leavesQty - p.leavesQty).toNat else 0) :=
          fun side => hc.weigh_change (f := filledBy p.leavesQty)
            (g := fun o => if o.side = side then o.leavesQty.toNat else 0) hx
        have hopposite := hchange p.side.opposite
        have hown := hchange p.side
        rw [if_pos hside, if_pos hside, UInt64.toNat_sub_of_le _ _ (UInt64.le_of_lt hlt)]
          at hopposite
        rw [hside, if_neg hne, if_neg hne] at hown
        have hfill : (p.fill x.order p.leavesQty).fillQty = p.leavesQty.toNat := rfl
        rw [UInt64.lt_iff_toNat_lt] at hlt
        rw [sweep_part h0 hb hcross (UInt64.lt_iff_toNat_lt.mpr hlt), filled_cons, hfill,
          filled_nil]
        dsimp only
        exact ⟨by omega, by omega⟩

theorem sweep_traded
    (hm : MomentOk cfg ⟨s, some p⟩) (fuel : Nat) :
    Traded s p (p.sweep cfg fuel s).1 (p.sweep cfg fuel s).2.2 (p.sweep cfg fuel s).2.1 where
  positive _ hev := sweep_fills hm hev
  sum := sweep_filled cfg p fuel s
  own := sweep_own cfg p fuel s
  oppositeQty := (sweep_sideQty hm fuel).1
  ownQty := (sweep_sideQty hm fuel).2

/-- An order that comes to rest adds what is left of it to its side. -/
theorem sideQty_rest
    {x : Entry} {k : Level}
    (hk : k.2 < numTicks) (side : Side) :
    (s.rest k x).sideQty side =
      s.sideQty side + if x.order.side = side then x.order.leavesQty.toNat else 0 :=
  weigh_push (g := fun y : Entry => if y.order.side = side then y.order.leavesQty.toNat else 0)
    (mem_levels.mpr hk)

end Quantities

section Placements

variable {cfg : Config} {s : State} {p : Placement}

theorem placeMarket_ended
    (hm : MomentOk cfg ⟨s, some p⟩) (hleaves : p.leavesQty = p.quantity)
    (hlimit : p.limitPrice = none) :
    Ended cfg s p
      (PriceTime.placeMarket cfg s p.num p.clientId p.symbol p.side p.quantity) := by
  have htraded := sweep_traded hm (s.resting + 1)
  rw [PriceTime.placeMarket]
  simp only [matchAll_eq_sweep hleaves hlimit]
  split_ifs with hpos
  · exact Ended.cancelled htraded hlimit hpos
  · rw [UInt64.pos_iff_ne_zero, not_not] at hpos
    exact Ended.filled (hpos ▸ htraded)

theorem placeLimit_ended
    {price : UInt64} {t : Nat}
    (hm : MomentOk cfg ⟨s, some p⟩) (hleaves : p.leavesQty = p.quantity)
    (hlimit : p.limitPrice = some price) (htick : tickOf cfg price = some t) :
    Ended cfg s p (PriceTime.placeLimit cfg s p.num p.clientId p.clientOrderId p.symbol p.side
      price p.quantity t) := by
  have htraded := sweep_traded hm (s.resting + 1)
  rw [PriceTime.placeLimit]
  simp only [matchAll_eq_sweep hleaves hlimit]
  split_ifs with hpos hfull
  · -- the book is full after matching, so nothing was hit
    have hne := UInt64.pos_iff_ne_zero.mp hpos
    have hno := mt (sweep_resting_ne_iff hm hne).mpr (not_not_intro hfull)
    rw [not_or, not_exists] at hno
    rw [sweep_no_hits hm fun k x hx => Bool.eq_false_iff.mpr fun hhit => hno.2 k ⟨x, hx, hhit⟩]
    exact Ended.full hlimit
  · exact Ended.rested htraded hlimit htick hpos
  · rw [UInt64.pos_iff_ne_zero, not_not] at hpos
    exact Ended.filled (hpos ▸ htraded)

/-- What a placement comes to: a rejection that leaves the queues alone, or an
end of its matching. -/
theorem place_endings
    (hc : Consistent cfg s)
    (clientId clientOrderId : UInt64) (symbol : Symbol) (side : Side)
    (orderType : OrderType) (price : Option UInt64) (quantity : UInt64) :
    (∃ reason s', s'.queue = s.queue ∧
        place cfg s clientId clientOrderId symbol side orderType price quantity =
          (s', [.orderRejected clientId clientOrderId reason])) ∨
      (Accepted cfg s clientId orderType price quantity ∧
        Ended cfg (s.account clientId).number
          (s.placement clientId clientOrderId symbol side (limitOf orderType price) quantity)
          (place cfg s clientId clientOrderId symbol side orderType price quantity)) := by
  rcases place_cases cfg s clientId clientOrderId symbol side quantity orderType price with
    ⟨-, hp⟩ | ⟨-, hp⟩ |
      ⟨hqty, hlimit, ⟨-, -, hp⟩ | ⟨rfl, hp⟩ | ⟨limit, t, rfl, rfl, htick, hp⟩⟩
  · exact Or.inl ⟨_, s, rfl, hp⟩
  · exact Or.inl ⟨_, s.account clientId, rfl, hp⟩
  · exact Or.inl ⟨_, (s.account clientId).number, rfl, hp⟩
  · rw [hp]
    exact Or.inr ⟨⟨hqty, not_limit_iff.mp hlimit, by simp⟩,
      placeMarket_ended (started_ok hc hqty hlimit clientOrderId symbol side none) rfl rfl⟩
  · rw [hp]
    refine Or.inr ⟨⟨hqty, not_limit_iff.mp hlimit, fun _ => ?_⟩, ?_⟩
    · rw [Option.bind_some, htick]
      rfl
    · exact placeLimit_ended (started_ok hc hqty hlimit clientOrderId symbol side (some limit))
        rfl rfl htick

end Placements

end PriceTime
end LmaxEngine
