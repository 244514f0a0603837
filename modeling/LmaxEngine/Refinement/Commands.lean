import LmaxEngine.Refinement.Engine

/-!
# Commands and runs of the engine refine those of the plain book

The matching loop goes through the same rounds on both sides, and each handler
through the same branches.  The engine may check for everything but wrapping
quantities, counters and generations: none of its other checks finds anything,
and the only abort is a division by a tick size of zero.
-/

namespace LmaxEngine
namespace Engine

open Checked Queues Arena PriceTime Transition

/-- An engine and a state of the plain book that belong together. -/
def Simulates (cfg : Config) (e : Engine) (s : State) : Prop :=
  ∃ loc free, Refines cfg e s loc free

section Matching

variable {β : Build} {cfg : Config} {e : Engine} {s : State}
variable {loc : Nat → Nat} {free : List Nat} {k : Level} {x : Entry}

/-- Closing an order of a client that has one does not saturate. -/
theorem closeOrder_eq
    {clients : Clients} {c : UInt64}
    (h : 0 < openOrders clients c) :
    closeOrder β clients c = .ok (closeAccount clients c) := by
  unfold closeOrder closeAccount
  cases hc : clients c with
  | none => rfl
  | some ac =>
      have hac : accountOf clients c = ac := by simp [accountOf, hc]
      rw [openOrders, hac] at h
      have hpos : ¬ ac.openOrders < 1 := by
        rw [UInt32.lt_iff_toNat_lt, UInt32.toNat_one]
        omega
      simp only [saturatingSubOpen, probe_pass hpos, ok_bind]

/-- An entry leaves the book for good. -/
theorem Refines.left
    (hβ : β .counterOverflow = false)
    (hexact : β .totalQtySaturation = true → e.Tallies s)
    (h : Refines cfg e s loc free) (hc : Consistent cfg s) (hx : x ∈ s.queue k) :
    ∃ book clients,
      e.book.removeOrder β k.1 k.2 (loc x.num) = .ok book ∧
      closeOrder β e.clients x.order.clientId = .ok clients ∧
      Refines cfg
        { e with book := book
                 orderIndex := Function.update e.orderIndex x.order.key none
                 clients := clients }
        (s.leave k x) loc (loc x.num :: free) ∧
      (e.Tallies s → Tallies { e with book := book } (s.leave k x)) := by
  obtain ⟨book, hremove, hr, ht⟩ := h.removed hβ hexact hc hx
  refine ⟨book, closeAccount s.clients x.order.clientId, hremove, ?_, hr.withClients _, ht⟩
  rw [h.clients]
  exact closeOrder_eq (hc.openOrders_pos hx)

/-- The best entry of a side and its place in the book. -/
theorem Refines.best
    {side : Side} {t : Nat}
    (h : Refines cfg e s loc free) (hc : Consistent cfg s)
    (hb : s.best side = some (t, x)) :
    s.bestTick side = some t ∧
      ∃ pl, (e.book.half side).getPriceLevel t = .ok (some pl) ∧
        pl.head = some (loc x.num) := by
  have hx := State.best_mem hb
  unfold State.best at hb
  obtain ⟨t', htick, ht'⟩ := Option.bind_eq_some_iff.mp hb
  obtain ⟨y, hy, he⟩ := Option.map_eq_some_iff.mp ht'
  obtain ⟨rfl, rfl⟩ := Prod.mk.inj he
  refine ⟨htick, ?_⟩
  obtain ⟨xs, hq⟩ := List.head?_eq_some_iff.mp hy
  refine h.book.getPriceLevel (o := y.order) (l := xs.map (cellOf loc)) ?_ ?_
  · exact tickOf_lt (hc.entry hx).tick
  · rw [image, hq]
    rfl

/-- The crossing test at the tick of an entry. -/
theorem Refines.crossesAt
    {side side' : Side} {t : Nat} {limitPrice : Option UInt64}
    (h : Refines cfg e s loc free) (hc : Consistent cfg s)
    (hx : x ∈ s.queue (side', t)) :
    crossesAt β e.book side limitPrice t = .ok (crossesTick cfg side limitPrice t) := by
  have htick := (hc.entry hx).tick
  unfold LmaxEngine.crossesAt crossesTick
  cases limitPrice with
  | none => rfl
  | some price =>
      dsimp only
      rw [OrderBook.tickToPrice_eq β h.book htick (tickOf_lt htick)]
      rfl

variable {p : Placement} {n t : Nat}

/-- The matching loop of the engine for a placement. -/
def loopOf (β : Build) (p : Placement) (fuel : Nat) (e : Engine) :
    Run (Engine × UInt64 × List OutputEvent) :=
  matchLoop β (UInt64.ofNat p.num) p.clientId p.symbol p.side p.limitPrice fuel e p.leavesQty

/-- The loop stops where matching on the plain book does. -/
theorem Refines.loop_stop
    (fuel : Nat) (h : Refines cfg e s loc free) (hc : Consistent cfg s)
    (hstop : p.leavesQty = 0 ∨ Swept cfg s p) :
    loopOf β p (fuel + 1) e = .ok (e, p.leavesQty, []) := by
  unfold loopOf LmaxEngine.matchLoop
  by_cases h0 : p.leavesQty = 0
  · rw [if_pos h0]
  · rw [if_neg h0, h.bestTick, ok_bind]
    have hswept : Swept cfg s p := hstop.resolve_left h0
    cases hb : s.best p.side.opposite with
    | none =>
        cases ht : s.bestTick p.side.opposite with
        | none => rfl
        | some t =>
            exact absurd hb (best_ne_none ht)
    | some tx =>
        obtain ⟨t, x⟩ := tx
        obtain ⟨ht, -⟩ := h.best hc hb
        rw [ht]
        dsimp only
        rw [h.crossesAt hc (State.best_mem hb), hswept hb]
        rfl

/-- A round that fills the best entry in whole. -/
theorem Refines.loop_whole
    (hβ : β .counterOverflow = false)
    (hexact : β .totalQtySaturation = true → e.Tallies s)
    (h : Refines cfg e s loc free) (hc : Consistent cfg s)
    (h0 : p.leavesQty ≠ 0)
    (hb : s.best p.side.opposite = some (t, x))
    (hcross : crossesTick cfg p.side p.limitPrice t = true)
    (hle : x.order.leavesQty ≤ p.leavesQty) :
    ∃ e', Refines cfg e' (s.leave (p.side.opposite, t) x) loc (loc x.num :: free) ∧
      (e.Tallies s → e'.Tallies (s.leave (p.side.opposite, t) x)) ∧
      ∀ fuel, loopOf β p (fuel + 1) e = (do
        let (e, leavesQty, events) ← loopOf β (p.less x.order.leavesQty) fuel e'
        .ok (e, leavesQty, p.fill x.order x.order.leavesQty :: events)) := by
  have hx := State.best_mem hb
  obtain ⟨ht, pl, hlevel, hhead⟩ := h.best hc hb
  obtain ⟨generation, prev, next, hslot, -⟩ := h.slot hx
  obtain ⟨book, clients, hremove, hclose, hr, htallies⟩ := h.left hβ hexact hc hx
  refine ⟨_, hr, htallies, fun fuel => ?_⟩
  have hsub : sub64 β p.leavesQty x.order.leavesQty =
      .ok (p.leavesQty - x.order.leavesQty) :=
    probe_pass (UInt64.not_lt.mpr hle)
  conv_lhs => unfold loopOf LmaxEngine.matchLoop
  simp only [if_neg h0, h.bestTick, ok_bind, ht, h.crossesAt hc hx, hcross, hlevel,
    Option.bind_some, hhead, ix_eq hslot, min_eq_right_of_le hle, hsub, if_true, hremove,
    hclose, Bool.true_eq_false, if_false]
  rfl

/-- A round that fills the best entry in part, unless its counter cannot take it. -/
theorem Refines.loop_part
    (hexact : β .totalQtySaturation = true → e.Tallies s)
    (h : Refines cfg e s loc free) (hc : Consistent cfg s)
    (h0 : p.leavesQty ≠ 0)
    (hb : s.best p.side.opposite = some (t, x))
    (hcross : crossesTick cfg p.side p.limitPrice t = true)
    (hlt : p.leavesQty < x.order.leavesQty) :
    ∃ e', Refines cfg e' (s.change (p.side.opposite, t) x (filledBy p.leavesQty)) loc free ∧
      (e.Tallies s → e'.Tallies (s.change (p.side.opposite, t) x (filledBy p.leavesQty))) ∧
      ∀ fuel, loopOf β p (fuel + 1) e = (do
        let _ ← addQty β x.order.filledQty p.leavesQty
        .ok (e', 0, [p.fill x.order p.leavesQty])) := by
  have hx := State.best_mem hb
  obtain ⟨ht, pl, hlevel, hhead⟩ := h.best hc hb
  obtain ⟨slot, prev, next, arena, book, hslot, hstate, hput, hreduce, hr, htallies⟩ :=
    h.rewritten hexact hx (filledBy p.leavesQty) (UInt64.le_of_lt hlt)
  refine ⟨_, hr, fun ht => htallies ht ?_, fun fuel => ?_⟩
  · have hsum := UInt64.toNat_sub_of_le _ _ (UInt64.le_of_lt hlt)
    rw [UInt64.lt_iff_toNat_lt] at hlt
    change (x.order.leavesQty - p.leavesQty).toNat + p.leavesQty.toNat = x.order.leavesQty.toNat
    omega
  have hsub : sub64 β p.leavesQty p.leavesQty = .ok (p.leavesQty - p.leavesQty) :=
    probe_pass (UInt64.lt_irrefl _)
  have hsub' : sub64 β x.order.leavesQty p.leavesQty =
      .ok (x.order.leavesQty - p.leavesQty) :=
    probe_pass (UInt64.not_lt.mpr (UInt64.le_of_lt hlt))
  have hne : p.leavesQty ≠ x.order.leavesQty := UInt64.ne_of_lt hlt
  unfold filledBy at hput
  unfold loopOf LmaxEngine.matchLoop
  simp only [if_neg h0, h.bestTick, ok_bind, ht, h.crossesAt hc hx, hcross, hlevel,
    Option.bind_some, hhead, ix_eq hslot, hstate, min_eq_left_of_lt hlt, hsub, if_neg hne,
    hsub', Bool.true_eq_false, if_false, UInt64.sub_self]
  rw [addQty_bind]
  simp only [hput, hreduce, ok_bind, if_true]
  rfl

/-- Matching takes nothing back. -/
theorem sweep_le
    (cfg : Config) (p : Placement) (fuel : Nat) (s : State) :
    (p.sweep cfg fuel s).2.1 ≤ p.leavesQty := by
  induction fuel generalizing p s with
  | zero => exact UInt64.le_refl _
  | succ fuel ih =>
      rcases sweep_cases cfg p s with hstop | ⟨t, x, h0, hb, hcross, hle | hlt⟩
      · rw [sweep_stop hstop]
        exact UInt64.le_refl _
      · rw [sweep_whole h0 hb hcross hle]
        refine UInt64.le_trans (ih (p.less x.order.leavesQty) _) ?_
        rw [UInt64.le_iff_toNat_le, Placement.less, UInt64.toNat_sub_of_le _ _ hle]
        exact Nat.sub_le _ _
      · rw [sweep_part h0 hb hcross hlt]
        exact UInt64.zero_le

/-- **Matching refines matching on the plain book.**  One round more than the other
side has entries is enough. -/
theorem matchLoop_refines
    (hβ : β .counterOverflow = false)
    (hexact : β .totalQtySaturation = true → e.Tallies s)
    (hfit : β .qtyOverflow = true → ¬ Overfills cfg s p)
    (h : Refines cfg e s loc free) (hc : Consistent cfg s)
    (hlen : (s.line p.side.opposite).length < n) :
    ∃ e' free', Refines cfg e' (p.sweep cfg n s).1 loc free' ∧
      (e.Tallies s → e'.Tallies (p.sweep cfg n s).1) ∧
      ∀ fuel, (s.line p.side.opposite).length < fuel →
        loopOf β p fuel e = .ok (e', (p.sweep cfg n s).2) := by
  induction n generalizing p e s free with
  | zero => omega
  | succ n ih =>
      -- no loop without a round
      have hrounds : ∀ {r : Run (Engine × UInt64 × List OutputEvent)},
          (∀ fuel, (s.line p.side.opposite).length ≤ fuel → loopOf β p (fuel + 1) e = r) →
            ∀ fuel, (s.line p.side.opposite).length < fuel → loopOf β p fuel e = r := by
        intro r hr fuel hfuel
        obtain ⟨fuel, rfl⟩ := Nat.exists_eq_succ_of_ne_zero (Nat.ne_of_gt (Nat.zero_lt_of_lt hfuel))
        exact hr fuel (Nat.le_of_lt_succ hfuel)
      rcases sweep_cases cfg p s with hstop | ⟨t, x, h0, hb, hcross, hle | hlt⟩
      · rw [sweep_stop hstop]
        exact ⟨e, free, h, id, hrounds fun fuel _ => h.loop_stop fuel hc hstop⟩
      · obtain ⟨xs, hline⟩ := line_best hb
        have hleave : (s.leave (p.side.opposite, t) x).line
            (p.less x.order.leavesQty).side.opposite = xs :=
          line_leave_best hc (State.best_mem hb) hline
        rw [hline, List.length_cons] at hlen
        obtain ⟨e1, h1, ht1, hloop⟩ := h.loop_whole hβ hexact hc h0 hb hcross hle
        obtain ⟨e', free', h', ht', heq⟩ := ih (p := p.less x.order.leavesQty)
          (fun hs => ht1 (hexact hs))
          (fun hq => mt (overfills_leave_iff hc hb hcross hle).mp (hfit hq)) h1
          (hc.leave (State.best_mem hb))
          (by rw [hleave]; omega)
        rw [hleave] at heq
        rw [sweep_whole h0 hb hcross hle]
        refine ⟨e', free', h', fun ht => ht' (ht1 ht), hrounds fun fuel hfuel => ?_⟩
        rw [hline, List.length_cons] at hfuel
        rw [hloop, heq fuel hfuel]
        rfl
      · have hadd : β.Fits x.order.filledQty p.leavesQty :=
          fun hq => Nat.lt_of_not_le (mt (overfills_part_iff hc hb hcross hlt).mpr (hfit hq))
        obtain ⟨e', h', ht', hloop⟩ := h.loop_part hexact hc h0 hb hcross hlt
        rw [sweep_part h0 hb hcross hlt]
        refine ⟨e', free, h', ht', hrounds fun fuel _ => ?_⟩
        rw [hloop, addQty_eq hadd, ok_bind]

end Matching

/-- The result of a handler is the result on the plain book, or the handler has
divided by a tick size of zero. -/
def Agrees
    (cfg : Config) (r : Run (Engine × List OutputEvent))
    (r' : State × List OutputEvent) : Prop :=
  (∃ e, r = .ok (e, r'.2) ∧ Simulates cfg e r'.1) ∨
    (cfg.tickSize = 0 ∧ r = .error .divisionByZero)

/-- The same, and the entries with a number below `n` are in the slots in which
they were. -/
def Follows
    (cfg : Config) (loc : Nat → Nat) (n : Nat) (r : Run (Engine × List OutputEvent))
    (r' : State × List OutputEvent) : Prop :=
  (∃ e loc' free, r = .ok (e, r'.2) ∧ Refines cfg e r'.1 loc' free ∧
      ∀ i, i < n → loc' i = loc i) ∨
    (cfg.tickSize = 0 ∧ r = .error .divisionByZero)

/-- The same, and if the sums of quantities fit, the totals of the levels are
what their queues hold. -/
def Tracks
    (cfg : Config) (loc : Nat → Nat) (n : Nat) (sums : Prop)
    (r : Run (Engine × List OutputEvent)) (r' : State × List OutputEvent) : Prop :=
  (∃ e loc' free, r = .ok (e, r'.2) ∧ Refines cfg e r'.1 loc' free ∧
      (∀ i, i < n → loc' i = loc i) ∧ (sums → e.Tallies r'.1)) ∨
    (cfg.tickSize = 0 ∧ r = .error .divisionByZero)

section Handlers

variable {β : Build} {cfg : Config} {e : Engine} {s : State} {sums : Prop}
variable {loc : Nat → Nat} {free : List Nat} {k : Level} {x : Entry} {p : Placement}

theorem Tracks.follows
    {n : Nat} {r : Run (Engine × List OutputEvent)} {r' : State × List OutputEvent}
    (h : Tracks cfg loc n sums r r') :
    Follows cfg loc n r r' := by
  rcases h with ⟨e, loc', free, he, hr, hloc, -⟩ | hz
  · exact Or.inl ⟨e, loc', free, he, hr, hloc⟩
  · exact Or.inr hz

theorem Follows.agrees
    {n : Nat} {r : Run (Engine × List OutputEvent)} {r' : State × List OutputEvent}
    (h : Follows cfg loc n r r') :
    Agrees cfg r r' := by
  rcases h with ⟨e, loc', free, he, hr, -⟩ | hz
  · exact Or.inl ⟨e, he, loc', free, hr⟩
  · exact Or.inr hz

theorem Tracks.of_ok
    {n : Nat} {r : State × List OutputEvent}
    (h : Refines cfg e r.1 loc free) (ht : sums → e.Tallies r.1) :
    Tracks cfg loc n sums (.ok (e, r.2)) r :=
  Or.inl ⟨e, loc, free, rfl, h, fun _ _ => rfl, ht⟩

/-- An entry with a new number takes its slot. -/
theorem Tracks.of_update
    {n i : Nat} {r : State × List OutputEvent}
    (h : Refines cfg e r.1 (Function.update loc n i) free) (ht : sums → e.Tallies r.1) :
    Tracks cfg loc n sums (.ok (e, r.2)) r :=
  Or.inl ⟨e, _, free, rfl, h, fun _ hlt => Function.update_of_ne hlt.ne _ _, ht⟩

/-- A side has no more entries than the arena has slots. -/
theorem Refines.line_lt
    (h : Refines cfg e s loc free) (hc : Consistent cfg s) (side : Side) :
    (s.line side).length < e.book.arena.orderStore.size + 1 := by
  have hle := line_length_le s side
  have hroom := hc.room
  rw [h.book.capacity]
  omega

/-- A new resting order. -/
theorem Refines.rested
    {i : Nat} {fr : List Nat} {price : UInt64} {t : Nat}
    (hβ : β .counterOverflow = false)
    (h : Refines cfg e s loc (i :: fr)) (hm : MomentOk cfg ⟨s, some p⟩)
    (htick : tickOf cfg price = some t) :
    ∃ oid book,
      e.book.addOrder β p.side t (p.order price) = (do
        let _ ← addQty β (e.book.total (p.side, t)) p.leavesQty
        .ok (.ok oid, book)) ∧
      Refines cfg
        { e with book := book
                 clients := openAccount e.clients p.clientId
                 orderIndex := Function.update e.orderIndex (p.clientId, p.clientOrderId)
                  (some { oid := oid, tick := t, side := p.side,
                          internalId := UInt64.ofNat p.num }) }
        (s.rest (p.side, t) (p.entry price)) (Function.update loc p.num i) fr ∧
      (e.Tallies s → s.held (p.side, t) + p.leavesQty.toNat < 2 ^ 64 →
        Tallies { e with book := book } (s.rest (p.side, t) (p.entry price))) := by
  obtain ⟨oid, book, hadd, hr, htallies⟩ :=
    h.added (k := (p.side, t)) (x := p.entry price) hβ (tickOf_lt htick)
      (fun k' y hy => hm.fresh rfl hy)
      (fun key l hl => by
        obtain ⟨y, hy, hnum, -⟩ := hm.consistent.sound hl
        rw [← hnum]
        exact hm.fresh rfl hy)
  refine ⟨oid, book, hadd, ?_, htallies⟩
  rw [h.clients]
  exact hr.withClients _

theorem placeLimit_tracks
    {price : UInt64} {t : Nat}
    (hβ : β .counterOverflow = false)
    (hchecked : β .qtyOverflow = true ∨ β .totalQtySaturation = true → sums)
    (h : Refines cfg e s loc free) (hm : MomentOk cfg ⟨s, some p⟩)
    (hleaves : p.leavesQty = p.quantity)
    (hlimit : p.limitPrice = some price) (htick : tickOf cfg price = some t)
    (htallies : sums → e.Tallies s) (hover : sums → ¬ Overfills cfg s p)
    (hload : sums → 0 < (p.sweep cfg (s.resting + 1) s).2.1 →
      (p.sweep cfg (s.resting + 1) s).1.resting ≠ cfg.capacity →
      s.held (p.side, t) + (p.sweep cfg (s.resting + 1) s).2.1.toNat < 2 ^ 64) :
    Tracks cfg loc p.num sums
      (LmaxEngine.placeLimit β e (UInt64.ofNat p.num) p.clientId p.clientOrderId p.symbol
        p.side price p.quantity t)
      (PriceTime.placeLimit cfg s p.num p.clientId p.clientOrderId p.symbol p.side
        price p.quantity t) := by
  obtain ⟨e', free', h', ht', hloop⟩ := matchLoop_refines hβ
    (fun hs => htallies (hchecked (Or.inr hs))) (fun hq => hover (hchecked (Or.inl hq))) h
      hm.consistent (Nat.lt_succ_of_le (line_length_le s _))
  have hloop := hloop _ (h.line_lt hm.consistent _)
  have hm' : MomentOk cfg ⟨(p.sweep cfg (s.resting + 1) s).1,
      some { p with leavesQty := (p.sweep cfg (s.resting + 1) s).2.1 }⟩ :=
    (sweep_trail _ hm).preserves (fun hs hstep => hstep.momentOk hs) hm
  have hle := sweep_le cfg p (s.resting + 1) s
  have hheld := held_sweep cfg s p t (s.resting + 1)
  rw [loopOf, hlimit, hleaves] at hloop
  unfold LmaxEngine.placeLimit PriceTime.placeLimit matchAggressor
  simp only [matchAll_eq_sweep hleaves hlimit, hloop, ok_bind]
  rw [← hheld] at hload
  generalize p.sweep cfg (s.resting + 1) s = r at h' ht' hm' hle hload ⊢
  obtain ⟨s', left, fills⟩ := r
  dsimp only at h' ht' hm' hle hload ⊢
  have ht := fun hs => ht' (htallies hs)
  have hsub : sub64 β p.quantity left = .ok (p.quantity - left) :=
    probe_pass (UInt64.not_lt.mpr (hleaves ▸ hle))
  split_ifs with hpos hfull
  · obtain rfl := h'.free_eq_nil_iff.mpr hfull
    simp only [hsub, ok_bind, h'.book.addOrder_full (tickOf_lt htick)]
    exact Tracks.of_ok (r := (_, _)) h' ht
  · obtain ⟨i, fr, rfl⟩ := List.exists_cons_of_ne_nil (mt h'.free_eq_nil_iff.mp hfull)
    have hfit : β.Fits (e'.book.total (p.side, t)) left := by
      intro hq
      rw [ht (hchecked (Or.inl hq)) (p.side, t) (tickOf_lt htick)]
      exact hload (hchecked (Or.inl hq)) hpos hfull
    obtain ⟨oid, book, hadd, hr, hrest⟩ := h'.rested hβ hm' htick
    rw [addQty_eq hfit, ok_bind] at hadd
    simp only [Placement.order] at hadd
    simp only [hsub, ok_bind, hadd, addCounter32, probe_off hβ]
    exact Tracks.of_update (r := (_, _)) hr fun hs => hrest (ht hs) (hload hs hpos hfull)
  · exact Tracks.of_ok (r := (_, _)) h' ht

theorem placeMarket_tracks
    (hβ : β .counterOverflow = false)
    (hchecked : β .qtyOverflow = true ∨ β .totalQtySaturation = true → sums)
    (h : Refines cfg e s loc free) (hm : MomentOk cfg ⟨s, some p⟩)
    (hleaves : p.leavesQty = p.quantity) (hlimit : p.limitPrice = none)
    (htallies : sums → e.Tallies s) (hover : sums → ¬ Overfills cfg s p) :
    Tracks cfg loc p.num sums
      (LmaxEngine.placeMarket β e (UInt64.ofNat p.num) p.clientId p.symbol p.side p.quantity)
      (PriceTime.placeMarket cfg s p.num p.clientId p.symbol p.side p.quantity) := by
  obtain ⟨e', free', h', ht', hloop⟩ := matchLoop_refines hβ
    (fun hs => htallies (hchecked (Or.inr hs))) (fun hq => hover (hchecked (Or.inl hq))) h
      hm.consistent (Nat.lt_succ_of_le (line_length_le s _))
  have hloop := hloop _ (h.line_lt hm.consistent _)
  rw [loopOf, hlimit, hleaves] at hloop
  unfold LmaxEngine.placeMarket PriceTime.placeMarket matchAggressor
  simp only [matchAll_eq_sweep hleaves hlimit, hloop, ok_bind]
  generalize p.sweep cfg (s.resting + 1) s = r at h' ht' ⊢
  obtain ⟨s', left, fills⟩ := r
  dsimp only at h' ht' ⊢
  split_ifs with hpos
  · exact Tracks.of_ok (r := (_, _)) h' fun hs => ht' (htallies hs)
  · exact Tracks.of_ok (r := (_, _)) h' fun hs => ht' (htallies hs)

/-- The account of the client is there and a number is handed out. -/
theorem Refines.numbered
    (h : Refines cfg e s loc free) (clientId : UInt64) :
    Refines cfg
      { e with clients := Function.update s.clients clientId
                (some (accountOf s.clients clientId))
               nextOrderId := e.nextOrderId + 1 }
      (s.account clientId).number loc free :=
  { h with
    clients := rfl
    nextOrderId := by
      dsimp only
      rw [h.nextOrderId, State.number, UInt64.ofNat_add]
      rfl }

theorem place_tracks
    (hβ : β .counterOverflow = false)
    (hchecked : β .qtyOverflow = true ∨ β .totalQtySaturation = true → sums)
    (h : Refines cfg e s loc free) (hc : Consistent cfg s)
    (clientId clientOrderId : UInt64) (symbol : Symbol) (side : Side)
    (orderType : OrderType) (price : Option UInt64) (quantity : UInt64) (tif : TimeInForce)
    (htallies : sums → e.Tallies s)
    (hno : sums → ¬ Overflows cfg s
      (.place clientId clientOrderId symbol side orderType price quantity tif)) :
    Tracks cfg loc s.nextNum sums
      (processPlace β e clientId clientOrderId symbol side orderType price quantity)
      (place cfg s clientId clientOrderId symbol side orderType price quantity) := by
  unfold processPlace place
  rw [h.clients]
  have haccount : Refines cfg
      { e with clients := Function.update s.clients clientId
                (some (accountOf s.clients clientId)) }
      (s.account clientId) loc free :=
    h.withClients _
  split_ifs with hqty hlimit
  · exact Tracks.of_ok (r := (_, _)) h htallies
  · simp only [if_pos hlimit]
    exact Tracks.of_ok (r := (_, _)) haccount htallies
  · have hnumber := h.numbered clientId
    have hm := started_ok hc hqty hlimit clientOrderId symbol side
    simp only [if_neg hlimit, addCounter, probe_off hβ, ok_bind]
    cases orderType with
    | market =>
        have hover : sums → ¬ Overfills cfg (s.account clientId).number
            (s.placement clientId clientOrderId symbol side none quantity) :=
          fun hs ho => hno hs ⟨⟨hqty, not_limit_iff.mp hlimit, by simp⟩,
            Or.inl ((overfills_number s clientId _).mp ho)⟩
        have := placeMarket_tracks hβ hchecked hnumber (hm none) rfl rfl htallies hover
        dsimp only [State.placement] at this
        rw [← h.nextOrderId] at this
        exact this
    | limit =>
        cases price with
        | none => exact Tracks.of_ok (r := (_, _)) hnumber htallies
        | some price =>
            dsimp only
            rcases h.book.priceToTick price with hp | ⟨hz, hp⟩
            · rw [hp, ok_bind]
              cases htick : tickOf cfg price with
              | none => exact Tracks.of_ok (r := (_, _)) hnumber htallies
              | some t =>
                  have haccepted : Accepted cfg s clientId .limit (some price) quantity :=
                    ⟨hqty, not_limit_iff.mp hlimit, fun _ => by rw [Option.bind_some, htick]; rfl⟩
                  have hover : sums → ¬ Overfills cfg (s.account clientId).number
                      (s.placement clientId clientOrderId symbol side (some price) quantity) :=
                    fun hs ho => hno hs ⟨haccepted,
                      Or.inl ((overfills_number s clientId _).mp ho)⟩
                  have hload : sums → ¬ Overloads cfg (s.account clientId).number clientId side
                      price quantity :=
                    fun hs ho => hno hs ⟨haccepted,
                      Or.inr ⟨price, rfl, rfl, overloads_number.mp ho⟩⟩
                  have := placeLimit_tracks hβ hchecked hnumber (hm (some price)) rfl rfl htick
                    htallies hover
                    fun hs hpos hroom => Nat.lt_of_not_le fun hload' => hload hs
                      ((overloads_iff (hm (some price)) rfl rfl htick hqty).mpr
                        ⟨hpos, hroom, hload'⟩)
                  dsimp only [State.placement] at this
                  rw [← h.nextOrderId] at this
                  exact this
            · rw [hp, error_bind]
              exact Or.inr ⟨hz, rfl⟩

/-- What the index, the arena and the slot of an id say about a key that the
plain index has. -/
theorem Refines.lookup
    {key : Key} {l : Locator}
    (h : Refines cfg e s loc free) (hc : Consistent cfg s) (hl : s.index key = some l) :
    ∃ x oid slot prev next,
      s.find l = some x ∧ x ∈ s.queue l.level ∧ x.order.key = key ∧
      x.num = l.num ∧
      e.orderIndex key =
        some { oid := oid, tick := l.tick, side := l.side,
               internalId := UInt64.ofNat l.num } ∧
      e.book.arena.validate oid = .ok (some (loc x.num)) ∧
      e.book.arena.orderStore[loc x.num]? = some slot ∧
      slot.state = .occupied x.order prev next := by
  obtain ⟨x, hfind, hx, hkey, hloc, -⟩ := hc.find hl
  have hnum : x.num = l.num := congrArg Locator.num hloc
  obtain ⟨generation, prev, next, hslot, hgen⟩ := h.slot hx
  refine ⟨x, { index := UInt32.ofNat (loc x.num), generation := generation }, _, prev, next,
    hfind, hx, hkey, hnum, ?_, ?_, hslot, rfl⟩
  · rw [h.index, hl, Option.bind_some, locatorOf, ← hnum, hgen]
    rfl
  · exact h.book.validate (mem_image loc hx) hgen

theorem Refines.lookup_none
    {key : Key}
    (h : Refines cfg e s loc free) (hl : s.index key = none) :
    e.orderIndex key = none := by
  rw [h.index, hl]
  rfl

theorem cancel_tracks
    (hβ : β .counterOverflow = false)
    (hchecked : β .qtyOverflow = true ∨ β .totalQtySaturation = true → sums)
    (h : Refines cfg e s loc free) (hc : Consistent cfg s)
    (clientId clientOrderId : UInt64)
    (htallies : sums → e.Tallies s) :
    Tracks cfg loc s.nextNum sums (processCancel β e clientId clientOrderId)
      (cancel s clientId clientOrderId) := by
  unfold processCancel cancel
  cases hl : s.index (clientId, clientOrderId) with
  | none =>
      simp only [h.lookup_none hl]
      exact Tracks.of_ok (r := (_, _)) h htallies
  | some l =>
      obtain ⟨x, oid, slot, prev, next, hfind, hx, hkey, hnum, hidx, hvalid, hslot, hstate⟩ :=
        h.lookup hc hl
      obtain ⟨book, clients, hremove, hclose, hr, hleft⟩ :=
        h.left hβ (fun hs => htallies (hchecked (Or.inr hs))) hc hx
      have hclient : x.order.clientId = clientId := congrArg Prod.fst hkey
      rw [hkey] at hr
      rw [hclient] at hclose
      simp only [hidx, hvalid, ok_bind, ix_eq hslot, hstate, hfind, hclient, ne_eq,
        not_true_eq_false, if_false]
      simp only [Locator.level] at hremove
      simp only [hremove, hclose, ok_bind]
      exact Tracks.of_ok (r := (_, _)) hr fun hs => hleft (htallies hs)

theorem modifyInPlace_tracks
    {l : Locator} {oid : OrderId} {slot : Slot} {prev next : Option Nat}
    {clientId target : UInt64} {price : UInt64}
    (hchecked : β .qtyOverflow = true ∨ β .totalQtySaturation = true → sums)
    (h : Refines cfg e s loc free) (hx : x ∈ s.queue l.level)
    (hslot : e.book.arena.orderStore[loc x.num]? = some slot)
    (hstate : slot.state = .occupied x.order prev next)
    (hle : target ≤ x.order.leavesQty)
    (htallies : sums → e.Tallies s)
    (hfits : sums →
      x.order.filledQty.toNat + (x.order.leavesQty.toNat - target.toNat) < 2 ^ 64) :
    Tracks cfg loc s.nextNum sums
      (modifyInPlace β e
        { oid := oid, tick := l.tick, side := l.side, internalId := UInt64.ofNat l.num }
        clientId (loc x.num) slot x.order prev next price target)
      (s.change l.level x (reducedTo target),
        [.orderModified (UInt64.ofNat l.num) clientId price target]) := by
  have hdiff := UInt64.toNat_sub_of_le _ _ hle
  have hpart : x.order.leavesQty - target ≤ x.order.leavesQty := by
    rw [UInt64.le_iff_toNat_le, hdiff]
    exact Nat.sub_le _ _
  obtain ⟨slot', prev', next', arena, book, hslot', hstate', hput, hreduce, hr, hreduced⟩ :=
    h.rewritten (fun hs => htallies (hchecked (Or.inr hs))) hx (reducedTo target) hpart
  obtain rfl : slot = slot' := Option.some.inj (hslot.symm.trans hslot')
  obtain ⟨-, rfl, rfl⟩ := SlotState.occupied.inj (hstate.symm.trans hstate')
  have hsub : sub64 β x.order.leavesQty target = .ok (x.order.leavesQty - target) :=
    probe_pass (UInt64.not_lt.mpr hle)
  have hfit : β.Fits x.order.filledQty (x.order.leavesQty - target) := by
    intro hq
    rw [hdiff]
    exact hfits (hchecked (Or.inl hq))
  unfold reducedTo at hput
  simp only [Locator.level] at hreduce
  unfold modifyInPlace
  simp only [hsub, ok_bind, addQty_eq hfit, hput, hreduce]
  refine Tracks.of_ok (r := (_, _)) hr fun hs => hreduced (htallies hs) ?_
  rw [UInt64.le_iff_toNat_le] at hle
  rw [hdiff]
  change target.toNat + _ = x.order.leavesQty.toNat
  omega

/-- An entry that has been removed comes back with another order, under its old
number and key. -/
theorem Refines.moved
    {book : OrderBook}
    (hβ : β .counterOverflow = false)
    (hc : Consistent cfg s) (hx : x ∈ s.queue k)
    (hr : Refines cfg
      { e with book := book, orderIndex := Function.update e.orderIndex x.order.key none }
      { s with queue := discard Entry.num s.queue k x.num,
               index := Function.update s.index x.order.key none }
      loc (loc x.num :: free))
    (k' : Level) (ht : k'.2 < numTicks) (o : Order) (hkey : o.key = x.order.key) :
    ∃ oid book',
      book.addOrder β k'.1 k'.2 o = (do
        let _ ← addQty β (book.total k') o.leavesQty
        .ok (.ok oid, book')) ∧
      Refines cfg
        { e with book := book'
                 orderIndex := Function.update
                   (Function.update e.orderIndex x.order.key none) x.order.key
                   (some { oid := oid, tick := k'.2, side := k'.1,
                           internalId := UInt64.ofNat x.num }) }
        (s.move k x k' o) (Function.update loc x.num (loc x.num)) free ∧
      (Tallies { e with book := book } (s.leave k x) →
        (s.leave k x).held k' + o.leavesQty.toNat < 2 ^ 64 →
        Tallies { e with book := book' } (s.move k x k' o)) := by
  have hfresh : ∀ k'' y, y ∈ discard Entry.num s.queue k x.num k'' → y.num ≠ x.num :=
    fun k'' y hy => ((hc.distinct.mem_discard hx).mp hy).2
  have hindex : ∀ key l, Function.update s.index x.order.key none key = some l →
      l.num ≠ x.num := by
    intro key l hl heq
    by_cases hk : key = x.order.key
    · simp [hk] at hl
    · rw [Function.update_of_ne hk] at hl
      obtain ⟨y, hy, hynum, hykey⟩ := hc.sound hl
      obtain rfl := hc.distinct.eq hy hx (hynum.trans heq)
      exact hk hykey.symm
  obtain ⟨oid, book', hadd, hr', htallies⟩ :=
    hr.added (k := k') (x := { num := x.num, order := o }) hβ ht hfresh hindex
  refine ⟨oid, book', hadd, ?_, htallies⟩
  unfold State.move
  rw [← Function.update_idem (a := x.order.key) none _ s.index]
  rw [hkey] at hr'
  exact hr'

/-- The order that a modification puts behind those of its new level. -/
theorem requeuedAs_eq
    {l : Locator} {clientId clientOrderId price target : UInt64}
    (hc : Consistent cfg s) (hx : x ∈ s.queue k)
    (hkey : x.order.key = (clientId, clientOrderId)) (hnum : x.num = l.num) :
    requeuedAs price target x.order =
      { orderId := UInt64.ofNat l.num
        clientId := clientId
        clientOrderId := clientOrderId
        symbol := x.order.symbol
        side := x.order.side
        orderType := x.order.orderType
        timeInForce := .gtc
        price := price
        quantity := x.order.quantity
        leavesQty := target
        filledQty := x.order.filledQty } := by
  rw [requeuedAs, (hc.entry hx).id, hnum,
    show x.order.clientId = clientId from congrArg Prod.fst hkey,
    show x.order.clientOrderId = clientOrderId from congrArg Prod.snd hkey]

theorem modifyRequeue_tracks
    {l : Locator} {oid : OrderId} {clientId clientOrderId price target : UInt64}
    (hβ : β .counterOverflow = false)
    (hchecked : β .qtyOverflow = true ∨ β .totalQtySaturation = true → sums)
    (h : Refines cfg e s loc free) (hc : Consistent cfg s) (hx : x ∈ s.queue l.level)
    (hkey : x.order.key = (clientId, clientOrderId)) (hnum : x.num = l.num)
    (htallies : sums → e.Tallies s)
    (hload : sums → ∀ t, tickOf cfg price = some t →
      (s.leave l.level x).held (x.order.side, t) + target.toNat < 2 ^ 64) :
    Tracks cfg loc s.nextNum sums
      (LmaxEngine.modifyRequeue β e
        { oid := oid, tick := l.tick, side := l.side, internalId := UInt64.ofNat l.num }
        clientId clientOrderId (loc x.num) x.order price target)
      (PriceTime.modifyRequeue cfg s l clientId x price target) := by
  obtain ⟨book, hremove, hr, hgone⟩ :=
    h.removed hβ (fun hs => htallies (hchecked (Or.inr hs))) hc hx
  have hclient : x.order.clientId = clientId := congrArg Prod.fst hkey
  have hclose : closeOrder β e.clients clientId = .ok (closeAccount s.clients clientId) := by
    rw [h.clients, ← hclient]
    exact closeOrder_eq (hc.openOrders_pos hx)
  have hleft : Refines cfg
      { e with book := book
               orderIndex := Function.update e.orderIndex (clientId, clientOrderId) none
               clients := closeAccount s.clients clientId }
      (s.leave l.level x) loc (loc x.num :: free) := by
    rw [State.leave, hclient, ← hkey]
    exact hr.withClients _
  simp only [Locator.level] at hremove
  unfold LmaxEngine.modifyRequeue PriceTime.modifyRequeue
  simp only [hremove, ok_bind]
  rcases hr.book.priceToTick price with hp | ⟨hz, hp⟩
  · rw [hp, ok_bind]
    cases htick : tickOf cfg price with
    | none =>
        simp only [hclose, ok_bind]
        exact Tracks.of_ok (r := (_, _)) hleft fun hs => hgone (htallies hs)
    | some t =>
        have hfit : β.Fits (book.total (x.order.side, t))
            (requeuedAs price target x.order).leavesQty := by
          intro hq
          have hs := hchecked (Or.inl hq)
          have htotal := hgone (htallies hs) (x.order.side, t) (tickOf_lt htick)
          dsimp only at htotal
          rw [htotal]
          exact hload hs t htick
        obtain ⟨oid', book', hadd, hmove, hmoved⟩ :=
          Refines.moved hβ hc hx hr (x.order.side, t) (tickOf_lt htick)
            (requeuedAs price target x.order) rfl
        rw [Function.update_eq_self, hkey, hnum] at hmove
        rw [addQty_eq hfit, ok_bind, requeuedAs_eq hc hx hkey hnum] at hadd
        simp only [hadd, ok_bind, if_neg (resting_leave_ne_capacity hc hx)]
        exact Tracks.of_ok (r := (_, _)) hmove
          fun hs => hmoved (hgone (htallies hs)) (hload hs t htick)
  · rw [hp, error_bind]
    exact Or.inr ⟨hz, rfl⟩

theorem modify_tracks
    (hβ : β .counterOverflow = false)
    (hchecked : β .qtyOverflow = true ∨ β .totalQtySaturation = true → sums)
    (h : Refines cfg e s loc free) (hc : Consistent cfg s)
    (clientId clientOrderId : UInt64) (newPrice newQty : Option UInt64)
    (htallies : sums → e.Tallies s)
    (hno : sums → ¬ Overflows cfg s (.modify clientId clientOrderId newPrice newQty)) :
    Tracks cfg loc s.nextNum sums (processModify β e clientId clientOrderId newPrice newQty)
      (PriceTime.modify cfg s clientId clientOrderId newPrice newQty) := by
  unfold processModify PriceTime.modify
  cases hl : s.index (clientId, clientOrderId) with
  | none =>
      simp only [h.lookup_none hl]
      exact Tracks.of_ok (r := (_, _)) h htallies
  | some l =>
      obtain ⟨x, oid, slot, prev, next, hfind, hx, hkey, hnum, hidx, hvalid, hslot, hstate⟩ :=
        h.lookup hc hl
      have hclient : x.order.clientId = clientId := congrArg Prod.fst hkey
      have hindex : s.index (clientId, clientOrderId) = some (x.locator l.level) := by
        rw [hl, Entry.locator, hnum]
        rfl
      simp only [hidx, hvalid, ok_bind, ix_eq hslot, hstate, hfind, hclient, ne_eq,
        not_true_eq_false, if_false]
      split_ifs with hzero hkeep
      · exact Tracks.of_ok (r := (_, _)) h htallies
      · refine modifyInPlace_tracks hchecked h hx hslot hstate hkeep.2 htallies fun hs => ?_
        refine Nat.lt_of_not_le fun hover => hno hs ?_
        exact ⟨_, x, hx, hindex, hzero, Or.inl ⟨hkeep.1, hkeep.2, hover⟩⟩
      · refine modifyRequeue_tracks hβ hchecked h hc hx hkey hnum htallies fun hs t ht => ?_
        refine Nat.lt_of_not_le fun hover => hno hs ?_
        exact ⟨_, x, hx, hindex, hzero, Or.inr ⟨hkeep, t, ht, hover⟩⟩

/-- **A command on the engine is the command on the plain book,** and leaves the
entries in their slots.  The build may check additions on quantities if the
totals of the levels are right and the sums of the command fit. -/
theorem handle_tracks
    (hβ : β .counterOverflow = false)
    (hchecked : β .qtyOverflow = true ∨ β .totalQtySaturation = true → sums)
    (h : Refines cfg e s loc free) (hc : Consistent cfg s) (c : Command)
    (htallies : sums → e.Tallies s) (hno : sums → ¬ Overflows cfg s c) :
    Tracks cfg loc s.nextNum sums (e.handle β c) (PriceTime.handle cfg s c) := by
  cases c with
  | place clientId clientOrderId symbol side orderType price quantity tif =>
      exact place_tracks hβ hchecked h hc clientId clientOrderId symbol side orderType price
        quantity tif htallies hno
  | cancel clientId clientOrderId =>
      exact cancel_tracks hβ hchecked h hc clientId clientOrderId htallies
  | modify clientId clientOrderId newPrice newQty =>
      exact modify_tracks hβ hchecked h hc clientId clientOrderId newPrice newQty htallies hno

/-- Where additions on quantities wrap nothing is asked of the sums. -/
theorem handle_follows
    (hβ : β.Wrapping)
    (h : Refines cfg e s loc free) (hc : Consistent cfg s) (c : Command) :
    Follows cfg loc s.nextNum (e.handle β c) (PriceTime.handle cfg s c) := by
  have hchecked : β .qtyOverflow = true ∨ β .totalQtySaturation = true → False := by
    rw [hβ.qty, hβ.total, or_self]
    exact Bool.false_ne_true
  exact (handle_tracks hβ.counter hchecked h hc c False.elim False.elim).follows

theorem handle_agrees
    (hβ : β.Wrapping)
    (h : Simulates cfg e s) (hc : Consistent cfg s) (c : Command) :
    Agrees cfg (e.handle β c) (PriceTime.handle cfg s c) := by
  obtain ⟨loc, free, h⟩ := h
  exact (handle_follows hβ h hc c).agrees

theorem simulates_new
    (hpos : 1 ≤ cfg.capacity) (hlt : cfg.capacity < 2 ^ 32) :
    Simulates cfg (Engine.new cfg) State.new := by
  exact ⟨id, _, OrderBook.represents_new hpos hlt, rfl, fun _ => rfl, rfl⟩

/-- **A run of the engine is the run of the plain book.** -/
theorem run_agrees
    (hβ : β.Wrapping)
    (h : Simulates cfg e s) (hc : Consistent cfg s) (cs : List Command) :
    (∃ e', e.run β cs = .ok (e', (PriceTime.run cfg s cs).2) ∧
        Simulates cfg e' (PriceTime.run cfg s cs).1) ∨
      (cfg.tickSize = 0 ∧ e.run β cs = .error .divisionByZero) := by
  induction cs generalizing e s with
  | nil => exact Or.inl ⟨e, rfl, h⟩
  | cons c cs ih =>
      unfold Engine.run PriceTime.run
      rcases handle_agrees hβ h hc c with ⟨e1, h1, hs1⟩ | ⟨hz, h1⟩
      · simp only [h1, ok_bind]
        rcases ih hs1 (handle_consistent hc c) with ⟨e', h', hs'⟩ | ⟨hz, h'⟩
        · simp only [h', ok_bind]
          exact Or.inl ⟨e', rfl, hs'⟩
        · simp only [h', error_bind]
          exact Or.inr ⟨hz, trivial⟩
      · simp only [h1, error_bind]
        exact Or.inr ⟨hz, trivial⟩

/-- A run from related states ends in related states, with the same events. -/
theorem Simulates.of_run
    {e' : Engine} {cs : List Command} {evs : List (List OutputEvent)}
    (hβ : β.Wrapping)
    (h : Simulates cfg e s) (hc : Consistent cfg s) (hrun : e.run β cs = .ok (e', evs)) :
    Simulates cfg e' (PriceTime.run cfg s cs).1 ∧ evs = (PriceTime.run cfg s cs).2 := by
  rcases run_agrees hβ h hc cs with ⟨e₁, h₁, hs₁⟩ | ⟨-, h₁⟩
  · rw [hrun, Except.ok.injEq, Prod.mk.injEq] at h₁
    obtain ⟨rfl, rfl⟩ := h₁
    exact ⟨hs₁, rfl⟩
  · rw [hrun] at h₁
    exact absurd h₁ (by simp)

/-- Every state that the engine reaches from the empty book refines the state
that the plain book reaches, with the same events. -/
theorem simulates_of_run
    {cs : List Command} {evs : List (List OutputEvent)}
    (hβ : β.Wrapping)
    (hpos : 1 ≤ cfg.capacity) (hlt : cfg.capacity < 2 ^ 32)
    (hrun : (Engine.new cfg).run β cs = .ok (e, evs)) :
    Simulates cfg e (PriceTime.run cfg State.new cs).1 ∧
      evs = (PriceTime.run cfg State.new cs).2 := by
  rcases run_agrees hβ (simulates_new hpos hlt) (consistent_new cfg) cs with
    ⟨e', h', hs'⟩ | ⟨-, h'⟩
  · rw [hrun, Except.ok.injEq, Prod.mk.injEq] at h'
    obtain ⟨rfl, rfl⟩ := h'
    exact ⟨hs', rfl⟩
  · rw [hrun] at h'
    exact absurd h' (by simp)

end Handlers

end Engine
end LmaxEngine
