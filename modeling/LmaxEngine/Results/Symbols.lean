import LmaxEngine.Results.Faults
import LmaxEngine.Results.Frame
import LmaxEngine.Results.Lines
import LmaxEngine.Spec.Ledger
import LmaxEngine.Spec.Symbols

/-!
# Symbols in a run

One engine is the book of one symbol, and it compares no symbols: the symbol of a
fill is that of its aggressor.  The resting order was placed with the same symbol
as long as no placement gets to an order with another one.
-/

namespace LmaxEngine

open Checked Queues Arena PriceTime

/-- The symbol of a placement. -/
def Command.symbol? : Command → Option Symbol
  | .place _ _ symbol _ _ _ _ _ => some symbol
  | _ => none

/-- The command is a placement with the symbol, and takes the order id. -/
def Engine.Assigns (e : Engine) (c : Command) (id : UInt64) (symbol : Symbol) : Prop :=
  c.symbol? = some symbol ∧ e.nextOrderId = id ∧
    ∃ e' es, e.handle Build.release c = .ok (e', es) ∧ e'.nextOrderId ≠ id

/-- Among the commands of a run is the placement that takes the order id, and it
has the symbol. -/
def PlacedWith (cfg : Config) (cs : List Command) (id : UInt64) (symbol : Symbol) : Prop :=
  ∃ pre c post e evs, cs = pre ++ c :: post ∧
    (Engine.new cfg).run Build.release pre = .ok (e, evs) ∧ e.Assigns c id symbol

/-- An accepted placement of which something is left for an order with another
symbol. -/
def Engine.MixesSymbols (cfg : Config) (e : Engine) : Command → Prop
  | .place clientId _ symbol side orderType price quantity _ =>
      e.Accepts clientId orderType price quantity ∧
        ∃ i o, e.book.arena.orderAt i = some o ∧ o.symbol ≠ symbol ∧
          0 < e.offer cfg side (limitOf orderType price) quantity i
  | _ => False

/-- A fill, and the placements of its orders. -/
def OutputEvent.TradesWithin (cfg : Config) (cs : List Command) : OutputEvent → Prop
  | .fill aggressorOrderId restingOrderId _ _ symbol _ _ _ =>
      PlacedWith cfg cs aggressorOrderId symbol ∧ PlacedWith cfg cs restingOrderId symbol
  | _ => True

/-- A fill, and the placement of its aggressor. -/
def OutputEvent.NamesSymbol (cfg : Config) (cs : List Command) : OutputEvent → Prop
  | .fill aggressorOrderId _ _ _ symbol _ _ _ => PlacedWith cfg cs aggressorOrderId symbol
  | _ => True

section Placements

variable {cfg : Config} {cs : List Command} {id : UInt64} {symbol symbol' : Symbol}

/-- What was placed stays placed. -/
theorem PlacedWith.append
    (h : PlacedWith cfg cs id symbol) (ds : List Command) :
    PlacedWith cfg (cs ++ ds) id symbol := by
  obtain ⟨pre, c, post, e, evs, rfl, hrun, hassigns⟩ := h
  exact ⟨pre, c, post ++ ds, e, evs, by simp, hrun, hassigns⟩

theorem placedWith_nil :
    ¬ PlacedWith cfg [] id symbol := by
  rintro ⟨pre, c, post, e, evs, hcs, -⟩
  exact absurd hcs (by simp)

/-- What is placed with one more command. -/
theorem PlacedWith.snoc
    {c : Command} {e : Engine} {evs : List (List OutputEvent)}
    (h : PlacedWith cfg (cs ++ [c]) id symbol)
    (hrun : (Engine.new cfg).run Build.release cs = .ok (e, evs)) :
    PlacedWith cfg cs id symbol ∨ e.Assigns c id symbol := by
  obtain ⟨pre, d, post, e', evs', hcs, hrun', hassigns⟩ := h
  rcases Transition.split_append_singleton hcs with ⟨-, rfl, rfl⟩ | ⟨post', -, rfl⟩
  · rw [hrun, Except.ok.injEq, Prod.mk.injEq] at hrun'
    obtain ⟨rfl, -⟩ := hrun'
    exact Or.inr hassigns
  · exact Or.inl ⟨pre, d, post', e', evs', rfl, hrun', hassigns⟩

theorem OutputEvent.NamesSymbol.append
    {ev : OutputEvent}
    (h : ev.NamesSymbol cfg cs) (ds : List Command) :
    ev.NamesSymbol cfg (cs ++ ds) := by
  cases ev with
  | fill => exact PlacedWith.append h ds
  | _ => trivial

theorem OutputEvent.TradesWithin.append
    {ev : OutputEvent}
    (h : ev.TradesWithin cfg cs) (ds : List Command) :
    ev.TradesWithin cfg (cs ++ ds) := by
  cases ev with
  | fill => exact ⟨PlacedWith.append h.1 ds, PlacedWith.append h.2 ds⟩
  | _ => trivial

end Placements

section Steps

variable {cfg : Config} {e e' : Engine} {s : State} {loc : Nat → Nat} {free : List Nat}
variable {cs : List Command} {evs : List (List OutputEvent)} {c : Command}
variable {es : List OutputEvent}

/-- An accepted placement takes the next order id. -/
theorem Engine.Refines.assigns
    {clientId clientOrderId quantity : UInt64} {symbol : Symbol} {side : Side}
    {orderType : OrderType} {price : Option UInt64} {tif : TimeInForce}
    (h : Engine.Refines cfg e s loc free) (hc : Consistent cfg s)
    (he : e.handle Build.release
      (.place clientId clientOrderId symbol side orderType price quantity tif) = .ok (e', es))
    (haccepted : Accepted cfg s clientId orderType price quantity) :
    e.Assigns (.place clientId clientOrderId symbol side orderType price quantity tif)
      (UInt64.ofNat s.nextNum) symbol := by
  refine ⟨rfl, h.nextOrderId, e', es, he, ?_⟩
  obtain ⟨-, loc', free', h', -⟩ := h.handle_loc hc he
  rw [h'.nextOrderId, PriceTime.handle, haccepted.nextNum]
  intro heq
  have hnat := congrArg UInt64.toNat heq
  rw [UInt64.toNat_ofNat', UInt64.toNat_ofNat'] at hnat
  omega

/-- In every state of a run the resting orders are those placed with their
symbols. -/
theorem run_placedWith
    (hpos : 1 ≤ cfg.capacity) (hlt : cfg.capacity < 2 ^ 32)
    (hrun : (Engine.new cfg).run Build.release cs = .ok (e, evs)) :
    ∀ i o, e.book.arena.orderAt i = some o → PlacedWith cfg cs o.orderId o.symbol := by
  suffices hqueue : ∀ k x, x ∈ (run cfg State.new cs).1.queue k →
      PlacedWith cfg cs x.order.orderId x.order.symbol by
    intro i o ho
    obtain ⟨⟨loc, free, h⟩, -⟩ := Engine.simulates_of_run Build.wrapping_release hpos hlt hrun
    obtain ⟨k, x, hx, -, rfl⟩ := h.entry ho
    exact hqueue k x hx
  refine Engine.run_induction (P := fun cs _ s _ => ∀ k x, x ∈ s.queue k →
    PlacedWith cfg cs x.order.orderId x.order.symbol) hpos hlt hrun ?_ ?_
  · exact fun k x hx => absurd hx List.not_mem_nil
  · rintro cs e s evs c e' es hrun ⟨loc, free, h⟩ hc he ih k y hy
    rcases handle_symbols hc c hy with ⟨k', x, hx, hid, hsymbol⟩ |
      ⟨clientId, clientOrderId, side, orderType, price, quantity, tif, rfl, haccepted, hid⟩
    · rw [hid, hsymbol]
      exact (ih k' x hx).append [c]
    · rw [hid]
      exact ⟨cs, _, [], e, evs, rfl, hrun, h.assigns hc he haccepted⟩

/-- **A fill of one command:** its aggressor is the placement handled, and its
resting order one that the placement gets to. -/
theorem Engine.Refines.fill_symbols
    {ev : OutputEvent}
    (h : Engine.Refines cfg e s loc free) (hc : Consistent cfg s)
    (hrun : (Engine.new cfg).run Build.release cs = .ok (e, evs))
    (he : e.handle Build.release c = .ok (e', es)) (hev : ev ∈ es)
    (hplaced : ∀ i o, e.book.arena.orderAt i = some o → PlacedWith cfg cs o.orderId o.symbol) :
    ev.NamesSymbol cfg (cs ++ [c]) ∧
      (¬ e.MixesSymbols cfg c → ev.TradesWithin cfg (cs ++ [c])) := by
  cases hfill : ev.resting? with
  | none =>
      cases ev with
      | fill => exact absurd hfill (by simp [OutputEvent.resting?])
      | _ => exact ⟨trivial, fun _ => trivial⟩
  | some restingOrderId =>
      obtain ⟨hes, -⟩ := h.handle_loc hc he
      have hev' := hev
      rw [hes] at hev'
      obtain ⟨clientId, clientOrderId, symbol, side, orderType, price, quantity, tif, k, x, qty,
        rfl, haccepted, hx, hoffer, rfl⟩ := handle_fill hc c hev' (by simp [hfill])
      have haggressor : PlacedWith cfg
          (cs ++ [.place clientId clientOrderId symbol side orderType price quantity tif])
          (UInt64.ofNat s.nextNum) symbol :=
        ⟨cs, _, [], e, evs, rfl, hrun, h.assigns hc he haccepted⟩
      refine ⟨haggressor, fun hno => ⟨haggressor, ?_⟩⟩
      have hsymbol : x.order.symbol = symbol := by
        by_contra hne
        refine hno ⟨h.accepts_iff.mpr haccepted, loc x.num, x.order, h.orderAt hx, hne, ?_⟩
        rw [← h.offer_eq hc hx] at hoffer
        exact hoffer
      have hresting := (hplaced _ _ (h.orderAt hx)).append
        [.place clientId clientOrderId symbol side orderType price quantity tif]
      rwa [hsymbol] at hresting

/-- A placement that takes an id takes the next one. -/
theorem Engine.Refines.nextNum_of_assigns
    {id : UInt64} {symbol : Symbol}
    (h : Engine.Refines cfg e s loc free) (hc : Consistent cfg s)
    (hassigns : e.Assigns c id symbol) :
    id = UInt64.ofNat s.nextNum ∧ s.nextNum < (PriceTime.handle cfg s c).1.nextNum := by
  obtain ⟨-, rfl, e', es, he, hne⟩ := hassigns
  refine ⟨h.nextOrderId, lt_of_le_of_ne (nextNum_le_handle hc c) fun heq => hne ?_⟩
  obtain ⟨-, loc', free', h', -⟩ := h.handle_loc hc he
  rw [h'.nextOrderId, h.nextOrderId, heq]

/-- The ids that the placements of a run take are below the next one, and one id
is taken with one symbol. -/
theorem run_ids
    (hpos : 1 ≤ cfg.capacity) (hlt : cfg.capacity < 2 ^ 32)
    (hrun : (Engine.new cfg).run Build.release cs = .ok (e, evs)) :
    (run cfg State.new cs).1.nextNum ≤ 2 ^ 64 →
      (∀ id symbol, PlacedWith cfg cs id symbol →
        id.toNat < (run cfg State.new cs).1.nextNum) ∧
      ∀ id symbol symbol', PlacedWith cfg cs id symbol → PlacedWith cfg cs id symbol' →
        symbol = symbol' := by
  refine Engine.run_induction (P := fun cs _ s _ => s.nextNum ≤ 2 ^ 64 →
    (∀ id symbol, PlacedWith cfg cs id symbol → id.toNat < s.nextNum) ∧
      ∀ id symbol symbol', PlacedWith cfg cs id symbol → PlacedWith cfg cs id symbol' →
        symbol = symbol') hpos hlt hrun ?_ ?_
  · exact fun _ => ⟨fun id symbol h => absurd h placedWith_nil,
      fun id symbol symbol' h => absurd h placedWith_nil⟩
  · rintro cs e s evs c e' es hrun ⟨loc, free, h⟩ hc he ih hnum
    have hle := nextNum_le_handle hc c
    obtain ⟨hbelow, hunique⟩ := ih (hle.trans hnum)
    have htaken : ∀ {id symbol}, e.Assigns c id symbol →
        id.toNat = s.nextNum ∧ s.nextNum < (PriceTime.handle cfg s c).1.nextNum := by
      intro id symbol hassigns
      obtain ⟨rfl, hnext⟩ := h.nextNum_of_assigns hc hassigns
      exact ⟨by rw [UInt64.toNat_ofNat', Nat.mod_eq_of_lt (hnext.trans_le hnum)], hnext⟩
    refine ⟨fun id symbol hplaced => ?_, fun id symbol symbol' hp hp' => ?_⟩
    · rcases hplaced.snoc hrun with hplaced | hassigns
      · exact (hbelow id symbol hplaced).trans_le hle
      · obtain ⟨hid, hnext⟩ := htaken hassigns
        omega
    · rcases hp.snoc hrun with hp | ha <;> rcases hp'.snoc hrun with hp' | ha'
      · exact hunique id symbol symbol' hp hp'
      · exact absurd (htaken ha').1 (hbelow id symbol hp).ne
      · exact absurd (htaken ha).1 (hbelow id symbol' hp').ne
      · exact Option.some.inj (ha.1.symm.trans ha'.1)

/-- A run with one symbol mixes none. -/
theorem not_mixesSymbols
    {pre post : List Command} {symbol : Symbol}
    (hpos : 1 ≤ cfg.capacity) (hlt : cfg.capacity < 2 ^ 32)
    (hone : ∀ d ∈ pre ++ c :: post, ∀ symbol', d.symbol? = some symbol' → symbol' = symbol)
    (hrun : (Engine.new cfg).run Build.release pre = .ok (e, evs)) :
    ¬ e.MixesSymbols cfg c := by
  cases c with
  | cancel => exact id
  | modify => exact id
  | place clientId clientOrderId symbol' side orderType price quantity tif =>
      rintro ⟨-, i, o, ho, hne, -⟩
      obtain ⟨pre', d, post', -, -, rfl, -, hd, -⟩ := run_placedWith hpos hlt hrun i o ho
      refine hne ((hone d (by simp) _ hd).trans (Eq.symm ?_))
      exact hone (.place clientId clientOrderId symbol' side orderType price quantity tif)
        (by simp) _ rfl

end Steps

section Results

variable {cfg : Config} {e : Engine} {cs : List Command} {evs : List (List OutputEvent)}

/-- **Symbols of fills.**  Every fill of a run carries the symbol of the placement
that takes the id of its aggressor.  Its resting order was placed with this
symbol too if no command of the run mixes symbols, as is so if all placements
have one symbol.  In a run of fewer than `2 ^ 64` commands an id is taken with
one symbol only. -/
theorem run_fills_symbols
    (hpos : 1 ≤ cfg.capacity) (hlt : cfg.capacity < 2 ^ 32)
    (hrun : (Engine.new cfg).run Build.release cs = .ok (e, evs)) :
    (∀ ev ∈ evs.flatten, ev.NamesSymbol cfg cs) ∧
      ((∀ pre c post e evs, cs = pre ++ c :: post →
          (Engine.new cfg).run Build.release pre = .ok (e, evs) → ¬ e.MixesSymbols cfg c) →
        ∀ ev ∈ evs.flatten, ev.TradesWithin cfg cs) ∧
      ((∃ symbol, ∀ c ∈ cs, ∀ symbol', c.symbol? = some symbol' → symbol' = symbol) →
        ∀ ev ∈ evs.flatten, ev.TradesWithin cfg cs) ∧
      (cs.length < 2 ^ 64 → ∀ id symbol symbol', PlacedWith cfg cs id symbol →
        PlacedWith cfg cs id symbol' → symbol = symbol') := by
  have hfills := Engine.run_induction (P := fun cs _ _ evs =>
    (∀ ev ∈ evs.flatten, ev.NamesSymbol cfg cs) ∧
      ((∀ pre c post e evs, cs = pre ++ c :: post →
          (Engine.new cfg).run Build.release pre = .ok (e, evs) → ¬ e.MixesSymbols cfg c) →
        ∀ ev ∈ evs.flatten, ev.TradesWithin cfg cs)) hpos hlt hrun ?_ ?_
  · obtain ⟨hnames, htrades⟩ := hfills
    refine ⟨hnames, htrades, fun hone => htrades ?_, fun hlen => ?_⟩
    · obtain ⟨symbol, hone⟩ := hone
      rintro pre c post e evs rfl hrun
      exact not_mixesSymbols hpos hlt hone hrun
    · have hle := run_nextNum_le cfg State.new cs
      have hplace := List.countP_le_length (p := Command.isPlace) (l := cs)
      have hnew : State.new.nextNum = 1 := rfl
      exact (run_ids hpos hlt hrun (by omega)).2
  · exact ⟨fun ev hev => absurd hev List.not_mem_nil, fun _ ev hev => absurd hev List.not_mem_nil⟩
  · rintro cs e s evs c e' es hrun ⟨loc, free, h⟩ hc he ⟨hnames, htrades⟩
    have hstep := fun ev (hev : ev ∈ es) => h.fill_symbols hc hrun he hev
      (run_placedWith hpos hlt hrun)
    rw [List.flatten_append, List.flatten_singleton]
    refine ⟨fun ev hev => ?_, fun hno ev hev => ?_⟩
    · rcases List.mem_append.mp hev with hev | hev
      · exact (hnames ev hev).append [c]
      · exact (hstep ev hev).1
    · rcases List.mem_append.mp hev with hev | hev
      · refine (htrades (fun pre d post e' evs' hcs => ?_) ev hev).append [c]
        exact hno pre d (post ++ [c]) e' evs' (by rw [hcs]; simp)
      · exact (hstep ev hev).2 (hno cs c [] e evs rfl hrun)

/-- The run of a bid and of an ask that fills it. -/
theorem run_fills_symbols_bidOne_askOne :
    ∃ e evs, (Engine.new smallConfig).run Build.release [bidOne 1 100, askOne 2 100] =
        .ok (e, evs) ∧
      (∀ ev ∈ evs.flatten, ev.NamesSymbol smallConfig [bidOne 1 100, askOne 2 100]) ∧
      ((∀ pre c post e evs, [bidOne 1 100, askOne 2 100] = pre ++ c :: post →
          (Engine.new smallConfig).run Build.release pre = .ok (e, evs) →
            ¬ e.MixesSymbols smallConfig c) →
        ∀ ev ∈ evs.flatten, ev.TradesWithin smallConfig [bidOne 1 100, askOne 2 100]) ∧
      ((∃ symbol, ∀ c ∈ [bidOne 1 100, askOne 2 100], ∀ symbol', c.symbol? = some symbol' →
          symbol' = symbol) →
        ∀ ev ∈ evs.flatten, ev.TradesWithin smallConfig [bidOne 1 100, askOne 2 100]) ∧
      ([bidOne 1 100, askOne 2 100].length < 2 ^ 64 → ∀ id symbol symbol',
        PlacedWith smallConfig [bidOne 1 100, askOne 2 100] id symbol →
          PlacedWith smallConfig [bidOne 1 100, askOne 2 100] id symbol' → symbol = symbol') := by
  obtain ⟨⟨e, evs⟩, hrun⟩ := exists_of_isOk
    (x := (Engine.new smallConfig).run Build.release [bidOne 1 100, askOne 2 100])
    (by decide +kernel)
  exact ⟨e, evs, hrun, run_fills_symbols (by decide) (by decide) hrun⟩

/-- An ask with another symbol than that of the bids. -/
def otherAsk : Command :=
  .place 2 0 (Vector.replicate 8 1) .sell .limit (some 100) 1 .gtc

/-- A bid is filled by an ask with another symbol. -/
theorem not_tradesWithin_otherAsk :
    ∃ e evs, (Engine.new smallConfig).run Build.release [bidOne 1 100, otherAsk] = .ok (e, evs) ∧
      ¬ ∀ ev ∈ evs.flatten, ev.TradesWithin smallConfig [bidOne 1 100, otherAsk] := by
  obtain ⟨⟨e, evs⟩, hrun, hfill⟩ := exists_of_yields
    (x := (Engine.new smallConfig).run Build.release [bidOne 1 100, otherAsk])
    (p := fun r => decide
      (OutputEvent.fill 2 1 2 1 (Vector.replicate 8 1) 100 1 .sell ∈ r.2.flatten))
    (by decide +kernel)
  obtain ⟨⟨e₁, es⟩, hbid, hnext⟩ := exists_of_yields
    (x := (Engine.new smallConfig).handle Build.release (bidOne 1 100))
    (p := fun r => decide (r.1.nextOrderId ≠ 1))
    (by decide +kernel)
  refine ⟨e, evs, hrun, fun htrades => ?_⟩
  have hplaced : PlacedWith smallConfig [bidOne 1 100, otherAsk] 1 (Vector.replicate 8 0) :=
    ⟨[], bidOne 1 100, [otherAsk], Engine.new smallConfig, [], rfl, rfl, rfl, rfl, e₁, es, hbid,
      of_decide_eq_true hnext⟩
  obtain ⟨-, hother⟩ := htrades _ (of_decide_eq_true hfill)
  have hle := run_nextNum_le smallConfig State.new [bidOne 1 100, otherAsk]
  have hunique := (run_ids (by decide) (by decide) hrun (hle.trans (by decide))).2
  exact absurd (hunique 1 _ _ hplaced hother) (by decide)

end Results

end LmaxEngine
