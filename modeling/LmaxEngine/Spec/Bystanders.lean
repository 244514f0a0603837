import LmaxEngine.Spec.Breaches
import LmaxEngine.Spec.Symmetry

/-!
# Clients that do not trade

Take a run and leave out all commands of one client.  If none of its orders is
filled and nobody else is turned away for want of a slot, the others do not notice:
they get the same events, but for the ids that the engine has handed out, and their
orders stand in the same queues in the same order.
-/

namespace LmaxEngine

open Queues PriceTime

def Command.clientId : Command → UInt64
  | .place clientId .. => clientId
  | .cancel clientId _ => clientId
  | .modify clientId .. => clientId

def Command.ofOthers (d : UInt64) (c : Command) : Bool :=
  decide (c.clientId ≠ d)

/-- The events of the commands that are not the client's. -/
def answersToOthers (d : UInt64) (cs : List Command) (evs : List (List OutputEvent)) :
    List (List OutputEvent) :=
  ((cs.zip evs).filter (fun r => r.1.ofOthers d)).map Prod.snd

/-- A fill of an order of the client. -/
def OutputEvent.Fills (d : UInt64) : OutputEvent → Prop
  | .fill _ _ aggressorClientId restingClientId .. =>
      aggressorClientId = d ∨ restingClientId = d
  | _ => False

/-- The event without the ids that the engine has handed out. -/
def OutputEvent.anonymous : OutputEvent → OutputEvent
  | .orderAccepted _ clientId clientOrderId symbol side price quantity =>
      .orderAccepted 0 clientId clientOrderId symbol side price quantity
  | .orderRejected clientId clientOrderId reason =>
      .orderRejected clientId clientOrderId reason
  | .fill _ _ aggressorClientId restingClientId symbol price quantity aggressorSide =>
      .fill 0 0 aggressorClientId restingClientId symbol price quantity aggressorSide
  | .orderCancelled _ clientId leavesQty => .orderCancelled 0 clientId leavesQty
  | .cancelRejected clientOrderId clientId => .cancelRejected clientOrderId clientId
  | .orderModified _ clientId newPrice newQty => .orderModified 0 clientId newPrice newQty
  | .modifyRejected _ clientId => .modifyRejected 0 clientId

/-- The quote without the id that the engine has handed out. -/
def Quote.anonymous (r : Quote) : Quote :=
  { r with orderId := 0 }

/-- Neither a fill of the client, nor a placement of another one turned away for want
of a slot. -/
structure OutputEvent.Spares (d : UInt64) (ev : OutputEvent) : Prop where
  unfilled : ¬ ev.Fills d
  room : ∀ clientId clientOrderId,
    ev = .orderRejected clientId clientOrderId .arenaFull → clientId = d

namespace PriceTime

def ofOthers (d : UInt64) (x : Entry) : Bool :=
  decide (x.order.clientId ≠ d)

/-- The entry under another number. -/
def renumber (ν : Nat → Nat) (x : Entry) : Entry where
  num := ν x.num
  order := { x.order with orderId := UInt64.ofNat (ν x.num) }

/-- The second state is the first one without the orders of a client, under other
numbers. -/
structure Without (d : UInt64) (ν : Nat → Nat) (s s' : State) : Prop where
  queue : Thinned (ofOthers d) (renumber ν) s.queue s'.queue
  distinct : ∀ {k k' x y}, x ∈ s.queue k → y ∈ s.queue k' →
    ofOthers d x = true → ofOthers d y = true → ν x.num = ν y.num → x.num = y.num
  accounts : ∀ c, c ≠ d → accountOf s'.clients c = accountOf s.clients c
  index : ∀ key : Key, key.1 ≠ d →
    s'.index key = (s.index key).map (fun l => { l with num := ν l.num })

section Steps

variable {cfg : Config} {d : UInt64} {ν : Nat → Nat} {s s' : State} {k k' : Level}
variable {x : Entry} {f : Order → Order} {o : Order}

theorem ofOthers_iff :
    ofOthers d x = true ↔ x.order.clientId ≠ d :=
  decide_eq_true_iff

theorem ofOthers_eq_false
    (h : x.order.clientId = d) :
    ofOthers d x = false := by
  rw [ofOthers, h]
  simp

theorem Without.num_iff
    (h : Without d ν s s') (hx : x ∈ s.queue k) (hothers : ofOthers d x = true) :
    ∀ y, y ∈ s.queue k → ofOthers d y = true →
      (y.num = x.num ↔ (renumber ν y).num = (renumber ν x).num) :=
  fun _ hy hoy => ⟨congrArg ν, h.distinct hy hx hoy hothers⟩

/-- The entries with the number of an entry of the client are the client's. -/
theorem Consistent.own_of_num
    (hc : Consistent cfg s) (hx : x ∈ s.queue k) (hown : x.order.clientId = d) :
    ∀ y, y ∈ s.queue k → y.num = x.num → ofOthers d y = false := by
  intro y hy hnum
  rw [hc.distinct.eq hy hx hnum]
  exact ofOthers_eq_false hown

/-- One account more or less. -/
theorem Without.accountOf_eq
    {clients clients' : Clients} {c : UInt64} {ac ac' : ClientAccount}
    (h : Without d ν s s') (hac : c ≠ d → ac' = ac)
    (hs : ∀ c', accountOf clients c' = if c' = c then ac else accountOf s.clients c')
    (hs' : ∀ c', accountOf clients' c' = if c' = c then ac' else accountOf s'.clients c') :
    ∀ c', c' ≠ d → accountOf clients' c' = accountOf clients c' := by
  intro c' hne
  rw [hs, hs']
  by_cases hc : c' = c
  · rw [if_pos hc, if_pos hc]
    exact hac (hc ▸ hne)
  · rw [if_neg hc, if_neg hc]
    exact h.accounts c' hne

/-- The index of the others after a change of one of their keys. -/
theorem Without.index_update
    (h : Without d ν s s') (key : Key) (l : Option Locator) :
    ∀ key' : Key, key'.1 ≠ d →
      Function.update s'.index key (l.map (fun l => { l with num := ν l.num })) key' =
        (Function.update s.index key l key').map (fun l => { l with num := ν l.num }) := by
  intro key' hne
  by_cases hkey : key' = key
  · rw [hkey, Function.update_self, Function.update_self]
  · rw [Function.update_of_ne hkey, Function.update_of_ne hkey, h.index key' hne]

/-- The index of the others after a change of a key of the client. -/
theorem Without.index_own
    {key : Key} {l : Option Locator}
    (h : Without d ν s s') (hown : key.1 = d) :
    ∀ key' : Key, key'.1 ≠ d →
      s'.index key' =
        (Function.update s.index key l key').map (fun l => { l with num := ν l.num }) := by
  intro key' hne
  have hkey : key' ≠ key := fun heq => hne (heq ▸ hown)
  rw [Function.update_of_ne hkey, h.index key' hne]

theorem Without.leave
    (h : Without d ν s s') (hx : x ∈ s.queue k) (hothers : ofOthers d x = true) :
    Without d ν (s.leave k x) (s'.leave k (renumber ν x)) where
  queue := h.queue.discard (h.num_iff hx hothers)
  distinct hy hz := h.distinct (mem_discard.mp hy).1 (mem_discard.mp hz).1
  accounts := by
    refine h.accountOf_eq (c := x.order.clientId) (fun hne => ?_)
      (fun _ => accountOf_closeAccount) fun _ => accountOf_closeAccount
    rw [renumber, h.accounts _ hne]
  index := h.index_update x.order.key none

theorem Without.leave_own
    (h : Without d ν s s') (hc : Consistent cfg s) (hx : x ∈ s.queue k)
    (hown : x.order.clientId = d) :
    Without d ν (s.leave k x) s' where
  queue := h.queue.discard_dropped (Consistent.own_of_num hc hx hown)
  distinct hy hz := h.distinct (mem_discard.mp hy).1 (mem_discard.mp hz).1
  accounts c hne := by
    rw [h.accounts c hne]
    exact (accountOf_closeAccount.trans (if_neg fun heq => hne (heq.trans hown))).symm
  index := h.index_own hown

/-- A change of an order keeps its number and its client. -/
theorem Keeps.exists_mem
    {y : Entry}
    (hf : Keeps f) (hy : y ∈ (s.change k x f).queue k') :
    ∃ z, z ∈ s.queue k' ∧ z.num = y.num ∧ z.order.clientId = y.order.clientId := by
  rcases mem_revise.mp hy with ⟨hy, -⟩ | ⟨rfl, z, hz, -, rfl⟩
  · exact ⟨y, hy, rfl, rfl⟩
  · exact ⟨z, hz, rfl, (hf.clientId z.order).symm⟩

theorem Without.distinct_change
    {k₁ k₂ : Level} {y z : Entry}
    (h : Without d ν s s') (hf : Keeps f)
    (hy : y ∈ (s.change k x f).queue k₁) (hz : z ∈ (s.change k x f).queue k₂)
    (hoy : ofOthers d y = true) (hoz : ofOthers d z = true) (hnum : ν y.num = ν z.num) :
    y.num = z.num := by
  obtain ⟨y', hy', hny, hcy⟩ := hf.exists_mem hy
  obtain ⟨z', hz', hnz, hcz⟩ := hf.exists_mem hz
  rw [ofOthers_iff, ← hcy, ← ofOthers_iff] at hoy
  rw [ofOthers_iff, ← hcz, ← ofOthers_iff] at hoz
  rw [← hny, ← hnz] at hnum ⊢
  exact h.distinct hy' hz' hoy hoz hnum

theorem Keeps.ofOthers
    (hf : Keeps f) (y : Entry) :
    PriceTime.ofOthers d { y with order := f y.order } = PriceTime.ofOthers d y := by
  unfold PriceTime.ofOthers
  rw [hf.clientId]

theorem Without.change
    (h : Without d ν s s') (hx : x ∈ s.queue k) (hothers : ofOthers d x = true)
    (hf : Keeps f) (hcomm : ∀ o i, f { o with orderId := i } = { f o with orderId := i }) :
    Without d ν (s.change k x f) (s'.change k (renumber ν x) f) where
  queue := by
    refine h.queue.revise (h.num_iff hx hothers) (fun y => hf.ofOthers y) fun y => ?_
    exact congrArg (Entry.mk (ν y.num)) (hcomm y.order _)
  distinct := h.distinct_change hf
  accounts := h.accounts
  index := h.index

theorem Without.change_own
    (h : Without d ν s s') (hc : Consistent cfg s) (hx : x ∈ s.queue k)
    (hown : x.order.clientId = d) (hf : Keeps f) :
    Without d ν (s.change k x f) s' where
  queue := h.queue.revise_dropped (fun y => hf.ofOthers y) (Consistent.own_of_num hc hx hown)
  distinct := h.distinct_change hf
  accounts := h.accounts
  index := h.index

theorem Without.rest
    (h : Without d ν s s') (hothers : ofOthers d x = true)
    (hfresh : ∀ k y, y ∈ s'.queue k → y.num ≠ ν x.num) :
    Without d ν (s.rest k x) (s'.rest k (renumber ν x)) where
  queue := h.queue.push hothers rfl
  distinct {k₁ k₂ y z} hy hz hoy hoz hnum := by
    rcases mem_push.mp hy with hy' | ⟨-, hy'⟩
    · rcases mem_push.mp hz with hz' | ⟨-, rfl⟩
      · exact h.distinct hy' hz' hoy hoz hnum
      · exact absurd hnum (hfresh k₁ _ (h.queue.mem hy' hoy))
    · rcases mem_push.mp hz with hz' | ⟨-, hz'⟩
      · rw [hy'] at hnum
        exact absurd hnum.symm (hfresh k₂ _ (h.queue.mem hz' hoz))
      · rw [hy', hz']
  accounts := by
    refine h.accountOf_eq (c := x.order.clientId) (fun hne => ?_)
      (fun _ => accountOf_openAccount) fun _ => accountOf_openAccount
    rw [renumber, h.accounts _ hne]
  index := h.index_update x.order.key (some { num := x.num, tick := k.2, side := k.1 })

theorem Without.rest_own
    (h : Without d ν s s') (hown : x.order.clientId = d) :
    Without d ν (s.rest k x) s' where
  queue := h.queue.push_dropped (ofOthers_eq_false hown)
  distinct {k₁ k₂ y z} hy hz hoy hoz hnum := by
    have hself := ofOthers_eq_false hown
    rcases mem_push.mp hy with hy | ⟨-, rfl⟩
    · rcases mem_push.mp hz with hz | ⟨-, rfl⟩
      · exact h.distinct hy hz hoy hoz hnum
      · exact absurd (hself.symm.trans hoz) Bool.false_ne_true
    · exact absurd (hself.symm.trans hoy) Bool.false_ne_true
  accounts c hne := by
    rw [h.accounts c hne]
    exact (accountOf_openAccount.trans (if_neg fun heq => hne (heq.trans hown))).symm
  index := h.index_own hown

theorem Without.move
    (h : Without d ν s s') (hx : x ∈ s.queue k) (hothers : ofOthers d x = true)
    (hclient : o.clientId = x.order.clientId)
    (hfresh : ∀ k' y, y ∈ (s'.leave k (renumber ν x)).queue k' → y.num ≠ ν x.num) :
    Without d ν (s.move k x k' o)
      (s'.move k (renumber ν x) k' { o with orderId := UInt64.ofNat (ν x.num) }) where
  queue := by
    refine Thinned.push (h.queue.discard (h.num_iff hx hothers)) ?_ rfl
    rw [ofOthers_iff, hclient]
    exact ofOthers_iff.mp hothers
  distinct {k₁ k₂ y z} hy hz hoy hoz hnum := by
    have hleft := h.leave hx hothers
    rcases mem_push.mp hy with hy' | ⟨-, hy'⟩
    · rcases mem_push.mp hz with hz' | ⟨-, rfl⟩
      · exact hleft.distinct hy' hz' hoy hoz hnum
      · exact absurd hnum (hfresh k₁ _ (hleft.queue.mem hy' hoy))
    · rcases mem_push.mp hz with hz' | ⟨-, hz'⟩
      · rw [hy'] at hnum
        exact absurd hnum.symm (hfresh k₂ _ (hleft.queue.mem hz' hoz))
      · rw [hy', hz']
  accounts := h.accounts
  index := h.index_update x.order.key (some { num := x.num, tick := k'.2, side := k'.1 })

theorem Without.move_own
    (h : Without d ν s s') (hc : Consistent cfg s) (hx : x ∈ s.queue k)
    (hown : x.order.clientId = d) (hclient : o.clientId = x.order.clientId) :
    Without d ν (s.move k x k' o) s' where
  queue := by
    refine (h.queue.discard_dropped (Consistent.own_of_num hc hx hown)).push_dropped ?_
    exact ofOthers_eq_false (hclient.trans hown)
  distinct {k₁ k₂ y z} hy hz hoy hoz hnum := by
    have hself : ofOthers d { num := x.num, order := o } = false :=
      ofOthers_eq_false (hclient.trans hown)
    rcases mem_push.mp hy with hy | ⟨-, rfl⟩
    · rcases mem_push.mp hz with hz | ⟨-, rfl⟩
      · exact h.distinct (mem_discard.mp hy).1 (mem_discard.mp hz).1 hoy hoz hnum
      · exact absurd (hself.symm.trans hoz) Bool.false_ne_true
    · exact absurd (hself.symm.trans hoy) Bool.false_ne_true
  accounts := h.accounts
  index := h.index_own hown

theorem Without.account
    (h : Without d ν s s') (c : UInt64) :
    Without d ν (s.account c) (s'.account c) where
  queue := h.queue
  distinct := h.distinct
  accounts c' hne := by
    rw [accountOf_account, accountOf_account]
    exact h.accounts c' hne
  index := h.index

theorem Without.account_own
    (h : Without d ν s s') :
    Without d ν (s.account d) s' where
  queue := h.queue
  distinct := h.distinct
  accounts c' hne := by
    rw [accountOf_account]
    exact h.accounts c' hne
  index := h.index

/-- The number of the next placement in the two states. -/
theorem Without.number
    (h : Without d ν s s') (hc : Consistent cfg s) :
    Without d (Function.update ν s.nextNum s'.nextNum) s.number s'.number := by
  have hold : ∀ {k x}, x ∈ s.queue k →
      Function.update ν s.nextNum s'.nextNum x.num = ν x.num :=
    fun hx => Function.update_of_ne (hc.entry hx).num.ne _ _
  exact {
    queue := by
      intro k
      rw [State.number, State.number, h.queue]
      refine List.map_congr_left fun x hx => ?_
      rw [renumber, renumber, hold (List.mem_of_mem_filter hx)]
    distinct := by
      intro k k' x y hx hy hox hoy hnum
      rw [hold hx, hold hy] at hnum
      exact h.distinct hx hy hox hoy hnum
    accounts := h.accounts
    index := by
      intro key hne
      rw [State.number, State.number, h.index key hne]
      cases hl : s.index key with
      | none => rfl
      | some l =>
          obtain ⟨x, hx, hnum, -⟩ := hc.sound hl
          have hsame := hold hx
          rw [hnum] at hsame
          rw [Option.map_some, Option.map_some, hsame] }

theorem Without.number_own
    (h : Without d ν s s') :
    Without d ν s.number s' :=
  ⟨h.queue, h.distinct, h.accounts, h.index⟩

end Steps

section Matching

variable {cfg : Config} {d : UInt64} {ν : Nat → Nat} {s s' : State} {k : Level}
variable {x : Entry} {p p' : Placement} {fuel fuel' t : Nat}

theorem Without.resting_le
    (h : Without d ν s s') :
    s'.resting ≤ s.resting :=
  h.queue.weigh_le

/-- The best entry of a side is the best one of the others if it is theirs. -/
theorem Without.best
    {side : Side}
    (h : Without d ν s s') (hb : s.best side = some (t, x)) (hothers : ofOthers d x = true) :
    s'.best side = some (t, renumber ν x) := by
  unfold State.best at hb
  obtain ⟨u, htick, hu⟩ := Option.bind_eq_some_iff.mp hb
  obtain ⟨y, hy, heq⟩ := Option.map_eq_some_iff.mp hu
  obtain ⟨rfl, rfl⟩ := Prod.mk.inj heq
  obtain ⟨ys, hq⟩ := List.head?_eq_some_iff.mp hy
  obtain ⟨hlt, -, hbest⟩ := bestTick_eq_some_iff.mp htick
  have hq' : s'.queue (side, u) =
      renumber ν y :: (ys.filter (ofOthers d)).map (renumber ν) := by
    rw [h.queue, hq, List.filter_cons_of_pos hothers, List.map_cons]
  have htick' : s'.bestTick side = some u := by
    refine bestTick_eq_some_iff.mpr ⟨hlt, ?_, fun v hv hne => hbest v hv fun hnil => hne ?_⟩
    · rw [hq']
      exact List.cons_ne_nil _ _
    · rw [h.queue, hnil]
      rfl
  rw [State.best, htick', Option.bind_some, hq']
  rfl

/-- A side that is swept is swept without the client. -/
theorem Without.swept
    (h : Without d ν s s') (hc : Consistent cfg s)
    (hside : p'.side = p.side) (hlimit : p'.limitPrice = p.limitPrice)
    (hswept : Swept cfg s p) :
    Swept cfg s' p' := by
  intro t y hb
  rw [hside] at hb
  rw [hside, hlimit]
  obtain ⟨x, hx, -, rfl⟩ := h.queue.exists_mem (State.best_mem hb)
  have hno := hswept.not_hits hc hx
  cases hcross : crossesTick cfg p.side p.limitPrice t with
  | false => rfl
  | true =>
      rw [(hits_iff hc hx).mpr ⟨rfl, hcross⟩] at hno
      exact absurd hno.symm Bool.false_ne_true

/-- **Matching past a client that is not filled.**  It goes through the same orders
whether the client's are there or not. -/
theorem Without.sweep
    (n : Nat) (h : Without d ν s s')
    (hm : MomentOk cfg ⟨s, some p⟩) (hm' : MomentOk cfg ⟨s', some { p with num := n }⟩)
    (hquiet : ∀ ev, ev ∈ (p.sweep cfg fuel s).2.2 → ¬ ev.Fills d)
    (hfuel : s.resting < fuel) (hfuel' : s'.resting < fuel') :
    Without d ν (p.sweep cfg fuel s).1
        (Placement.sweep cfg { p with num := n } fuel' s').1 ∧
      (Placement.sweep cfg { p with num := n } fuel' s').2.1 = (p.sweep cfg fuel s).2.1 ∧
      (Placement.sweep cfg { p with num := n } fuel' s').2.2.map OutputEvent.anonymous =
        (p.sweep cfg fuel s).2.2.map OutputEvent.anonymous := by
  induction fuel generalizing p s s' fuel' with
  | zero => omega
  | succ fuel ih =>
      obtain ⟨m, rfl⟩ : ∃ m, fuel' = m + 1 := ⟨fuel' - 1, by omega⟩
      rcases sweep_cases cfg p s with hstop | ⟨t, x, h0, hb, hc, hqty⟩
      · have hstop' : p.leavesQty = 0 ∨ Swept cfg s' { p with num := n } :=
          hstop.imp_right (h.swept hm.consistent rfl rfl)
        rw [sweep_stop hstop, sweep_stop (p := { p with num := n }) hstop']
        exact ⟨h, rfl, rfl⟩
      have hx := State.best_mem hb
      have hothers : ofOthers d x = true := by
        refine ofOthers_iff.mpr fun hown => ?_
        rcases hqty with hle | hlt
        · rw [sweep_whole h0 hb hc hle] at hquiet
          exact hquiet _ List.mem_cons_self (Or.inr hown)
        · rw [sweep_part h0 hb hc hlt] at hquiet
          exact hquiet _ List.mem_cons_self (Or.inr hown)
      have hb' := h.best hb hothers
      rcases hqty with hle | hlt
      · have hstep : Step cfg ⟨s, some p⟩ _ _ := Step.fillWhole hb hc hle
        have hstep' : Step cfg ⟨s', some { p with num := n }⟩ _ _ := Step.fillWhole hb' hc hle
        have hrest : (s.leave (p.side.opposite, t) x).resting + 1 = s.resting :=
          hm.consistent.resting_leave hx
        have hrest' : (s'.leave (p.side.opposite, t) (renumber ν x)).resting + 1 = s'.resting :=
          hm'.consistent.resting_leave (State.best_mem hb')
        have hleft : (s'.leave (p.side.opposite, t) (renumber ν x)).resting < m := by omega
        rw [sweep_whole h0 hb hc hle] at hquiet
        rw [sweep_whole h0 hb hc hle, sweep_whole (p := { p with num := n }) h0 hb' hc hle]
        obtain ⟨hrel, hqty, hevs⟩ := ih (p := p.less x.order.leavesQty) (h.leave hx hothers)
          (hstep.momentOk hm) (hstep'.momentOk hm')
          (fun ev hev => hquiet ev (List.mem_cons_of_mem _ hev)) (by omega) hleft
        exact ⟨hrel, hqty, congrArg (List.cons _) hevs⟩
      · rw [sweep_part h0 hb hc hlt, sweep_part (p := { p with num := n }) h0 hb' hc hlt]
        exact ⟨h.change hx hothers (keeps_filledBy _) fun _ _ => rfl, rfl, rfl⟩

/-- A placement of a client that is not filled is not matched. -/
theorem sweep_quiet
    (cfg : Config)
    (hquiet : ∀ ev, ev ∈ (p.sweep cfg (fuel + 1) s).2.2 → ¬ ev.Fills p.clientId) :
    p.sweep cfg (fuel + 1) s = (s, p.leavesQty, []) := by
  rcases sweep_cases cfg p s with hstop | ⟨t, x, h0, hb, hc, hle | hlt⟩
  · exact sweep_stop hstop
  · rw [sweep_whole h0 hb hc hle] at hquiet
    exact absurd (Or.inl rfl) (hquiet _ List.mem_cons_self)
  · rw [sweep_part h0 hb hc hlt] at hquiet
    exact absurd (Or.inl rfl) (hquiet _ List.mem_cons_self)

end Matching

section Placements

variable {cfg : Config} {d : UInt64} {ν : Nat → Nat} {s s' : State} {p : Placement}
variable {n : Nat} {es es' : List OutputEvent}

/-- The second outcome of a command is the first one without the client. -/
structure Passes (d : UInt64) (r r' : State × List OutputEvent) : Prop where
  state : ∃ ν, Without d ν r.1 r'.1
  events : r'.2.map OutputEvent.anonymous = r.2.map OutputEvent.anonymous

theorem Without.passes
    (h : Without d ν s s') (hes : es'.map OutputEvent.anonymous = es.map OutputEvent.anonymous) :
    Passes d (s, es) (s', es') :=
  ⟨⟨ν, h⟩, hes⟩

theorem map_append_eq
    {ev ev' : OutputEvent}
    (hes : es'.map OutputEvent.anonymous = es.map OutputEvent.anonymous)
    (hev : ev'.anonymous = ev.anonymous) :
    (es' ++ [ev']).map OutputEvent.anonymous = (es ++ [ev]).map OutputEvent.anonymous := by
  rw [List.map_append, List.map_append, hes, List.map_singleton, List.map_singleton, hev]

theorem placeMarket_fills
    (hleaves : p.leavesQty = p.quantity) (hlimit : p.limitPrice = none) :
    ∀ ev, ev ∈ (p.sweep cfg (s.resting + 1) s).2.2 →
      ev ∈ (placeMarket cfg s p.num p.clientId p.symbol p.side p.quantity).2 := by
  intro ev hev
  unfold placeMarket
  rw [matchAll_eq_sweep hleaves hlimit]
  dsimp only
  split_ifs
  · exact List.mem_append_left _ hev
  · exact hev

theorem placeLimit_fills
    {price : UInt64} {t : Nat}
    (hleaves : p.leavesQty = p.quantity) (hlimit : p.limitPrice = some price) :
    ∀ ev, ev ∈ (p.sweep cfg (s.resting + 1) s).2.2 →
      ev ∈ (placeLimit cfg s p.num p.clientId p.clientOrderId p.symbol p.side
        price p.quantity t).2 := by
  intro ev hev
  unfold placeLimit
  rw [matchAll_eq_sweep hleaves hlimit]
  dsimp only
  split_ifs
  · exact List.mem_append_left _ hev
  · exact List.mem_append_left _ hev
  · exact hev

theorem Without.placeMarket
    (h : Without d ν s s')
    (hm : MomentOk cfg ⟨s, some p⟩) (hm' : MomentOk cfg ⟨s', some { p with num := n }⟩)
    (hleaves : p.leavesQty = p.quantity) (hlimit : p.limitPrice = none)
    (hspare : ∀ ev, ev ∈ (PriceTime.placeMarket cfg s p.num p.clientId p.symbol p.side
      p.quantity).2 → ev.Spares d) :
    Passes d (PriceTime.placeMarket cfg s p.num p.clientId p.symbol p.side p.quantity)
      (PriceTime.placeMarket cfg s' n p.clientId p.symbol p.side p.quantity) := by
  have hquiet : ∀ ev, ev ∈ (p.sweep cfg (s.resting + 1) s).2.2 → ¬ ev.Fills d :=
    fun ev hev => (hspare ev (placeMarket_fills hleaves hlimit ev hev)).unfilled
  obtain ⟨hrel, hleft, hevs⟩ := h.sweep n hm hm' hquiet (Nat.lt_add_one _)
    (Nat.lt_add_one s'.resting)
  unfold PriceTime.placeMarket
  rw [matchAll_eq_sweep hleaves hlimit,
    matchAll_eq_sweep (p := { p with num := n }) hleaves hlimit]
  dsimp only
  rw [hleft]
  split_ifs with hpos
  · exact hrel.passes (map_append_eq hevs rfl)
  · exact hrel.passes hevs

theorem Without.placeLimit
    {price : UInt64} {t : Nat}
    (h : Without d ν s s')
    (hm : MomentOk cfg ⟨s, some p⟩) (hm' : MomentOk cfg ⟨s', some { p with num := n }⟩)
    (hleaves : p.leavesQty = p.quantity) (hlimit : p.limitPrice = some price)
    (hothers : p.clientId ≠ d) (hnum : ν p.num = n)
    (hspare : ∀ ev, ev ∈ (PriceTime.placeLimit cfg s p.num p.clientId p.clientOrderId p.symbol
      p.side price p.quantity t).2 → ev.Spares d) :
    Passes d
      (PriceTime.placeLimit cfg s p.num p.clientId p.clientOrderId p.symbol p.side
        price p.quantity t)
      (PriceTime.placeLimit cfg s' n p.clientId p.clientOrderId p.symbol p.side
        price p.quantity t) := by
  have hquiet : ∀ ev, ev ∈ (p.sweep cfg (s.resting + 1) s).2.2 → ¬ ev.Fills d :=
    fun ev hev => (hspare ev (placeLimit_fills hleaves hlimit ev hev)).unfilled
  obtain ⟨hrel, hleft, hevs⟩ := h.sweep n hm hm' hquiet (Nat.lt_add_one _)
    (Nat.lt_add_one s'.resting)
  have hend := (sweep_trail (s.resting + 1) hm).preserves (fun hs hstep => hstep.momentOk hs) hm
  have hend' := (sweep_trail (s'.resting + 1) hm').preserves
    (fun hs hstep => hstep.momentOk hs) hm'
  unfold PriceTime.placeLimit at hspare ⊢
  rw [matchAll_eq_sweep hleaves hlimit] at hspare
  rw [matchAll_eq_sweep hleaves hlimit,
    matchAll_eq_sweep (p := { p with num := n }) hleaves hlimit]
  dsimp only at hspare ⊢
  rw [hleft]
  split_ifs at hspare ⊢ with hpos hfull hfull'
  · exact hrel.passes (map_append_eq hevs rfl)
  · -- The placement is turned away, which spares nobody but the client.
    have hev := hspare (.orderRejected p.clientId p.clientOrderId .arenaFull)
      (List.mem_append_right _ (List.mem_singleton_self _))
    exact absurd (hev.room p.clientId p.clientOrderId rfl) hothers
  · have hle := hrel.resting_le
    have hroom : (p.sweep cfg (s.resting + 1) s).1.resting ≤ cfg.capacity :=
      hend.consistent.room
    omega
  · refine Without.passes (ν := ν) ?_ (map_append_eq hevs rfl)
    have hrest := hrel.rest (k := (p.side, t))
      (x := { num := p.num
              order := restingOrder (UInt64.ofNat p.num) p.clientId p.clientOrderId p.symbol
                p.side price p.quantity (p.sweep cfg (s.resting + 1) s).2.1
                (p.quantity - (p.sweep cfg (s.resting + 1) s).2.1) })
      (ofOthers_iff.mpr hothers) (fun k y hy => hnum ▸ hend'.fresh rfl hy)
    rw [renumber, hnum] at hrest
    exact hrest
  · exact hrel.passes hevs

theorem Without.placeMarket_own
    (h : Without d ν s s') (hleaves : p.leavesQty = p.quantity) (hlimit : p.limitPrice = none)
    (hquiet : ∀ ev, ev ∈ (PriceTime.placeMarket cfg s p.num p.clientId p.symbol p.side
      p.quantity).2 → ¬ ev.Fills p.clientId) :
    Without d ν (PriceTime.placeMarket cfg s p.num p.clientId p.symbol p.side
      p.quantity).1 s' := by
  have hstop := sweep_quiet cfg fun ev hev =>
    hquiet ev (placeMarket_fills hleaves hlimit ev hev)
  unfold PriceTime.placeMarket
  rw [matchAll_eq_sweep hleaves hlimit, hstop]
  dsimp only
  split_ifs <;> exact h

theorem Without.placeLimit_own
    {price : UInt64} {t : Nat}
    (h : Without d ν s s') (hleaves : p.leavesQty = p.quantity)
    (hlimit : p.limitPrice = some price) (hown : p.clientId = d)
    (hquiet : ∀ ev, ev ∈ (PriceTime.placeLimit cfg s p.num p.clientId p.clientOrderId p.symbol
      p.side price p.quantity t).2 → ¬ ev.Fills p.clientId) :
    Without d ν (PriceTime.placeLimit cfg s p.num p.clientId p.clientOrderId p.symbol
      p.side price p.quantity t).1 s' := by
  have hstop := sweep_quiet cfg fun ev hev =>
    hquiet ev (placeLimit_fills hleaves hlimit ev hev)
  unfold PriceTime.placeLimit
  rw [matchAll_eq_sweep hleaves hlimit, hstop]
  dsimp only
  split_ifs
  · exact h
  · exact h.rest_own hown
  · exact h

theorem Without.place_own
    {clientOrderId quantity : UInt64} {symbol : Symbol} {side : Side} {orderType : OrderType}
    {price : Option UInt64}
    (h : Without d ν s s')
    (hquiet : ∀ ev,
      ev ∈ (place cfg s d clientOrderId symbol side orderType price quantity).2 →
        ¬ ev.Fills d) :
    Without d ν (place cfg s d clientOrderId symbol side orderType price quantity).1 s' := by
  rcases place_cases cfg s d clientOrderId symbol side quantity orderType price with
    ⟨-, he⟩ | ⟨-, he⟩ | ⟨-, -, ⟨-, -, he⟩ | ⟨-, he⟩ | ⟨limit, t, -, -, -, he⟩⟩
  · rw [he]
    exact h
  · rw [he]
    exact h.account_own
  · rw [he]
    exact h.account_own.number_own
  · rw [he] at hquiet ⊢
    exact h.account_own.number_own.placeMarket_own
      (p := s.placement d clientOrderId symbol side none quantity) rfl rfl hquiet
  · rw [he] at hquiet ⊢
    exact h.account_own.number_own.placeLimit_own
      (p := s.placement d clientOrderId symbol side (some limit) quantity) rfl rfl rfl hquiet

theorem Without.place
    {clientId clientOrderId quantity : UInt64} {symbol : Symbol} {side : Side}
    {orderType : OrderType} {price : Option UInt64}
    (h : Without d ν s s') (hc : Consistent cfg s) (hc' : Consistent cfg s')
    (hothers : clientId ≠ d)
    (hspare : ∀ ev,
      ev ∈ (PriceTime.place cfg s clientId clientOrderId symbol side orderType price
        quantity).2 → ev.Spares d) :
    Passes d (PriceTime.place cfg s clientId clientOrderId symbol side orderType price quantity)
      (PriceTime.place cfg s' clientId clientOrderId symbol side orderType price quantity) := by
  have hnumber := (h.account clientId).number (hc.account clientId)
  have haccount := h.accounts clientId hothers
  by_cases hqty : quantity = 0
  · rw [PriceTime.place, PriceTime.place, if_pos hqty, if_pos hqty]
    exact h.passes rfl
  by_cases hlimit : maxOpenOrders ≤ (accountOf s.clients clientId).openOrders
  · rw [PriceTime.place, PriceTime.place, haccount, if_neg hqty, if_neg hqty, if_pos hlimit,
      if_pos hlimit]
    exact (h.account clientId).passes rfl
  have hlimit' : ¬ maxOpenOrders ≤ (accountOf s'.clients clientId).openOrders := by
    rwa [haccount]
  have hstart := started_ok hc hqty hlimit clientOrderId symbol side
  have hstart' := started_ok hc' hqty hlimit' clientOrderId symbol side
  cases orderType with
  | market =>
      rw [place_market hqty hlimit] at hspare ⊢
      rw [place_market hqty hlimit']
      exact hnumber.placeMarket (hstart none) (hstart' none) rfl rfl hspare
  | limit =>
      cases hprice : price.bind (tickOf cfg) with
      | none =>
          have hrejected : ∀ s : State,
              ¬ maxOpenOrders ≤ (accountOf s.clients clientId).openOrders →
              PriceTime.place cfg s clientId clientOrderId symbol side .limit price quantity =
                ((s.account clientId).number,
                  [.orderRejected clientId clientOrderId .invalidPrice]) := by
            intro s hlimit
            rcases place_cases cfg s clientId clientOrderId symbol side quantity .limit price with
              ⟨h0, -⟩ | ⟨hmax, -⟩ | ⟨-, -, ⟨-, -, he⟩ | ⟨hmarket, -⟩ | ⟨limit, t, -, hp, ht, -⟩⟩
            · exact absurd h0 hqty
            · exact absurd hmax hlimit
            · exact he
            · exact absurd hmarket (by simp)
            · rw [hp, Option.bind_some, ht] at hprice
              exact absurd hprice (by simp)
          rw [hrejected s hlimit, hrejected s' hlimit']
          exact hnumber.passes rfl
      | some t =>
          obtain ⟨limit, rfl, htick⟩ := Option.bind_eq_some_iff.mp hprice
          rw [place_limit hqty hlimit htick] at hspare ⊢
          rw [place_limit hqty hlimit' htick]
          exact hnumber.placeLimit (hstart (some limit)) (hstart' (some limit)) rfl rfl hothers
            (Function.update_self _ _ _) hspare

end Placements

section Commands

variable {cfg : Config} {d : UInt64} {ν : Nat → Nat} {s s' : State} {k : Level} {x : Entry}
variable {price target : UInt64} {r r' : State × List OutputEvent}

theorem cancel_eq
    (hc : Consistent cfg s) (hx : x ∈ s.queue k)
    (hindex : s.index x.order.key = some (x.locator k)) :
    cancel s x.order.clientId x.order.clientOrderId =
      (s.leave k x,
        [.orderCancelled x.order.orderId x.order.clientId x.order.leavesQty]) := by
  have hl : s.index (x.order.clientId, x.order.clientOrderId) = some (x.locator k) := hindex
  rcases cancel_outcomes hc x.order.clientId x.order.clientOrderId with
    ⟨hnone, -⟩ | ⟨k', y, hy, hkey, hy', he⟩
  · rw [hl] at hnone
    exact absurd hnone (by simp)
  · rw [hkey, hl, Option.some.injEq] at hy'
    obtain rfl := eq_of_locator_eq hc hx hy hy'
    obtain rfl := hc.distinct.same_key hx hy rfl
    exact he

/-- What a modification makes of the entry that it names. -/
def modifiedBy
    (cfg : Config) (s : State) (k : Level) (x : Entry) (price target : UInt64) :
    State × List OutputEvent :=
  let rejected := [OutputEvent.modifyRejected x.order.orderId x.order.clientId]
  let modified := [OutputEvent.orderModified x.order.orderId x.order.clientId price target]
  if target = 0 then
    (s, rejected)
  else if price = x.order.price ∧ target ≤ x.order.leavesQty then
    (s.change k x (reducedTo target), modified)
  else
    match tickOf cfg price with
    | none => (s.leave k x, rejected)
    | some t => (s.move k x (x.order.side, t) (requeuedAs price target x.order), modified)

theorem Modified.eq
    (h : Modified cfg s k x price target r) :
    r = modifiedBy cfg s k x price target := by
  cases h with
  | refused hzero => rw [modifiedBy, if_pos hzero]
  | kept hpos hprice hle => rw [modifiedBy, if_neg hpos, if_pos ⟨hprice, hle⟩]
  | evicted hpos hmoved htick =>
      rw [modifiedBy, if_neg hpos, if_neg hmoved]
      simp only [htick]
  | moved hpos hmoved htick =>
      rw [modifiedBy, if_neg hpos, if_neg hmoved]
      simp only [htick]

/-- An order of another client stands in both states, and its key names it. -/
theorem Without.named
    (h : Without d ν s s') (hx : x ∈ s.queue k) (hothers : x.order.clientId ≠ d)
    (hindex : s.index x.order.key = some (x.locator k)) :
    renumber ν x ∈ s'.queue k ∧
      s'.index (renumber ν x).order.key = some ((renumber ν x).locator k) := by
  refine ⟨h.queue.mem hx (ofOthers_iff.mpr hothers), ?_⟩
  have hkey : (renumber ν x).order.key = x.order.key := rfl
  rw [hkey, h.index _ hothers, hindex]
  rfl

theorem Without.unnamed
    {clientId clientOrderId : UInt64}
    (h : Without d ν s s') (hothers : clientId ≠ d)
    (hnone : s.index (clientId, clientOrderId) = none) :
    s'.index (clientId, clientOrderId) = none := by
  rw [h.index _ hothers, hnone]
  rfl

theorem Without.cancel_own
    {clientOrderId : UInt64}
    (h : Without d ν s s') (hc : Consistent cfg s) :
    Without d ν (cancel s d clientOrderId).1 s' := by
  rcases cancel_outcomes hc d clientOrderId with ⟨-, he⟩ | ⟨k, x, hx, hkey, -, he⟩
  · rw [he]
    exact h
  · rw [he]
    exact h.leave_own hc hx (congrArg Prod.fst hkey)

theorem Without.cancel
    {clientId clientOrderId : UInt64}
    (h : Without d ν s s') (hc : Consistent cfg s) (hc' : Consistent cfg s')
    (hothers : clientId ≠ d) :
    Passes d (PriceTime.cancel s clientId clientOrderId)
      (PriceTime.cancel s' clientId clientOrderId) := by
  rcases cancel_outcomes hc clientId clientOrderId with ⟨hl, he⟩ | ⟨k, x, hx, hkey, hindex, he⟩
  · rw [he, PriceTime.cancel]
    simp only [h.unnamed hothers hl]
    exact h.passes rfl
  · obtain ⟨rfl, rfl⟩ := Prod.mk.inj hkey
    obtain ⟨hx', hindex'⟩ := h.named hx hothers hindex
    have he' : PriceTime.cancel s' x.order.clientId x.order.clientOrderId =
        (s'.leave k (renumber ν x), [.orderCancelled (renumber ν x).order.orderId
          x.order.clientId x.order.leavesQty]) :=
      cancel_eq (x := renumber ν x) hc' hx' hindex'
    rw [he, he']
    exact (h.leave hx (ofOthers_iff.mpr hothers)).passes rfl

theorem Without.modify_own
    {clientOrderId : UInt64} {newPrice newQty : Option UInt64}
    (h : Without d ν s s') (hc : Consistent cfg s) :
    Without d ν (modify cfg s d clientOrderId newPrice newQty).1 s' := by
  rcases modify_outcomes hc d clientOrderId newPrice newQty with
    ⟨-, he⟩ | ⟨k, x, hx, hkey, -, hout⟩
  · rw [he]
    exact h
  · have hown : x.order.clientId = d := congrArg Prod.fst hkey
    generalize PriceTime.modify cfg s d clientOrderId newPrice newQty = r at hout ⊢
    cases hout with
    | refused => exact h
    | kept => exact h.change_own hc hx hown (keeps_reducedTo _)
    | evicted => exact h.leave_own hc hx hown
    | moved => exact h.move_own hc hx hown rfl

theorem Without.modifiedBy
    (h : Without d ν s s') (hc' : Consistent cfg s') (hx : x ∈ s.queue k)
    (hothers : x.order.clientId ≠ d) (price target : UInt64) :
    Passes d (PriceTime.modifiedBy cfg s k x price target)
      (PriceTime.modifiedBy cfg s' k (renumber ν x) price target) := by
  have hkeep := ofOthers_iff.mpr hothers
  have hx' := h.queue.mem hx hkeep
  have hprice : (renumber ν x).order.price = x.order.price := rfl
  have hleaves : (renumber ν x).order.leavesQty = x.order.leavesQty := rfl
  unfold PriceTime.modifiedBy
  simp only [hprice, hleaves]
  split_ifs with hzero hkept
  · exact h.passes rfl
  · exact (h.change hx hkeep (keeps_reducedTo _) fun _ _ => rfl).passes rfl
  · cases tickOf cfg price with
    | none => exact (h.leave hx hkeep).passes rfl
    | some t =>
        have hmove : Without d ν
            (s.move k x (x.order.side, t) (requeuedAs price target x.order))
            (s'.move k (renumber ν x) (x.order.side, t)
              { requeuedAs price target x.order with orderId := UInt64.ofNat (ν x.num) }) :=
          h.move hx hkeep rfl fun k' y hy => ((hc'.distinct.mem_discard hx').mp hy).2
        exact hmove.passes rfl

theorem Without.modify
    {clientId clientOrderId : UInt64} {newPrice newQty : Option UInt64}
    (h : Without d ν s s') (hc : Consistent cfg s) (hc' : Consistent cfg s')
    (hothers : clientId ≠ d) :
    Passes d (PriceTime.modify cfg s clientId clientOrderId newPrice newQty)
      (PriceTime.modify cfg s' clientId clientOrderId newPrice newQty) := by
  rcases modify_outcomes hc clientId clientOrderId newPrice newQty with
    ⟨hl, he⟩ | ⟨k, x, hx, hkey, hindex, hout⟩
  · rw [he, PriceTime.modify]
    simp only [h.unnamed hothers hl]
    exact h.passes rfl
  · obtain ⟨rfl, rfl⟩ := Prod.mk.inj hkey
    obtain ⟨hx', hindex'⟩ := h.named hx hothers hindex
    obtain ⟨-, hout'⟩ := modified_of_index newPrice newQty hc' hx' hindex'
    rw [hout.eq]
    have he' : PriceTime.modify cfg s' x.order.clientId x.order.clientOrderId newPrice newQty =
        PriceTime.modifiedBy cfg s' k (renumber ν x) (newPrice.getD x.order.price)
          (newQty.getD x.order.leavesQty) :=
      hout'.eq
    rw [he']
    exact h.modifiedBy hc' hx hothers _ _

/-- A command of the client is not seen. -/
theorem Without.handle_own
    {c : Command}
    (h : Without d ν s s') (hc : Consistent cfg s) (hown : c.clientId = d)
    (hspare : ∀ ev, ev ∈ (handle cfg s c).2 → ev.Spares d) :
    Without d ν (handle cfg s c).1 s' := by
  subst hown
  cases c with
  | place clientId clientOrderId symbol side orderType price quantity tif =>
      exact h.place_own fun ev hev => (hspare ev hev).unfilled
  | cancel clientId clientOrderId => exact h.cancel_own hc
  | modify clientId clientOrderId newPrice newQty => exact h.modify_own hc

/-- A command of another client does the same without the client. -/
theorem Without.handle
    {c : Command}
    (h : Without d ν s s') (hc : Consistent cfg s) (hc' : Consistent cfg s')
    (hothers : c.clientId ≠ d) (hspare : ∀ ev, ev ∈ (PriceTime.handle cfg s c).2 → ev.Spares d) :
    Passes d (PriceTime.handle cfg s c) (PriceTime.handle cfg s' c) := by
  cases c with
  | place clientId clientOrderId symbol side orderType price quantity tif =>
      exact h.place hc hc' hothers hspare
  | cancel clientId clientOrderId => exact h.cancel hc hc' hothers
  | modify clientId clientOrderId newPrice newQty => exact h.modify hc hc' hothers

section Filters

variable {c : Command} {cs : List Command} {es : List OutputEvent}
variable {evs : List (List OutputEvent)}

theorem filter_cons_own
    (hown : c.clientId = d) :
    (c :: cs).filter (Command.ofOthers d) = cs.filter (Command.ofOthers d) :=
  List.filter_cons_of_neg (by simp [Command.ofOthers, hown])

theorem filter_cons_other
    (hother : c.clientId ≠ d) :
    (c :: cs).filter (Command.ofOthers d) = c :: cs.filter (Command.ofOthers d) :=
  List.filter_cons_of_pos (decide_eq_true hother)

theorem answersToOthers_own
    (hown : c.clientId = d) :
    answersToOthers d (c :: cs) (es :: evs) = answersToOthers d cs evs := by
  simp [answersToOthers, Command.ofOthers, hown]

theorem answersToOthers_other
    (hother : c.clientId ≠ d) :
    answersToOthers d (c :: cs) (es :: evs) = es :: answersToOthers d cs evs := by
  simp [answersToOthers, Command.ofOthers, hother]

end Filters

/-- **A client that does not trade is not noticed.** -/
theorem Without.run
    {cs : List Command}
    (h : Without d ν s s') (hc : Consistent cfg s) (hc' : Consistent cfg s')
    (hspare : ∀ es, es ∈ (PriceTime.run cfg s cs).2 → ∀ ev, ev ∈ es → ev.Spares d) :
    (∃ ν', Without d ν' (PriceTime.run cfg s cs).1
        (PriceTime.run cfg s' (cs.filter (Command.ofOthers d))).1) ∧
      (PriceTime.run cfg s' (cs.filter (Command.ofOthers d))).2.map
          (List.map OutputEvent.anonymous) =
        (answersToOthers d cs (PriceTime.run cfg s cs).2).map
          (List.map OutputEvent.anonymous) := by
  induction cs generalizing ν s s' with
  | nil => exact ⟨⟨ν, h⟩, rfl⟩
  | cons c cs ih =>
      have hfirst : ∀ ev, ev ∈ (PriceTime.handle cfg s c).2 → ev.Spares d :=
        hspare _ List.mem_cons_self
      have hrest : ∀ es, es ∈ (PriceTime.run cfg (PriceTime.handle cfg s c).1 cs).2 →
          ∀ ev, ev ∈ es → ev.Spares d :=
        fun es hes => hspare es (List.mem_cons_of_mem _ hes)
      have hnext := handle_consistent hc c
      by_cases hown : c.clientId = d
      · obtain ⟨hstate, hevs⟩ := ih (h.handle_own hc hown hfirst) hnext hc' hrest
        rw [filter_cons_own hown]
        exact ⟨hstate, hevs.trans (by rw [PriceTime.run, answersToOthers_own hown])⟩
      · obtain ⟨⟨ν', hone⟩, hes⟩ := h.handle hc hc' hown hfirst
        obtain ⟨hstate, hevs⟩ := ih hone hnext (handle_consistent hc' c) hrest
        rw [filter_cons_other hown]
        refine ⟨hstate, ?_⟩
        rw [PriceTime.run, PriceTime.run, answersToOthers_other hown, List.map_cons,
          List.map_cons, hes, hevs]

end Commands

end PriceTime
end LmaxEngine
