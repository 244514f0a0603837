import LmaxEngine.Spec.PriceTime

/-!
# Consistency of the plain book

Every state of the plain book is consistent: entries have distinct numbers and
stand in the queue of their side and tick, the index names an entry with the
key it is found under, and the accounts count the resting orders.  The changes
a handler makes to the state keep this, one lemma for each change.
-/

namespace LmaxEngine
namespace PriceTime

open Queues

/-- What holds of an entry in the queue of a level. -/
structure EntryOk (cfg : Config) (nextNum : Nat) (k : Level) (x : Entry) : Prop where
  tick : tickOf cfg x.order.price = some k.2
  side : x.order.side = k.1
  leaves : 0 < x.order.leavesQty
  id : x.order.orderId = UInt64.ofNat x.num
  num : x.num < nextNum

/-- The weight that counts the orders of a client. -/
def ofClient (c : UInt64) (o : Order) : Nat :=
  if o.clientId = c then 1 else 0

/-- The open orders of a client, zero without an account. -/
def openOrders (clients : Clients) (c : UInt64) : Nat :=
  (accountOf clients c).openOrders.toNat

structure Consistent (cfg : Config) (s : State) : Prop where
  distinct : Distinct Entry.num s.queue
  entry : ∀ {k x}, x ∈ s.queue k → EntryOk cfg s.nextNum k x
  sound : ∀ {key l}, s.index key = some l →
    ∃ x, x ∈ s.queue l.level ∧ x.num = l.num ∧ x.order.key = key
  accounts : ∀ c, openOrders s.clients c =
    weigh levels s.queue (fun x => ofClient c x.order)
  limit : ∀ c, openOrders s.clients c ≤ 1000
  room : s.resting ≤ cfg.capacity

theorem tickOf_lt
    {cfg : Config} {price : UInt64} {t : Nat}
    (h : tickOf cfg price = some t) :
    t < numTicks := by
  unfold tickOf at h
  split_ifs at h with h1
  dsimp only at h
  split_ifs at h with h2
  rw [Option.some.injEq] at h
  omega

/-- The price of a tick is at most the prices that have the tick. -/
theorem tick_mul_le
    {cfg : Config} {price : UInt64} {t : Nat}
    (h : tickOf cfg price = some t) :
    cfg.basePrice.toNat + t * cfg.tickSize.toNat ≤ price.toNat := by
  unfold tickOf at h
  split_ifs at h with hlow
  dsimp only at h
  split_ifs at h
  obtain rfl := Option.some.inj h
  rw [not_or, UInt64.lt_iff_toNat_lt, Nat.not_lt] at hlow
  obtain ⟨hlow, -⟩ := hlow
  have hle : cfg.basePrice ≤ price := UInt64.le_iff_toNat_le.mpr hlow
  rw [UInt64.toNat_div, UInt64.toNat_sub_of_le _ _ hle]
  have := Nat.div_mul_le_self (price.toNat - cfg.basePrice.toNat) cfg.tickSize.toNat
  omega

theorem toNat_ofNat_tick
    {t : Nat}
    (h : t < numTicks) :
    (UInt64.ofNat t).toNat = t := by
  rw [numTicks_eq] at h
  rw [UInt64.toNat_ofNat']
  exact Nat.mod_eq_of_lt (by omega)

/-- The price of a tick that holds an order, as a number. -/
theorem toNat_priceOf
    {cfg : Config} {price : UInt64} {t : Nat}
    (h : tickOf cfg price = some t) :
    (priceOf cfg t).toNat =
      cfg.basePrice.toNat + t * cfg.tickSize.toNat := by
  have ht := tickOf_lt h
  have hle := tick_mul_le h
  have hlt := price.toNat_lt
  rw [priceOf, UInt64.toNat_add, UInt64.toNat_mul, toNat_ofNat_tick ht,
    Nat.mod_eq_of_lt (a := t * _) (by omega), Nat.mod_eq_of_lt (by omega)]

theorem EntryOk.mem_levels
    {cfg : Config} {n : Nat} {k : Level} {x : Entry}
    (h : EntryOk cfg n k x) :
    k ∈ levels :=
  PriceTime.mem_levels.mpr (tickOf_lt h.tick)

section Accounts

variable {clients : Clients} {c c' : UInt64}

theorem accountOf_update
    {ac : ClientAccount} :
    accountOf (Function.update clients c (some ac)) c' =
      if c' = c then ac else accountOf clients c' := by
  unfold accountOf
  by_cases h : c' = c
  · subst h
    simp
  · simp [h]

@[simp] theorem accountOf_account
    {s : State} :
    accountOf (s.account c).clients c' = accountOf s.clients c' := by
  rw [State.account, accountOf_update]
  split_ifs with h
  · rw [h]
  · rfl

theorem openOrders_closeAccount_of_ne
    (h : c' ≠ c) :
    openOrders (closeAccount clients c) c' = openOrders clients c' := by
  unfold closeAccount
  cases clients c with
  | none => rfl
  | some ac => rw [openOrders, accountOf_update, if_neg h, openOrders]

/-- Closing an order of a client that has one takes one off its count. -/
theorem openOrders_closeAccount_self
    (h : 0 < openOrders clients c) :
    openOrders (closeAccount clients c) c + 1 = openOrders clients c := by
  cases hc : clients c with
  | none =>
      have : accountOf clients c = default := by simp [accountOf, hc]
      rw [openOrders, this] at h
      exact absurd h (by decide)
  | some ac =>
      have hac : accountOf clients c = ac := by simp [accountOf, hc]
      rw [openOrders, hac] at h
      have hlt : ¬ ac.openOrders < 1 := by
        rw [UInt32.lt_iff_toNat_lt]
        simp only [UInt32.toNat_one]
        omega
      have hle : (1 : UInt32) ≤ ac.openOrders := by
        rw [UInt32.le_iff_toNat_le]
        simp only [UInt32.toNat_one]
        omega
      rw [openOrders, openOrders, closeAccount, hc, hac]
      simp only [accountOf_update, if_true, if_neg hlt]
      rw [UInt32.toNat_sub_of_le _ _ hle]
      simp only [UInt32.toNat_one]
      omega

theorem openOrders_openAccount_of_ne
    (h : c' ≠ c) :
    openOrders (openAccount clients c) c' = openOrders clients c' := by
  rw [openOrders, openAccount, accountOf_update, if_neg h, openOrders]

/-- Opening an order adds one, as long as the count is in range. -/
theorem openOrders_openAccount_self
    (h : openOrders clients c < 1000) :
    openOrders (openAccount clients c) c = openOrders clients c + 1 := by
  unfold openOrders at h ⊢
  rw [openAccount, accountOf_update, if_pos rfl]
  simp only [UInt32.toNat_add, UInt32.toNat_one]
  omega

end Accounts

section Changes

variable {cfg : Config} {s : State} {k k' : Level} {x y : Entry}

theorem ofClient_self
    (o : Order) :
    ofClient o.clientId o = 1 :=
  if_pos rfl

theorem ofClient_of_ne
    {c : UInt64} {o : Order}
    (h : c ≠ o.clientId) :
    ofClient c o = 0 :=
  if_neg (Ne.symm h)

/-- The client of an entry has an open order. -/
theorem Consistent.openOrders_pos
    (h : Consistent cfg s) (hx : x ∈ s.queue k) :
    0 < openOrders s.clients x.order.clientId := by
  have hle := le_weigh (g := fun y => ofClient x.order.clientId y.order)
    (h.entry hx).mem_levels hx
  simp only [ofClient_self] at hle
  rw [h.accounts]
  omega

theorem Consistent.resting_leave
    (h : Consistent cfg s) (hx : x ∈ s.queue k) :
    (s.leave k x).resting + 1 = s.resting :=
  weigh_discard (g := fun _ => 1) h.distinct (h.entry hx).mem_levels hx

theorem Consistent.leave
    (h : Consistent cfg s) (hx : x ∈ s.queue k) :
    Consistent cfg (s.leave k x) := by
  have hk := (h.entry hx).mem_levels
  have hpos := h.openOrders_pos hx
  have hself := openOrders_closeAccount_self hpos
  refine ⟨h.distinct.discard, fun hy => h.entry (mem_discard.mp hy).1, ?_, ?_, ?_, ?_⟩
  · intro key l hl
    have hne : key ≠ x.order.key := by
      rintro rfl
      simp [State.leave] at hl
    obtain ⟨y, hy, hnum, hkey⟩ := h.sound (by simpa [State.leave, hne] using hl)
    refine ⟨y, (h.distinct.mem_discard hx).mpr ⟨hy, fun hyx => hne ?_⟩, hnum, hkey⟩
    rw [← hkey, h.distinct.eq hy hx hyx]
  · intro c
    have hw := weigh_discard (g := fun y => ofClient c y.order) h.distinct hk hx
    have hc := h.accounts c
    change openOrders (closeAccount s.clients x.order.clientId) c =
      weigh levels (discard Entry.num s.queue k x.num) _
    by_cases hcx : c = x.order.clientId
    · subst hcx
      rw [ofClient_self] at hw
      omega
    · rw [ofClient_of_ne hcx] at hw
      rw [openOrders_closeAccount_of_ne hcx]
      omega
  · intro c
    have hc := h.limit c
    change openOrders (closeAccount s.clients x.order.clientId) c ≤ 1000
    by_cases hcx : c = x.order.clientId
    · subst hcx
      omega
    · rw [openOrders_closeAccount_of_ne hcx]
      exact hc
  · have := h.resting_leave hx
    have := h.room
    omega

/-- A change of an order that keeps its name, its side and its price. -/
structure Keeps (f : Order → Order) : Prop where
  orderId : ∀ o, (f o).orderId = o.orderId
  clientId : ∀ o, (f o).clientId = o.clientId
  clientOrderId : ∀ o, (f o).clientOrderId = o.clientOrderId
  side : ∀ o, (f o).side = o.side
  price : ∀ o, (f o).price = o.price

theorem keeps_filledBy (qty : UInt64) :
    Keeps (filledBy qty) :=
  ⟨fun _ => rfl, fun _ => rfl, fun _ => rfl, fun _ => rfl, fun _ => rfl⟩

theorem keeps_reducedTo (target : UInt64) :
    Keeps (reducedTo target) :=
  ⟨fun _ => rfl, fun _ => rfl, fun _ => rfl, fun _ => rfl, fun _ => rfl⟩

theorem Keeps.key
    {f : Order → Order} (hf : Keeps f) (o : Order) :
    (f o).key = o.key := by
  rw [Order.key, hf.clientId, hf.clientOrderId, Order.key]

/-- The entries after a change: the other ones, and the changed one. -/
theorem mem_change
    {f : Order → Order}
    (h : Distinct Entry.num s.queue) (hx : x ∈ s.queue k) :
    y ∈ (s.change k x f).queue k' ↔
      (y ∈ s.queue k' ∧ y.num ≠ x.num) ∨
        (k' = k ∧ y = { x with order := f x.order }) :=
  h.mem_revise hx

theorem Consistent.weigh_change
    {f : Order → Order} {g : Order → Nat}
    (h : Consistent cfg s) (hx : x ∈ s.queue k) :
    weigh levels (s.change k x f).queue (fun y => g y.order) + g x.order =
      weigh levels s.queue (fun y => g y.order) + g (f x.order) :=
  weigh_revise (g := fun y : Entry => g y.order)
    (f := fun y : Entry => { y with order := f y.order })
    h.distinct (h.entry hx).mem_levels hx

theorem Consistent.change
    {f : Order → Order}
    (h : Consistent cfg s) (hx : x ∈ s.queue k)
    (hf : Keeps f) (hpos : 0 < (f x.order).leavesQty) :
    Consistent cfg (s.change k x f) := by
  have hok := h.entry hx
  refine ⟨h.distinct.revise (fun _ => rfl), ?_, ?_, ?_, h.limit, ?_⟩
  · intro k' y hy
    rcases (mem_change h.distinct hx).mp hy with ⟨hy, -⟩ | ⟨rfl, rfl⟩
    · exact h.entry hy
    · exact
        { tick := by simpa only [hf.price] using hok.tick
          side := by simpa only [hf.side] using hok.side
          leaves := hpos
          id := by simpa only [hf.orderId] using hok.id
          num := hok.num }
  · intro key l hl
    obtain ⟨y, hy, hnum, hkey⟩ := h.sound hl
    by_cases hyx : y.num = x.num
    · obtain rfl := h.distinct.eq hy hx hyx
      refine ⟨{ y with order := f y.order },
        (mem_change h.distinct hx).mpr (Or.inr ⟨?_, rfl⟩), hnum, ?_⟩
      · exact h.distinct.same_key hy hx rfl
      · rw [hf.key, hkey]
    · exact ⟨y, (mem_change h.distinct hx).mpr (Or.inl ⟨hy, hyx⟩), hnum, hkey⟩
  · intro c
    have hw := h.weigh_change (f := f) (g := ofClient c) hx
    have hc := h.accounts c
    have hg : ofClient c (f x.order) = ofClient c x.order := by
      rw [ofClient, ofClient, hf.clientId]
    rw [hg] at hw
    change openOrders s.clients c = _
    omega
  · have hw := h.weigh_change (f := f) (g := fun _ => 1) hx
    have hr := h.room
    unfold State.resting at hr ⊢
    omega

/-- An order that is filled in part is left with something. -/
theorem Consistent.filledBy
    {qty : UInt64}
    (h : Consistent cfg s) (hx : x ∈ s.queue k) (hlt : qty < x.order.leavesQty) :
    Consistent cfg (s.change k x (PriceTime.filledBy qty)) := by
  refine h.change hx (keeps_filledBy qty) ?_
  change 0 < x.order.leavesQty - qty
  rw [UInt64.lt_iff_toNat_lt, UInt64.toNat_sub_of_le _ _ (UInt64.le_of_lt hlt)]
  rw [UInt64.lt_iff_toNat_lt] at hlt
  simp only [UInt64.toNat_zero]
  omega

/-- A new entry rests. -/
theorem Consistent.rest
    (h : Consistent cfg s) (hok : EntryOk cfg s.nextNum k x)
    (hfresh : ∀ k' y, y ∈ s.queue k' → y.num ≠ x.num)
    (hroom : s.resting < cfg.capacity)
    (hopen : openOrders s.clients x.order.clientId < 1000) :
    Consistent cfg (s.rest k x) := by
  have hself := openOrders_openAccount_self hopen
  refine ⟨h.distinct.push hfresh, ?_, ?_, ?_, ?_, ?_⟩
  · intro k' y hy
    rcases mem_push.mp hy with hy | ⟨rfl, rfl⟩
    · exact h.entry hy
    · exact hok
  · intro key l hl
    by_cases hkey : key = x.order.key
    · subst hkey
      obtain rfl : { num := x.num, tick := k.2, side := k.1 } = l := by
        simpa [State.rest] using hl
      exact ⟨x, mem_push.mpr (Or.inr ⟨rfl, rfl⟩), rfl, rfl⟩
    · obtain ⟨y, hy, hnum, hyk⟩ := h.sound (by simpa [State.rest, hkey] using hl)
      exact ⟨y, mem_push.mpr (Or.inl hy), hnum, hyk⟩
  · intro c
    have hw := weigh_push (q := s.queue) (x := x)
      (g := fun y => ofClient c y.order) hok.mem_levels
    have hc := h.accounts c
    change openOrders (openAccount s.clients x.order.clientId) c =
      weigh levels (push s.queue k x) _
    rw [hw]
    by_cases hcx : c = x.order.clientId
    · subst hcx
      rw [ofClient_self]
      omega
    · rw [ofClient_of_ne hcx, openOrders_openAccount_of_ne hcx, Nat.add_zero]
      exact hc
  · intro c
    have hc := h.limit c
    change openOrders (openAccount s.clients x.order.clientId) c ≤ 1000
    by_cases hcx : c = x.order.clientId
    · subst hcx
      omega
    · rw [openOrders_openAccount_of_ne hcx]
      exact hc
  · have hw := weigh_push (q := s.queue) (x := x)
      (g := fun _ => 1) hok.mem_levels
    change weigh levels (push s.queue k x) _ ≤ _
    unfold State.resting at hroom
    omega

/-- An entry moves to another queue. -/
theorem Consistent.move
    {o : Order}
    (h : Consistent cfg s) (hx : x ∈ s.queue k)
    (hok : EntryOk cfg s.nextNum k' { num := x.num, order := o })
    (hkey : o.key = x.order.key) :
    Consistent cfg (s.move k x k' o) := by
  have hk := (h.entry hx).mem_levels
  have hfresh : ∀ k' y, y ∈ discard Entry.num s.queue k x.num k' → y.num ≠ x.num :=
    fun k' y hy => ((h.distinct.mem_discard hx).mp hy).2
  have hweigh : ∀ g : Entry → Nat,
      weigh levels (s.move k x k' o).queue g + g x =
        weigh levels s.queue g + g { num := x.num, order := o } := by
    intro g
    have h1 := weigh_discard (g := g) h.distinct hk hx
    have h2 := weigh_push (q := discard Entry.num s.queue k x.num)
      (x := { num := x.num, order := o }) (g := g) hok.mem_levels
    change weigh levels (push _ k' _) g + g x = _
    omega
  refine ⟨h.distinct.discard.push hfresh, ?_, ?_, ?_, h.limit, ?_⟩
  · intro k'' y hy
    rcases mem_push.mp hy with hy | ⟨rfl, rfl⟩
    · exact h.entry (mem_discard.mp hy).1
    · exact hok
  · intro key l hl
    by_cases hkx : key = x.order.key
    · subst hkx
      obtain rfl : { num := x.num, tick := k'.2, side := k'.1 } = l := by
        simpa [State.move] using hl
      exact ⟨_, mem_push.mpr (Or.inr ⟨rfl, rfl⟩), rfl, hkey⟩
    · obtain ⟨y, hy, hnum, hyk⟩ := h.sound (by simpa [State.move, hkx] using hl)
      have hne : y.num ≠ x.num := by
        intro hyx
        exact hkx (by rw [← hyk, h.distinct.eq hy hx hyx])
      exact ⟨y, mem_push.mpr (Or.inl ((h.distinct.mem_discard hx).mpr ⟨hy, hne⟩)), hnum, hyk⟩
  · intro c
    have hw := hweigh (fun y => ofClient c y.order)
    have hc := h.accounts c
    have hoc : o.clientId = x.order.clientId := congrArg Prod.fst hkey
    have hg : ofClient c o = ofClient c x.order := by
      rw [ofClient, ofClient, hoc]
    simp only [hg] at hw
    change openOrders s.clients c = _
    omega
  · have hw := hweigh (fun _ => 1)
    have hr := h.room
    unfold State.resting at hr ⊢
    omega

theorem Consistent.account
    (h : Consistent cfg s) (c : UInt64) :
    Consistent cfg (s.account c) := by
  have hopen : ∀ c', openOrders (s.account c).clients c' = openOrders s.clients c' := by
    intro c'
    rw [openOrders, openOrders, accountOf_account]
  exact
    { distinct := h.distinct
      entry := h.entry
      sound := h.sound
      accounts := fun c' => by rw [hopen, h.accounts]; rfl
      limit := fun c' => by rw [hopen]; exact h.limit c'
      room := h.room }

theorem Consistent.number
    (h : Consistent cfg s) :
    Consistent cfg s.number where
  distinct := h.distinct
  entry hx :=
    { h.entry hx with num := Nat.lt_succ_of_lt (h.entry hx).num }
  sound := h.sound
  accounts := h.accounts
  limit := h.limit
  room := h.room

theorem consistent_new
    (cfg : Config) :
    Consistent cfg State.new where
  distinct := Distinct.empty
  entry hx := by simp [State.new] at hx
  sound hl := by simp [State.new] at hl
  accounts c := by
    change openOrders _ c = weigh levels (fun _ => []) _
    rw [weigh_empty]
    rfl
  limit c := Nat.zero_le _
  room := by
    change weigh levels (fun _ => []) _ ≤ _
    rw [weigh_empty]
    exact Nat.zero_le _

end Changes

section Ids

variable {cfg : Config} {s : State} {k k' : Level} {x y : Entry}

/-- With fewer than `2 ^ 64` numbers handed out an entry is known by its order id. -/
theorem toNat_orderId
    (hc : Consistent cfg s) (hnum : s.nextNum ≤ 2 ^ 64) (hx : x ∈ s.queue k) :
    x.order.orderId.toNat = x.num := by
  have hok := hc.entry hx
  rw [hok.id, UInt64.toNat_ofNat']
  exact Nat.mod_eq_of_lt (lt_of_lt_of_le hok.num hnum)

theorem eq_of_orderId_eq
    (hc : Consistent cfg s) (hnum : s.nextNum ≤ 2 ^ 64)
    (hx : x ∈ s.queue k) (hy : y ∈ s.queue k') (heq : x.order.orderId = y.order.orderId) :
    x = y := by
  refine hc.distinct.eq hx hy ?_
  rw [← toNat_orderId hc hnum hx, ← toNat_orderId hc hnum hy, heq]

end Ids

end PriceTime
end LmaxEngine
