import LmaxEngine.Results.Lists
import LmaxEngine.Lib.Transition

/-!
# Generational ids

Any sequence of allocations and of frees on one arena, each free on the level for
which its slot was taken.  A slot's generation is the number of times it was freed,
so an id stays valid until its slot is freed and is not valid ever after, as long as
no slot is freed so often that its generation comes round.
-/

namespace LmaxEngine

open Checked Queues Arena Transition

universe u

/-- What a call on an arena did: an order was put into a slot under an id, or the
slot of an order was freed. -/
inductive ArenaEvent where
  | took (oid : OrderId) (o : Order)
  | freed (i : Nat)
deriving DecidableEq

def ArenaEvent.id? : ArenaEvent → Option OrderId
  | .took oid _ => some oid
  | .freed _ => none

/-- An arena, the levels of its lists, and the level for which each slot was last
taken. -/
structure Pool (κ : Type u) where
  arena : Arena
  level : κ → PriceLevel
  home : Nat → Option κ

namespace Pool

variable {κ : Type u}

def new (c : Nat) : Pool κ where
  arena := Arena.new c
  level := fun _ => PriceLevel.new
  home := fun _ => none

/-- The number of orders in the arena. -/
def live (p : Pool κ) : Nat :=
  p.arena.occupied (fun _ => true)

variable [DecidableEq κ]

/-- A call of `alloc_order` or of `free_order`.  The slot of an order is freed on the
level for which it was taken; a free slot may be freed on any. -/
inductive Step (p : Pool κ) : List ArenaEvent → Pool κ → Prop
  | took {k : κ} {o : Order} {oid : OrderId} {a : Arena} {pl : PriceLevel} :
      p.arena.allocOrder Build.release o (p.level k) = .ok (.ok oid, a, pl) →
      Step p [.took oid o]
        { arena := a
          level := Function.update p.level k pl
          home := Function.update p.home oid.index.toNat (some k) }
  | refused {k : κ} {o o' : Order} {a : Arena} {pl : PriceLevel} :
      p.arena.allocOrder Build.release o (p.level k) = .ok (.error o', a, pl) →
      Step p [] { p with arena := a, level := Function.update p.level k pl }
  | freed {k : κ} {i : Nat} {o : Order} {a : Arena} {pl : PriceLevel} :
      p.arena.orderAt i = some o →
      p.home i = some k →
      p.arena.freeOrder Build.release i (p.level k) = .ok (a, pl) →
      Step p [.freed i] { p with arena := a, level := Function.update p.level k pl }
  | idle {k : κ} {i : Nat} {a : Arena} {pl : PriceLevel} :
      p.arena.orderAt i = none →
      p.arena.freeOrder Build.release i (p.level k) = .ok (a, pl) →
      Step p [] { p with arena := a, level := Function.update p.level k pl }

/-- An id that was handed out after the history `pre` and before `post`: it has a
generation that counts the frees of its slot, and its order is in the slot unless
that was freed since. -/
structure Issued
    (c : Nat) (a : Arena) (pre post : List ArenaEvent) (oid : OrderId) (o : Order) : Prop where
  index : oid.index.toNat < c
  generation : oid.generation = UInt32.ofNat (pre.count (.freed oid.index.toNat))
  kept : .freed oid.index.toNat ∉ post → a.orderAt oid.index.toNat = some o

/-- What a history says about a pool of `c` slots.  The slot of every order stands in
the list of the level for which it was taken, the generation of a slot counts the
times it was freed, and no id was handed out twice. -/
structure Follows
    (c : Nat) (log : List ArenaEvent) (p : Pool κ) (slots : κ → List Nat) (free : List Nat) :
    Prop where
  levels : p.arena.Levels p.level slots free
  home : ∀ {k i}, i ∈ slots k → p.home i = some k
  covered : ∀ {i o}, p.arena.orderAt i = some o → ∃ k, i ∈ slots k
  size : p.arena.orderStore.size = c
  generation : ∀ i, i < c →
    (shape p.arena.orderStore).generation i = some (UInt32.ofNat (log.count (.freed i)))
  issued : ∀ {pre oid o post}, log = pre ++ .took oid o :: post →
    Issued c p.arena pre post oid o
  distinct : (log.filterMap ArenaEvent.id?).Nodup

section Histories

variable {c : Nat} {log : List ArenaEvent} {p p' : Pool κ} {slots : κ → List Nat}
variable {free : List Nat} {pre post : List ArenaEvent} {oid : OrderId} {i : Nat} {o : Order}

omit [DecidableEq κ] in
theorem follows_new
    (hpos : 1 ≤ c) (hlt : c < 2 ^ 32) :
    (Pool.new c : Pool κ).Follows c [] (fun _ => []) (List.range' 0 c) := by
  have hsize : (Arena.new c).orderStore.size = c :=
    @OrderBook.size_new { smallConfig with capacity := c } hpos
  have hslot : ∀ i, i < c → ∃ n, (Arena.new c).orderStore[i]? = some (Slot.newFree n) :=
    fun i hi => ⟨_, @OrderBook.getElem?_new { smallConfig with capacity := c } i hi⟩
  refine
    { levels := Arena.levels_new hpos hlt
      home := fun hi => absurd hi List.not_mem_nil
      covered := fun {i o} ho => ?_
      size := hsize
      generation := fun i hi => ?_
      issued := fun hlog => absurd hlog (by simp)
      distinct := List.nodup_nil }
  · obtain ⟨generation, prev, next, hocc⟩ := slot_of_order ((orderAt_eq _ i).symm.trans ho)
    have hi : i < c := hsize ▸ lt_size hocc
    obtain ⟨n, hfree⟩ := hslot i hi
    exact absurd (hocc.symm.trans hfree) (by simp [Slot.newFree])
  · obtain ⟨n, hfree⟩ := hslot i hi
    change ((Arena.new c).orderStore[i]?).map Slot.generation = _
    rw [hfree]
    rfl

omit [DecidableEq κ] in
/-- The generation of a slot that was freed since has moved on. -/
theorem Follows.generation_ne
    (h : p.Follows c log slots free) (hfrees : ∀ i, log.count (.freed i) < 2 ^ 32)
    (hlog : log = pre ++ .took oid o :: post) (hmem : .freed oid.index.toNat ∈ post) :
    (shape p.arena.orderStore).generation oid.index.toNat ≠ some oid.generation := by
  have hissued := h.issued hlog
  have hpos := List.count_pos_iff.mpr hmem
  have hbound := hfrees oid.index.toNat
  rw [h.generation _ hissued.index, hissued.generation, ne_eq, Option.some.injEq,
    ← UInt32.toNat_inj, UInt32.toNat_ofNat', UInt32.toNat_ofNat']
  rw [hlog, List.count_append, List.count_cons_of_ne (by simp)] at hbound ⊢
  rw [Nat.mod_eq_of_lt hbound, Nat.mod_eq_of_lt (by omega)]
  omega

omit [DecidableEq κ] in
/-- The id that a free slot is handed out under is new. -/
theorem Follows.fresh
    (h : p.Follows c log slots free) (hfrees : ∀ i, log.count (.freed i) < 2 ^ 32)
    (hnone : p.arena.orderAt oid.index.toNat = none)
    (hgen : (shape p.arena.orderStore).generation oid.index.toNat = some oid.generation) :
    oid ∉ log.filterMap ArenaEvent.id? := by
  intro hold
  obtain ⟨ev, hev, hid⟩ := List.mem_filterMap.mp hold
  obtain ⟨pre, post, hlog⟩ := List.append_of_mem hev
  cases ev with
  | freed j => exact absurd hid (by simp [ArenaEvent.id?])
  | took oid' o' =>
      obtain rfl := Option.some.inj hid
      by_cases hmem : .freed oid'.index.toNat ∈ post
      · exact h.generation_ne hfrees hlog hmem hgen
      · exact absurd (((h.issued hlog).kept hmem).symm.trans hnone) (by simp)

omit [DecidableEq κ] in
/-- An id that is issued stays so if a call leaves its order alone or frees its
slot. -/
theorem Issued.snoc
    {a a' : Arena} {ev : ArenaEvent}
    (h : Issued c a pre post oid o)
    (hkept : ev ≠ .freed oid.index.toNat → a.orderAt oid.index.toNat = some o →
      a'.orderAt oid.index.toNat = some o) :
    Issued c a' pre (post ++ [ev]) oid o where
  index := h.index
  generation := h.generation
  kept hmem := by
    rw [List.mem_append, List.mem_singleton, not_or] at hmem
    exact hkept (Ne.symm hmem.2) (h.kept hmem.1)

/-- A slot of a family with one list replaced. -/
theorem mem_update
    {k k' : κ} {xs : List Nat} :
    i ∈ Function.update slots k xs k' ↔ (k' = k ∧ i ∈ xs) ∨ (k' ≠ k ∧ i ∈ slots k') := by
  by_cases hk : k' = k
  · subst hk
    simp
  · simp [hk]

/-- An order is put into the first free slot. -/
theorem Follows.took
    {k : κ} {a : Arena} {pl : PriceLevel}
    (h : p.Follows c log slots free) (hlt : c < 2 ^ 32)
    (hfrees : ∀ i, log.count (.freed i) < 2 ^ 32)
    (halloc : p.arena.allocOrder Build.release o (p.level k) = .ok (.ok oid, a, pl)) :
    ∃ slots' free', Follows c (log ++ [.took oid o])
      { arena := a
        level := Function.update p.level k pl
        home := Function.update p.home oid.index.toNat (some k) } slots' free' := by
  cases free with
  | nil =>
      rw [h.levels.threads.allocOrder_full Build.release] at halloc
      exact absurd (Prod.mk.inj (Except.ok.inj halloc)).1 (by simp)
  | cons i fr =>
      obtain ⟨generation, a', pl', heq, hlevels, hgen, hshape, -⟩ := h.levels.allocOrder k o
      rw [heq, Except.ok.injEq, Prod.mk.injEq, Prod.mk.injEq, Except.ok.injEq] at halloc
      obtain ⟨rfl, rfl, rfl⟩ := halloc
      have hnone : p.arena.orderAt i = none := h.levels.orderAt_free List.mem_cons_self
      have hne : ∀ {j o'}, p.arena.orderAt j = some o' → j ≠ i := by
        rintro j o' ho rfl
        exact absurd (ho.symm.trans hnone) (by simp)
      have hi : i < c := by
        obtain ⟨slot, hslot, -⟩ := Option.map_eq_some_iff.mp hgen
        exact h.size ▸ lt_size hslot
      have hidx : (UInt32.ofNat i).toNat = i := by
        rw [UInt32.toNat_ofNat']
        exact Nat.mod_eq_of_lt (by omega)
      have hhome : ∀ {k' j}, j ∈ slots k' →
          Function.update p.home i (some k) j = some k' := by
        intro k' j hj
        obtain ⟨o', ho⟩ := h.levels.orderAt_mem hj
        rw [Function.update_of_ne (hne ho)]
        exact h.home hj
      obtain ⟨hself, hother⟩ := orderAt_taken hshape
      rw [hidx]
      refine ⟨_, fr,
        { levels := hlevels
          home := fun {k' j} hj => ?_
          covered := fun {j o'} ho => ?_
          size := (congrArg Shape.size hshape).trans h.size
          generation := fun j hj => ?_
          issued := fun {pre oid' o' post} hlog => ?_
          distinct := ?_ }⟩
      · rcases mem_update.mp hj with ⟨rfl, hj⟩ | ⟨-, hj⟩
        · rcases List.mem_append.mp hj with hj | hj
          · exact hhome hj
          · obtain rfl := List.mem_singleton.mp hj
            exact Function.update_self _ _ _
        · exact hhome hj
      · by_cases hj : j = i
        · exact ⟨k, mem_update.mpr (Or.inl ⟨rfl, by simp [hj]⟩)⟩
        · rw [hother j hj] at ho
          obtain ⟨k', hk'⟩ := h.covered ho
          refine ⟨k', mem_update.mpr ?_⟩
          by_cases hk : k' = k
          · exact Or.inl ⟨hk, List.mem_append_left _ (hk ▸ hk')⟩
          · exact Or.inr ⟨hk, hk'⟩
      · rw [congrArg Shape.generation hshape, List.count_append, List.count_cons_of_ne (by simp)]
        exact h.generation j hj
      · rcases split_append_singleton hlog with ⟨rfl, rfl, heq⟩ | ⟨post', rfl, rfl⟩
        · obtain ⟨rfl, rfl⟩ := ArenaEvent.took.inj heq
          refine ⟨by rwa [hidx], ?_, fun _ => by rwa [hidx]⟩
          rw [hidx]
          exact Option.some.inj (hgen.symm.trans (h.generation i hi))
        · exact (h.issued rfl).snoc fun _ ho => (hother _ (hne ho)).trans ho
      · rw [List.filterMap_append]
        refine List.nodup_append.mpr ⟨h.distinct, List.nodup_singleton _, ?_⟩
        rintro oid' hold oid'' hnew rfl
        obtain rfl := List.mem_singleton.mp hnew
        exact h.fresh hfrees (by rwa [hidx]) (by rwa [hidx]) hold

/-- The order of a slot is taken out of the list for which the slot was taken. -/
theorem Follows.freed
    {k : κ} {a : Arena} {pl : PriceLevel}
    (h : p.Follows c log slots free)
    (ho : p.arena.orderAt i = some o) (hhome : p.home i = some k)
    (hfree : p.arena.freeOrder Build.release i (p.level k) = .ok (a, pl)) :
    ∃ slots' free', Follows c (log ++ [.freed i])
      { p with arena := a, level := Function.update p.level k pl } slots' free' := by
  obtain ⟨k', hk'⟩ := h.covered ho
  obtain rfl : k' = k := Option.some.inj ((h.home hk').symm.trans hhome)
  obtain ⟨xs, ys, hslots⟩ := List.append_of_mem hk'
  obtain ⟨a', pl', heq, hlevels, ⟨prev, next, hshape⟩, -⟩ := h.levels.freeOrder hslots
  rw [heq, Except.ok.injEq, Prod.mk.injEq] at hfree
  obtain ⟨rfl, rfl⟩ := hfree
  obtain ⟨hnone, hother⟩ := orderAt_freed hshape
  refine ⟨_, i :: free,
    { levels := hlevels
      home := fun {k j} hj => ?_
      covered := fun {j o'} ho' => ?_
      size := (congrArg Shape.size hshape).trans h.size
      generation := fun j hj => ?_
      issued := fun {pre oid o' post} hlog => ?_
      distinct := ?_ }⟩
  · rcases mem_update.mp hj with ⟨rfl, hrest⟩ | ⟨-, hrest⟩
    · refine h.home (hslots ▸ ?_)
      rcases List.mem_append.mp hrest with hleft | hright
      · exact List.mem_append_left _ hleft
      · exact List.mem_append_right _ (List.mem_cons_of_mem i hright)
    · exact h.home hrest
  · have hne : j ≠ i := by
      rintro rfl
      exact absurd (ho'.symm.trans hnone) (by simp)
    rw [hother j hne] at ho'
    obtain ⟨k, hk⟩ := h.covered ho'
    refine ⟨k, mem_update.mpr ?_⟩
    by_cases hkk : k = k'
    · subst hkk
      rw [hslots, List.mem_append, List.mem_cons, or_iff_right hne, ← List.mem_append] at hk
      exact Or.inl ⟨rfl, hk⟩
    · exact Or.inr ⟨hkk, hk⟩
  · rw [congrArg Shape.generation hshape, List.count_append, Shape.freed]
    dsimp only
    by_cases hji : j = i
    · subst hji
      rw [Function.update_self, h.generation j hj, List.count_singleton_self, UInt32.ofNat_add]
      rfl
    · rw [Function.update_of_ne hji, h.generation j hj,
        List.count_singleton, if_neg (by simpa using fun he => hji he.symm), Nat.add_zero]
  · rcases split_append_singleton hlog with ⟨-, -, he⟩ | ⟨post', rfl, rfl⟩
    · exact absurd he (by simp)
    · refine (h.issued rfl).snoc fun hne ho' => (hother _ ?_).trans ho'
      rintro rfl
      exact hne rfl
  · rw [List.filterMap_append,
      show [ArenaEvent.freed i].filterMap ArenaEvent.id? = [] from rfl, List.append_nil]
    exact h.distinct

/-- **One call keeps what the history says.** -/
theorem Follows.step
    {es : List ArenaEvent}
    (h : p.Follows c log slots free) (hlt : c < 2 ^ 32)
    (hfrees : ∀ i, log.count (.freed i) < 2 ^ 32) (hstep : Step p es p') :
    ∃ slots' free', p'.Follows c (log ++ es) slots' free' := by
  cases hstep with
  | took halloc => exact h.took hlt hfrees halloc
  | refused halloc =>
      cases free with
      | nil =>
          rw [h.levels.threads.allocOrder_full Build.release, Except.ok.injEq, Prod.mk.injEq,
            Prod.mk.injEq] at halloc
          obtain ⟨-, rfl, rfl⟩ := halloc
          rw [Function.update_eq_self, List.append_nil]
          exact ⟨slots, [], h⟩
      | cons i fr =>
          obtain ⟨generation, a', pl', heq, -⟩ := h.levels.allocOrder _ _
          rw [heq] at halloc
          exact absurd (Prod.mk.inj (Except.ok.inj halloc)).1 (by simp)
  | freed ho hhome hfree => exact h.freed ho hhome hfree
  | @idle k i a pl hnone hfree =>
      obtain ⟨⟨generation, state⟩, hslot, -⟩ := bind_eq_ok.mp hfree
      rw [ix_eq_ok] at hslot
      cases state with
      | occupied o prev next => exact absurd hnone (by simp [orderAt, hslot])
      | free nextFree =>
          rw [freeOrder_idle hslot, Except.ok.injEq, Prod.mk.injEq] at hfree
          obtain ⟨rfl, rfl⟩ := hfree
          rw [Function.update_eq_self, List.append_nil]
          exact ⟨slots, free, h⟩

omit [DecidableEq κ] in
/-- All slots hold orders exactly when none is free. -/
theorem Follows.live_eq_iff
    (h : p.Follows c log slots free) :
    p.live = c ↔ free = [] := by
  rw [live, Arena.occupied, h.size]
  have hcard : ((Finset.range c).filter
      (fun i => (p.arena.orderAt i).any (fun _ => true))).card = c ↔
      ∀ i, i ∈ Finset.range c → (p.arena.orderAt i).any (fun _ => true) = true := by
    conv_lhs => rhs; rw [← Finset.card_range c]
    exact Finset.card_filter_eq_iff
  rw [hcard]
  constructor
  · intro hall
    refine List.eq_nil_iff_forall_not_mem.mpr fun i hi => ?_
    obtain ⟨generation, nextFree, hslot⟩ := (h.levels.freeList.mem_iff i).mp hi
    have hsome := hall i (Finset.mem_range.mpr (h.size ▸ lt_size hslot))
    rw [h.levels.orderAt_free hi] at hsome
    exact absurd hsome (by simp)
  · rintro rfl i hi
    have hlt : i < p.arena.orderStore.size := by
      rw [h.size]
      exact Finset.mem_range.mp hi
    obtain ⟨⟨generation, state⟩, hslot⟩ :
        ∃ slot, p.arena.orderStore[i]? = some slot :=
      ⟨_, Array.getElem?_eq_getElem hlt⟩
    cases state with
    | occupied o prev next =>
        rw [orderAt, hslot]
        rfl
    | free nextFree =>
        exact absurd ((h.levels.freeList.mem_iff i).mpr ⟨generation, nextFree, hslot⟩)
          List.not_mem_nil

omit [DecidableEq κ] in
/-- What an id validates to depends on whether its slot was freed since. -/
theorem Follows.validate
    (h : p.Follows c log slots free) (hfrees : ∀ i, log.count (.freed i) < 2 ^ 32)
    (hlog : log = pre ++ .took oid o :: post) :
    if .freed oid.index.toNat ∈ post then p.arena.validate oid = .ok none
    else p.arena.validate oid = .ok (some oid.index.toNat) ∧
      p.arena.orderAt oid.index.toNat = some o := by
  have hissued := h.issued hlog
  have hlt : ¬ p.arena.orderStore.size ≤ oid.index.toNat := by
    rw [h.size]
    exact Nat.not_le.mpr hissued.index
  split_ifs with hmem
  · obtain ⟨slot, hslot, hgen⟩ :=
      Option.map_eq_some_iff.mp (h.generation _ hissued.index)
    have hne : slot.generation ≠ oid.generation := by
      intro heq
      refine h.generation_ne hfrees hlog hmem ?_
      rw [h.generation _ hissued.index, ← hgen, heq]
    rw [Arena.validate, if_neg hlt, ix_eq hslot, ok_bind, if_pos hne]
  · have ho := hissued.kept hmem
    refine ⟨?_, ho⟩
    obtain ⟨generation, prev, next, hslot⟩ := slot_of_order ((orderAt_eq _ _).symm.trans ho)
    -- the slot was not freed, so its generation is the one of the id
    have hgen : generation = oid.generation := by
      have hnow := h.generation _ hissued.index
      rw [hlog, List.count_append, List.count_cons_of_ne (by simp),
        List.count_eq_zero.mpr hmem, Nat.add_zero, ← hissued.generation] at hnow
      simpa [shape, hslot] using hnow
    rw [Arena.validate, if_neg hlt, ix_eq hslot, ok_bind, if_neg (not_not.mpr hgen)]

/-- A run of calls keeps what its history says. -/
theorem follows_of_trail
    (hpos : 1 ≤ c) (hlt : c < 2 ^ 32)
    (hrun : Trail Step (Pool.new c : Pool κ) log p)
    (hfrees : ∀ i, log.count (.freed i) < 2 ^ 32) :
    ∃ slots free, p.Follows c log slots free := by
  have hinv := hrun.invariant
    (P := fun hist p => (∀ i, hist.count (.freed i) < 2 ^ 32) →
      ∃ slots free, p.Follows c hist slots free)
    (fun {hist s es t} hs hstep hbound => by
      have hbefore : ∀ i, hist.count (.freed i) < 2 ^ 32 := by
        intro i
        have := hbound i
        rw [List.count_append] at this
        omega
      obtain ⟨slots, free, h⟩ := hs hbefore
      exact h.step hlt hbefore hstep)
    [] fun _ => ⟨_, _, follows_new hpos hlt⟩
  exact hinv hfrees

/-- **Generational ids are safe to reuse.**  After any run of calls on a new arena of
`c` slots in which no slot is freed `2 ^ 32` times: an id that was handed out
validates to its slot, with its order in it, if the slot was not freed since, and to
nothing otherwise; no id was handed out twice; and an allocation gives the order
back, with the arena and the level as they were, exactly when `c` orders are
live. -/
theorem ids_safe
    (hpos : 1 ≤ c) (hlt : c < 2 ^ 32)
    (hrun : Trail Step (Pool.new c : Pool κ) log p)
    (hfrees : ∀ i, log.count (.freed i) < 2 ^ 32) :
    (∀ pre oid o post, log = pre ++ .took oid o :: post →
        if .freed oid.index.toNat ∈ post then p.arena.validate oid = .ok none
        else p.arena.validate oid = .ok (some oid.index.toNat) ∧
          p.arena.orderAt oid.index.toNat = some o) ∧
      (log.filterMap ArenaEvent.id?).Nodup ∧
      ∀ k o,
        (p.live = c →
          p.arena.allocOrder Build.release o (p.level k) =
            .ok (.error o, p.arena, p.level k)) ∧
        (p.live ≠ c → ∃ oid a pl,
          p.arena.allocOrder Build.release o (p.level k) = .ok (.ok oid, a, pl)) := by
  obtain ⟨slots, free, h⟩ := follows_of_trail hpos hlt hrun hfrees
  refine ⟨fun pre oid o post hlog => h.validate hfrees hlog, h.distinct, fun k o => ⟨?_, ?_⟩⟩
  · intro hlive
    obtain rfl := h.live_eq_iff.mp hlive
    exact h.levels.threads.allocOrder_full Build.release
  · intro hlive
    obtain ⟨i, fr, rfl⟩ := List.exists_cons_of_ne_nil (mt h.live_eq_iff.mpr hlive)
    obtain ⟨generation, a, pl, halloc, -⟩ := h.levels.allocOrder k o
    exact ⟨_, a, pl, halloc⟩

end Histories

/-- A slot is taken, freed and taken again: the first id is stale, the second is
not. -/
theorem ids_safe_someOrder :
    ∃ p : Pool Unit,
      Trail Step (Pool.new 2)
        [.took ⟨0, 0⟩ someOrder, .freed 0, .took ⟨0, 1⟩ someOrder] p ∧
      p.arena.validate ⟨0, 0⟩ = .ok none ∧ p.arena.validate ⟨0, 1⟩ = .ok (some 0) := by
  have htook : Step (Pool.new 2 : Pool Unit) [.took ⟨0, 0⟩ someOrder] _ :=
    @Step.took _ _ _ () someOrder ⟨0, 0⟩ _ _ rfl
  have hfreed := (Trail.single htook).tail (@Step.freed _ _ _ () 0 someOrder _ _ rfl rfl rfl)
  have hagain := hfreed.tail (@Step.took _ _ _ () someOrder ⟨0, 1⟩ _ _ rfl)
  obtain ⟨hids, -, -⟩ := ids_safe (by decide) (by decide) hagain fun i =>
    Nat.lt_of_le_of_lt List.count_le_length (by decide)
  have hold := hids [] ⟨0, 0⟩ someOrder [.freed 0, .took ⟨0, 1⟩ someOrder] rfl
  have hnew := hids [.took ⟨0, 0⟩ someOrder, .freed 0] ⟨0, 1⟩ someOrder [] rfl
  exact ⟨_, hagain, hold, hnew.1⟩

end Pool
end LmaxEngine
