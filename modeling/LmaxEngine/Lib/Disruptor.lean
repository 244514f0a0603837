import Mathlib.Logic.Relation
import LmaxEngine.Lib.Sequencing
import LmaxEngine.Lib.Transition

/-!
# Disruptors

One producer and some consumers on a ring of cells.  The producer fills a cell
for each item of a list.  A consumer visits the cells in order: it waits behind a
barrier until the counters of others are there, accesses the cell once or several
times, and stores its own counter.  The producer waits until the counter of one
consumer, the gate, is at most the ring behind.

Who waits for whom is the wiring.  A consumer finds the item with the number that
it waits for if it is downstream of the producer and upstream of the gate.  What
it finds in the cell is subject to a rule that the user gives: what a cell holds,
for an item and the consumers that are through with it.
-/

namespace LmaxEngine
namespace Disruptor

open Sequencing Transition

universe u v w x

/-- Who waits for whom; `none` is the producer. -/
structure Wiring (δ : Type u) where
  dependencies : δ → List (Option δ)
  gate : δ
  runs : δ → Prop

namespace Wiring

variable {δ : Type u}

/-- One consumer waits for another, directly or through others. -/
def Upstream (wiring : Wiring δ) : δ → δ → Prop :=
  Relation.ReflTransGen fun d c => some d ∈ wiring.dependencies c

/-- A consumer waits for the producer. -/
def Fed (wiring : Wiring δ) (c : δ) : Prop :=
  ∃ d, none ∈ wiring.dependencies d ∧ wiring.Upstream d c

/-- The producer waits for a consumer. -/
def Gated (wiring : Wiring δ) (c : δ) : Prop :=
  wiring.Upstream c wiring.gate

/-- Every consumer that runs is between the producer and the gate. -/
structure Sound (wiring : Wiring δ) : Prop where
  fed : ∀ c, wiring.runs c → wiring.Fed c
  gated : ∀ c, wiring.runs c → wiring.Gated c

end Wiring

/-- The ring, and what is done to its cells. -/
structure Machine (δ : Type u) (α : Type v) (β : Type w) (μ : Type x) where
  index : Int → Nat
  size : Int
  /-- What a barrier without counters answers. -/
  top : Int
  /-- What the producer writes. -/
  fill : α → β
  /-- What a consumer has in mind when it comes to a cell. -/
  start : δ → μ
  /-- An access: what is left in the cell, and what the consumer has in mind then
  unless it is through. -/
  visit : δ → μ → β → β × Option μ

inductive ProducerPhase where
  | claiming
  /-- The cell is to be filled. -/
  | claimed (n : Int)
  /-- The counter is to be stored. -/
  | written (n : Int)
deriving DecidableEq, Repr

inductive Phase (δ : Type u) (μ : Type x) where
  | idle
  | waiting (next : Int) (scan : Scan (Option δ))
  | visiting (n : Int) (memory : μ)
  /-- The counter is to be stored. -/
  | leaving (n : Int)

structure State (δ : Type u) (β : Type w) (μ : Type x) where
  cells : Nat → Option β
  nextSeq : Int
  producer : ProducerPhase
  sequence : Option δ → Int
  consumer : δ → Phase δ μ

/-- What a consumer finds in a cell at its last access. -/
structure Visit (δ : Type u) (β : Type w) where
  consumer : δ
  number : Int
  found : β

section Steps

variable {δ : Type u} {α : Type v} {β : Type w} {μ : Type x}

def State.new : State δ β μ where
  cells := fun _ => none
  nextSeq := 0
  producer := .claiming
  sequence := fun _ => -1
  consumer := fun _ => .idle

variable [DecidableEq δ]

def State.enter (s : State δ β μ) (c : δ) (phase : Phase δ μ) : State δ β μ :=
  { s with consumer := Function.update s.consumer c phase }

def State.store (s : State δ β μ) (d : Option δ) (n : Int) : State δ β μ :=
  { s with sequence := Function.update s.sequence d n }

def State.write (s : State δ β μ) (i : Nat) (b : β) : State δ β μ :=
  { s with cells := Function.update s.cells i (some b) }

@[simp] theorem State.enter_self
    (s : State δ β μ) (c : δ) (phase : Phase δ μ) :
    (s.enter c phase).consumer c = phase := by
  simp [State.enter]

theorem State.enter_of_ne
    {s : State δ β μ} {c c' : δ} {phase : Phase δ μ} (h : c' ≠ c) :
    (s.enter c phase).consumer c' = s.consumer c' := by
  simp [State.enter, h]

@[simp] theorem State.store_self
    (s : State δ β μ) (d : Option δ) (n : Int) :
    (s.store d n).sequence d = n := by
  simp [State.store]

theorem State.store_of_ne
    {s : State δ β μ} {d d' : Option δ} {n : Int} (h : d' ≠ d) :
    (s.store d n).sequence d' = s.sequence d' := by
  simp [State.store, h]

omit [DecidableEq δ] in
/-- A cell that is written as it was. -/
theorem State.write_self
    {s : State δ β μ} {i : Nat} {b : β} (h : s.cells i = some b) :
    s.write i b = s := by
  rw [State.write, ← h, Function.update_eq_self]

inductive Step (wiring : Wiring δ) (machine : Machine δ α β μ) (items : List α) :
    State δ β μ → List (Visit δ β) → State δ β μ → Prop
  | claim {s : State δ β μ}
      (hphase : s.producer = .claiming)
      (hmore : s.nextSeq < items.length)
      (hgate : s.nextSeq - machine.size ≤ s.sequence (some wiring.gate)) :
      Step wiring machine items s []
        { s with producer := .claimed s.nextSeq, nextSeq := s.nextSeq + 1 }
  | fill {s : State δ β μ} {n : Int} {a : α}
      (hphase : s.producer = .claimed n)
      (hitem : items[n.toNat]? = some a) :
      Step wiring machine items s []
        { s.write (machine.index n) (machine.fill a) with producer := .written n }
  | publish {s : State δ β μ} {n : Int}
      (hphase : s.producer = .written n) :
      Step wiring machine items s [] { s.store none n with producer := .claiming }
  | begin {s : State δ β μ} (c : δ)
      (hruns : wiring.runs c)
      (hphase : s.consumer c = .idle) :
      Step wiring machine items s []
        (s.enter c
          (.waiting (s.sequence (some c) + 1) (Scan.start (wiring.dependencies c))))
  | look {s : State δ β μ} {next : Int} {scan : Scan (Option δ)} {d : Option δ}
      {rest : List (Option δ)} (c : δ)
      (hphase : s.consumer c = .waiting next scan)
      (hrest : scan.rest = d :: rest) :
      Step wiring machine items s []
        (s.enter c (.waiting next (scan.read (s.sequence d))))
  | pass {s : State δ β μ} {next : Int} {scan : Scan (Option δ)} (c : δ)
      (hphase : s.consumer c = .waiting next scan)
      (hrest : scan.rest = [])
      (hmin : next ≤ scan.least.getD machine.top) :
      Step wiring machine items s [] (s.enter c (.visiting next (machine.start c)))
  | retry {s : State δ β μ} {next : Int} {scan : Scan (Option δ)} (c : δ)
      (hphase : s.consumer c = .waiting next scan)
      (hrest : scan.rest = [])
      (hmin : scan.least.getD machine.top < next) :
      Step wiring machine items s []
        (s.enter c (.waiting next (Scan.start (wiring.dependencies c))))
  | visit {s : State δ β μ} {n : Int} {memory memory' : μ} {b b' : β} (c : δ)
      (hphase : s.consumer c = .visiting n memory)
      (hcell : s.cells (machine.index n) = some b)
      (hvisit : machine.visit c memory b = (b', some memory')) :
      Step wiring machine items s []
        ((s.write (machine.index n) b').enter c (.visiting n memory'))
  | leave {s : State δ β μ} {n : Int} {memory : μ} {b b' : β} (c : δ)
      (hphase : s.consumer c = .visiting n memory)
      (hcell : s.cells (machine.index n) = some b)
      (hvisit : machine.visit c memory b = (b', none)) :
      Step wiring machine items s [{ consumer := c, number := n, found := b }]
        ((s.write (machine.index n) b').enter c (.leaving n))
  | advance {s : State δ β μ} {n : Int} (c : δ)
      (hphase : s.consumer c = .leaving n) :
      Step wiring machine items s [] ((s.store (some c) n).enter c .idle)

end Steps

/-- What the counters say about the phase of a consumer. -/
def PhaseOk
    {δ : Type u} {μ : Type x}
    (wiring : Wiring δ) (sequence : Option δ → Int) (c : δ) : Phase δ μ → Prop
  | .idle => True
  | .waiting next scan =>
      wiring.runs c ∧ next = sequence (some c) + 1 ∧
        scan.Covers (wiring.dependencies c) sequence ∧
        ∀ d, d ∈ scan.rest → d ∈ wiring.dependencies c
  | .visiting n _ =>
      wiring.runs c ∧ n = sequence (some c) + 1 ∧
        ∀ d, d ∈ wiring.dependencies c → n ≤ sequence d
  | .leaving n =>
      wiring.runs c ∧ n = sequence (some c) + 1 ∧
        ∀ d, d ∈ wiring.dependencies c → n ≤ sequence d

/-- What the counters say about the phase of the producer. -/
def ProducerOk (size nextSeq own gate : Int) : ProducerPhase → Prop
  | .claiming => own + 1 = nextSeq
  | .claimed n => own + 1 = n ∧ n + 1 = nextSeq ∧ n - size ≤ gate
  | .written n => own + 1 = n ∧ n + 1 = nextSeq ∧ n - size ≤ gate

/-- The invariant of the counters and the phases. -/
structure Ordered
    {δ : Type u} {α : Type v} {β : Type w} {μ : Type x}
    (wiring : Wiring δ) (machine : Machine δ α β μ) (items : List α) (s : State δ β μ) :
    Prop where
  producer : ProducerOk machine.size s.nextSeq (s.sequence none) (s.sequence (some wiring.gate))
    s.producer
  bound : s.nextSeq ≤ items.length
  start : ∀ d, -1 ≤ s.sequence d
  order : ∀ c d, d ∈ wiring.dependencies c → s.sequence (some c) ≤ s.sequence d
  gate : s.sequence none ≤ s.sequence (some wiring.gate) + machine.size
  consumer : ∀ c, PhaseOk wiring s.sequence c (s.consumer c)
  still : ∀ c, ¬ wiring.runs c → s.sequence (some c) = -1

section Order

variable {δ : Type u} {α : Type v} {β : Type w} {μ : Type x}
variable {wiring : Wiring δ} {machine : Machine δ α β μ} {items : List α}
variable {s t : State δ β μ} {c : δ} {d : Option δ} {n : Int} {phase : Phase δ μ}
variable {sequence sequence' : Option δ → Int} {es : List (Visit δ β)}

theorem ordered_new
    (hsize : 0 ≤ machine.size) :
    Ordered wiring machine items (State.new : State δ β μ) where
  producer := rfl
  bound := Int.natCast_nonneg _
  start _ := le_refl _
  order _ _ _ := le_refl _
  gate := by
    dsimp only [State.new]
    omega
  consumer _ := trivial
  still _ _ := rfl

theorem PhaseOk.mono
    (h : PhaseOk wiring sequence c phase)
    (hown : sequence' (some c) = sequence (some c))
    (hle : ∀ d, sequence d ≤ sequence' d) :
    PhaseOk wiring sequence' c phase := by
  cases phase with
  | idle => trivial
  | waiting next scan => exact ⟨h.1, by rw [hown]; exact h.2.1, h.2.2.1.mono hle, h.2.2.2⟩
  | visiting n memory =>
      exact ⟨h.1, by rw [hown]; exact h.2.1, fun d hd => (h.2.2 d hd).trans (hle d)⟩
  | leaving n =>
      exact ⟨h.1, by rw [hown]; exact h.2.1, fun d hd => (h.2.2 d hd).trans (hle d)⟩

theorem ProducerOk.mono
    {size nextSeq own gate gate' : Int} {phase : ProducerPhase}
    (h : ProducerOk size nextSeq own gate phase) (hle : gate ≤ gate') :
    ProducerOk size nextSeq own gate' phase := by
  cases phase with
  | claiming => exact h
  | claimed n => exact ⟨h.1, h.2.1, h.2.2.trans hle⟩
  | written n => exact ⟨h.1, h.2.1, h.2.2.trans hle⟩

/-- The counters of a chain of consumers are in order. -/
theorem Ordered.upstream_le
    {d : δ}
    (h : Ordered wiring machine items s) (hup : wiring.Upstream d c) :
    s.sequence (some c) ≤ s.sequence (some d) := by
  induction hup with
  | refl => exact le_refl _
  | tail _ hmem ih => exact (h.order _ _ hmem).trans ih

/-- A consumer that waits for the producer is not ahead of it. -/
theorem Ordered.fed_le
    (h : Ordered wiring machine items s) (hfed : wiring.Fed c) :
    s.sequence (some c) ≤ s.sequence none := by
  obtain ⟨d, hnone, hup⟩ := hfed
  exact (h.upstream_le hup).trans (h.order _ _ hnone)

/-- A consumer that the producer waits for is not ahead of its barrier either. -/
theorem Ordered.le_of_fed
    (h : Ordered wiring machine items s) (hfed : wiring.Fed c)
    (hdeps : ∀ d, d ∈ wiring.dependencies c → n ≤ s.sequence d) :
    n ≤ s.sequence none := by
  obtain ⟨d, hnone, hup⟩ := hfed
  rcases Relation.ReflTransGen.cases_tail hup with rfl | ⟨e, hde, hmem⟩
  · exact hdeps none hnone
  · exact (hdeps _ hmem).trans (h.fed_le ⟨d, hnone, hde⟩)

/-- Behind its barrier a consumer knows that all consumers upstream of it are there. -/
theorem Ordered.le_of_upstream
    {d : δ}
    (h : Ordered wiring machine items s) (hup : wiring.Upstream d c) (hne : d ≠ c)
    (hdeps : ∀ d, d ∈ wiring.dependencies c → n ≤ s.sequence d) :
    n ≤ s.sequence (some d) := by
  rcases Relation.ReflTransGen.cases_tail hup with rfl | ⟨e, hde, hmem⟩
  · exact absurd rfl hne
  · exact (hdeps _ hmem).trans (h.upstream_le hde)

variable [DecidableEq δ]

theorem Ordered.enter
    (h : Ordered wiring machine items s) (hphase : PhaseOk wiring s.sequence c phase) :
    Ordered wiring machine items (s.enter c phase) := by
  refine ⟨h.producer, h.bound, h.start, h.order, h.gate, fun c' => ?_, h.still⟩
  by_cases hc : c' = c
  · subst hc
    rwa [State.enter_self]
  · rw [State.enter_of_ne hc]
    exact h.consumer c'

omit [DecidableEq δ] in
theorem Ordered.write
    {i : Nat} {b : β}
    (h : Ordered wiring machine items s) :
    Ordered wiring machine items (s.write i b) :=
  ⟨h.producer, h.bound, h.start, h.order, h.gate, h.consumer, h.still⟩

theorem le_store
    (h : s.sequence d + 1 = n) (d' : Option δ) :
    s.sequence d' ≤ (s.store d n).sequence d' := by
  by_cases hd : d' = d
  · subst hd
    rw [State.store_self]
    omega
  · rw [State.store_of_ne hd]

theorem Ordered.publish
    (h : Ordered wiring machine items s) (hphase : s.producer = .written n) :
    Ordered wiring machine items { s.store none n with producer := .claiming } := by
  have hp := h.producer
  rw [hphase] at hp
  obtain ⟨hseq, hnext, hgate⟩ := hp
  have hle := le_store hseq
  have hown : ∀ c, (s.store none n).sequence (some c) = s.sequence (some c) :=
    fun c => State.store_of_ne (by simp)
  refine ⟨?_, h.bound, fun d => (h.start d).trans (hle d), ?_, ?_, ?_, ?_⟩
  · change (s.store none n).sequence none + 1 = s.nextSeq
    rw [State.store_self, hnext]
  · intro c d hd
    dsimp only
    rw [hown]
    exact (h.order c d hd).trans (hle d)
  · dsimp only
    rw [hown, State.store_self]
    omega
  · exact fun c => (h.consumer c).mono (hown c) hle
  · intro c hc
    dsimp only
    rw [hown]
    exact h.still c hc

theorem Ordered.advance
    (h : Ordered wiring machine items s) (hphase : s.consumer c = .leaving n) :
    Ordered wiring machine items ((s.store (some c) n).enter c .idle) := by
  have hc := h.consumer c
  rw [hphase] at hc
  obtain ⟨hruns, hnext, hdeps⟩ := hc
  have hle := le_store hnext.symm
  have hproducer : (s.store (some c) n).sequence none = s.sequence none :=
    State.store_of_ne (by simp)
  have hother : ∀ c', c' ≠ c →
      (s.store (some c) n).sequence (some c') = s.sequence (some c') :=
    fun c' hc' => State.store_of_ne (by simpa using hc')
  refine ⟨?_, h.bound, fun d => (h.start d).trans (hle d), ?_, ?_, ?_, ?_⟩
  · change ProducerOk _ _ ((s.store (some c) n).sequence none) _ _
    rw [hproducer]
    exact h.producer.mono (hle _)
  · intro c' d hd
    change (s.store (some c) n).sequence (some c') ≤ (s.store (some c) n).sequence d
    by_cases hc' : c' = c
    · subst hc'
      rw [State.store_self]
      exact (hdeps d hd).trans (hle d)
    · rw [hother c' hc']
      exact (h.order c' d hd).trans (hle d)
  · change (s.store (some c) n).sequence none ≤ (s.store (some c) n).sequence _ + _
    have hgate := h.gate
    have hgate' := hle (some wiring.gate)
    omega
  · intro c'
    change PhaseOk wiring (s.store (some c) n).sequence c' _
    by_cases hc' : c' = c
    · subst hc'
      rw [State.enter_self]
      trivial
    · rw [State.enter_of_ne hc']
      exact (h.consumer c').mono (hother c' hc') hle
  · intro c' hc'
    change (s.store (some c) n).sequence (some c') = -1
    rw [hother c' fun he => hc' (he ▸ hruns)]
    exact h.still c' hc'

/-- **Every step keeps the counters in order.** -/
theorem Step.ordered
    (hstep : Step wiring machine items s es t) (h : Ordered wiring machine items s) :
    Ordered wiring machine items t := by
  cases hstep with
  | claim hphase hmore hgate =>
      have hp := h.producer
      rw [hphase] at hp
      exact ⟨⟨hp, rfl, hgate⟩, Int.add_one_le_of_lt hmore, h.start, h.order, h.gate,
        h.consumer, h.still⟩
  | fill hphase hitem =>
      have hp := h.producer
      rw [hphase] at hp
      exact ⟨hp, h.bound, h.start, h.order, h.gate, h.consumer, h.still⟩
  | publish hphase => exact h.publish hphase
  | begin c hruns hphase =>
      exact h.enter ⟨hruns, rfl, Scan.covers_start _ _, fun _ hd => hd⟩
  | look c hphase hrest =>
      have hc := h.consumer c
      rw [hphase] at hc
      refine h.enter ⟨hc.1, hc.2.1, hc.2.2.1.read hrest, fun d hd => hc.2.2.2 d ?_⟩
      rw [Scan.read, hrest] at hd
      rw [hrest]
      exact List.mem_cons_of_mem _ hd
  | pass c hphase hrest hmin =>
      have hc := h.consumer c
      rw [hphase] at hc
      exact h.enter ⟨hc.1, hc.2.1, hc.2.2.1.le hrest hmin⟩
  | retry c hphase hrest hmin =>
      have hc := h.consumer c
      rw [hphase] at hc
      exact h.enter ⟨hc.1, hc.2.1, Scan.covers_start _ _, fun _ hd => hd⟩
  | visit c hphase hcell hvisit =>
      have hc := h.consumer c
      rw [hphase] at hc
      exact h.write.enter hc
  | leave c hphase hcell hvisit =>
      have hc := h.consumer c
      rw [hphase] at hc
      exact h.write.enter hc
  | advance c hphase => exact h.advance hphase

end Order

/-- The last number that a consumer in this phase is through with. -/
def doneIn {δ : Type u} {μ : Type x} (own : Int) : Phase δ μ → Int
  | .leaving n => n
  | _ => own

/-- The last number that a consumer is through with. -/
def State.done {δ : Type u} {β : Type w} {μ : Type x} (s : State δ β μ) (c : δ) : Int :=
  doneIn (s.sequence (some c)) (s.consumer c)

/-- The last number whose cell is filled. -/
def State.top {δ : Type u} {β : Type w} {μ : Type x} (s : State δ β μ) : Int :=
  match s.producer with
  | .written n => n
  | _ => s.sequence none

section Windows

variable {δ : Type u} {α : Type v} {β : Type w} {μ : Type x}
variable {wiring : Wiring δ} {machine : Machine δ α β μ} {items : List α}
variable {s t : State δ β μ} {c : δ} {n : Int} {memory : μ} {phase : Phase δ μ}

theorem Ordered.top_bounds
    (h : Ordered wiring machine items s) :
    s.sequence none ≤ s.top ∧ s.top < items.length ∧
      s.top ≤ s.sequence (some wiring.gate) + machine.size := by
  have hp := h.producer
  have hgate := h.gate
  have hbound := h.bound
  unfold State.top
  cases hphase : s.producer with
  | claiming =>
      rw [hphase] at hp
      dsimp only [ProducerOk] at hp ⊢
      omega
  | claimed n =>
      rw [hphase] at hp
      dsimp only [ProducerOk] at hp ⊢
      omega
  | written n =>
      rw [hphase] at hp
      dsimp only [ProducerOk] at hp ⊢
      omega

theorem Ordered.visiting
    (h : Ordered wiring machine items s) (hphase : s.consumer c = .visiting n memory) :
    wiring.runs c ∧ n = s.sequence (some c) + 1 ∧
      ∀ d, d ∈ wiring.dependencies c → n ≤ s.sequence d := by
  have hc := h.consumer c
  rwa [hphase] at hc

/-- **In a sound wiring no consumer is overtaken.**  The cell that a consumer visits
is filled for its number, and not yet for a later one. -/
theorem Ordered.in_window
    (h : Ordered wiring machine items s) (hsound : wiring.Sound)
    (hphase : s.consumer c = .visiting n memory) :
    0 ≤ n ∧ n ≤ s.top ∧ s.top < n + machine.size := by
  obtain ⟨hruns, hnext, hdeps⟩ := h.visiting hphase
  have hstart := h.start (some c)
  have hproducer := h.le_of_fed (hsound.fed c hruns) hdeps
  have hgate := h.upstream_le (hsound.gated c hruns)
  have htop := h.top_bounds
  omega

theorem Ordered.done_bounds
    (h : Ordered wiring machine items s) (hsound : wiring.Sound) (c : δ) :
    s.sequence (some c) ≤ s.done c ∧ s.done c ≤ s.sequence none := by
  have hc := h.consumer c
  have hle : s.sequence (some c) ≤ s.sequence none := by
    by_cases hruns : wiring.runs c
    · exact h.fed_le (hsound.fed c hruns)
    · rw [h.still c hruns]
      exact h.start none
  unfold State.done
  cases hphase : s.consumer c with
  | idle => exact ⟨le_refl _, hle⟩
  | waiting next scan => exact ⟨le_refl _, hle⟩
  | visiting n memory => exact ⟨le_refl _, hle⟩
  | leaving n =>
      rw [hphase] at hc
      have hproducer := h.le_of_fed (hsound.fed c hc.1) hc.2.2
      have hnext := hc.2.1
      dsimp only [doneIn]
      omega

variable [DecidableEq δ]

theorem done_enter
    {c' : δ}
    (hdone : c' = c →
      doneIn (s.sequence (some c)) phase = doneIn (s.sequence (some c)) (s.consumer c)) :
    (s.enter c phase).done c' = s.done c' := by
  by_cases hc : c' = c
  · subst hc
    rw [State.done, State.enter_self]
    exact hdone rfl
  · rw [State.done, State.enter_of_ne hc]
    rfl

theorem done_leave
    {b : β} {i : Nat}
    (c' : δ) :
    ((s.write i b).enter c (.leaving n)).done c' = if c' = c then n else s.done c' := by
  by_cases hc : c' = c
  · subst hc
    rw [State.done, State.enter_self, if_pos rfl]
    rfl
  · rw [State.done, State.enter_of_ne hc, if_neg hc]
    rfl

theorem done_advance
    (hphase : s.consumer c = .leaving n) (c' : δ) :
    ((s.store (some c) n).enter c .idle).done c' = s.done c' := by
  by_cases hc : c' = c
  · subst hc
    rw [State.done, State.enter_self, State.done, hphase]
    exact State.store_self s (some c') n
  · rw [State.done, State.enter_of_ne hc]
    change doneIn ((s.store (some c) n).sequence (some c')) (s.consumer c') = s.done c'
    rw [State.store_of_ne (by simpa using hc)]
    rfl

end Windows

/-- A consumer that is at a cell: those upstream of it are through. -/
def Ready {δ : Type u} (wiring : Wiring δ) (through : δ → Prop) (c : δ) : Prop :=
  wiring.runs c ∧ ¬ through c ∧ ∀ d, wiring.Upstream d c → d ≠ c → through d

/-- **The rule of visits.**  `Good` says what a cell holds for an item and the
consumers that are through with it, `Knows` what a consumer has in mind. -/
structure Rule
    {δ : Type u} {α : Type v} {β : Type w} {μ : Type x}
    (wiring : Wiring δ) (machine : Machine δ α β μ)
    (Good : (δ → Prop) → α → β → Prop) (Knows : δ → α → μ → Prop) : Prop where
  fill : ∀ a, Good (fun _ => False) a (machine.fill a)
  start : ∀ c a, Knows c a (machine.start c)
  visit : ∀ {through : δ → Prop} {c : δ} {a : α} {b b' : β} {memory memory' : μ},
    Ready wiring through c → Good through a b → Knows c a memory →
    machine.visit c memory b = (b', some memory') →
    Good through a b' ∧ Knows c a memory'
  leave : ∀ {through : δ → Prop} {c : δ} {a : α} {b b' : β} {memory : μ},
    Ready wiring through c → Good through a b → Knows c a memory →
    machine.visit c memory b = (b', none) →
    Good (fun d => through d ∨ d = c) a b'

/-- What the cell of a number holds. -/
def Content
    {δ : Type u} {α : Type v} {β : Type w} {μ : Type x}
    (Good : (δ → Prop) → α → β → Prop) (items : List α) (s : State δ β μ) (n : Int) (b : β) :
    Prop :=
  ∃ a, items[n.toNat]? = some a ∧ Good (fun d => n ≤ s.done d) a b

/-- The invariant of the cells: those of the last numbers hold their items. -/
structure Stored
    {δ : Type u} {α : Type v} {β : Type w} {μ : Type x}
    (machine : Machine δ α β μ) (items : List α)
    (Good : (δ → Prop) → α → β → Prop) (Knows : δ → α → μ → Prop) (s : State δ β μ) : Prop where
  cells : Holds machine.index s.cells (max 0 (s.top + 1 - machine.size)) s.top
    (Content Good items s)
  memory : ∀ {c n memory}, s.consumer c = .visiting n memory →
    ∃ a, items[n.toNat]? = some a ∧ Knows c a memory

section Cells

variable {δ : Type u} {α : Type v} {β : Type w} {μ : Type x}
variable {wiring : Wiring δ} {machine : Machine δ α β μ} {items : List α}
variable {Good : (δ → Prop) → α → β → Prop} {Knows : δ → α → μ → Prop}
variable {s t : State δ β μ} {c : δ} {n limit : Int} {memory memory' : μ} {phase : Phase δ μ}
variable {b b' : β} {es : List (Visit δ β)}

/-- What a consumer finds in the cell that it visits. -/
theorem Stored.visiting
    (h : Stored machine items Good Knows s) (hord : Ordered wiring machine items s)
    (hsound : wiring.Sound) (hphase : s.consumer c = .visiting n memory) :
    Ready wiring (fun d => n ≤ s.done d) c ∧
      ∃ a b, items[n.toNat]? = some a ∧ s.cells (machine.index n) = some b ∧
        Good (fun d => n ≤ s.done d) a b ∧ Knows c a memory := by
  obtain ⟨hruns, hnext, hdeps⟩ := hord.visiting hphase
  obtain ⟨hpos, hle, hlt⟩ := hord.in_window hsound hphase
  obtain ⟨b, hb, a, ha, hgood⟩ := h.cells n (by omega) hle
  obtain ⟨a', ha', hknows⟩ := h.memory hphase
  obtain rfl : a = a' := Option.some.inj (ha.symm.trans ha')
  refine ⟨⟨hruns, ?_, fun d hup hne => ?_⟩, a, b, ha, hb, hgood, hknows⟩
  · have hdone : s.done c = s.sequence (some c) := by
      rw [State.done, hphase]
      rfl
    dsimp only
    omega
  · exact (hord.le_of_upstream hup hne hdeps).trans (hord.done_bounds hsound d).1

variable [DecidableEq δ]

theorem Stored.enter
    (h : Stored machine items Good Knows s)
    (hdone : doneIn (s.sequence (some c)) phase =
      doneIn (s.sequence (some c)) (s.consumer c))
    (hmemory : ∀ {n memory}, phase = .visiting n memory →
      ∃ a, items[n.toNat]? = some a ∧ Knows c a memory) :
    Stored machine items Good Knows (s.enter c phase) where
  cells := by
    have hcontent : Content Good items (s.enter c phase) = Content Good items s := by
      funext n b
      simp only [Content, done_enter fun _ => hdone]
    rw [hcontent]
    exact h.cells
  memory {c' n memory} hphase := by
    by_cases hc : c' = c
    · subst hc
      rw [State.enter_self] at hphase
      exact hmemory hphase
    · rw [State.enter_of_ne hc] at hphase
      exact h.memory hphase

omit [DecidableEq δ] in
theorem Stored.fill
    {a : α}
    (h : Stored machine items Good Knows s) (hord : Ordered wiring machine items s)
    (hrule : Rule wiring machine Good Knows) (hsound : wiring.Sound)
    (hspread : Spread machine.index machine.size limit) (hlen : items.length ≤ limit)
    (hsize : 0 < machine.size)
    (hphase : s.producer = .claimed n) (hitem : items[n.toNat]? = some a) :
    Stored machine items Good Knows
      { s.write (machine.index n) (machine.fill a) with producer := .written n } where
  cells := by
    have hp := hord.producer
    rw [hphase] at hp
    obtain ⟨hown, hnext, hgate⟩ := hp
    have hbound := hord.bound
    have hstart := hord.start none
    have htop : s.top + 1 = n := by simpa only [State.top, hphase] using hown
    have hwrite := h.cells.append (a := machine.fill a) hspread hsize (by omega) (by omega)
      (by
        rw [htop]
        refine ⟨a, hitem, ?_⟩
        have hnone : (fun d => n ≤ s.done d) = fun _ => False := by
          funext d
          have hdone := (hord.done_bounds hsound d).2
          exact eq_false (by omega)
        rw [hnone]
        exact hrule.fill a)
    rw [htop] at hwrite
    exact hwrite
  memory hw := h.memory hw

/-- An access that is not the last one. -/
theorem Stored.visit
    (h : Stored machine items Good Knows s) (hord : Ordered wiring machine items s)
    (hrule : Rule wiring machine Good Knows) (hsound : wiring.Sound)
    (hspread : Spread machine.index machine.size limit) (hlen : items.length ≤ limit)
    (hphase : s.consumer c = .visiting n memory)
    (hcell : s.cells (machine.index n) = some b)
    (hvisit : machine.visit c memory b = (b', some memory')) :
    Stored machine items Good Knows
      ((s.write (machine.index n) b').enter c (.visiting n memory')) := by
  obtain ⟨hready, a, b₀, ha, hb₀, hgood, hknows⟩ := h.visiting hord hsound hphase
  obtain rfl : b = b₀ := Option.some.inj (hcell.symm.trans hb₀)
  obtain ⟨hgood', hknows'⟩ := hrule.visit hready hgood hknows hvisit
  obtain ⟨hpos, hle, hlt⟩ := hord.in_window hsound hphase
  have htop := hord.top_bounds
  have hcells : Holds machine.index (s.write (machine.index n) b').cells
      (max 0 (s.top + 1 - machine.size)) s.top (Content Good items s) :=
    Holds.rewrite hspread h.cells (by omega) (by omega) hle (by omega) (by omega)
      (fun _ _ _ hcontent => hcontent) ⟨a, ha, hgood'⟩
  have hwrite : Stored machine items Good Knows (s.write (machine.index n) b') :=
    ⟨hcells, fun hw => h.memory hw⟩
  refine hwrite.enter ?_ fun {n' memory''} he => ?_
  · change s.sequence (some c) = doneIn (s.sequence (some c)) (s.consumer c)
    rw [hphase]
    rfl
  · obtain ⟨rfl, rfl⟩ := Phase.visiting.inj he
    exact ⟨a, ha, hknows'⟩

/-- The last access. -/
theorem Stored.leave
    (h : Stored machine items Good Knows s) (hord : Ordered wiring machine items s)
    (hrule : Rule wiring machine Good Knows) (hsound : wiring.Sound)
    (hspread : Spread machine.index machine.size limit) (hlen : items.length ≤ limit)
    (hphase : s.consumer c = .visiting n memory)
    (hcell : s.cells (machine.index n) = some b)
    (hvisit : machine.visit c memory b = (b', none)) :
    Stored machine items Good Knows
      ((s.write (machine.index n) b').enter c (.leaving n)) := by
  obtain ⟨hready, a, b₀, ha, hb₀, hgood, hknows⟩ := h.visiting hord hsound hphase
  obtain rfl : b = b₀ := Option.some.inj (hcell.symm.trans hb₀)
  have hgood' := hrule.leave hready hgood hknows hvisit
  obtain ⟨hpos, hle, hlt⟩ := hord.in_window hsound hphase
  obtain ⟨hruns, hnext, -⟩ := hord.visiting hphase
  have htop := hord.top_bounds
  have hdone : s.done c = n - 1 := by
    rw [State.done, hphase, hnext]
    exact (Int.add_sub_cancel _ _).symm
  have hcells : Holds machine.index
      ((s.write (machine.index n) b').enter c (.leaving n)).cells
      (max 0 (s.top + 1 - machine.size)) s.top
      (Content Good items ((s.write (machine.index n) b').enter c (.leaving n))) := by
    refine Holds.rewrite hspread h.cells (by omega) (by omega) hle (by omega) (by omega) ?_
      ⟨a, ha, ?_⟩
    · rintro m b₁ hne ⟨a₁, ha₁, hgood₁⟩
      refine ⟨a₁, ha₁, ?_⟩
      have hsame : (fun d => m ≤ ((s.write (machine.index n) b').enter c (.leaving n)).done d) =
          fun d => m ≤ s.done d := by
        funext d
        rw [done_leave]
        split_ifs with hd
        · subst hd
          exact propext (by omega)
        · rfl
      rw [hsame]
      exact hgood₁
    · have hmore : (fun d => n ≤ ((s.write (machine.index n) b').enter c (.leaving n)).done d) =
          fun d => n ≤ s.done d ∨ d = c := by
        funext d
        rw [done_leave]
        split_ifs with hd
        · exact propext (by simp [hd])
        · exact propext (by simp [hd])
      rw [hmore]
      exact hgood'
  refine ⟨hcells, fun {c' n' memory''} hw => ?_⟩
  by_cases hc : c' = c
  · subst hc
    rw [State.enter_self] at hw
    exact absurd hw (by simp)
  · rw [State.enter_of_ne hc] at hw
    exact h.memory hw

/-- **Every step keeps the items in their cells.** -/
theorem Step.stored
    (hstep : Step wiring machine items s es t) (hord : Ordered wiring machine items s)
    (hrule : Rule wiring machine Good Knows) (hsound : wiring.Sound)
    (hspread : Spread machine.index machine.size limit) (hlen : items.length ≤ limit)
    (hsize : 0 < machine.size)
    (h : Stored machine items Good Knows s) :
    Stored machine items Good Knows t := by
  cases hstep with
  | claim hphase hmore hgate =>
      have hcells := h.cells
      simp only [State.top, hphase] at hcells
      exact ⟨hcells, h.memory⟩
  | fill hphase hitem => exact h.fill hord hrule hsound hspread hlen hsize hphase hitem
  | @publish n hphase =>
      have hcells := h.cells
      simp only [State.top, hphase] at hcells
      refine ⟨?_, h.memory⟩
      have hcontent : Content Good items { s.store none n with producer := .claiming } =
          Content Good items s := by
        funext m b
        simp [Content, State.done, State.store]
      rw [hcontent]
      simpa [State.top, State.store] using hcells
  | begin c hruns hphase =>
      exact h.enter (by rw [hphase]; rfl) fun he => absurd he (by simp)
  | look c hphase hrest =>
      exact h.enter (by rw [hphase]; rfl) fun he => absurd he (by simp)
  | @pass next scan c hphase hrest hmin =>
      have hc := hord.consumer c
      rw [hphase] at hc
      have hfed := hord.le_of_fed (hsound.fed c hc.1) (hc.2.2.1.le hrest hmin)
      have htop := hord.top_bounds
      have hstart := hord.start (some c)
      have hnext := hc.2.1
      refine h.enter (by rw [hphase]; rfl) fun {n memory} he => ?_
      obtain ⟨rfl, rfl⟩ := Phase.visiting.inj he
      exact ⟨_, List.getElem?_eq_getElem (by omega), hrule.start c _⟩
  | retry c hphase hrest hmin =>
      exact h.enter (by rw [hphase]; rfl) fun he => absurd he (by simp)
  | visit c hphase hcell hvisit =>
      exact h.visit hord hrule hsound hspread hlen hphase hcell hvisit
  | leave c hphase hcell hvisit =>
      exact h.leave hord hrule hsound hspread hlen hphase hcell hvisit
  | @advance n c hphase =>
      refine ⟨?_, fun {c' n' memory} hw => ?_⟩
      · have hcontent : Content Good items ((s.store (some c) n).enter c .idle) =
            Content Good items s := by
          funext m b
          simp only [Content, done_advance hphase]
        have htop : ((s.store (some c) n).enter c .idle).top = s.top := by
          simp [State.top, State.enter, State.store]
        rw [hcontent, htop]
        exact h.cells
      · by_cases hc : c' = c
        · subst hc
          rw [State.enter_self] at hw
          exact absurd hw (by simp)
        · rw [State.enter_of_ne hc] at hw
          exact h.memory hw

end Cells

/-- The visits of a consumer, in order. -/
def visitsOf
    {δ : Type u} {β : Type w} [DecidableEq δ] (c : δ) (hist : List (Visit δ β)) :
    List (Visit δ β) :=
  hist.filter fun v => decide (v.consumer = c)

/-- The invariant of the disruptor and of the visits so far. -/
structure Lawful
    {δ : Type u} {α : Type v} {β : Type w} {μ : Type x} [DecidableEq δ]
    (wiring : Wiring δ) (machine : Machine δ α β μ) (items : List α)
    (Good : (δ → Prop) → α → β → Prop) (Knows : δ → α → μ → Prop)
    (hist : List (Visit δ β)) (s : State δ β μ) : Prop where
  ordered : Ordered wiring machine items s
  stored : Stored machine items Good Knows s
  numbers : ∀ c, (visitsOf c hist).map Visit.number =
    (List.range (s.done c + 1).toNat).map Int.ofNat
  found : ∀ v, v ∈ hist → ∃ a through, items[v.number.toNat]? = some a ∧
    Ready wiring through v.consumer ∧ Good through a v.found

section Visits

variable {δ : Type u} {α : Type v} {β : Type w} {μ : Type x} [DecidableEq δ]
variable {wiring : Wiring δ} {machine : Machine δ α β μ} {items : List α}
variable {Good : (δ → Prop) → α → β → Prop} {Knows : δ → α → μ → Prop}
variable {s t : State δ β μ} {limit : Int} {es hist : List (Visit δ β)}

/-- A step is the end of a visit, or nobody gets through with a cell by it. -/
theorem Step.visit_cases
    (hstep : Step wiring machine items s es t) :
    (es = [] ∧ ∀ c, t.done c = s.done c) ∨
      ∃ c n memory b, s.consumer c = .visiting n memory ∧
        s.cells (machine.index n) = some b ∧
        es = [{ consumer := c, number := n, found := b }] ∧
        ∀ c', t.done c' = if c' = c then n else s.done c' := by
  cases hstep with
  | claim => exact Or.inl ⟨rfl, fun _ => rfl⟩
  | fill => exact Or.inl ⟨rfl, fun _ => rfl⟩
  | publish => exact Or.inl ⟨rfl, fun c => by simp [State.done, State.store]⟩
  | begin c hruns hphase =>
      exact Or.inl ⟨rfl, fun _ => done_enter fun _ => by rw [hphase]; rfl⟩
  | look c hphase => exact Or.inl ⟨rfl, fun _ => done_enter fun _ => by rw [hphase]; rfl⟩
  | pass c hphase => exact Or.inl ⟨rfl, fun _ => done_enter fun _ => by rw [hphase]; rfl⟩
  | retry c hphase => exact Or.inl ⟨rfl, fun _ => done_enter fun _ => by rw [hphase]; rfl⟩
  | @visit n memory memory' b b' c hphase =>
      refine Or.inl ⟨rfl, fun c' => ?_⟩
      have hdone : ((s.write (machine.index n) b').enter c (.visiting n memory')).done c' =
          (s.write (machine.index n) b').done c' := done_enter fun _ => by
        change _ = doneIn _ (s.consumer c)
        rw [hphase]
        rfl
      exact hdone
  | leave c hphase hcell hvisit =>
      exact Or.inr ⟨c, _, _, _, hphase, hcell, rfl, done_leave⟩
  | advance c hphase => exact Or.inl ⟨rfl, done_advance hphase⟩

/-- **Every step keeps the visits in order.** -/
theorem Step.lawful
    (hstep : Step wiring machine items s es t)
    (hrule : Rule wiring machine Good Knows) (hsound : wiring.Sound)
    (hspread : Spread machine.index machine.size limit) (hlen : items.length ≤ limit)
    (hsize : 0 < machine.size)
    (h : Lawful wiring machine items Good Knows hist s) :
    Lawful wiring machine items Good Knows (hist ++ es) t := by
  refine ⟨hstep.ordered h.ordered,
    hstep.stored h.ordered hrule hsound hspread hlen hsize h.stored, fun c' => ?_, fun v hv => ?_⟩
  · rcases hstep.visit_cases with ⟨rfl, hdone⟩ | ⟨c, n, memory, b, hphase, -, rfl, hdone⟩
    · rw [List.append_nil, hdone]
      exact h.numbers c'
    · obtain ⟨-, hnext, -⟩ := h.ordered.visiting hphase
      have hstart := h.ordered.start (some c)
      rw [hdone, visitsOf, List.filter_append, List.map_append]
      split_ifs with hc
      · subst hc
        have hold : s.done c' = n - 1 := by
          rw [State.done, hphase, hnext]
          exact (Int.add_sub_cancel _ _).symm
        have hcount : (n + 1).toNat = (s.done c' + 1).toNat + 1 := by omega
        have hlast : n = max (s.done c' + 1) 0 := by omega
        rw [hcount, List.range_succ, List.map_append, ← h.numbers c']
        simpa [visitsOf] using hlast
      · have hne : ¬ c = c' := fun he => hc he.symm
        rw [← h.numbers c']
        simp [visitsOf, hne]
  · rcases List.mem_append.mp hv with hv | hv
    · exact h.found v hv
    · rcases hstep.visit_cases with ⟨rfl, -⟩ | ⟨c, n, memory, b, hphase, hcell, rfl, -⟩
      · exact absurd hv (by simp)
      · obtain rfl := List.mem_singleton.mp hv
        obtain ⟨hready, a, b', ha, hb', hgood, -⟩ :=
          h.stored.visiting h.ordered hsound hphase
        obtain rfl : b = b' := Option.some.inj (hcell.symm.trans hb')
        exact ⟨a, _, ha, hready, hgood⟩

theorem lawful_new
    (hsize : 0 < machine.size) :
    Lawful wiring machine items Good Knows [] (State.new : State δ β μ) where
  ordered := ordered_new hsize.le
  stored :=
    { cells := fun n hn hn' => by
        have htop : (State.new : State δ β μ).top = -1 := rfl
        omega
      memory := fun hw => absurd hw (by simp [State.new]) }
  numbers _ := rfl
  found _ hv := absurd hv (by simp)

/-- **What the consumers of a sound wiring find**, in whatever order the threads go:
each visits the numbers one by one and finds what the rule says. -/
theorem lawful_of_trail
    (hrule : Rule wiring machine Good Knows) (hsound : wiring.Sound)
    (hspread : Spread machine.index machine.size limit) (hlen : items.length ≤ limit)
    (hsize : 0 < machine.size)
    (htrail : Trail (Step wiring machine items) State.new hist s) :
    Lawful wiring machine items Good Knows hist s := by
  have h := htrail.invariant (P := Lawful wiring machine items Good Knows)
    (fun h hstep => hstep.lawful hrule hsound hspread hlen hsize h) [] (lawful_new hsize)
  rwa [List.nil_append] at h

/-- What a consumer takes from the cells, where the rule fixes it. -/
theorem Lawful.map_found
    {γ : Type*} {f : β → γ} {g : α → γ} {c : δ}
    (h : Lawful wiring machine items Good Knows hist s)
    (hfound : ∀ {through a b}, Ready wiring through c → Good through a b → f b = g a) :
    (visitsOf c hist).map (fun v => f v.found) =
      (items.take (s.done c + 1).toNat).map g := by
  have hnumbers := h.numbers c
  have hlength : (visitsOf c hist).length = (s.done c + 1).toNat := by
    simpa using congrArg List.length hnumbers
  have hitem : ∀ i (hi : i < (visitsOf c hist).length),
      items[i]?.map g = some (f ((visitsOf c hist)[i]).found) := by
    intro i hi
    have hmem : (visitsOf c hist)[i] ∈ visitsOf c hist := List.getElem_mem hi
    obtain ⟨hmem, hc⟩ := List.mem_filter.mp hmem
    obtain ⟨a, through, ha, hready, hgood⟩ := h.found _ hmem
    have hnumber : ((visitsOf c hist)[i]).number = Int.ofNat i := by
      have hget := congrArg (fun l => l[i]?) hnumbers
      simpa [List.getElem?_eq_getElem hi, hlength ▸ hi] using hget
    rw [of_decide_eq_true hc] at hready
    rw [hnumber, Int.ofNat_eq_natCast, Int.toNat_natCast] at ha
    rw [ha, Option.map_some, hfound hready hgood]
  refine List.ext_getElem? fun i => ?_
  by_cases hi : i < (visitsOf c hist).length
  · rw [List.getElem?_map, List.getElem?_map, List.getElem?_take_of_lt (hlength ▸ hi),
      hitem i hi, List.getElem?_eq_getElem hi, Option.map_some]
  · rw [List.getElem?_eq_none (by simpa using hi), List.getElem?_eq_none]
    rw [List.length_map, List.length_take]
    omega

end Visits

end Disruptor
end LmaxEngine
