import Mathlib.Algebra.Order.BigOperators.Group.Finset
import LmaxEngine.Lib.Disruptor

/-!
# Which wirings are safe

A disruptor whose consumers wait for one another in no circle does not stop before
everything is done.  So a consumer that the producer does not wait for can be left
behind while the others go on, until its cell is filled again: sound wirings are
safe, and no others are.
-/

namespace LmaxEngine
namespace Disruptor

open Sequencing Transition

universe u v w x

/-- The consumers that run wait for the producer and for consumers that run, in no
circle, and so does the producer. -/
structure Wiring.Live {δ : Type u} (wiring : Wiring δ) : Prop where
  acyclic : WellFounded fun d c => some d ∈ wiring.dependencies c
  closed : ∀ {c d}, wiring.runs c → some d ∈ wiring.dependencies c → wiring.runs d
  gate : wiring.runs wiring.gate

/-- Consumers in a ranking, each above those that it waits for, do not wait in a circle. -/
theorem Wiring.acyclic_of_rank
    {δ : Type u} {wiring : Wiring δ} (rank : δ → Nat)
    (h : ∀ c d, some d ∈ wiring.dependencies c → rank d < rank c) :
    WellFounded fun d c => some d ∈ wiring.dependencies c :=
  Subrelation.wf (h _ _) (InvImage.wf rank Nat.lt_wfRel.wf)

/-- The accesses of a visit come to an end. -/
def Machine.Halts
    {δ : Type u} {α : Type v} {β : Type w} {μ : Type x}
    (machine : Machine δ α β μ) (rank : δ → μ → Nat) : Prop :=
  ∀ {c memory b b' memory'}, machine.visit c memory b = (b', some memory') →
    rank c memory' < rank c memory

/-- The numbers below `count` that come after `n`. -/
def remaining (count : Nat) (n : Int) : Nat :=
  (count - (n + 1)).toNat

theorem remaining_succ
    (count : Nat) {m n : Int} (hn : n = m + 1) (hlt : n < count) :
    remaining count m = remaining count n + 1 := by
  unfold remaining
  omega

/-- The steps that the producer has left for an item. -/
def ProducerPhase.toDo : ProducerPhase → Nat
  | .claiming => 2
  | .claimed _ => 1
  | .written _ => 0

section Work

variable {δ : Type u} {α : Type v} {β : Type w} {μ : Type x}
variable (wiring : Wiring δ) (machine : Machine δ α β μ) (items : List α) (rank : δ → μ → Nat)

/-- The steps of a whole round of a consumer, if it does not have to wait. -/
def roundOf (c : δ) : Nat :=
  rank c (machine.start c) + (wiring.dependencies c).length + 4

/-- The steps that a consumer has left in a round. -/
def Phase.toDo (c : δ) : Phase δ μ → Nat
  | .idle => roundOf wiring machine rank c
  | .waiting next scan =>
      rank c (machine.start c) + scan.toDo (wiring.dependencies c).length next + 3
  | .visiting _ memory => rank c memory + 2
  | .leaving _ => 1

def workOf (s : State δ β μ) (c : δ) : Nat :=
  remaining items.length (s.sequence (some c)) * roundOf wiring machine rank c +
    (s.consumer c).toDo wiring machine rank c

/-- The work that is left. -/
def work [Fintype δ] (s : State δ β μ) : Nat :=
  remaining items.length (s.sequence none) * 3 + s.producer.toDo +
    ∑ c, workOf wiring machine items rank s c

end Work

/-- The cells of all numbers so far have been filled. -/
def Filled
    {δ : Type u} {α : Type v} {β : Type w} {μ : Type x}
    (machine : Machine δ α β μ) (s : State δ β μ) : Prop :=
  ∀ n, 0 ≤ n → n ≤ s.top → ∃ b, s.cells (machine.index n) = some b

/-- All items are published and visited. -/
def Drained
    {δ : Type u} {α : Type v} {β : Type w} {μ : Type x}
    (wiring : Wiring δ) (items : List α) (s : State δ β μ) : Prop :=
  s.sequence none + 1 = items.length ∧
    ∀ c, wiring.runs c → s.sequence (some c) + 1 = items.length

section Progress

variable {δ : Type u} {α : Type v} {β : Type w} {μ : Type x} [DecidableEq δ]
variable {wiring : Wiring δ} {machine : Machine δ α β μ} {items : List α}
variable {rank : δ → μ → Nat} {s t : State δ β μ} {c : δ} {es hist : List (Visit δ β)}

omit [DecidableEq δ] in
theorem filled_write
    {i : Nat} {b : β}
    (h : Filled machine s) :
    Filled machine (s.write i b) := by
  intro n hn hle
  by_cases hi : machine.index n = i
  · exact ⟨b, by simp [State.write, hi]⟩
  · obtain ⟨b', hb'⟩ := h n hn hle
    exact ⟨b', by simpa [State.write, hi] using hb'⟩

theorem Step.filled
    (hstep : Step wiring machine items s es t) (hord : Ordered wiring machine items s)
    (h : Filled machine s) :
    Filled machine t := by
  cases hstep with
  | claim hphase hmore hgate =>
      intro n hn hle
      refine h n hn ?_
      simpa only [State.top, hphase] using hle
  | @fill n a hphase hitem =>
      have hp := hord.producer
      rw [hphase] at hp
      intro m hm hle
      have hle' : m ≤ n := hle
      by_cases hmn : m = n
      · subst hmn
        exact ⟨machine.fill a, by simp [State.write]⟩
      · refine filled_write h m hm ?_
        have htop : (s.write (machine.index n) (machine.fill a)).top = s.sequence none := by
          simp [State.top, State.write, hphase]
        rw [htop]
        have hown := hp.1
        omega
  | @publish n hphase =>
      intro m hm hle
      refine h m hm ?_
      simpa [State.top, State.store, hphase] using hle
  | begin c => exact h
  | look c => exact h
  | pass c => exact h
  | retry c => exact h
  | visit c => exact filled_write (s := s) h
  | leave c => exact filled_write (s := s) h
  | @advance n c hphase =>
      intro m hm hle
      refine h m hm ?_
      simpa [State.top, State.enter, State.store] using hle

omit [DecidableEq δ] in
theorem filled_new :
    Filled machine (State.new : State δ β μ) := by
  intro n hn hle
  have htop : (State.new : State δ β μ).top = -1 := rfl
  omega

variable [Fintype δ]

/-- A step of one consumer that leaves it less to do. -/
theorem work_lt_of_consumer
    (hproducer : t.producer = s.producer) (hnone : t.sequence none = s.sequence none)
    (hother : ∀ c', c' ≠ c → t.sequence (some c') = s.sequence (some c') ∧
      t.consumer c' = s.consumer c')
    (hlt : workOf wiring machine items rank t c < workOf wiring machine items rank s c) :
    work wiring machine items rank t < work wiring machine items rank s := by
  unfold work
  rw [hproducer, hnone]
  refine Nat.add_lt_add_left (Finset.sum_lt_sum (fun c' _ => ?_) ⟨c, Finset.mem_univ c, hlt⟩) _
  by_cases hc : c' = c
  · subst hc
    exact hlt.le
  · obtain ⟨hsequence, hconsumer⟩ := hother c' hc
    unfold workOf
    rw [hsequence, hconsumer]

theorem work_enter_lt
    {phase : Phase δ μ}
    (hlt : phase.toDo wiring machine rank c < (s.consumer c).toDo wiring machine rank c) :
    work wiring machine items rank (s.enter c phase) < work wiring machine items rank s := by
  refine work_lt_of_consumer (c := c) rfl rfl (fun c' hc => ⟨rfl, State.enter_of_ne hc⟩) ?_
  unfold workOf
  rw [State.enter_self]
  exact Nat.add_lt_add_left hlt _

/-- The producer goes on when everything that it has published is behind the gate. -/
theorem exists_step_producer
    (h : Ordered wiring machine items s) (hsize : 0 < machine.size)
    (hroom : s.sequence none ≤ s.sequence (some wiring.gate))
    (hmore : s.sequence none + 1 < items.length) :
    ∃ es t, Step wiring machine items s es t ∧
      work wiring machine items rank t < work wiring machine items rank s := by
  have hp := h.producer
  have hless : ∀ {t : State δ β μ}, t.sequence = s.sequence → t.consumer = s.consumer →
      t.producer.toDo < s.producer.toDo →
      work wiring machine items rank t < work wiring machine items rank s := by
    intro t hsequence hconsumer hlt
    unfold work workOf
    rw [hsequence, hconsumer]
    omega
  cases hphase : s.producer with
  | claiming =>
      rw [hphase] at hp
      dsimp only [ProducerOk] at hp
      refine ⟨_, _, Step.claim hphase (by omega) (by omega), hless rfl rfl ?_⟩
      rw [hphase]
      exact Nat.lt_succ_self 1
  | claimed n =>
      rw [hphase] at hp
      obtain ⟨hown, hnext, -⟩ := hp
      have hstart := h.start none
      refine ⟨_, _, Step.fill hphase (List.getElem?_eq_getElem (by omega)), hless rfl rfl ?_⟩
      rw [hphase]
      exact Nat.zero_lt_one
  | written n =>
      rw [hphase] at hp
      obtain ⟨hown, hnext, -⟩ := hp
      refine ⟨_, _, Step.publish hphase, ?_⟩
      have hcount := remaining_succ items.length hown.symm (by omega)
      have hsum : ∀ c, workOf wiring machine items rank
          { s.store none n with producer := .claiming } c =
            workOf wiring machine items rank s c := by
        intro c
        simp [workOf, State.store]
      unfold work
      simp only [hsum, State.store_self, hphase, hcount, ProducerPhase.toDo]
      omega

/-- A consumer goes on when the counters behind its barrier are there. -/
theorem exists_step_consumer
    (h : Ordered wiring machine items s) (hfilled : Filled machine s)
    (hhalts : machine.Halts rank) (htop : items.length ≤ machine.top)
    (hruns : wiring.runs c) (hfed : wiring.Fed c)
    (hdeps : ∀ d, d ∈ wiring.dependencies c → s.sequence (some c) + 1 ≤ s.sequence d) :
    ∃ es t, Step wiring machine items s es t ∧
      work wiring machine items rank t < work wiring machine items rank s := by
  have hc := h.consumer c
  have hproducer := h.le_of_fed hfed hdeps
  have hbounds := h.top_bounds
  have hstart := h.start (some c)
  cases hphase : s.consumer c with
  | idle =>
      refine ⟨_, _, Step.begin c hruns hphase, work_enter_lt ?_⟩
      rw [hphase]
      simp only [Phase.toDo, Scan.toDo_start, roundOf]
      omega
  | waiting next scan =>
      rw [hphase] at hc
      obtain ⟨-, hnext, -, hrests⟩ := hc
      cases hrest : scan.rest with
      | cons d rest =>
          have hd : next ≤ s.sequence d := by
            rw [hnext]
            exact hdeps d (hrests d (by rw [hrest]; exact List.mem_cons_self))
          have hlt := Scan.toDo_read_lt (wiring.dependencies c).length hrest hd
          refine ⟨_, _, Step.look c hphase hrest, work_enter_lt ?_⟩
          rw [hphase]
          simp only [Phase.toDo]
          omega
      | nil =>
          by_cases hhope : scan.Hopeful next
          · refine ⟨_, _, Step.pass c hphase hrest (hhope.le (by omega)), work_enter_lt ?_⟩
            rw [hphase]
            simp only [Phase.toDo]
            omega
          · refine ⟨_, _, Step.retry c hphase hrest (Scan.lt_of_not_hopeful hhope),
              work_enter_lt ?_⟩
            rw [hphase]
            simp only [Phase.toDo, Scan.toDo_start, Scan.toDo_of_not_hopeful hhope hrest]
            omega
  | visiting n memory =>
      obtain ⟨-, hnext, -⟩ := h.visiting hphase
      obtain ⟨b, hb⟩ := hfilled n (by omega) (by omega)
      cases hvisit : machine.visit c memory b with
      | mk b' later =>
          have hwork : ∀ phase : Phase δ μ,
              phase.toDo wiring machine rank c < (s.consumer c).toDo wiring machine rank c →
              work wiring machine items rank ((s.write (machine.index n) b').enter c phase) <
                work wiring machine items rank s :=
            fun phase hlt => work_enter_lt (s := s.write (machine.index n) b') hlt
          cases later with
          | some memory' =>
              refine ⟨_, _, Step.visit c hphase hb hvisit, hwork _ ?_⟩
              have hrank := hhalts hvisit
              rw [hphase]
              simp only [Phase.toDo]
              omega
          | none =>
              refine ⟨_, _, Step.leave c hphase hb hvisit, hwork _ ?_⟩
              rw [hphase]
              simp only [Phase.toDo]
              omega
  | leaving n =>
      rw [hphase] at hc
      obtain ⟨-, hnext, -⟩ := hc
      have hother : ∀ d, d ≠ some c →
          ((s.store (some c) n).enter c .idle).sequence d = s.sequence d :=
        fun d hd => State.store_of_ne hd
      refine ⟨_, _, Step.advance c hphase, work_lt_of_consumer (c := c) rfl ?_ ?_ ?_⟩
      · exact hother none (by simp)
      · exact fun c' hc' => ⟨hother _ (by simpa using hc'), State.enter_of_ne hc'⟩
      · have hcount := remaining_succ items.length hnext (by omega)
        have hself : ((s.store (some c) n).enter c .idle).sequence (some c) = n :=
          State.store_self s (some c) n
        unfold workOf
        rw [State.enter_self, hself, hphase, hcount, Nat.add_mul, Nat.one_mul]
        simp only [Phase.toDo]
        omega

/-- **No deadlock.**  As long as there is something to do, a thread has a step that
leaves less to do. -/
theorem exists_step
    (h : Ordered wiring machine items s) (hfilled : Filled machine s)
    (hlive : wiring.Live) (hfed : ∀ c, wiring.runs c → wiring.Fed c)
    (hhalts : machine.Halts rank) (htop : items.length ≤ machine.top)
    (hsize : 0 < machine.size) (hmore : ¬ Drained wiring items s) :
    ∃ es t, Step wiring machine items s es t ∧
      work wiring machine items rank t < work wiring machine items rank s := by
  by_cases hbehind : ∃ c, wiring.runs c ∧ s.sequence (some c) < s.sequence none
  · -- of the consumers that are behind, one that waits for none of the others
    obtain ⟨c, ⟨hruns, hlt⟩, hmin⟩ := hlive.acyclic.has_min
      {c | wiring.runs c ∧ s.sequence (some c) < s.sequence none} hbehind
    refine exists_step_consumer h hfilled hhalts htop hruns (hfed c hruns) fun d hd => ?_
    cases d with
    | none => exact Int.add_one_le_of_lt hlt
    | some d =>
        have hd' : ¬ s.sequence (some d) < s.sequence none :=
          fun hlt' => hmin d ⟨hlive.closed hruns hd, hlt'⟩ hd
        omega
  · have hthere : ∀ c, wiring.runs c → s.sequence (some c) = s.sequence none := by
      intro c hruns
      have hle := h.fed_le (hfed c hruns)
      have hnot : ¬ s.sequence (some c) < s.sequence none := fun hlt => hbehind ⟨c, hruns, hlt⟩
      omega
    have hbounds := h.top_bounds
    refine exists_step_producer h hsize (hthere _ hlive.gate).ge ?_
    refine lt_of_le_of_ne (by omega) fun hend => hmore ⟨hend, fun c hruns => ?_⟩
    rw [hthere c hruns]
    exact hend

/-- **Everything can be done**, from wherever the threads have got to. -/
theorem exists_trail_drained
    (hlive : wiring.Live) (hfed : ∀ c, wiring.runs c → wiring.Fed c)
    (hhalts : machine.Halts rank) (htop : items.length ≤ machine.top)
    (hsize : 0 < machine.size)
    (htrail : Trail (Step wiring machine items) State.new hist s) :
    ∃ es t, Trail (Step wiring machine items) s es t ∧ Drained wiring items t := by
  have hkeep : ∀ {s : State δ β μ} {es t}, Ordered wiring machine items s ∧ Filled machine s →
      Step wiring machine items s es t → Ordered wiring machine items t ∧ Filled machine t :=
    fun h hstep => ⟨hstep.ordered h.1, hstep.filled h.1 h.2⟩
  have hs : Ordered wiring machine items s ∧ Filled machine s :=
    htrail.preserves (P := fun s => Ordered wiring machine items s ∧ Filled machine s)
      hkeep ⟨ordered_new hsize.le, filled_new⟩
  exact Trail.attains (P := fun s => Ordered wiring machine items s ∧ Filled machine s)
    (work wiring machine items rank) (fun h _ hstep => hkeep h hstep)
    (fun h hmore => exists_step h.1 h.2 hlive hfed hhalts htop hsize hmore) hs

end Progress

/-- The wiring without a consumer and those downstream of it. -/
def Wiring.without {δ : Type u} (wiring : Wiring δ) (c : δ) : Wiring δ :=
  { wiring with runs := fun d => wiring.runs d ∧ ¬ wiring.Upstream c d }

theorem Wiring.Live.without
    {δ : Type u} {wiring : Wiring δ} {c : δ}
    (h : wiring.Live) (hgate : ¬ wiring.Gated c) :
    (wiring.without c).Live where
  acyclic := h.acyclic
  closed hc hd := ⟨h.closed hc.1 hd, fun hup => hc.2 (hup.tail hd)⟩
  gate := ⟨h.gate, hgate⟩

/-- No consumer is upstream of those that it waits for. -/
theorem Wiring.Live.not_upstream
    {δ : Type u} {wiring : Wiring δ} {c d : δ}
    (h : wiring.Live) (hd : some d ∈ wiring.dependencies c) :
    ¬ wiring.Upstream c d := by
  intro hup
  have hloop : Relation.TransGen (fun d c => some d ∈ wiring.dependencies c) c c :=
    Relation.TransGen.tail' hup hd
  exact h.acyclic.transGen.asymmetric c c hloop hloop

/-- No consumer comes to a cell that is not filled for its number yet, or filled for a
later number already. -/
def Safe
    {δ : Type u} {α : Type v} {β : Type w} {μ : Type x} [DecidableEq δ]
    (wiring : Wiring δ) (machine : Machine δ α β μ) (items : List α) : Prop :=
  ∀ {hist : List (Visit δ β)} {s : State δ β μ} {c n memory},
    Trail (Step wiring machine items) State.new hist s →
    s.consumer c = .visiting n memory →
    0 ≤ n ∧ n ≤ s.top ∧ s.top < n + machine.size

section Exactness

variable {δ : Type u} {α : Type v} {β : Type w} {μ : Type x} [DecidableEq δ]
variable {wiring : Wiring δ} {machine : Machine δ α β μ} {items : List α}
variable {rank : δ → μ → Nat} {s : State δ β μ} {c : δ} {next : Int} {scan : Scan (Option δ)}

theorem safe_of_sound
    (hsound : wiring.Sound) (hsize : 0 < machine.size) :
    Safe wiring machine items := by
  intro hist s c n memory htrail hphase
  have h := htrail.preserves (P := Ordered wiring machine items)
    (fun h hstep => hstep.ordered h) (ordered_new hsize.le)
  exact h.in_window hsound hphase

theorem Step.of_without
    {t : State δ β μ} {es : List (Visit δ β)}
    (hstep : Step (wiring.without c) machine items s es t) :
    Step wiring machine items s es t := by
  cases hstep with
  | claim hphase hmore hgate => exact Step.claim hphase hmore hgate
  | fill hphase hitem => exact Step.fill hphase hitem
  | publish hphase => exact Step.publish hphase
  | begin c hruns hphase => exact Step.begin c hruns.1 hphase
  | look c hphase hrest => exact Step.look c hphase hrest
  | pass c hphase hrest hmin => exact Step.pass c hphase hrest hmin
  | retry c hphase hrest hmin => exact Step.retry c hphase hrest hmin
  | visit c hphase hcell hvisit => exact Step.visit c hphase hcell hvisit
  | leave c hphase hcell hvisit => exact Step.leave c hphase hcell hvisit
  | advance c hphase => exact Step.advance c hphase

/-- A pass over counters that are there ends well. -/
theorem exists_trail_pass
    (hphase : s.consumer c = .waiting next scan) (hhope : scan.Hopeful next)
    (hrest : ∀ d, d ∈ scan.rest → next ≤ s.sequence d) (htop : next ≤ machine.top) :
    ∃ t memory, Trail (Step wiring machine items) s [] t ∧
      t.consumer c = .visiting next memory ∧ t.top = s.top := by
  induction hrests : scan.rest generalizing s scan with
  | nil =>
      have hstep : Step wiring machine items s [] _ := Step.pass c hphase hrests (hhope.le htop)
      exact ⟨_, _, Trail.single hstep, State.enter_self _ _ _, rfl⟩
  | cons d rest ih =>
      have hstep : Step wiring machine items s [] _ := Step.look c hphase hrests
      have hd : next ≤ s.sequence d := hrest d (by rw [hrests]; exact List.mem_cons_self)
      have hrest' : (scan.read (s.sequence d)).rest = rest := by rw [Scan.read, hrests]; rfl
      obtain ⟨t, memory, htrail, ht, htopt⟩ := ih (State.enter_self _ _ _) (hhope.read hd)
        (fun e he => hrest e (by
          rw [hrests]
          rw [hrest'] at he
          exact List.mem_cons_of_mem d he)) hrest'
      exact ⟨t, memory, Trail.head hstep htrail, ht, htopt⟩

/-- A consumer comes to its next cell when the counters behind its barrier are there. -/
theorem exists_trail_visiting
    (hruns : wiring.runs c) (hphase : s.consumer c = .idle)
    (hdeps : ∀ d, d ∈ wiring.dependencies c → s.sequence (some c) + 1 ≤ s.sequence d)
    (htop : s.sequence (some c) + 1 ≤ machine.top) :
    ∃ t memory, Trail (Step wiring machine items) s [] t ∧
      t.consumer c = .visiting (s.sequence (some c) + 1) memory ∧ t.top = s.top := by
  have hstep : Step wiring machine items s [] _ := Step.begin c hruns hphase
  obtain ⟨t, memory, htrail, ht, htopt⟩ := exists_trail_pass
    (State.enter_self s c (.waiting _ (Scan.start (wiring.dependencies c))))
    (Scan.hopeful_start _ _) hdeps htop
  exact ⟨t, memory, Trail.head hstep htrail, ht, htopt⟩

/-- A consumer that does not wait for the producer gets ahead of it. -/
theorem Safe.fed
    (hsafe : Safe wiring machine items) (hlive : wiring.Live)
    (htop : items.length ≤ machine.top) (hruns : wiring.runs c) :
    wiring.Fed c := by
  by_contra hnot
  obtain ⟨c, ⟨hruns, hnot⟩, hmin⟩ := hlive.acyclic.has_min
    {c | wiring.runs c ∧ ¬ wiring.Fed c} ⟨c, hruns, hnot⟩
  have hdeps : wiring.dependencies c = [] := by
    refine List.eq_nil_iff_forall_not_mem.mpr fun d hd => ?_
    cases d with
    | none => exact hnot ⟨c, hd, Relation.ReflTransGen.refl⟩
    | some d =>
        refine hmin d ⟨hlive.closed hruns hd, fun hfed => hnot ?_⟩ hd
        obtain ⟨e, hnone, hup⟩ := hfed
        exact ⟨e, hnone, hup.tail hd⟩
  have hown : (State.new : State δ β μ).sequence (some c) = -1 := rfl
  have hneg : (State.new : State δ β μ).top = -1 := rfl
  have hcome : ∃ t memory, Trail (Step wiring machine items) (State.new : State δ β μ) [] t ∧
      t.consumer c = _ ∧ t.top = (State.new : State δ β μ).top :=
    exists_trail_visiting hruns rfl (by simp [hdeps]) (by omega)
  obtain ⟨t, memory, htrail, ht, htopt⟩ := hcome
  obtain ⟨hpos, hle, -⟩ := hsafe htrail ht
  omega

/-- A consumer that the producer does not wait for is left behind. -/
theorem Safe.gated
    [Fintype δ]
    (hsafe : Safe wiring machine items) (hlive : wiring.Live) (hhalts : machine.Halts rank)
    (htop : items.length ≤ machine.top) (hsize : 0 < machine.size)
    (hmore : machine.size < items.length) (hruns : wiring.runs c) :
    wiring.Gated c := by
  by_contra hnot
  have hnew : Trail (Step (wiring.without c) machine items) State.new [] State.new :=
    Trail.refl State.new
  obtain ⟨es, s, htrail, hnone, hothers⟩ := exists_trail_drained (hlive.without hnot)
    (fun d hd => hsafe.fed hlive htop hd.1) hhalts htop hsize hnew
  have hord := htrail.preserves (P := Ordered (wiring.without c) machine items)
    (fun h hstep => hstep.ordered h) (ordered_new hsize.le)
  have hstill : ¬ (wiring.without c).runs c := fun h => h.2 Relation.ReflTransGen.refl
  have hidle : s.consumer c = .idle := by
    have hc := hord.consumer c
    cases hphase : s.consumer c with
    | idle => rfl
    | waiting next scan =>
        rw [hphase] at hc
        exact absurd hc.1 hstill
    | visiting n memory =>
        rw [hphase] at hc
        exact absurd hc.1 hstill
    | leaving n =>
        rw [hphase] at hc
        exact absurd hc.1 hstill
  have hown := hord.still c hstill
  have hdeps : ∀ d, d ∈ wiring.dependencies c → s.sequence (some c) + 1 ≤ s.sequence d := by
    intro d hd
    cases d with
    | none => omega
    | some d =>
        have hd := hothers d ⟨hlive.closed hruns hd, hlive.not_upstream hd⟩
        omega
  have hcome : ∃ t memory, Trail (Step wiring machine items) s [] t ∧
      t.consumer c = .visiting (s.sequence (some c) + 1) memory ∧ t.top = s.top :=
    exists_trail_visiting hruns hidle hdeps (by omega)
  obtain ⟨t, memory, hmore', ht, htopt⟩ := hcome
  have hwhole := (htrail.mono fun hstep => hstep.of_without).trans hmore'
  obtain ⟨-, -, hlt⟩ := hsafe hwhole ht
  have htop' := hord.top_bounds.1
  omega

/-- **Which wirings are safe**: the sound ones.  There have to be more items than
cells, as without a second round nothing is overtaken. -/
theorem safe_iff
    [Fintype δ]
    (hlive : wiring.Live) (hhalts : machine.Halts rank)
    (htop : items.length ≤ machine.top) (hsize : 0 < machine.size)
    (hmore : machine.size < items.length) :
    Safe wiring machine items ↔ wiring.Sound :=
  ⟨fun hsafe =>
    ⟨fun _ hruns => hsafe.fed hlive htop hruns,
      fun _ hruns => hsafe.gated hlive hhalts htop hsize hmore hruns⟩,
    fun hsound => safe_of_sound hsound hsize⟩

end Exactness

end Disruptor
end LmaxEngine
