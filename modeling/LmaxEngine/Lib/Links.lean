import Mathlib.Data.List.Nodup
import Mathlib.Logic.Function.Basic
import Mathlib.Tactic.Common

/-!
# Intrusive lists

Nodes are numbers.  A *link map* gives a node its predecessor and successor,
if it is linked at all.  `Segment links p xs n` says that the nodes `xs` are
linked in this order, forwards and backwards, between `p` and `n`.  Segments
split and join along appends, so a change at one node is a change at the end
of one segment or at the start of another.

A *chain* is the singly linked list of a free list.
-/

namespace LmaxEngine
namespace Links

section Segments

/-- The predecessor and the successor of every linked node. -/
abbrev LinkMap := Nat → Option (Option Nat × Option Nat)

/-- The nodes are linked in this order, after `p` and before `n`. -/
def Segment (links : LinkMap) : Option Nat → List Nat → Option Nat → Prop
  | _, [], _ => True
  | p, i :: xs, n =>
      links i = some (p, xs.head?.or n) ∧ Segment links (some i) xs n

/-- Make `n` the successor of a node, if it is linked. -/
def withNext (links : LinkMap) (i : Nat) (n : Option Nat) : LinkMap :=
  Function.update links i ((links i).map (fun l => (l.1, n)))

/-- Make `p` the predecessor of a node, if it is linked. -/
def withPrev (links : LinkMap) (i : Nat) (p : Option Nat) : LinkMap :=
  Function.update links i ((links i).map (fun l => (p, l.2)))

variable {links links' : LinkMap}

/-- A segment depends on the links of its own nodes only. -/
theorem Segment.congr
    {p n : Option Nat} {xs : List Nat}
    (h : Segment links p xs n)
    (heq : ∀ i, i ∈ xs → links' i = links i) :
    Segment links' p xs n := by
  induction xs generalizing p with
  | nil => trivial
  | cons i xs ih =>
      obtain ⟨hi, hxs⟩ := h
      refine ⟨by rw [heq i (by simp), hi], ?_⟩
      exact ih hxs (fun j hj => heq j (List.mem_cons_of_mem i hj))

theorem segment_append
    {p n : Option Nat} {xs ys : List Nat} :
    Segment links p (xs ++ ys) n ↔
      Segment links p xs (ys.head?.or n) ∧
        Segment links (xs.getLast?.or p) ys n := by
  induction xs generalizing p with
  | nil => simp [Segment]
  | cons i xs ih =>
      have hlast : (i :: xs).getLast?.or p = xs.getLast?.or (some i) := by
        rw [List.getLast?_cons]
        cases xs.getLast? <;> rfl
      have hhead : ((xs ++ ys).head?).or n = xs.head?.or (ys.head?.or n) := by
        rw [List.head?_append, Option.or_assoc]
      rw [List.cons_append, Segment, Segment, ih, hlast, hhead, and_assoc]

/-- The links of a node inside a segment. -/
theorem segment_cons_at
    {p n : Option Nat} {xs ys : List Nat} {i : Nat}
    (h : Segment links p (xs ++ i :: ys) n) :
    links i = some (xs.getLast?.or p, ys.head?.or n) :=
  (segment_append.mp h).2.1

/-- The links of the node at a position of a closed segment. -/
theorem Segment.at
    {xs : List Nat} {n i : Nat}
    (h : Segment links none xs none) (hi : xs[n]? = some i) :
    links i = some (if n = 0 then none else xs[n - 1]?, xs[n + 1]?) := by
  obtain ⟨hn, hget⟩ := List.getElem?_eq_some_iff.mp hi
  have hsplit : xs = xs.take n ++ i :: xs.drop (n + 1) := by
    rw [← hget, ← List.drop_eq_getElem_cons hn, List.take_append_drop]
  have hseg := h
  rw [hsplit] at hseg
  rw [segment_cons_at hseg, Option.or_none, Option.or_none, List.head?_drop,
    List.getLast?_take]
  cases n with
  | zero => rfl
  | succ n =>
      have : xs[n]? = some xs[n] := List.getElem?_eq_getElem (by omega)
      simp [this]

/-- Nodes with the links of their positions are a segment. -/
theorem segment_of_at
    {p : Option Nat} {xs : List Nat}
    (h : ∀ n i, xs[n]? = some i →
      links i = some (if n = 0 then p else xs[n - 1]?, xs[n + 1]?)) :
    Segment links p xs none := by
  induction xs generalizing p with
  | nil => trivial
  | cons i xs ih =>
      refine ⟨?_, ih fun n j hj => ?_⟩
      · rw [h 0 i rfl, Option.or_none, List.head?_eq_getElem?]
        rfl
      · rw [h (n + 1) j hj]
        cases n with
        | zero => rfl
        | succ n => rfl

/-- Every node of a segment is linked. -/
theorem Segment.linked
    {p n : Option Nat} {xs : List Nat} {i : Nat}
    (h : Segment links p xs n) (hi : i ∈ xs) :
    ∃ l, links i = some l := by
  obtain ⟨ys, zs, rfl⟩ := List.append_of_mem hi
  exact ⟨_, segment_cons_at h⟩

/-- A new successor of the last node. -/
theorem Segment.withNext_last
    {p n : Option Nat} {xs : List Nat} {i : Nat}
    (h : Segment links p (xs ++ [i]) n)
    (hnd : (xs ++ [i]).Nodup) (n' : Option Nat) :
    Segment (withNext links i n') p (xs ++ [i]) n' := by
  have hi : i ∉ xs := by
    have := List.nodup_append.mp hnd
    intro hmem
    exact this.2.2 i hmem i (by simp) rfl
  obtain ⟨hxs, hlast⟩ := segment_append.mp h
  rw [segment_append]
  refine ⟨?_, ?_⟩
  · simp only [List.head?_cons, Option.some_or] at hxs ⊢
    refine hxs.congr fun j hj => Function.update_of_ne ?_ _ _
    rintro rfl
    exact hi hj
  · simp only [Segment, List.head?_nil, Option.none_or, and_true] at hlast ⊢
    simp [withNext, hlast]

/-- A new predecessor of the first node. -/
theorem Segment.withPrev_head
    {p n : Option Nat} {xs : List Nat} {i : Nat}
    (h : Segment links p (i :: xs) n)
    (hnd : (i :: xs).Nodup) (p' : Option Nat) :
    Segment (withPrev links i p') p' (i :: xs) n := by
  obtain ⟨hi, hxs⟩ := h
  refine ⟨by simp [withPrev, hi], ?_⟩
  refine hxs.congr fun j hj => Function.update_of_ne ?_ _ _
  rintro rfl
  exact (List.nodup_cons.mp hnd).1 hj

end Segments

section Editing

/-- The link map after `n` becomes the successor of a node that may be absent. -/
def withNext? (links : LinkMap) : Option Nat → Option Nat → LinkMap
  | none, _ => links
  | some i, n => withNext links i n

/-- The link map after `p` becomes the predecessor of a node that may be
absent. -/
def withPrev? (links : LinkMap) : Option Nat → Option Nat → LinkMap
  | none, _ => links
  | some i, p => withPrev links i p

variable {links : LinkMap}

theorem withNext?_of_ne
    {i? : Option Nat} {j : Nat} {n : Option Nat}
    (h : i? ≠ some j) :
    withNext? links i? n j = links j := by
  cases i? with
  | none => rfl
  | some i => exact Function.update_of_ne (fun e => h (by rw [e])) _ _

theorem withPrev?_of_ne
    {i? : Option Nat} {j : Nat} {p : Option Nat}
    (h : i? ≠ some j) :
    withPrev? links i? p j = links j := by
  cases i? with
  | none => rfl
  | some i => exact Function.update_of_ne (fun e => h (by rw [e])) _ _

theorem Segment.withNext?_getLast?
    {p n : Option Nat} {xs : List Nat}
    (h : Segment links p xs n)
    (hnd : xs.Nodup) (n' : Option Nat) :
    Segment (withNext? links xs.getLast? n') p xs n' := by
  rcases List.eq_nil_or_concat xs with rfl | ⟨ys, i, rfl⟩
  · trivial
  · simp only [List.concat_eq_append] at h hnd ⊢
    rw [List.getLast?_append_of_ne_nil _ (by simp)]
    exact h.withNext_last hnd n'

theorem Segment.withPrev?_head?
    {p n : Option Nat} {xs : List Nat}
    (h : Segment links p xs n)
    (hnd : xs.Nodup) (p' : Option Nat) :
    Segment (withPrev? links xs.head? p') p' xs n := by
  cases xs with
  | nil => trivial
  | cons i xs => exact h.withPrev_head hnd p'

/-- Linking a node behind the last one: the node gets its links, then the last
node its new successor. -/
theorem segment_snoc
    {xs : List Nat} {i : Nat}
    (h : Segment links none xs none)
    (hnd : xs.Nodup) (hi : i ∉ xs) :
    Segment
      (withNext? (Function.update links i (some (xs.getLast?, none)))
        xs.getLast? (some i))
      none (xs ++ [i]) none := by
  have hne : xs.getLast? ≠ some i := by
    intro hlast
    exact hi (List.mem_of_getLast? hlast)
  have hupd : Segment (Function.update links i (some (xs.getLast?, none)))
      none xs none := by
    refine h.congr fun j hj => Function.update_of_ne ?_ _ _
    rintro rfl
    exact hi hj
  rw [segment_append]
  refine ⟨hupd.withNext?_getLast? hnd _, ?_⟩
  refine ⟨?_, trivial⟩
  rw [withNext?_of_ne hne, Function.update_self]
  simp

/-- Unlinking a node at any position: its neighbours, where there are any, are
linked to each other. -/
theorem segment_unlink
    {xs ys : List Nat} {i : Nat}
    (h : Segment links none (xs ++ i :: ys) none)
    (hnd : (xs ++ i :: ys).Nodup) :
    Segment
      (withPrev? (withNext? links xs.getLast? ys.head?) ys.head? xs.getLast?)
      none (xs ++ ys) none := by
  obtain ⟨hndx, hndi, hdisj⟩ := List.nodup_append.mp hnd
  have hndy : ys.Nodup := (List.nodup_cons.mp hndi).2
  obtain ⟨hxs, -, hys⟩ := segment_append.mp h
  have hx : Segment (withNext? links xs.getLast? ys.head?) none xs ys.head? :=
    hxs.withNext?_getLast? hndx _
  have hy : Segment (withNext? links xs.getLast? ys.head?) (some i) ys none := by
    refine hys.congr fun j hj => withNext?_of_ne ?_
    intro hlast
    exact hdisj j (List.mem_of_getLast? hlast) j (List.mem_cons_of_mem i hj) rfl
  rw [segment_append]
  refine ⟨?_, ?_⟩
  · rw [Option.or_none]
    refine hx.congr fun j hj => withPrev?_of_ne ?_
    intro hhead
    exact hdisj j hj j (List.mem_cons_of_mem i (List.mem_of_head? hhead)) rfl
  · rw [Option.or_none]
    exact hy.withPrev?_head? hndy _

end Editing

section Ends

/-- The first node after a node is unlinked: it changes only if the node was
the first. -/
theorem head?_unlink
    {xs ys : List Nat} {i : Nat}
    (hnd : (xs ++ i :: ys).Nodup) :
    (if (xs ++ i :: ys).head? = some i then ys.head? else (xs ++ i :: ys).head?) =
      (xs ++ ys).head? := by
  cases xs with
  | nil => simp
  | cons j xs =>
      have : j ≠ i := by
        rintro rfl
        simp at hnd
      simp [this]

/-- The last node after a node is unlinked. -/
theorem getLast?_unlink
    {xs ys : List Nat} {i : Nat}
    (hnd : (xs ++ i :: ys).Nodup) :
    (if (xs ++ i :: ys).getLast? = some i then xs.getLast?
      else (xs ++ i :: ys).getLast?) =
      (xs ++ ys).getLast? := by
  rcases List.eq_nil_or_concat ys with rfl | ⟨zs, j, rfl⟩
  · simp
  · have hlast : (xs ++ i :: zs.concat j).getLast? = some j := by
      have e : xs ++ i :: zs.concat j = (xs ++ i :: zs) ++ [j] := by simp
      rw [e, List.getLast?_append_of_ne_nil _ (by simp)]
      rfl
    have hlast' : (xs ++ zs.concat j).getLast? = some j := by
      rw [List.concat_eq_append, ← List.append_assoc,
        List.getLast?_append_of_ne_nil _ (by simp)]
      rfl
    have : j ≠ i := by
      rintro rfl
      simp [List.nodup_append] at hnd
    rw [hlast, hlast']
    simp [this]

/-- A list without one of its elements, when the element occurs once. -/
theorem filter_ne_append_cons
    {α : Type} [DecidableEq α] {xs ys : List α} {i : α}
    (hnd : (xs ++ i :: ys).Nodup) :
    (xs ++ i :: ys).filter (fun j => decide (j ≠ i)) = xs ++ ys := by
  obtain ⟨-, hndi, hdisj⟩ := List.nodup_append.mp hnd
  have hx : ∀ j, j ∈ xs → j ≠ i := fun j hj => hdisj j hj i (by simp)
  have hy : ∀ j, j ∈ ys → j ≠ i := by
    rintro j hj rfl
    exact (List.nodup_cons.mp hndi).1 hj
  rw [List.filter_append, List.filter_cons_of_neg (by simp),
    List.filter_eq_self.mpr (by simpa using hx),
    List.filter_eq_self.mpr (by simpa using hy)]

end Ends

section Chains

/-- The nodes `xs` in the order of a singly linked list: every node knows the
next one. -/
def Chain (next : Nat → Option (Option Nat)) : List Nat → Prop
  | [] => True
  | i :: xs => next i = some xs.head? ∧ Chain next xs

variable {next next' : Nat → Option (Option Nat)}

/-- A chain depends on its own nodes only. -/
theorem Chain.congr
    {xs : List Nat}
    (h : Chain next xs)
    (heq : ∀ i, i ∈ xs → next' i = next i) :
    Chain next' xs := by
  induction xs with
  | nil => trivial
  | cons i xs ih =>
      exact ⟨by rw [heq i (by simp), h.1],
        ih h.2 (fun j hj => heq j (List.mem_cons_of_mem i hj))⟩

/-- The successor of the node at a position of a chain. -/
theorem Chain.at
    {xs : List Nat} {n i : Nat}
    (h : Chain next xs) (hi : xs[n]? = some i) :
    next i = some xs[n + 1]? := by
  induction xs generalizing n with
  | nil => simp at hi
  | cons j xs ih =>
      cases n with
      | zero =>
          obtain rfl : j = i := by simpa using hi
          rw [h.1, List.head?_eq_getElem?]
          rfl
      | succ n => exact ih h.2 (by simpa using hi)

/-- Nodes with the successors of their positions are a chain. -/
theorem chain_of_at
    {xs : List Nat}
    (h : ∀ n i, xs[n]? = some i → next i = some xs[n + 1]?) :
    Chain next xs := by
  induction xs with
  | nil => trivial
  | cons i xs ih =>
      refine ⟨?_, ih fun n j hj => h (n + 1) j hj⟩
      rw [h 0 i rfl, List.head?_eq_getElem?]
      rfl

theorem Chain.mem_some
    {xs : List Nat} {i : Nat}
    (h : Chain next xs) (hi : i ∈ xs) :
    ∃ n, next i = some n := by
  induction xs with
  | nil => simp at hi
  | cons j xs ih =>
      rcases List.mem_cons.mp hi with rfl | hi
      · exact ⟨_, h.1⟩
      · exact ih h.2 hi

end Chains

end Links
end LmaxEngine
