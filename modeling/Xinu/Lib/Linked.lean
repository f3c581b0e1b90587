import Mathlib.Data.List.Chain
import Mathlib.Data.List.Nodup
import Xinu.Lib.Chain

/-!
# `Xinu.Lib.Linked`: doubly linked segments

A doubly linked list is two functions `next, prev : P → P` on nodes.
`Linked next prev l` says that consecutive nodes of `l` point at each
other. The list includes its sentinels: a queue with head `a`, tail `b`
and members `l` is `Linked next prev (a :: l ++ [b])`.

* `linked_split`: a segment splits at any node.
* `Linked.congr`: a segment reads `next` of all nodes but the last and
  `prev` of all nodes but the first.
* `Linked.chain_prev`: following `prev` from the last node of a segment
  visits its nodes backwards.
* `Linked.insert`, `Linked.unlink`: the two edits, a node between two
  neighbours and a node out from between them.
-/

namespace Xinu.Lib

open Function List

variable {P : Type} {next prev next' prev' : P → P} {l1 l2 : List P}

/-- Consecutive nodes point at each other. -/
def Linked (next prev : P → P) (l : List P) : Prop :=
  l.IsChain fun x y => next x = y ∧ prev y = x

@[simp] theorem linked_singleton (x : P) : Linked next prev [x] := List.IsChain.singleton x

@[simp] theorem linked_cons_cons {x y : P} {l : List P} :
    Linked next prev (x :: y :: l) ↔ (next x = y ∧ prev y = x) ∧ Linked next prev (y :: l) :=
  isChain_cons_cons

/-- A segment splits at any of its nodes. -/
theorem linked_split {x : P} :
    Linked next prev (l1 ++ x :: l2) ↔
      Linked next prev (l1 ++ [x]) ∧ Linked next prev (x :: l2) :=
  isChain_split

/-- A segment splits between any two neighbours. -/
theorem linked_split_pair {x y : P} :
    Linked next prev (l1 ++ x :: y :: l2) ↔
      Linked next prev (l1 ++ [x]) ∧ (next x = y ∧ prev y = x) ∧ Linked next prev (y :: l2) :=
  isChain_append_cons_cons

/-- Following `prev` from the last node of a segment visits its nodes
backwards, up to the first. -/
theorem Linked.chain_prev {a p : P} {l : List P} (h : Linked next prev (a :: (l ++ [p]))) :
    Chain prev p (p :: l.reverse) a := by
  induction l using List.reverseRecOn generalizing p with
  | nil => exact ⟨rfl, (linked_cons_cons.mp h).1.2⟩
  | append_singleton l x ih =>
    have hsplit : Linked next prev ((a :: l) ++ x :: [p]) := by simpa using h
    obtain ⟨hfront, ⟨-, hprev⟩, -⟩ := linked_split_pair.mp hsplit
    have hrest : Chain prev x (x :: l.reverse) a := ih hfront
    rw [reverse_concat]
    refine ⟨rfl, ?_⟩
    rwa [hprev]

/-- A segment reads `next` of every node but the last and `prev` of every
node but the first. -/
theorem Linked.congr : ∀ {l : List P}, Linked next prev l →
    (∀ x ∈ l.dropLast, next' x = next x) → (∀ x ∈ l.tail, prev' x = prev x) →
      Linked next' prev' l
  | [], _, _, _ => List.IsChain.nil
  | [x], _, _, _ => linked_singleton x
  | x :: y :: l, h, hn, hp => by
    obtain ⟨⟨h1, h2⟩, hl⟩ := linked_cons_cons.mp h
    rw [dropLast_cons_of_ne_nil (cons_ne_nil y l)] at hn
    refine linked_cons_cons.mpr ⟨⟨?_, ?_⟩, hl.congr (fun z hz => ?_) fun z hz => ?_⟩
    · rw [hn x mem_cons_self, h1]
    · rw [hp y mem_cons_self, h2]
    · exact hn z (mem_cons_of_mem _ hz)
    · exact hp z (mem_cons_of_mem _ hz)

/-- A segment whose nodes keep both links stays linked. -/
theorem Linked.congr_of_mem {l : List P} (h : Linked next prev l)
    (hn : ∀ x ∈ l, next' x = next x) (hp : ∀ x ∈ l, prev' x = prev x) : Linked next' prev' l :=
  h.congr (fun x hx => hn x (dropLast_subset l hx)) fun x hx => hp x (mem_of_mem_tail hx)

theorem not_mem_of_nodup_middle {u : P} (hnd : (l1 ++ u :: l2).Nodup) :
    u ∉ l1 ∧ u ∉ l2 := by
  have h := (nodup_middle.mp hnd).notMem
  simpa only [mem_append, not_or] using h

section Edit
variable [DecidableEq P] {l1 l2 : List P} {u v x : P}

/-- Two segments joined by making `u` and `v` point at each other. -/
theorem Linked.join (h₁ : Linked next prev (l1 ++ [u])) (h₂ : Linked next prev (v :: l2))
    (hnd : (l1 ++ u :: v :: l2).Nodup) :
    Linked (update next u v) (update prev v u) (l1 ++ u :: v :: l2) := by
  have hu := not_mem_of_nodup_middle hnd
  have hv : v ∉ l1 ++ [u] ∧ v ∉ l2 := by
    rw [append_cons] at hnd
    exact not_mem_of_nodup_middle hnd
  refine linked_split_pair.mpr ⟨h₁.congr (fun y hy => ?_) fun y hy => ?_, ⟨?_, ?_⟩,
    h₂.congr (fun y hy => ?_) fun y hy => ?_⟩
  · rw [dropLast_concat] at hy
    exact update_of_ne (ne_of_mem_of_not_mem hy hu.1) _ _
  · exact update_of_ne (ne_of_mem_of_not_mem (mem_of_mem_tail hy) hv.1) _ _
  · exact update_self _ _ _
  · exact update_self _ _ _
  · exact update_of_ne
      (ne_of_mem_of_not_mem (dropLast_subset _ hy) hu.2) _ _
  · exact update_of_ne (ne_of_mem_of_not_mem hy hv.2) _ _

/-- Taking `x` out from between its neighbours. -/
theorem Linked.unlink (h : Linked next prev (l1 ++ u :: x :: v :: l2))
    (hnd : (l1 ++ u :: x :: v :: l2).Nodup) :
    Linked (update next u v) (update prev v u) (l1 ++ u :: v :: l2) := by
  obtain ⟨h₁, -, h₂⟩ := linked_split_pair.mp h
  refine h₁.join (linked_cons_cons.mp h₂).2 (hnd.sublist ?_)
  exact ((sublist_cons_self x (v :: l2)).cons_cons u).append_left l1

/-- Putting `x` between two neighbours. -/
theorem Linked.insert (h : Linked next prev (l1 ++ u :: v :: l2))
    (hnd : (l1 ++ u :: v :: l2).Nodup) (hx : x ∉ l1 ++ u :: v :: l2) :
    Linked (update (update next x v) u x)
      (update (update prev x u) v x) (l1 ++ u :: x :: v :: l2) := by
  obtain ⟨h₁, -, h₂⟩ := linked_split_pair.mp h
  have hv : v ∉ l1 ++ [u] := by
    rw [append_cons] at hnd
    exact (not_mem_of_nodup_middle hnd).1
  have hnew : (l1 ++ u :: x :: v :: l2).Nodup := by
    rw [append_cons] at hnd hx ⊢
    exact nodup_middle.mpr (nodup_cons.mpr ⟨hx, hnd⟩)
  simp only [mem_append, mem_cons, not_or] at hx
  -- First `x` and the right half, then the left half and `x`.
  have hright : Linked (update next x v) (update prev v x) (x :: v :: l2) := by
    refine Linked.join (show Linked next prev ([] ++ [x]) from linked_singleton x) h₂
      (hnew.sublist ?_)
    exact (sublist_cons_self u _).trans (sublist_append_right l1 _)
  have hleft : Linked (update next x v) (update prev v x) (l1 ++ [u]) := by
    refine h₁.congr (fun y hy => ?_) fun y hy => ?_
    · rw [dropLast_concat] at hy
      exact update_of_ne (ne_of_mem_of_not_mem hy hx.1) _ _
    · exact update_of_ne (ne_of_mem_of_not_mem (mem_of_mem_tail hy) hv) _ _
  rw [update_comm hx.2.2.1]
  exact hleft.join hright hnew

end Edit

end Xinu.Lib
