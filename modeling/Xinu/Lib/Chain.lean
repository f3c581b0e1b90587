import Mathlib.Logic.Function.Basic
import Mathlib.Data.List.Basic

/-!
# `Xinu.Lib.Chain`: singly linked chains of pointers

A linked list in memory is a successor function `next : P → P` and a
first pointer. `Chain next a l z` says that following `next` from `a`
visits the nodes of `l` in order and then arrives at `z`. A list that
ends in a null pointer is the case `z = null`.

* `chain_append`, `chain_concat`: a chain splits at any node.
* `Chain.congr`, `Chain.update_of_notMem`: a chain reads the successor
  of its own nodes only.
* `Chain.relink`: the one edit every list operation performs, writing
  the successor of the last node of a prefix.
* `Chain.unique`: the nodes up to a terminator are determined by the
  first pointer, and so are the first so many nodes
  (`Chain.eq_of_length`). The successors are determined by the nodes
  (`Chain.next_eq`).
* `Chain.nodup`: a chain that reaches its terminator visits no node
  twice.

Nothing here depends on what a pointer is.
-/

namespace Xinu.Lib

open Function List

variable {P : Type} {next : P → P}

/-- Following `next` from `a` visits exactly the nodes of the list, in
order, and ends at `z`. -/
def Chain (next : P → P) (a : P) : List P → P → Prop
  | [], z => a = z
  | p :: l, z => a = p ∧ Chain next (next p) l z

@[simp] theorem chain_nil {a z : P} : Chain next a [] z ↔ a = z := Iff.rfl

@[simp] theorem chain_cons {a p z : P} {l : List P} :
    Chain next a (p :: l) z ↔ a = p ∧ Chain next (next p) l z := Iff.rfl

/-- A chain over a concatenation passes through the pointer between the
two halves. -/
theorem chain_append {z : P} {l2 : List P} :
    ∀ {l1 : List P} {a : P},
      Chain next a (l1 ++ l2) z ↔ ∃ b, Chain next a l1 b ∧ Chain next b l2 z
  | [], a => by simp
  | p :: l1, a => by
    have hrec : ∀ {a}, Chain next a (l1 ++ l2) z ↔ _ := chain_append
    simp only [List.cons_append, chain_cons, hrec, and_assoc, exists_and_left]

/-- The last node of a chain points at its end. -/
theorem chain_concat {a p z : P} {l : List P} :
    Chain next a (l ++ [p]) z ↔ Chain next a l p ∧ next p = z := by
  rw [chain_append]
  constructor
  · rintro ⟨b, hl, rfl, hz⟩
    exact ⟨hl, hz⟩
  · rintro ⟨hl, hz⟩
    exact ⟨p, hl, rfl, hz⟩

/-- A chain only reads the successors of its own nodes. -/
theorem Chain.congr {next next' : P → P} {z : P} :
    ∀ {l : List P} {a : P}, Chain next a l z → (∀ p ∈ l, next' p = next p) →
      Chain next' a l z
  | [], _, h, _ => h
  | p :: l, a, ⟨ha, h⟩, hag => by
    refine ⟨ha, ?_⟩
    rw [hag p mem_cons_self]
    exact h.congr fun q hq => hag q (mem_cons_of_mem _ hq)

/-- Writing the successor of a node outside the chain leaves the chain
alone. -/
theorem Chain.update_of_notMem [DecidableEq P] {a z p v : P} {l : List P}
    (h : Chain next a l z) (hp : p ∉ l) : Chain (update next p v) a l z :=
  h.congr fun _ hq => update_of_ne (ne_of_mem_of_not_mem hq hp) _ _

/-- Redirecting the last node of a chain changes where the chain ends
and nothing else, provided the node occurs once. -/
theorem Chain.relink [DecidableEq P] {a p z v : P} {l : List P}
    (h : Chain next a (l ++ [p]) z) (hp : p ∉ l) :
    Chain (update next p v) a (l ++ [p]) v := by
  rw [chain_concat] at h ⊢
  exact ⟨h.1.update_of_notMem hp, update_self _ _ _⟩

/-- Two chains over the same nodes to the same terminator have the same
successors. -/
theorem Chain.next_eq {next next' : P → P} {z : P} :
    ∀ {l : List P} {a a' : P}, Chain next a l z → Chain next' a' l z → ∀ p ∈ l, next p = next' p
  | [], _, _, _, _ => by simp
  | [q], _, _, h, h' => by
    intro p hp
    obtain rfl := mem_singleton.mp hp
    exact h.2.trans h'.2.symm
  | q :: r :: l, _, _, h, h' => by
    refine forall_mem_cons.mpr ⟨h.2.1.trans h'.2.1.symm, ?_⟩
    exact Chain.next_eq h.2 h'.2

/-- Two chains from the same pointer to the same terminator visit the
same nodes, when the terminator is not itself a node. -/
theorem Chain.unique {z : P} :
    ∀ {l l' : List P} {a : P}, Chain next a l z → Chain next a l' z →
      z ∉ l → z ∉ l' → l = l'
  | [], [], _, _, _, _, _ => rfl
  | [], p :: l', a, h, h', _, hz' => by
    obtain ⟨rfl, -⟩ := h'
    rw [chain_nil] at h
    subst h
    exact absurd mem_cons_self hz'
  | p :: l, [], a, h, h', hz, _ => by
    obtain ⟨rfl, -⟩ := h
    rw [chain_nil] at h'
    subst h'
    exact absurd mem_cons_self hz
  | p :: l, q :: l', a, ⟨ha, h⟩, ⟨ha', h'⟩, hz, hz' => by
    subst ha
    subst ha'
    rw [h.unique h' (fun hm => hz (mem_cons_of_mem _ hm))
      (fun hm => hz' (mem_cons_of_mem _ hm))]

/-- Two chains of one length from the same pointer are the same chain. -/
theorem Chain.eq_of_length {z z' : P} :
    ∀ {l l' : List P} {a : P}, Chain next a l z → Chain next a l' z' → l.length = l'.length →
      l = l' ∧ z = z'
  | [], [], _, h, h', _ => ⟨rfl, h.symm.trans h'⟩
  | p :: l, q :: l', _, ⟨ha, h⟩, ⟨ha', h'⟩, hlen => by
    subst ha
    subst ha'
    obtain ⟨rfl, hz⟩ := h.eq_of_length h' (Nat.succ.inj hlen)
    exact ⟨rfl, hz⟩

/-- A chain that arrives at `z` passes through every node that another
one from the same start reaches before `z`. -/
theorem Chain.mem_of_chain {y z : P} (hne : y ≠ z) :
    ∀ {l l' : List P} {a : P}, Chain next a l y → Chain next a l' z → z ∉ l → y ∈ l'
  | [], [], _, h, h', _ => absurd (h.symm.trans h') hne
  | [], p :: l', _, h, h', _ => h.symm.trans h'.1 ▸ mem_cons_self
  | p :: l, [], _, h, h', hz => absurd (h'.symm.trans h.1 ▸ mem_cons_self) hz
  | p :: l, q :: l', _, ⟨ha, h⟩, ⟨ha', h'⟩, hz => by
    subst ha
    subst ha'
    exact mem_cons_of_mem _ (h.mem_of_chain hne h' fun hm => hz (mem_cons_of_mem _ hm))

/-- A chain with nodes starts at the first of them. -/
theorem Chain.mem_of_ne_nil {a z : P} {l : List P} (h : Chain next a l z) (hl : l ≠ []) :
    a ∈ l := by
  cases l with
  | nil => exact absurd rfl hl
  | cons p l => exact h.1 ▸ mem_cons_self

/-- A chain that arrives at a terminator visits each node once: from a
node met twice it would go round forever. -/
theorem Chain.nodup {z : P} :
    ∀ {l : List P} {a : P}, Chain next a l z → z ∉ l → l.Nodup
  | [], _, _, _ => nodup_nil
  | p :: l, a, ⟨ha, h⟩, hz => by
    have hzl : z ∉ l := fun hm => hz (mem_cons_of_mem _ hm)
    refine nodup_cons.mpr ⟨fun hp => ?_, h.nodup hzl⟩
    -- From the second visit on, the chain is a shorter one from `p` to `z`.
    obtain ⟨l1, l2, rfl⟩ := append_of_mem hp
    obtain ⟨b, -, hb, hrest⟩ := chain_append.mp h
    have hagain : Chain next p (p :: l2) z := ⟨rfl, hrest⟩
    have hfirst : Chain next p (p :: (l1 ++ p :: l2)) z := ⟨rfl, h⟩
    have hlen := congrArg List.length
      (hagain.unique hfirst (fun hm => hzl (mem_append_right _ hm)) hz)
    simp only [length_cons, length_append] at hlen
    omega

end Xinu.Lib
