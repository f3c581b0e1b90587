import Xinu.Lib.Linked
import Xinu.System.Queue

/-!
# `Xinu.Proofs.Queue.Fifo`: FIFO lists and the array that spells them

The abstract state `Fifo` is a list of process ids for each queue created
so far, in the order of creation. `Represents t f` says that the array
spells these lists: each queue is a doubly linked segment from its head
slot through its members to its tail slot, and no process is on two
queues or twice on one. The rest of the file is about slots: those of
different queues never meet, all of them lie in the table, and a member
has two neighbours (`Represents.around`).
-/

namespace Xinu.Queuetab

open Lib Function List

/-- How many queues fit behind the process slots. -/
abbrev capacity : Nat := 62

/-- The head slot of the `k`-th queue. -/
abbrev headSlot (k : Nat) : Int := NPROC + 2 * k

/-- The tail slot of the `k`-th queue. -/
abbrev tailSlot (k : Nat) : Int := headSlot k + 1

/-- The id `newqueue` packs for the `k`-th queue. -/
def qid (k : Nat) : Ulong :=
  (BitVec.ofInt 32 (headSlot k) <<< 16) ||| (BitVec.ofInt 32 (tailSlot k) &&& 0xFFFF)

/-- One list of process ids for each queue created so far. -/
structure Fifo where
  count : Nat
  contents : Nat → List Int

namespace Fifo

/-- No queue yet. -/
def boot : Fifo := ⟨0, fun _ => []⟩

/-- The process is on some queue. -/
def Queued (f : Fifo) (p : Int) : Prop := ∃ k < f.count, p ∈ f.contents k

/-- A new, empty queue. -/
def newqueue (f : Fifo) : Fifo := ⟨f.count + 1, update f.contents f.count []⟩

/-- `p` joins the end of queue `k`. -/
def enqueue (f : Fifo) (k : Nat) (p : Int) : Fifo :=
  { f with contents := update f.contents k (f.contents k ++ [p]) }

/-- The first process leaves queue `k`. -/
def dequeue (f : Fifo) (k : Nat) : Fifo :=
  { f with contents := update f.contents k (f.contents k).tail }

/-- `p` leaves its queue. -/
def remove (f : Fifo) (p : Int) : Fifo :=
  { f with contents := fun k => (f.contents k).erase p }

/-- What `dequeue` returns. -/
def first (f : Fifo) (k : Nat) : Int := (f.contents k).headD EMPTY

/-- The slots of queue `k`, sentinels included. -/
def nodes (f : Fifo) (k : Nat) : List Int := headSlot k :: (f.contents k ++ [tailSlot k])

end Fifo

/-- The array spells the lists. -/
structure Represents (t : Queuetab) (f : Fifo) : Prop where
  capacity : f.count ≤ capacity
  nextqueue : t.nextqueue = headSlot f.count
  /-- The outer links of the sentinels. -/
  head : ∀ k < f.count, t.prev (headSlot k) = EMPTY
  tail : ∀ k < f.count, t.next (tailSlot k) = EMPTY
  /-- `next` and `prev` mirror each other from head to tail. -/
  linked : ∀ k < f.count, Linked t.next t.prev (f.nodes k)
  pids : ∀ k < f.count, ∀ p ∈ f.contents k, 0 ≤ p ∧ p < NPROC
  nodup : ∀ k < f.count, (f.contents k).Nodup
  /-- A process is on at most one queue. -/
  disjoint : ∀ j < f.count, ∀ k < f.count, ∀ p, p ∈ f.contents j → p ∈ f.contents k → j = k

/-! ### Queue ids -/

theorem queuehead_qid {k : Nat} (hk : k < capacity) : queuehead (qid k) = headSlot k := by
  revert k
  decide

theorem queuetail_qid {k : Nat} (hk : k < capacity) : queuetail (qid k) = tailSlot k := by
  revert k
  decide

theorem isbadqueue_qid {k : Nat} (hk : k < capacity) : isbadqueue (qid k) = false := by
  have htail : tailSlot k < NQENT := by
    simp only [headSlot, tailSlot, NQENT, NPROC, capacity] at hk ⊢
    omega
  rw [isbadqueue, queuehead_qid hk, queuetail_qid hk]
  simp only [Bool.or_eq_false_iff, decide_eq_false_iff_not, tailSlot, ne_eq, not_true_eq_false,
    not_false_eq_true, true_and]
  exact Int.not_le.mpr htail

/-! ### Checked accesses -/

section Access
variable {t : Queuetab} {i v : Int}

theorem getNext_eq (h : inTable i) : t.getNext i = .ok (t.next i) := if_pos h

theorem getPrev_eq (h : inTable i) : t.getPrev i = .ok (t.prev i) := if_pos h

theorem setNext_eq (h : inTable i) :
    t.setNext i v = .ok { t with next := update t.next i v } := if_pos h

theorem setPrev_eq (h : inTable i) :
    t.setPrev i v = .ok { t with prev := update t.prev i v } := if_pos h

theorem inTable_iff : inTable i ↔ 0 ≤ i ∧ i < NQENT := by simp [inTable]

theorem inTable_pid (h : 0 ≤ i ∧ i < NPROC) : inTable i := by
  rw [inTable_iff]
  simp only [NQENT, NPROC] at h ⊢
  omega

end Access

/-- Only the lists of existing queues matter. -/
theorem Represents.congr {t : Queuetab} {f f' : Fifo} (hr : t.Represents f)
    (hcount : f'.count = f.count) (h : ∀ k < f.count, f'.contents k = f.contents k) :
    t.Represents f' := by
  refine ⟨hcount ▸ hr.capacity, hcount ▸ hr.nextqueue, hcount ▸ hr.head, hcount ▸ hr.tail,
    ?_, ?_, ?_, ?_⟩ <;> rw [hcount]
  · intro k hk
    simpa only [Fifo.nodes, h k hk] using hr.linked k hk
  · intro k hk
    rw [h k hk]
    exact hr.pids k hk
  · intro k hk
    rw [h k hk]
    exact hr.nodup k hk
  · intro j hj k hk p hpj hpk
    rw [h j hj] at hpj
    rw [h k hk] at hpk
    exact hr.disjoint j hj k hk p hpj hpk

/-! ### The slots of different queues -/

section Slots
variable {t : Queuetab} {f : Fifo} {j k : Nat} {p : Int}

theorem Fifo.mem_nodes : p ∈ f.nodes k ↔ p = headSlot k ∨ p ∈ f.contents k ∨ p = tailSlot k := by
  simp [nodes]

theorem Represents.pid_of_mem (hr : t.Represents f) (hk : k < f.count) (hp : p ∈ f.contents k) :
    0 ≤ p ∧ p < NPROC :=
  hr.pids k hk p hp

/-- A slot belongs to one queue only. -/
theorem Represents.nodes_disjoint (hr : t.Represents f) (hj : j < f.count) (hk : k < f.count)
    (hpj : p ∈ f.nodes j) (hpk : p ∈ f.nodes k) : j = k := by
  rw [Fifo.mem_nodes] at hpj hpk
  -- Sentinels lie above the processes, two of them to each queue.
  have hlow : ∀ i < f.count, p ∈ f.contents i → p < 50 := fun i hi hpi =>
    (hr.pid_of_mem hi hpi).2
  simp only [headSlot, tailSlot, NPROC] at hpj hpk
  rcases hpj with hpj | hpj | hpj <;> rcases hpk with hpk | hpk | hpk
  case inr.inl.inr.inl => exact hr.disjoint j hj k hk p hpj hpk
  case inl.inr.inl => have := hlow k hk hpk; omega
  case inr.inr.inr.inl => have := hlow k hk hpk; omega
  case inr.inl.inl => have := hlow j hj hpj; omega
  case inr.inl.inr.inr => have := hlow j hj hpj; omega
  all_goals omega

/-- A queue visits each of its slots once. -/
theorem Represents.nodes_nodup (hr : t.Represents f) (hk : k < f.count) : (f.nodes k).Nodup := by
  have hhead : headSlot k ∉ f.contents k := fun hm => by
    have := (hr.pid_of_mem hk hm).2
    simp only [headSlot, NPROC] at this
    omega
  have htail : tailSlot k ∉ f.contents k := fun hm => by
    have := (hr.pid_of_mem hk hm).2
    simp only [headSlot, tailSlot, NPROC] at this
    omega
  rw [Fifo.nodes, nodup_cons, nodup_append_comm, singleton_append, nodup_cons]
  refine ⟨?_, htail, hr.nodup k hk⟩
  simp only [mem_append, mem_singleton, not_or]
  exact ⟨hhead, by simp only [tailSlot]; omega⟩

/-- Every slot of a queue is inside the table. -/
theorem Represents.inTable_of_mem (hr : t.Represents f) (hk : k < f.count) (hp : p ∈ f.nodes k) :
    inTable p := by
  have hcap := hr.capacity
  rcases Fifo.mem_nodes.mp hp with rfl | hp | rfl
  · rw [inTable_iff]
    simp only [headSlot, NQENT, NPROC, Queuetab.capacity] at hcap ⊢
    omega
  · exact inTable_pid (hr.pid_of_mem hk hp)
  · rw [inTable_iff]
    simp only [headSlot, tailSlot, NQENT, NPROC, Queuetab.capacity] at hcap ⊢
    omega

/-- A process on no queue is no slot of a queue. -/
theorem Fifo.notMem_nodes (hp : 0 ≤ p ∧ p < NPROC) (hq : ¬ f.Queued p) (hk : k < f.count) :
    p ∉ f.nodes k := by
  intro hm
  simp only [NPROC] at hp
  rcases Fifo.mem_nodes.mp hm with heq | hm | heq
  · simp only [headSlot, NPROC] at heq
    omega
  · exact hq ⟨k, hk, hm⟩
  · simp only [headSlot, tailSlot, NPROC] at heq
    omega

end Slots

/-! ### The neighbours of a slot -/

theorem exists_eq_concat (x : Int) (l : List Int) : ∃ a u, x :: l = a ++ [u] :=
  ⟨(x :: l).dropLast, (x :: l).getLast (cons_ne_nil x l),
    (dropLast_append_getLast (cons_ne_nil x l)).symm⟩

/-- A member `p` of queue `k` with its neighbours: a member or the head
before it, a member or the tail after it. -/
structure Around (t : Queuetab) (f : Fifo) (k : Nat) (p : Int) (l1 l2 a b : List Int) (u v : Int) :
    Prop where
  contents : f.contents k = l1 ++ p :: l2
  before : headSlot k :: l1 = a ++ [u]
  after : l2 ++ [tailSlot k] = v :: b
  nodes : f.nodes k = a ++ u :: p :: v :: b
  prev : t.prev p = u
  next : t.next p = v

theorem Represents.around {t : Queuetab} {f : Fifo} {k : Nat} {p : Int} (hr : t.Represents f)
    (hk : k < f.count) (hp : p ∈ f.contents k) :
    ∃ l1 l2 a b u v, Around t f k p l1 l2 a b u v := by
  obtain ⟨l1, l2, hc⟩ := append_of_mem hp
  obtain ⟨a, u, hau⟩ := exists_eq_concat (headSlot k) l1
  obtain ⟨v, b, hvb⟩ : ∃ v b, l2 ++ [tailSlot k] = v :: b :=
    exists_cons_of_ne_nil (by simp)
  have hsplit : f.nodes k = a ++ u :: p :: v :: b := by
    rw [Fifo.nodes, hc, List.append_assoc, List.cons_append, hvb, ← List.cons_append, hau]
    simp
  have hlinked := hr.linked k hk
  rw [hsplit] at hlinked
  obtain ⟨-, ⟨-, hprev⟩, hrest⟩ := linked_split_pair.mp hlinked
  exact ⟨l1, l2, a, b, u, v, hc, hau, hvb, hsplit, hprev, (linked_cons_cons.mp hrest).1.1⟩

end Xinu.Queuetab
