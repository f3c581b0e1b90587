import Xinu.Proofs.Queue.Refine

/-!
# `Xinu.Proofs.Queue.Ids`: how many queues the table holds

`newqueue` takes the next two slots of the table and never checks that
there are two left. `newqueues` is a number of calls in a row. Up to
`capacity` calls succeed (`newqueues_spec`), and one more writes behind
the table (`newqueues_full`). `sysinit` makes `NPROC` queues for messages
and three for each of the four cores, which is `capacity` already.

`IdSound` is what a caller relies on in an id: both slots lie behind the
processes and inside the table, they are the slots that were linked, and
`isbadqueue` accepts the id.
-/

namespace Xinu.Queuetab

open Lib List

/-- `k` calls of `newqueue` in a row, with the ids they return. -/
def newqueues : Nat → Queuetab → Except Fault (List Ulong × Queuetab)
  | 0, t => .ok ([], t)
  | k + 1, t => do
    let (q, t) ← t.newqueue
    let (qs, t) ← newqueues k t
    return (q :: qs, t)

/-- The id names two linked slots of the table. -/
structure IdSound (t : Queuetab) (q : Ulong) : Prop where
  head : NPROC ≤ queuehead q ∧ queuehead q < NQENT
  tail : NPROC ≤ queuetail q ∧ queuetail q < NQENT
  next : t.next (queuehead q) = queuetail q ∧ t.next (queuetail q) = EMPTY
  prev : t.prev (queuehead q) = EMPTY ∧ t.prev (queuetail q) = queuehead q
  accepted : isbadqueue q = false

/-- Head and tail slots of the ids that are not `SYSERR`. -/
def idSlots (qs : List Ulong) : List Int :=
  (qs.filter (· ≠ SYSERR)).flatMap fun q => [queuehead q, queuetail q]

section Ids
variable {t t' : Queuetab} {f : Fifo} {k : Nat}

/-- The lists after `k` more queues. -/
def Fifo.newqueues (f : Fifo) : Nat → Fifo
  | 0 => f
  | k + 1 => f.newqueue.newqueues k

theorem Fifo.count_newqueues : ∀ (k : Nat) (f : Fifo), (f.newqueues k).count = f.count + k := by
  intro k
  induction k with
  | zero => exact fun _ => rfl
  | succ k ih =>
    intro f
    rw [newqueues, ih, newqueue, Nat.add_right_comm, Nat.add_assoc]

/-- New queues are empty, so no process is queued that was not before. -/
theorem Fifo.queued_of_newqueues {p : Int} :
    ∀ (k : Nat) (f : Fifo), (f.newqueues k).Queued p → f.Queued p := by
  intro k
  induction k with
  | zero => exact fun _ h => h
  | succ k ih => exact fun f h => queued_of_newqueue (ih f.newqueue h)

/-- As long as slots are left, the calls return the next ids. -/
theorem newqueues_spec : ∀ (k : Nat) {t : Queuetab} {f : Fifo}, t.Represents f →
    f.count + k ≤ capacity →
      ∃ t', newqueues k t = .ok ((List.range' f.count k).map qid, t') ∧
        t'.Represents (f.newqueues k) := by
  intro k
  induction k with
  | zero => exact fun hr _ => ⟨_, rfl, hr⟩
  | succ k ih =>
    intro t f hr hcap
    obtain ⟨t1, hnew, hr1⟩ := newqueue_spec hr (by omega)
    have hcap1 : f.newqueue.count + k ≤ capacity := by
      show f.count + 1 + k ≤ capacity
      omega
    obtain ⟨t2, hrest, hr2⟩ := ih hr1 hcap1
    refine ⟨t2, ?_, hr2⟩
    rw [newqueues, hnew, ok_bind]
    simp only [hrest, ok_bind]
    rfl

/-- The calls are steps of a run. -/
theorem QueueReachable.newqueues {state : Int → PrState} :
    ∀ (k : Nat) {t t' : Queuetab} {f : Fifo} {qs : List Ulong}, QueueReachable state t f →
      f.count + k ≤ capacity → Queuetab.newqueues k t = .ok (qs, t') →
        QueueReachable state t' (f.newqueues k) := by
  intro k
  induction k with
  | zero =>
    intro t t' f qs h _ hrun
    cases hrun
    exact h
  | succ k ih =>
    intro t t' f qs h hcap hrun
    obtain ⟨⟨q, t1⟩, hnew, hrun⟩ := bind_eq_ok hrun
    obtain ⟨⟨qs1, t2⟩, hrest, hrun⟩ := bind_eq_ok hrun
    cases hrun
    have hcap1 : f.newqueue.count + k ≤ capacity := by
      show f.count + 1 + k ≤ capacity
      omega
    exact ih (h.tail (.newqueue (by omega) hnew)) hcap1 hrest

/-- A full table: the call writes behind it. -/
theorem newqueue_full (hr : t.Represents f) (hfull : f.count = capacity) :
    t.newqueue = .error .outOfBounds := by
  have hout : inTable t.nextqueue = false := by
    rw [hr.nextqueue, hfull]
    decide
  show (setNext _ t.nextqueue _ >>= _) = _
  rw [setNext, hout]
  rfl

theorem newqueues_full : ∀ (k : Nat) {t : Queuetab} {f : Fifo}, t.Represents f →
    capacity < f.count + k → newqueues k t = .error .outOfBounds := by
  intro k
  induction k with
  | zero =>
    intro t f hr hcap
    exact absurd hr.capacity (by omega)
  | succ k ih =>
    intro t f hr hcap
    by_cases hfull : f.count = capacity
    · rw [newqueues, newqueue_full hr hfull]
      rfl
    · -- There is room for one queue, and too little for the rest.
      obtain ⟨t1, hnew, hr1⟩ := newqueue_spec hr (Nat.lt_of_le_of_ne hr.capacity hfull)
      have hcap1 : capacity < f.newqueue.count + k := by
        show capacity < f.count + 1 + k
        omega
      rw [newqueues, hnew, ok_bind]
      simp only [ih hr1 hcap1]
      rfl

/-- The id of an empty queue is sound. -/
theorem Represents.idSound (hr : t.Represents f) (hk : k < f.count) (hempty : f.contents k = []) :
    IdSound t (qid k) := by
  have hcap : k < Queuetab.capacity := Nat.lt_of_lt_of_le hk hr.capacity
  have hlinked := hr.linked k hk
  rw [Fifo.nodes, hempty, nil_append] at hlinked
  obtain ⟨⟨hnext, hprev⟩, -⟩ := linked_cons_cons.mp hlinked
  have hhead := inTable_iff.mp (hr.inTable_of_mem hk (Fifo.mem_nodes.mpr (Or.inl rfl)))
  have htail := inTable_iff.mp (hr.inTable_of_mem hk (Fifo.mem_nodes.mpr (Or.inr (Or.inr rfl))))
  refine ⟨?_, ?_, ?_, ?_, isbadqueue_qid hcap⟩ <;>
    simp only [queuehead_qid hcap, queuetail_qid hcap]
  · exact ⟨by simp only [headSlot]; omega, hhead.2⟩
  · exact ⟨by simp only [tailSlot, headSlot]; omega, htail.2⟩
  · exact ⟨hnext, hr.tail k hk⟩
  · exact ⟨hr.head k hk, hprev⟩

theorem qid_ne_syserr (hk : k < capacity) : qid k ≠ SYSERR := by
  intro h
  have hhead := queuehead_qid hk
  rw [h] at hhead
  -- `queuehead` masks the id, so `SYSERR` has a head slot as well, far
  -- behind the table.
  have hval : queuehead SYSERR = 65535 := by decide
  simp only [hval, headSlot, NPROC, capacity] at hhead hk
  omega

/-- The ids of different queues have different slots. -/
theorem nodup_idSlots (hcap : k ≤ capacity) : (idSlots ((List.range k).map qid)).Nodup := by
  have hkeep : ((List.range k).map qid).filter (· ≠ SYSERR) = (List.range k).map qid := by
    refine filter_eq_self.mpr fun q hq => ?_
    obtain ⟨j, hj, rfl⟩ := mem_map.mp hq
    exact decide_eq_true (qid_ne_syserr (Nat.lt_of_lt_of_le (mem_range.mp hj) hcap))
  have hslots : idSlots ((List.range k).map qid) =
      (List.range k).flatMap fun j => [headSlot j, tailSlot j] := by
    rw [idSlots, hkeep, flatMap_map]
    refine flatMap_congr fun j hj => ?_
    have hj := Nat.lt_of_lt_of_le (mem_range.mp hj) hcap
    rw [queuehead_qid hj, queuetail_qid hj]
  rw [hslots, nodup_flatMap]
  -- The slots of queue `j` are 2j and 2j + 1 from the head of the first.
  refine ⟨fun j _ => by simp [tailSlot], nodup_range.imp fun {i j} hij x hxi hxj => ?_⟩
  simp only [mem_cons, not_mem_nil, or_false, tailSlot, headSlot] at hxi hxj
  omega

theorem Fifo.contents_newqueues : ∀ (k : Nat) (f : Fifo), (∀ j < f.count, f.contents j = []) →
    ∀ j < (f.newqueues k).count, (f.newqueues k).contents j = [] := by
  intro k
  induction k with
  | zero => exact fun _ h => h
  | succ k ih =>
    intro f h
    refine ih f.newqueue fun j hj => ?_
    by_cases hjc : j = f.count
    · rw [hjc]
      exact Function.update_self _ _ _
    · have hlt : j < f.count := Nat.lt_of_le_of_ne (Nat.le_of_lt_succ hj) hjc
      exact (Function.update_of_ne hjc _ _).trans (h j hlt)

/-- The first `k` calls of `newqueue` return sound ids with different
slots, or fail inside the table, exactly when `k` is at most
`capacity`. -/
theorem newqueues_sound_iff (k : Nat) :
    (∃ qs t, newqueues k boot = .ok (qs, t) ∧ qs.length = k ∧ (idSlots qs).Nodup ∧
      ∀ q ∈ qs, q = SYSERR ∨ IdSound t q) ↔ k ≤ capacity := by
  constructor
  · -- `newqueue` has no test for a full table, so `SYSERR` never comes
    -- back: the run faults.
    rintro ⟨qs, t, hrun, -⟩
    by_contra hcap
    have hfull := newqueues_full k represents_boot
      (show capacity < 0 + k by omega)
    rw [hfull] at hrun
    cases hrun
  · intro hcap
    obtain ⟨t, hrun, hr⟩ := newqueues_spec k represents_boot (show 0 + k ≤ capacity by omega)
    have hrange : List.range' Fifo.boot.count k = List.range k := (range_eq_range').symm
    rw [hrange] at hrun
    refine ⟨_, t, hrun, by simp, nodup_idSlots hcap, fun q hq => Or.inr ?_⟩
    obtain ⟨j, hj, rfl⟩ := mem_map.mp hq
    have hj : j < (Fifo.boot.newqueues k).count := by
      rw [Fifo.count_newqueues]
      exact Nat.lt_add_left 0 (mem_range.mp hj)
    exact hr.idSound hj
      (Fifo.contents_newqueues k Fifo.boot (fun i hi => absurd hi (Nat.not_lt_zero i)) j hj)

/-- One queue more than `sysinit` makes: the call writes behind the
table. -/
theorem newqueues_past_sysinit :
    (∃ qs t, newqueues 62 boot = .ok (qs, t) ∧ t.newqueue = .error .outOfBounds) ∧
      newqueues 63 boot = .error .outOfBounds := by
  obtain ⟨t, hrun, hr⟩ := newqueues_spec 62 represents_boot (by decide)
  exact ⟨⟨_, t, hrun, newqueue_full hr (Fifo.count_newqueues 62 Fifo.boot)⟩,
    newqueues_full 63 represents_boot (by decide)⟩

end Ids

end Xinu.Queuetab
