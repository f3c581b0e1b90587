import Mathlib.Data.Int.Interval
import Mathlib.Logic.Relation
import Xinu.Proofs.Queue.Fifo

/-!
# `Xinu.Proofs.Queue.Refine`: the queue table refines FIFO lists

One lemma per operation connects the array with the lists:
`newqueue_spec`, `enqueue_spec`, `dequeue_spec`, `remove_spec`,
`nonempty_spec`. Each says that the call returns and that the new array
represents the new lists. All but the first change a single queue, and
`Represents.edit` says what such a change has to provide.
`members_eq` recovers the abstract list from the array.

`queuetab_refines_fifo` is the result about whole runs.
-/

namespace Xinu.Queuetab

open Lib Function List

/-! ### Edits of one queue -/

section Edit
variable {t t' : Queuetab} {f : Fifo} {k : Nat} {c : List Int} {p : Int}

section
variable (hr : t.Represents f)
include hr

/-- A change to queue `k` only. The new array has to link the new members
of queue `k` and to keep every slot of the other queues. -/
theorem Represents.edit (hk : k < f.count) (hnext : t'.nextqueue = t.nextqueue)
    (hlinked : Linked t'.next t'.prev (headSlot k :: (c ++ [tailSlot k])))
    (hhead : t'.prev (headSlot k) = EMPTY) (htail : t'.next (tailSlot k) = EMPTY)
    (hframe : ∀ j < f.count, j ≠ k → ∀ x ∈ f.nodes j, t'.next x = t.next x ∧ t'.prev x = t.prev x)
    (hpids : ∀ x ∈ c, 0 ≤ x ∧ x < NPROC) (hnodup : c.Nodup)
    (hfresh : ∀ x ∈ c, ∀ j < f.count, j ≠ k → x ∉ f.contents j) :
    t'.Represents { f with contents := update f.contents k c } := by
  have hself : update f.contents k c k = c := update_self _ _ _
  have hother : ∀ j, j ≠ k → update f.contents k c j = f.contents j :=
    fun j hj => update_of_ne hj _ _
  refine ⟨hr.capacity, hnext.trans hr.nextqueue, fun j hj => ?_, fun j hj => ?_, fun j hj => ?_,
    fun j hj => ?_, fun j hj => ?_, fun i hi j hj x hxi hxj => ?_⟩ <;> simp only at *
  · by_cases hjk : j = k
    · exact hjk ▸ hhead
    · rw [(hframe j hj hjk _ (Fifo.mem_nodes.mpr (Or.inl rfl))).2]
      exact hr.head j hj
  · by_cases hjk : j = k
    · exact hjk ▸ htail
    · rw [(hframe j hj hjk _ (Fifo.mem_nodes.mpr (Or.inr (Or.inr rfl)))).1]
      exact hr.tail j hj
  · by_cases hjk : j = k
    · subst hjk
      simpa only [Fifo.nodes, hself] using hlinked
    · simp only [Fifo.nodes, hother j hjk]
      exact (hr.linked j hj).congr_of_mem (fun x hx => (hframe j hj hjk x hx).1)
        fun x hx => (hframe j hj hjk x hx).2
  · by_cases hjk : j = k
    · subst hjk
      rwa [hself]
    · rw [hother j hjk]
      exact hr.pids j hj
  · by_cases hjk : j = k
    · subst hjk
      rwa [hself]
    · rw [hother j hjk]
      exact hr.nodup j hj
  · -- A new member of queue `k` must be in no other queue.
    by_cases hik : i = k <;> by_cases hjk : j = k
    · exact hik.trans hjk.symm
    · subst hik
      rw [hself] at hxi
      rw [hother j hjk] at hxj
      exact absurd hxj (hfresh x hxi j hj hjk)
    · subst hjk
      rw [hself] at hxj
      rw [hother i hik] at hxi
      exact absurd hxi (hfresh x hxj i hi hik)
    · rw [hother i hik] at hxi
      rw [hother j hjk] at hxj
      exact hr.disjoint i hi j hj x hxi hxj

/-- `enqueue` of a live process that is on no queue appends it. -/
theorem enqueue_spec {state : Int → PrState} (hk : k < f.count)
    (hp : isbadpid state p = false) (hq : ¬ f.Queued p) :
    ∃ t', t.enqueue state p (qid k) = .ok (p, t') ∧ t'.Represents (f.enqueue k p) := by
  have hcap : k < capacity := Nat.lt_of_lt_of_le hk hr.capacity
  have hpid := (isbadpid_eq_false.mp hp).1
  have hnodes : ∀ j < f.count, p ∉ f.nodes j := fun j hj => Fifo.notMem_nodes hpid hq hj
  have htailmem : tailSlot k ∈ f.nodes k := Fifo.mem_nodes.mpr (Or.inr (Or.inr rfl))
  have hpt : tailSlot k ≠ p := ne_of_mem_of_not_mem htailmem (hnodes k hk)
  -- The last slot before the tail, a member or the head.
  obtain ⟨l, u, hlu⟩ := exists_eq_concat (headSlot k) (f.contents k)
  have hsplit : f.nodes k = l ++ u :: [tailSlot k] := by
    rw [Fifo.nodes, ← cons_append, hlu, append_assoc, singleton_append]
  have hlinked := hr.linked k hk
  have hnd := hr.nodes_nodup hk
  have hpk := hnodes k hk
  have humem : u ∈ f.nodes k := by simp [hsplit]
  rw [hsplit] at hlinked hnd hpk
  have hprev : t.prev (tailSlot k) = u := (linked_split_pair.mp hlinked).2.1.2
  have hrun : t.enqueue state p (qid k) = .ok (p,
      { t with
        next := update (update t.next p (tailSlot k)) u p
        prev := update (update t.prev p u) (tailSlot k) p }) := by
    rw [enqueue, isbadqueue_qid hcap, hp]
    simp only [Bool.or_self, Bool.false_eq_true, if_false, queuetail_qid hcap]
    have hin := hr.inTable_of_mem hk htailmem
    simp only [setNext_eq (inTable_pid hpid), getPrev_eq hin, ok_bind, hprev,
      setPrev_eq (inTable_pid hpid), update_of_ne hpt,
      setNext_eq (hr.inTable_of_mem hk humem), setPrev_eq hin]
    rfl
  refine ⟨_, hrun, hr.edit hk rfl ?_ ?_ ?_ (fun j hj hjk x hx => ?_) ?_ ?_ ?_⟩
  · have hins := hlinked.insert hnd hpk
    have heq : headSlot k :: (f.contents k ++ [p] ++ [tailSlot k]) =
        l ++ u :: p :: [tailSlot k] := by
      rw [← cons_append, ← cons_append, hlu]
      simp
    rwa [heq]
  · have h1 : headSlot k ≠ tailSlot k := by simp only [tailSlot]; omega
    have h2 : headSlot k ≠ p :=
      ne_of_mem_of_not_mem (Fifo.mem_nodes.mpr (Or.inl rfl)) (hnodes k hk)
    simp only [update_of_ne h1, update_of_ne h2]
    exact hr.head k hk
  · have h1 : tailSlot k ≠ u := fun h => by
      rw [h] at hnd
      exact (not_mem_of_nodup_middle hnd).2 (by simp)
    simp only [update_of_ne h1, update_of_ne hpt]
    exact hr.tail k hk
  · have h1 : x ≠ p := ne_of_mem_of_not_mem hx (hnodes j hj)
    have h2 : x ≠ u := fun h => hjk (hr.nodes_disjoint hj hk hx (h ▸ humem))
    have h3 : x ≠ tailSlot k := fun h => hjk (hr.nodes_disjoint hj hk hx (h ▸ htailmem))
    simp only [update_of_ne h1, update_of_ne h2, update_of_ne h3,
      and_self]
  · intro x hx
    rcases mem_append.mp hx with hx | hx
    · exact hr.pids k hk x hx
    · exact mem_singleton.mp hx ▸ hpid
  · rw [nodup_append_comm, singleton_append, nodup_cons]
    exact ⟨fun hm => hq ⟨k, hk, hm⟩, hr.nodup k hk⟩
  · intro x hx j hj hjk hxj
    rcases mem_append.mp hx with hx | hx
    · exact hjk (hr.disjoint j hj k hk x hxj hx)
    · exact hq ⟨j, hj, mem_singleton.mp hx ▸ hxj⟩

/-- Taking a member out of its queue. -/
theorem unlink_spec (hk : k < f.count) (hp : p ∈ f.contents k) :
    ∃ t', t.unlink p = .ok t' ∧
      t'.Represents { f with contents := update f.contents k ((f.contents k).erase p) } := by
  obtain ⟨l1, l2, a, b, u, v, hc, hau, hvb, hsplit, hprev, hnext⟩ := hr.around hk hp
  have hnd := hr.nodes_nodup hk
  have hlinked := hr.linked k hk
  rw [hsplit] at hlinked
  have hmem : ∀ x ∈ [u, p, v], x ∈ f.nodes k := by
    intro x hx
    rw [hsplit]
    simp only [mem_append, mem_cons, not_mem_nil, or_false] at hx ⊢
    tauto
  have hin : ∀ x ∈ [u, p, v], inTable x := fun x hx => hr.inTable_of_mem hk (hmem x hx)
  have hpu : p ≠ u := fun h => by
    rw [hsplit, h] at hnd
    exact (not_mem_of_nodup_middle hnd).2 (by simp)
  have hrun : t.unlink p = .ok
      { t with next := update t.next u v, prev := update t.prev v u } := by
    simp only [unlink, getPrev_eq (hin p (by simp)), getNext_eq (hin p (by simp)), hprev, hnext,
      ok_bind, setNext_eq (hin u (by simp)), update_of_ne hpu,
      setPrev_eq (hin v (by simp))]
  have herase : (f.contents k).erase p = l1 ++ l2 := by
    have hnodup := hr.nodup k hk
    rw [hc] at hnodup ⊢
    rw [erase_append_right _ (not_mem_of_nodup_middle hnodup).1, erase_cons_head]
  have hheadmem : headSlot k ∈ f.nodes k := Fifo.mem_nodes.mpr (Or.inl rfl)
  have hsub : ∀ x ∈ l1 ++ l2, x ∈ f.contents k := fun x hx =>
    mem_of_mem_erase (herase ▸ hx : x ∈ (f.contents k).erase p)
  refine ⟨_, hrun, hr.edit hk rfl ?_ ?_ ?_ (fun j hj hjk x hx => ?_) ?_ ?_ ?_⟩
  · have heq : headSlot k :: ((f.contents k).erase p ++ [tailSlot k]) = a ++ u :: v :: b := by
      rw [herase, append_assoc, hvb, ← cons_append, hau]
      simp
    rw [heq]
    exact hlinked.unlink (hsplit ▸ hnd)
  · have hne : headSlot k ≠ v := fun h => by
      -- The head is the first slot, `v` is a later one.
      have hv : v ∈ f.contents k ++ [tailSlot k] := by
        rw [hc, append_assoc, cons_append, hvb]
        simp
      rw [Fifo.nodes, nodup_cons, h] at hnd
      exact hnd.1 hv
    simp only [update_of_ne hne]
    exact hr.head k hk
  · have hne : tailSlot k ≠ u := fun h => by
      -- The tail is the last slot, `u` is an earlier one.
      have hu : u ∈ headSlot k :: f.contents k := by
        rw [hc, ← cons_append, hau]
        simp
      rw [Fifo.nodes, ← cons_append, nodup_append_comm, singleton_append,
        nodup_cons, h] at hnd
      exact hnd.1 hu
    simp only [update_of_ne hne]
    exact hr.tail k hk
  · have h1 : x ≠ u := fun h => hjk (hr.nodes_disjoint hj hk hx (h ▸ hmem u (by simp)))
    have h2 : x ≠ v := fun h => hjk (hr.nodes_disjoint hj hk hx (h ▸ hmem v (by simp)))
    simp only [update_of_ne h1, update_of_ne h2, and_self]
  · rw [herase]
    exact fun x hx => hr.pids k hk x (hsub x hx)
  · exact (hr.nodup k hk).erase p
  · intro x hx j hj hjk hxj
    exact hjk (hr.disjoint j hj k hk x hxj (mem_of_mem_erase hx))

/-- Links of a process on no queue may be written freely. -/
theorem Represents.write_free (hp : 0 ≤ p ∧ p < NPROC) (hq : ¬ f.Queued p) {x y : Int} :
    ({ t with next := update t.next p x, prev := update t.prev p y } :
      Queuetab).Represents f := by
  have hne : ∀ k < f.count, ∀ z ∈ f.nodes k, z ≠ p := fun k hk z hz =>
    ne_of_mem_of_not_mem hz (Fifo.notMem_nodes hp hq hk)
  refine { hr with
    head := fun k hk => ?_, tail := fun k hk => ?_, linked := fun k hk => ?_ }
  · simp only [update_of_ne (hne k hk _ (Fifo.mem_nodes.mpr (Or.inl rfl)))]
    exact hr.head k hk
  · simp only [update_of_ne (hne k hk _ (Fifo.mem_nodes.mpr (Or.inr (Or.inr rfl))))]
    exact hr.tail k hk
  · exact (hr.linked k hk).congr_of_mem (fun z hz => update_of_ne (hne k hk z hz) _ _)
      fun z hz => update_of_ne (hne k hk z hz) _ _

/-- The first link of a queue leads to its first member, or to its
tail. -/
theorem Represents.next_head (hk : k < f.count) :
    t.next (headSlot k) = (f.contents k).headD (tailSlot k) := by
  have hlinked := hr.linked k hk
  unfold Fifo.nodes at hlinked
  cases hc : f.contents k with
  | nil =>
    rw [hc] at hlinked
    exact (linked_cons_cons.mp hlinked).1.1
  | cons p l =>
    rw [hc] at hlinked
    exact (linked_cons_cons.mp hlinked).1.1

theorem inTable_headSlot (hk : k < f.count) : inTable (headSlot k) :=
  hr.inTable_of_mem hk (Fifo.mem_nodes.mpr (Or.inl rfl))

end

theorem not_tailSlot_lt : ¬ tailSlot k < NPROC := by
  simp only [headSlot, tailSlot, NPROC]
  omega

/-- `nonempty(q)` tells whether the list is empty. -/
theorem nonempty_spec (hr : t.Represents f) (hk : k < f.count) :
    t.nonempty (qid k) = .ok (!(f.contents k).isEmpty) := by
  rw [nonempty, queuehead_qid (Nat.lt_of_lt_of_le hk hr.capacity),
    getNext_eq (inTable_headSlot hr hk), hr.next_head hk, ok_bind]
  cases hc : f.contents k with
  | nil => simp [not_tailSlot_lt, pure, Except.pure]
  | cons p l =>
    have hp := (hr.pid_of_mem hk (hc ▸ mem_cons_self : p ∈ f.contents k)).2
    simp [hp, pure, Except.pure]

/-- `dequeue` returns the first member and takes it off the list, or
returns `EMPTY`. -/
theorem dequeue_spec (hr : t.Represents f) (hk : k < f.count) :
    ∃ t', t.dequeue (qid k) = .ok (f.first k, t') ∧ t'.Represents (f.dequeue k) := by
  have hcap : k < capacity := Nat.lt_of_lt_of_le hk hr.capacity
  -- The tests of the queue id pass, and the slot after the head is the first
  -- member or the tail.
  have hstart : t.dequeue (qid k) = (do
      let pid := (f.contents k).headD (tailSlot k)
      if pid < NPROC then
        let t ← t.unlink pid
        let t ← t.setPrev pid pid
        let t ← t.setNext pid pid
        return (pid, t)
      else return (EMPTY, t)) := by
    rw [dequeue, isbadqueue_qid hcap, queuehead_qid hcap, getNext_eq (inTable_headSlot hr hk),
      hr.next_head hk]
    rfl
  rw [hstart]
  cases hc : f.contents k with
  | nil =>
    refine ⟨t, by simp [Fifo.first, hc, not_tailSlot_lt, pure, Except.pure], ?_⟩
    have hsame : f.dequeue k = f := by
      rw [Fifo.dequeue, hc, tail_nil, ← hc, update_eq_self]
    rwa [hsame]
  | cons p l =>
    have hmem : p ∈ f.contents k := hc ▸ mem_cons_self
    have hpid := hr.pid_of_mem hk hmem
    obtain ⟨t1, hrun, hr1⟩ := unlink_spec hr hk hmem
    have herase : (f.contents k).erase p = (f.contents k).tail := by simp [hc]
    rw [herase] at hr1
    -- The slot of `p` belongs to no list now, so the two writes to it after
    -- `unlink` disturb none.
    have hfree : ¬ (f.dequeue k).Queued p := by
      rintro ⟨j, hj, hpj⟩
      by_cases hjk : j = k
      · subst hjk
        have hnd := hr.nodup j hk
        rw [hc, nodup_cons] at hnd
        simp only [Fifo.dequeue, update_self, hc, tail_cons] at hpj
        exact hnd.1 hpj
      · simp only [Fifo.dequeue, update_of_ne hjk] at hpj
        exact hjk (hr.disjoint j hj k hk p hpj hmem)
    refine ⟨_, ?_, hr1.write_free hpid hfree (x := p) (y := p)⟩
    simp only [headD_cons, hpid.2, if_true, hrun, ok_bind, setPrev_eq (inTable_pid hpid),
      setNext_eq (inTable_pid hpid), Fifo.first, hc]
    rfl

theorem headSlot_notMem {l : List Int} (hpids : ∀ x ∈ l, 0 ≤ x ∧ x < NPROC) : headSlot k ∉ l := by
  intro hm
  have := (hpids _ hm).2
  simp only [headSlot, NPROC] at this
  omega

/-- Distinct process ids fit into the process table. -/
theorem length_le_of_pids {l : List Int} (hnd : l.Nodup) (hpids : ∀ x ∈ l, 0 ≤ x ∧ x < NPROC) :
    l.length ≤ 50 := by
  have hsub : l.toFinset ⊆ Finset.Ico 0 NPROC := fun x hx =>
    Finset.mem_Ico.mpr (hpids x (mem_toFinset.mp hx))
  have hcard := Finset.card_le_card hsub
  rwa [toFinset_card_of_nodup hnd, Int.card_Ico] at hcard

section
variable (hr : t.Represents f)
include hr

/-- The walk of `remove` follows a chain of processes to a head, if it
has the steps for it. -/
theorem findHead_chain (hk : k < f.count) :
    ∀ (l : List Int) (p : Int) (steps : Nat), Chain t.prev p (p :: l) (headSlot k) →
      (∀ x ∈ p :: l, 0 ≤ x ∧ x < NPROC) → (∀ x ∈ l, t.prev x ≠ EMPTY) → l.length + 1 < steps →
        t.findHead steps p = .ok (some (headSlot k)) := by
  intro l
  induction l with
  | nil =>
    intro p steps hchain hpids _ hlen
    obtain ⟨steps, rfl⟩ := Nat.exists_eq_succ_of_ne_zero (Nat.ne_zero_of_lt hlen)
    have hprev : t.prev p = headSlot k := hchain.2
    have hsteps : steps ≠ 0 := by
      simp only [length_nil] at hlen
      omega
    simp only [findHead, getPrev_eq (inTable_pid (hpids p mem_cons_self)), hprev, ok_bind,
      getPrev_eq (inTable_headSlot hr hk), hr.head k hk, if_true, if_neg hsteps]
    rfl
  | cons q l ih =>
    intro p steps hchain hpids hne hlen
    obtain ⟨steps, rfl⟩ := Nat.exists_eq_succ_of_ne_zero (Nat.ne_zero_of_lt hlen)
    obtain ⟨-, hprev, hrest⟩ := hchain
    have hrec := ih q steps ⟨rfl, hrest⟩ (fun x hx => hpids x (mem_cons_of_mem _ hx))
      (fun x hx => hne x (mem_cons_of_mem _ hx))
      (by simp only [length_cons] at hlen; omega)
    simp only [findHead, getPrev_eq (inTable_pid (hpids p mem_cons_self)), hprev, ok_bind,
      getPrev_eq (inTable_pid (hpids q (by simp))), if_neg (hne q mem_cons_self), hrec]

/-- The `prev` links of a member lead through members to the head. -/
theorem Represents.chain_of_mem (hk : k < f.count) (hp : p ∈ f.contents k) :
    ∃ l, Chain t.prev p (p :: l) (headSlot k) ∧ ∀ x ∈ p :: l, x ∈ f.contents k := by
  obtain ⟨l1, l2, hc⟩ := append_of_mem hp
  have hlinked := hr.linked k hk
  have hsplit : f.nodes k = (headSlot k :: l1) ++ p :: (l2 ++ [tailSlot k]) := by
    rw [Fifo.nodes, hc, append_assoc, cons_append, cons_append]
  rw [hsplit] at hlinked
  refine ⟨l1.reverse, (linked_split.mp hlinked).1.chain_prev, fun x hx => ?_⟩
  rw [hc]
  rcases mem_cons.mp hx with rfl | hx
  · simp
  · simp [mem_reverse.mp hx]

/-- `prev` of a member is a slot of the table, not the end marker. -/
theorem Represents.prev_ne_empty (hk : k < f.count) (hp : p ∈ f.contents k) :
    t.prev p ≠ EMPTY := by
  obtain ⟨l1, l2, a, b, u, v, har⟩ := hr.around hk hp
  have hu := inTable_iff.mp (hr.inTable_of_mem hk (p := u) (by simp [har.nodes]))
  rw [har.prev]
  simp only [EMPTY]
  omega

/-- `remove` of a process on some queue takes it off that queue only. -/
theorem remove_spec {state : Int → PrState} (hp : isbadpid state p = false) (hq : f.Queued p) :
    ∃ t', t.remove state p = .ok (p, t') ∧ t'.Represents (f.remove p) := by
  obtain ⟨k, hk, hmem⟩ := hq
  obtain ⟨l, hchain, hmems⟩ := hr.chain_of_mem hk hmem
  have hpids : ∀ x ∈ p :: l, 0 ≤ x ∧ x < NPROC := fun x hx => hr.pid_of_mem hk (hmems x hx)
  -- The walk is shorter than the table, as it meets no process twice.
  have hlen : l.length + 1 < NQENT.toNat := by
    have h50 := length_le_of_pids (Chain.nodup hchain (headSlot_notMem hpids)) hpids
    have hent : NQENT.toNat = 174 := rfl
    simp only [length_cons] at h50
    omega
  have hfind : t.findHead NQENT.toNat p = .ok (some (headSlot k)) :=
    findHead_chain hr hk l p _ hchain hpids
      (fun x hx => hr.prev_ne_empty hk (hmems x (mem_cons_of_mem _ hx))) hlen
  obtain ⟨t', hrun, hr'⟩ := unlink_spec hr hk hmem
  refine ⟨t', ?_, ?_⟩
  · simp only [remove, hp, Bool.false_eq_true, if_false, hfind, ok_bind, hrun]
    rfl
  · refine hr'.congr rfl fun j hj => ?_
    by_cases hjk : j = k
    · subst hjk
      simp only [Fifo.remove, update_self]
    · -- The other queues do not hold `p`, so erasing it there does nothing.
      simp only [Fifo.remove, update_of_ne hjk]
      exact erase_of_not_mem fun hpj => hjk (hr.disjoint j hj k hk p hpj hmem)

/-- `newqueue` within the capacity of the table links the next two slots
as an empty queue. -/
theorem newqueue_spec (hcount : f.count < Queuetab.capacity) :
    ∃ t', t.newqueue = .ok (qid f.count, t') ∧ t'.Represents f.newqueue := by
  have hhead : inTable (headSlot f.count) := by
    rw [inTable_iff]
    simp only [headSlot, NQENT, NPROC, Queuetab.capacity] at hcount ⊢
    omega
  have htail : inTable (tailSlot f.count) := by
    rw [inTable_iff]
    simp only [tailSlot, headSlot, NQENT, NPROC, Queuetab.capacity] at hcount ⊢
    omega
  have hne : headSlot f.count ≠ tailSlot f.count := by simp only [tailSlot]; omega
  have hrun : t.newqueue = .ok (qid f.count,
      { next := update (update t.next (headSlot f.count) (tailSlot f.count))
          (tailSlot f.count) EMPTY
        prev := update (update t.prev (headSlot f.count) EMPTY)
          (tailSlot f.count) (headSlot f.count)
        nextqueue := headSlot f.count + 2 }) := by
    simp only [newqueue, hr.nextqueue, setNext_eq hhead, setPrev_eq hhead, ok_bind]
    rw [setNext_eq htail, ok_bind, setPrev_eq htail]
    rfl
  -- The slots of the older queues lie below the two new ones.
  have hold : ∀ k < f.count, ∀ x ∈ f.nodes k, x ≠ headSlot f.count ∧ x ≠ tailSlot f.count := by
    intro k hk x hx
    have hpids := hr.pids k hk x
    simp only [headSlot, tailSlot, NPROC] at hpids ⊢
    rcases Fifo.mem_nodes.mp hx with rfl | hx | rfl
    · simp only [headSlot, NPROC]
      omega
    · have := hpids hx
      omega
    · simp only [headSlot, tailSlot, NPROC]
      omega
  have hlast : ∀ k < f.newqueue.count, k = f.count ∨ k < f.count := fun k hk => by
    simp only [Fifo.newqueue] at hk
    omega
  have hnew : f.newqueue.contents f.count = [] := update_self _ _ _
  have hkeep : ∀ k < f.count, f.newqueue.contents k = f.contents k := fun k hk =>
    update_of_ne (Nat.ne_of_lt hk) _ _
  refine ⟨_, hrun, hcount, ?_, fun k hk => ?_, fun k hk => ?_, fun k hk => ?_, fun k hk => ?_,
    fun k hk => ?_, fun j hj k hk p hpj hpk => ?_⟩
  · simp only [Fifo.newqueue, headSlot]
    omega
  · rcases hlast k hk with rfl | hk
    · simp only [update_of_ne hne, update_self]
    · have := hold k hk _ (Fifo.mem_nodes.mpr (Or.inl rfl))
      simp only [update_of_ne this.1, update_of_ne this.2]
      exact hr.head k hk
  · rcases hlast k hk with rfl | hk
    · simp only [update_self]
    · have := hold k hk _ (Fifo.mem_nodes.mpr (Or.inr (Or.inr rfl)))
      simp only [update_of_ne this.1, update_of_ne this.2]
      exact hr.tail k hk
  · rcases hlast k hk with rfl | hk
    · rw [Fifo.nodes, hnew]
      refine linked_cons_cons.mpr ⟨⟨?_, update_self _ _ _⟩, linked_singleton _⟩
      simp only [update_of_ne hne, update_self]
    · have hnodes : f.newqueue.nodes k = f.nodes k := by rw [Fifo.nodes, hkeep k hk, Fifo.nodes]
      rw [hnodes]
      refine (hr.linked k hk).congr_of_mem (fun x hx => ?_) fun x hx => ?_ <;>
        simp only [update_of_ne (hold k hk x hx).1, update_of_ne (hold k hk x hx).2]
  · rcases hlast k hk with rfl | hk
    · simp [hnew]
    · rw [hkeep k hk]
      exact hr.pids k hk
  · rcases hlast k hk with rfl | hk
    · simp [hnew]
    · rw [hkeep k hk]
      exact hr.nodup k hk
  · rcases hlast j hj with rfl | hj
    · simp [hnew] at hpj
    · rcases hlast k hk with rfl | hk
      · simp [hnew] at hpk
      · rw [hkeep j hj] at hpj
        rw [hkeep k hk] at hpk
        exact hr.disjoint j hj k hk p hpj hpk

end

/-- Walking along a segment lists its inner nodes. -/
theorem walk_eq {z : Int} (hz : ¬ (0 ≤ z ∧ z < NPROC)) : ∀ (steps : Nat) (x : Int) (l : List Int),
    Linked t.next t.prev (x :: (l ++ [z])) → (∀ y ∈ l, 0 ≤ y ∧ y < NPROC) → l.length < steps →
      t.walk steps (t.next x) = l
  | 0, _, _, _, _, hlen => absurd hlen (Nat.not_lt_zero _)
  | steps + 1, x, [], hlinked, _, _ => by
    rw [(linked_cons_cons.mp hlinked).1.1, walk, if_neg hz]
  | steps + 1, x, y :: l, hlinked, hpids, hlen => by
    obtain ⟨⟨hxy, -⟩, hrest⟩ := linked_cons_cons.mp hlinked
    rw [hxy, walk, if_pos (hpids y mem_cons_self),
      walk_eq hz steps y l hrest (fun w hw => hpids w (mem_cons_of_mem _ hw))
        (Nat.lt_of_succ_lt_succ hlen)]

/-- The array determines the abstract list. -/
theorem members_eq (hr : t.Represents f) (hk : k < f.count) :
    t.members (qid k) = f.contents k := by
  have hlen := length_le_of_pids (hr.nodup k hk) (hr.pids k hk)
  have hent : NQENT.toNat = 174 := rfl
  rw [members, queuehead_qid (Nat.lt_of_lt_of_le hk hr.capacity)]
  exact walk_eq (fun h => not_tailSlot_lt h.2) _ _ _ (hr.linked k hk) (hr.pids k hk) (by omega)

end Edit

/-! ### Whole runs -/

/-- One call on the table, next to what it does to the lists. Queue `k`
is the one whose id the `k`-th `newqueue` returned. -/
inductive QueueStep (state : Int → PrState) : Queuetab × Fifo → Queuetab × Fifo → Prop
  | newqueue {t t' : Queuetab} {f : Fifo} {q : Ulong} (hcap : f.count < capacity)
      (hret : t.newqueue = .ok (q, t')) : QueueStep state (t, f) (t', f.newqueue)
  | enqueue {t t' : Queuetab} {f : Fifo} {k : Nat} {p r : Int} (hk : k < f.count)
      (hlive : isbadpid state p = false) (hfree : ¬ f.Queued p)
      (hret : t.enqueue state p (qid k) = .ok (r, t')) : QueueStep state (t, f) (t', f.enqueue k p)
  | dequeue {t t' : Queuetab} {f : Fifo} {k : Nat} {r : Int} (hk : k < f.count)
      (hret : t.dequeue (qid k) = .ok (r, t')) : QueueStep state (t, f) (t', f.dequeue k)
  | remove {t t' : Queuetab} {f : Fifo} {p r : Int} (hqueued : f.Queued p)
      (hret : t.remove state p = .ok (r, t')) : QueueStep state (t, f) (t', f.remove p)

/-- The pairs of table and lists that a run of calls reaches. -/
def QueueReachable (state : Int → PrState) (t : Queuetab) (f : Fifo) : Prop :=
  Relation.ReflTransGen (QueueStep state) (boot, Fifo.boot) (t, f)

section Run
variable {state : Int → PrState} {t : Queuetab} {f : Fifo}

theorem represents_boot : boot.Represents Fifo.boot where
  capacity := Nat.zero_le _
  nextqueue := rfl
  head _ hk := absurd hk (Nat.not_lt_zero _)
  tail _ hk := absurd hk (Nat.not_lt_zero _)
  linked _ hk := absurd hk (Nat.not_lt_zero _)
  pids _ hk := absurd hk (Nat.not_lt_zero _)
  nodup _ hk := absurd hk (Nat.not_lt_zero _)
  disjoint _ hj := absurd hj (Nat.not_lt_zero _)

/-- Every process on a queue is live. -/
def Live (state : Int → PrState) (f : Fifo) : Prop := ∀ p, f.Queued p → isbadpid state p = false

theorem Fifo.queued_of_newqueue {p : Int} (h : f.newqueue.Queued p) : f.Queued p := by
  obtain ⟨k, hk, hp⟩ := h
  simp only [newqueue] at hk hp
  by_cases hkc : k = f.count
  · subst hkc
    simp at hp
  · rw [update_of_ne hkc] at hp
    exact ⟨k, by omega, hp⟩

theorem Fifo.queued_of_enqueue {k : Nat} {p x : Int} (h : (f.enqueue k p).Queued x) :
    x = p ∨ f.Queued x := by
  obtain ⟨j, hj, hx⟩ := h
  simp only [enqueue] at hx
  by_cases hjk : j = k
  · subst hjk
    rw [update_self, mem_append, mem_singleton] at hx
    exact hx.symm.imp_right fun hx => ⟨j, hj, hx⟩
  · rw [update_of_ne hjk] at hx
    exact Or.inr ⟨j, hj, hx⟩

theorem Fifo.queued_of_dequeue {k : Nat} {x : Int} (h : (f.dequeue k).Queued x) : f.Queued x := by
  obtain ⟨j, hj, hx⟩ := h
  simp only [dequeue] at hx
  by_cases hjk : j = k
  · subst hjk
    rw [update_self] at hx
    exact ⟨j, hj, mem_of_mem_tail hx⟩
  · rw [update_of_ne hjk] at hx
    exact ⟨j, hj, hx⟩

theorem Fifo.queued_of_remove {p x : Int} (h : (f.remove p).Queued x) : f.Queued x := by
  obtain ⟨j, hj, hx⟩ := h
  exact ⟨j, hj, mem_of_mem_erase hx⟩

/-- A step keeps the representation, and it queues live processes
only. -/
theorem QueueStep.preserves {s s' : Queuetab × Fifo} (hstep : QueueStep state s s')
    (hr : s.1.Represents s.2) (hl : Live state s.2) : s'.1.Represents s'.2 ∧ Live state s'.2 := by
  cases hstep with
  | newqueue hcap hret =>
    obtain ⟨t', hrun, hr'⟩ := newqueue_spec hr hcap
    obtain ⟨-, rfl⟩ : _ ∧ t' = _ := by simpa [hrun] using hret
    exact ⟨hr', fun p hp => hl p (Fifo.queued_of_newqueue hp)⟩
  | enqueue hk hlive hfree hret =>
    obtain ⟨t', hrun, hr'⟩ := enqueue_spec hr hk hlive hfree
    obtain ⟨-, rfl⟩ : _ ∧ t' = _ := by simpa [hrun] using hret
    refine ⟨hr', fun x hx => ?_⟩
    rcases Fifo.queued_of_enqueue hx with rfl | hx
    · exact hlive
    · exact hl x hx
  | dequeue hk hret =>
    obtain ⟨t', hrun, hr'⟩ := dequeue_spec hr hk
    obtain ⟨-, rfl⟩ : _ ∧ t' = _ := by simpa [hrun] using hret
    exact ⟨hr', fun p hp => hl p (Fifo.queued_of_dequeue hp)⟩
  | remove hqueued hret =>
    obtain ⟨t', hrun, hr'⟩ := remove_spec hr (hl _ hqueued) hqueued
    obtain ⟨-, rfl⟩ : _ ∧ t' = _ := by simpa [hrun] using hret
    exact ⟨hr', fun p hp => hl p (Fifo.queued_of_remove hp)⟩

theorem represents_of_reachable (h : QueueReachable state t f) :
    t.Represents f ∧ Live state f := by
  suffices hall : ∀ s, Relation.ReflTransGen (QueueStep state) (boot, Fifo.boot) s →
      s.1.Represents s.2 ∧ Live state s.2 from hall (t, f) h
  intro s hs
  induction hs with
  | refl => exact ⟨represents_boot, fun p ⟨k, hk, _⟩ => absurd hk (Nat.not_lt_zero _)⟩
  | tail _ hstep ih => exact hstep.preserves ih.1 ih.2

/-- `dequeue` returns `EMPTY` for an empty list only. -/
theorem Represents.first_eq_empty_iff (hr : t.Represents f) {k : Nat} (hk : k < f.count) :
    f.first k = EMPTY ↔ f.contents k = [] := by
  cases hc : f.contents k with
  | nil => simp [Fifo.first, hc]
  | cons p l =>
    have hp := (hr.pid_of_mem hk (hc ▸ mem_cons_self : p ∈ f.contents k)).1
    simp only [Fifo.first, hc, headD_cons, reduceCtorEq, iff_false, EMPTY]
    omega

/-- In every state of every run of queue calls the array represents the
lists, and every call of the next step returns what the lists say and
keeps the representation. -/
theorem queuetab_refines_fifo (h : QueueReachable state t f) :
    t.Represents f ∧ (∀ k < f.count, t.members (qid k) = f.contents k) ∧
    (f.count < capacity → ∃ t', t.newqueue = .ok (qid f.count, t') ∧ t'.Represents f.newqueue) ∧
    (∀ k < f.count, ∀ p, isbadpid state p = false → ¬ f.Queued p →
      ∃ t', t.enqueue state p (qid k) = .ok (p, t') ∧ t'.Represents (f.enqueue k p)) ∧
    (∀ k < f.count, ∃ t', t.dequeue (qid k) = .ok (f.first k, t') ∧ t'.Represents (f.dequeue k) ∧
      (f.first k = EMPTY ↔ f.contents k = [])) ∧
    (∀ p, f.Queued p → ∃ t', t.remove state p = .ok (p, t') ∧ t'.Represents (f.remove p)) := by
  obtain ⟨hr, hl⟩ := represents_of_reachable h
  refine ⟨hr, fun k hk => members_eq hr hk, newqueue_spec hr, fun k hk p => enqueue_spec hr hk,
    fun k hk => ?_, fun p hp => remove_spec hr (hl p hp) hp⟩
  obtain ⟨t', hrun, hr'⟩ := dequeue_spec hr hk
  exact ⟨t', hrun, hr', hr.first_eq_empty_iff hk⟩

theorem queuetab_refines_fifo_one : ∃ t : Queuetab, t.members (qid 0) = [7] ∧
    ∃ t', t.dequeue (qid 0) = .ok (7, t') ∧
      t'.Represents ((Fifo.boot.newqueue.enqueue 0 7).dequeue 0) := by
  obtain ⟨t1, hnew, hr1⟩ := newqueue_spec represents_boot (by decide)
  have hfree : ¬ Fifo.boot.newqueue.Queued 7 := fun hq =>
    absurd (Fifo.queued_of_newqueue hq) fun ⟨k, hk, _⟩ => absurd hk (Nat.not_lt_zero k)
  have hlive : isbadpid (fun _ => .PRSUSP) 7 = false := by decide
  obtain ⟨t2, henq, -⟩ := enqueue_spec (k := 0) hr1 (by decide) hlive hfree
  have hspec :=
    queuetab_refines_fifo ((Relation.ReflTransGen.single (.newqueue (by decide) hnew)).tail
    (.enqueue (by decide) hlive hfree henq))
  obtain ⟨t', hrun, hr', -⟩ := hspec.2.2.2.2.1 0 (by decide)
  exact ⟨t2, hspec.2.1 0 (by decide), t', hrun, hr'⟩

end Run

end Xinu.Queuetab
