import Mathlib.Data.List.FinRange
import Xinu.Proofs.Kernel.Refine

/-!
# `Xinu.Proofs.Kernel.Boot`: the kernel after `sysinit`

`sysinit` creates a message queue for each process slot and three ready
queues for each core, and makes each core's null process current.
`sysinit_spec` says that it returns, whatever the heap, and that the
result refines an abstract kernel with empty queues (`Booted`).
-/

namespace Xinu.Kernel

open Function List

open Queuetab (qid Fifo)

/-- The lists of `n` empty queues. -/
def emptyFifo (n : Nat) : Fifo := ⟨n, fun _ => []⟩

theorem emptyFifo_newqueue (n : Nat) : (emptyFifo n).newqueue = emptyFifo (n + 1) := by
  simp [emptyFifo, Fifo.newqueue]

/-- One more empty queue. -/
theorem newqueue_empty {t : Queuetab} {n : Nat} (ht : t.Represents (emptyFifo n))
    (hn : n < Queuetab.capacity) :
    ∃ t', t.newqueue = .ok (qid n, t') ∧ t'.Represents (emptyFifo (n + 1)) := by
  obtain ⟨t', hrun, ht'⟩ := Queuetab.newqueue_spec ht hn
  exact ⟨t', hrun, emptyFifo_newqueue n ▸ ht'⟩

/-! ### The process table -/

/-- After `n` rounds of the process table loop. -/
structure SlotsDone (k0 k : Kernel) (n : Nat) : Prop where
  table : k.queues.Represents (emptyFifo n)
  rest : k = { k0 with queues := k.queues, proctab := k.proctab }
  slot : ∀ p : Int, 0 ≤ p ∧ p < n → (k.proctab p).state = .PRFREE ∧
    (k.proctab p).msgqueue = qid p.toNat

theorem slots_foldlM (k0 : Kernel) (h0 : k0.queues.Represents (emptyFifo 0)) :
    ∀ n ≤ 50, ∃ k, ((List.range n).map fun i : Nat => (i : Int)).foldlM initSlot k0 = .ok k ∧
      SlotsDone k0 k n
  | 0, _ => ⟨k0, rfl, h0, rfl, fun p hp => absurd hp (by omega)⟩
  | n + 1, hn => by
    obtain ⟨k, hrun, hdone⟩ := slots_foldlM k0 h0 n (by omega)
    obtain ⟨t', hnew, ht'⟩ := newqueue_empty hdone.table (by simp only [Queuetab.capacity]; omega)
    refine ⟨{ k with queues := t' }.setPcb n
      { k.proctab n with state := .PRFREE, coreAffinity := -1, msgqueue := qid n }, ?_, ht', ?_, ?_⟩
    · rw [range_succ, map_append, foldlM_append, hrun, ok_bind]
      simp only [map_cons, map_nil, foldlM_cons, foldlM_nil, initSlot, hnew,
        ok_bind]
      rfl
    · rw [hdone.rest]
      rfl
    · intro p hp
      by_cases hpn : p = n
      · subst hpn
        simp [setPcb, Vars.setPcb]
      · have := hdone.slot p (by omega)
        simpa [setPcb, Vars.setPcb, hpn] using this

/-! ### The null processes -/

/-- The entry of core `c` is that of its null process. -/
structure NullDone (k : Kernel) (c : Core) : Prop where
  currpid : k.currpid c = c
  state : (k.proctab c).state = .PRCURR
  affinity : (k.proctab c).coreAffinity = c
  priority : (k.proctab c).priority = PRIORITY_LOW
  message : (k.proctab c).hasMessage = false

theorem nullDone_initNull (k : Kernel) (c : Core) (s : Ulong) : (k.initNull c s).NullDone c := by
  constructor <;> simp [initNull, setPcb, Vars.setPcb]

theorem NullDone.initNull {k : Kernel} {c d : Core} (h : k.NullDone c) (hne : c ≠ d) (s : Ulong) :
    (k.initNull d s).NullDone c := by
  have hne' : (c : Int) ≠ d := fun heq => hne (Fin.ext (by exact_mod_cast heq))
  constructor
  · simpa [Kernel.initNull, setPcb, Vars.setPcb, hne] using h.currpid
  · simpa [Kernel.initNull, setPcb, Vars.setPcb, hne'] using h.state
  · simpa [Kernel.initNull, setPcb, Vars.setPcb, hne'] using h.affinity
  · simpa [Kernel.initNull, setPcb, Vars.setPcb, hne'] using h.priority
  · simpa [Kernel.initNull, setPcb, Vars.setPcb, hne'] using h.message

/-- What the null processes' entries leave alone. -/
structure NullFrame (k0 k : Kernel) : Prop where
  heap : k.heap = k0.heap
  queues : k.queues = k0.queues
  readylist : k.readylist = k0.readylist
  numproc : k.numproc = k0.numproc
  nextpid : k.nextpid = k0.nextpid
  msgqueue : ∀ p, (k.proctab p).msgqueue = (k0.proctab p).msgqueue
  others : ∀ p, 4 ≤ p → k.proctab p = k0.proctab p

theorem foldl_initNull (stk : Core → Ulong) : ∀ (l : List Core) (k : Kernel),
    NullFrame k (l.foldl (fun k i => k.initNull i (stk i)) k) ∧
      ∀ c, c ∈ l ∨ k.NullDone c → (l.foldl (fun k i => k.initNull i (stk i)) k).NullDone c
  | [], k => ⟨⟨rfl, rfl, rfl, rfl, rfl, fun _ => rfl, fun _ _ => rfl⟩, fun c h => by simpa using h⟩
  | i :: l, k => by
    obtain ⟨hf, hd⟩ := foldl_initNull stk l (k.initNull i (stk i))
    have hstep : NullFrame k (k.initNull i (stk i)) := by
      refine ⟨rfl, rfl, rfl, rfl, rfl, fun p => ?_, fun p hp => ?_⟩
      · by_cases hp : p = i
        · subst hp
          simp [initNull, setPcb, Vars.setPcb]
        · simp [initNull, setPcb, Vars.setPcb, hp]
      · have hpi : p ≠ i := by have := i.isLt; unfold NCORES at this; omega
        simp [initNull, setPcb, Vars.setPcb, hpi]
    refine ⟨⟨hf.heap.trans hstep.heap, hf.queues.trans hstep.queues,
      hf.readylist.trans hstep.readylist,
      hf.numproc.trans hstep.numproc, hf.nextpid.trans hstep.nextpid,
      fun p => (hf.msgqueue p).trans (hstep.msgqueue p),
      fun p hp => (hf.others p hp).trans (hstep.others p hp)⟩, fun c hc => hd c ?_⟩
    by_cases hci : c = i
    · subst hci
      exact Or.inr (nullDone_initNull k c _)
    · exact hc.imp (fun hm => (mem_cons.mp hm).resolve_left hci) fun hn => hn.initNull hci _

/-! ### The ready queues -/

/-- After `n` rounds of the ready list loops. -/
structure ReadyDone (k0 k : Kernel) (n : Nat) : Prop where
  table : k.queues.Represents (emptyFifo (50 + n))
  vars : k.toVars = k0.toVars
  ids : ∀ j : Nat, j < n → k.readylist (j / 3 : Int) (j % 3 : Int) = qid (50 + j)

theorem ready_foldlM (k0 : Kernel) (h0 : k0.queues.Represents (emptyFifo 50)) :
    ∀ n ≤ 12, ∃ k, ((List.range n).map fun i : Nat => ((i / 3 : Int), (i % 3 : Int))).foldlM
      initReady k0 = .ok k ∧ ReadyDone k0 k n
  | 0, _ => ⟨k0, rfl, h0, rfl, fun j hj => absurd hj (Nat.not_lt_zero j)⟩
  | n + 1, hn => by
    obtain ⟨k, hrun, hdone⟩ := ready_foldlM k0 h0 n (by omega)
    obtain ⟨t', hnew, ht'⟩ := newqueue_empty hdone.table (by simp only [Queuetab.capacity]; omega)
    refine ⟨{ k with
      queues := t'
      readylist := update k.readylist (n / 3 : Int)
        (update (k.readylist (n / 3 : Int)) (n % 3 : Int) (qid (50 + n))) },
      ?_, Nat.add_assoc 50 n 1 ▸ ht', hdone.vars, fun j hj => ?_⟩
    · rw [range_succ, map_append, foldlM_append, hrun, ok_bind]
      simp only [map_cons, map_nil, foldlM_cons, foldlM_nil, initReady, hnew,
        ok_bind]
      rfl
    · by_cases hjn : j = n
      · subst hjn
        simp
      · -- Different rounds write different entries.
        have hids := hdone.ids j (by omega)
        by_cases hdiv : (j / 3 : Int) = (n / 3 : Int)
        · have hmod : (j % 3 : Int) ≠ (n % 3 : Int) := by omega
          simpa [hdiv, update_of_ne hmod] using hdiv ▸ hids
        · simpa [update_of_ne hdiv] using hids

/-! ### The whole of `sysinit` -/

/-- The kernel as `sysinit` leaves it: empty queues, the null processes
current, every other slot free. -/
structure Booted (a : AbsKernel) : Prop where
  queue : ∀ q, a.queue q = []
  currpid : ∀ c, a.currpid c = c
  null : ∀ c : Core, a.states c = .PRCURR ∧ (a.proctab c).coreAffinity = c ∧
    (a.proctab c).priority = PRIORITY_LOW ∧ (a.proctab c).hasMessage = false
  free : ∀ p, IsPid p → 4 ≤ p → a.states p = .PRFREE
  numproc : a.numproc = 4
  counters : ∀ c, a.promoteMedium c = QUANTUM ∧ a.promoteLow c = QUANTUM

/-- `sysinit` returns a booted kernel, with the heap it set up and the
search of `newpid` at slot 0. -/
theorem sysinit_spec (memheap maxaddr end_ : Ulong) (mem : Ulong → Ulong) :
    ∃ k a, sysinit memheap maxaddr end_ mem = .ok k ∧ (Refines k a ∧ Booted a) ∧
      k.heap = Heap.sysinit memheap maxaddr mem ∧ k.nextpid = 0 := by
  obtain ⟨k1, hrun1, hslots⟩ := slots_foldlM
    { zeroed (Heap.sysinit memheap maxaddr mem) with numproc := 4 }
    Queuetab.represents_boot 50 (Nat.le_refl _)
  obtain ⟨hframe, hnull⟩ := foldl_initNull (fun i => end_ + 4 * (8192 * BitVec.ofNat 32 i))
    (List.finRange NCORES) k1
  -- The three loops run one after the other: the message queues, the null
  -- processes, the ready lists.
  generalize hk2 : (List.finRange NCORES).foldl
    (fun k i => k.initNull i (end_ + 4 * (8192 * BitVec.ofNat 32 i))) k1 = k2 at hframe hnull
  obtain ⟨k3, hrun3, hready⟩ := ready_foldlM k2
    (hframe.queues ▸ hslots.table) 12 (Nat.le_refl _)
  have hproc : k3.proctab = k2.proctab := congrArg Vars.proctab hready.vars
  have hcurr : k3.currpid = k2.currpid := congrArg Vars.currpid hready.vars
  have hnum : k3.numproc = 4 := by
    rw [show k3.numproc = k2.numproc from congrArg Vars.numproc hready.vars, hframe.numproc,
      hslots.rest]
  have hdone : ∀ c, k2.NullDone c := fun c => hnull c (Or.inl (mem_finRange c))
  -- What is left are the counters of the cores.
  let v : Vars := { k3.toVars with
    promoteMedium := fun _ => QUANTUM
    promoteLow := fun _ => QUANTUM
    preempt := fun _ => QUANTUM }
  refine ⟨{ k3 with toVars := v }, ⟨v, fun _ => []⟩, ?_, ⟨⟨rfl, hready.table, ?_, ?_⟩,
    ⟨fun _ => rfl, ?_, ?_, ?_, hnum, fun _ => ⟨rfl, rfl⟩⟩⟩, ?_, ?_⟩
  · have hslots' : slots.foldlM initSlot
        { zeroed (Heap.sysinit memheap maxaddr mem) with numproc := 4 } = .ok k1 := hrun1
    have hready' : readyPairs.foldlM initReady k2 = .ok k3 := hrun3
    simp only [sysinit, hslots', ok_bind, hk2, hready']
    rfl
  · rintro c i ⟨⟨hc0, hc⟩, hi0, hi⟩
    have hids := hready.ids (3 * c.toNat + i.toNat) (by unfold NCORES at hc; omega)
    have hdiv : (((3 * c.toNat + i.toNat : Nat) : Int) / 3) = c := by omega
    have hmod : (((3 * c.toNat + i.toNat : Nat) : Int) % 3) = i := by omega
    rw [hdiv, hmod, ← Nat.add_assoc] at hids
    exact hids
  · intro p hp
    show (k3.proctab p).msgqueue = _
    rw [hproc, hframe.msgqueue]
    exact (hslots.slot p hp).2
  · intro c
    show k3.currpid c = c
    rw [hcurr]
    exact (hdone c).currpid
  · intro c
    show (k3.proctab c).state = _ ∧ (k3.proctab c).coreAffinity = _ ∧
      (k3.proctab c).priority = _ ∧ (k3.proctab c).hasMessage = _
    rw [hproc]
    exact ⟨(hdone c).state, (hdone c).affinity, (hdone c).priority, (hdone c).message⟩
  · intro p hp h4
    show (k3.proctab p).state = _
    rw [hproc, hframe.others p h4]
    exact (hslots.slot p hp).1
  · show k3.heap = _
    rw [show k3.heap = k2.heap from congrArg Vars.heap hready.vars, hframe.heap, hslots.rest]
    rfl
  · show k3.nextpid = 0
    rw [show k3.nextpid = k2.nextpid from congrArg Vars.nextpid hready.vars, hframe.nextpid,
      hslots.rest]
    rfl

/-- What `sysinit` returns is a booted kernel. -/
theorem sysinit_refines {memheap maxaddr end_ : Ulong} {mem : Ulong → Ulong} {k : Kernel}
    (h : sysinit memheap maxaddr end_ mem = .ok k) : ∃ a, Refines k a ∧ Booted a := by
  obtain ⟨k', a, hrun, hbooted, -⟩ := sysinit_spec memheap maxaddr end_ mem
  cases hrun.symm.trans h
  exact ⟨a, hbooted⟩

end Xinu.Kernel
