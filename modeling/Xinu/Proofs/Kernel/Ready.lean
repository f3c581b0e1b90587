import Xinu.Proofs.Kernel.Columns
import Xinu.Proofs.Kernel.Scheduler

/-!
# `Xinu.Proofs.Kernel.Ready`: `ready` and the queue a process is on

`ready` sets the state of a process and enqueues it, whatever state the
process was in. A ready process is on a ready queue already, and a
process that waits to send is on a message queue.

`ready_wellFormed_iff` is about every state of every run in which the
queue table is well formed, with no assumption on how the run came there.
The table is well formed after `ready`, with each process at most once on
all queues together, exactly when the process was on no queue.
`ready_twice` is a run that makes a ready process ready again.
-/

namespace Xinu

open Queuetab (qid Fifo)

namespace Kernel

variable {k k' : Kernel} {f f' : Fifo} {c : Core} {p : Int} {core : Ulong}

/-- All queues exist. -/
theorem Columns.count_eq (h : k.Columns) (hf : k.queues.Represents f) :
    f.count = Queuetab.capacity := by
  have hnext := hf.nextqueue.symm.trans h.nextqueue
  simp only [Queuetab.headSlot] at hnext
  omega

/-- The abstract kernel that the lists of the table belong to. -/
def abstract (k : Kernel) (f : Fifo) : AbsKernel := ⟨k.toVars, fun q => f.contents q.ix⟩

theorem fifo_abstract (hcount : f.count = Queuetab.capacity) : (k.abstract f).fifo = f := by
  have hcontents : (k.abstract f).fifo.contents = f.contents := by
    funext n
    show f.contents (Queue.ofIx n).ix = f.contents n
    rw [Queue.ix_ofIx]
  calc (k.abstract f).fifo = ⟨Queuetab.capacity, (k.abstract f).fifo.contents⟩ := rfl
    _ = ⟨f.count, f.contents⟩ := by rw [hcontents, hcount]

/-- A well-formed table makes the kernel refine an abstract one. -/
theorem Columns.refines (h : k.Columns) (hf : k.queues.Represents f) :
    Refines k (k.abstract f) := by
  refine ⟨rfl, ?_, h.readyIds, h.msgIds⟩
  rwa [fifo_abstract (h.count_eq hf)]

/-- The ready queue that `ready` picks exists. -/
theorem Columns.valid_makeReady (h : k.Columns) (hcore : core.toNat < NCORES) :
    (Queue.ready ((k.makeReady p core).proctab p).coreAffinity
      ((k.makeReady p core).proctab p).priority).Valid := by
  obtain ⟨d, hself, hd⟩ := Vars.makeReady_self k.toVars p core
  obtain ⟨hprio, haff⟩ := h.fits p
  rw [hself]
  refine ⟨?_, hprio⟩
  show IsCore d
  rw [hd]
  split
  · unfold NCORES at hcore
    rw [BitVec.toInt_eq_toNat_of_lt (by omega)]
    exact ⟨by omega, by unfold NCORES; omega⟩
  · exact haff.resolve_left ‹_›

/-- `ready` without `resched` is `wake`. -/
theorem ready_false (hlive : isbadpid k.states p = false) :
    k.ready c p false core = (do let k ← k.wake p core; return (.ok, k)) := by
  simp [ready, hlive]

theorem ready_of_free (h : k.Columns) (hf : k.queues.Represents f)
    (hlive : isbadpid k.states p = false) (hcore : core.toNat < NCORES) (hfree : ¬ f.Queued p) :
    ∃ k' f', k.ready c p false core = .ok (.ok, k') ∧ k'.queues.Represents f' ∧
      f'.count = Queuetab.capacity := by
  have hfree' : ¬ (k.abstract f).Queued p := by
    rwa [← AbsKernel.queued_fifo, fifo_abstract (h.count_eq hf)]
  obtain ⟨k', hrun, hr'⟩ := (h.refines hf).wake ⟨hlive, hfree', h.valid_makeReady hcore⟩
  refine ⟨k', _, ?_, hr'.table, rfl⟩
  rw [ready_false hlive, hrun]
  rfl

theorem not_represents_ready (h : k.Columns) (hf : k.queues.Represents f)
    (hlive : isbadpid k.states p = false) (hq : f.Queued p) {r : Syscall}
    (hrun : k.ready c p false core = .ok (r, k')) (hcount : f'.count = Queuetab.capacity) :
    ¬ k'.queues.Represents f' := by
  rw [ready_false hlive] at hrun
  obtain ⟨k1, hwake, hrun⟩ := bind_eq_ok hrun
  cases hrun
  -- The run came to `enqueue`, so the ready queue that it read exists.
  obtain ⟨q, hready, hwake⟩ := bind_eq_ok hwake
  have hvalid := isCore_of_readyQueue hready
  have hid : q = qid (Queue.ready ((k.makeReady p core).proctab p).coreAffinity
      ((k.makeReady p core).proctab p).priority).ix := by
    have hin := hvalid
    rw [readyQueue, if_pos (show (_ ∧ _) ∧ _ ∧ _ from hin)] at hready
    exact (Except.ok.inj hready).symm.trans (h.readyIds _ _ hvalid)
  subst hid
  obtain ⟨⟨r', t⟩, henq, hwake⟩ := bind_eq_ok hwake
  cases hwake
  -- The process is live in its new state too.
  have hlive' : isbadpid (k.makeReady p core).states p = false := by
    obtain ⟨d, hself, -⟩ := Vars.makeReady_self k.toVars p core
    refine isbadpid_eq_false.mpr ⟨(isbadpid_eq_false.mp hlive).1, ?_⟩
    rw [Vars.states, hself]
    simp
  have hix : (Queue.ready ((k.makeReady p core).proctab p).coreAffinity
      ((k.makeReady p core).proctab p).priority).ix < f.count := by
    rw [h.count_eq hf]
    exact Queue.ix_lt hvalid
  exact Queuetab.not_represents_enqueue hf hix hlive' hq henq (hcount.trans (h.count_eq hf).symm)

end Kernel

/-- In every state of every run in which the queue table represents
lists, `ready` without `resched` of a live process returns with a table
that represents lists exactly when the process is on no queue. -/
theorem ready_wellFormed_iff {s : Sys} {f : Fifo} {c : Core} {pid : Int} {core : Ulong}
    (h : s.Attainable) (hf : s.kernel.queues.Represents f)
    (hlive : isbadpid s.kernel.states pid = false) (hcore : core.toNat < NCORES) :
    (∃ k' f', s.kernel.ready c pid false core = .ok (.ok, k') ∧ k'.queues.Represents f' ∧
      f'.count = Queuetab.capacity) ↔ ¬ f.Queued pid := by
  constructor
  · rintro ⟨k', f', hrun, hr', hcount⟩ hq
    exact Kernel.not_represents_ready (Sys.columns h) hf hlive hq hrun hcount hr'
  · exact Kernel.ready_of_free (Sys.columns h) hf hlive hcore

/-- A process is created. -/
def createRun : List (Core × Call) := [(0, .create highPriority)]

/-- A process that was just created is on no queue. -/
theorem ready_wellFormed_created : ∃ (s : Sys) (k' : Kernel) (f' : Fifo),
    s.kernel.ready 0 4 false 0 = .ok (.ok, k') ∧ k'.queues.Represents f' ∧
      f'.count = Queuetab.capacity := by
  obtain ⟨s, hs, htest⟩ := Sys.exists_reachable (fun _ _ call => call.Scheduling) 0x10000 0x90000
    0x8000 (fun _ => 0) createRun (fun s => decide (s.kernel.states 4 = .PRSUSP))
      (by decide +kernel)
  have hsusp : s.kernel.states 4 = .PRSUSP := of_decide_eq_true htest
  obtain ⟨a, hr, hinv, -⟩ := steady_of_reachable hs
  have hlive : isbadpid s.kernel.states 4 = false :=
    isbadpid_eq_false.mpr ⟨by decide, by rw [hsusp]; simp⟩
  rw [hr.states] at hsusp
  have hfree : ¬ a.fifo.Queued 4 := fun hq =>
    (hinv.procs 4 (by decide)).not_queued (by simp [hsusp]) (by simp [hsusp])
      (AbsKernel.queued_fifo.mp hq)
  obtain ⟨k', f', h⟩ := (ready_wellFormed_iff (c := 0) hs.attainable hr.table hlive
    (show (0 : Ulong).toNat < NCORES by decide)).mpr hfree
  exact ⟨s, k', f', h⟩

/-- Process 4 is ready on core 0. Made ready again, it is linked to
itself, and the table represents no lists. -/
theorem ready_twice : ∃ (s : Sys) (k' : Kernel),
    Sys.Reachable (fun _ _ call => call.Scheduling) s ∧
    (∃ f, s.kernel.queues.Represents f) ∧ s.kernel.states 4 = .PRREADY ∧
    s.kernel.readyMembers 0 2 = [4] ∧ s.kernel.ready 0 4 false 0 = .ok (.ok, k') ∧
    k'.queues.next 4 = 4 ∧ k'.queues.prev 4 = 4 ∧
    ∀ f', f'.count = Queuetab.capacity → ¬ k'.queues.Represents f' := by
  obtain ⟨s, hs, htest⟩ := Sys.exists_reachable (fun _ _ call => call.Scheduling) 0x10000 0x90000
    0x8000 (fun _ => 0) (createRun ++ [(0, .ready 4 false 0)])
    (fun s => decide (s.kernel.states 4 = .PRREADY ∧ s.kernel.readyMembers 0 2 = [4]) &&
      match s.kernel.ready 0 4 false 0 with
      | .ok (.ok, k') => decide (k'.queues.next 4 = 4 ∧ k'.queues.prev 4 = 4)
      | _ => false) (by decide +kernel)
  obtain ⟨hst, htest⟩ := Bool.and_eq_true_iff.mp htest
  obtain ⟨hready, hmem⟩ := of_decide_eq_true hst
  obtain ⟨a, hr, hinv, -⟩ := steady_of_reachable hs
  split at htest
  case h_2 => cases htest
  case h_1 k' hrun =>
    obtain ⟨hnext, hprev⟩ := of_decide_eq_true htest
    have hlive : isbadpid s.kernel.states 4 = false :=
      isbadpid_eq_false.mpr ⟨by decide, by rw [hready]; simp⟩
    have hready' : a.states 4 = .PRREADY := hr.states ▸ hready
    have hq : a.fifo.Queued 4 := by
      refine AbsKernel.queued_fifo.mpr (AbsKernel.queued_iff.mpr (Or.inl ⟨_, ?_,
        (hinv.procs 4 (by decide)).ready_queued hready'⟩))
      exact (hinv.procs 4 (by decide)).placed (by simp [hready']) (by simp [hready'])
    exact ⟨s, k', hs, ⟨_, hr.table⟩, hready, hmem, hrun, hnext, hprev, fun f' hf' =>
      Kernel.not_represents_ready (Sys.columns hs.attainable) hr.table hlive hq hrun hf'⟩

end Xinu
