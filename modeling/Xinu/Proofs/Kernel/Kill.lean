import Xinu.Proofs.Kernel.Aging
import Xinu.Proofs.Kernel.Stacks

/-!
# `Xinu.Proofs.Kernel.Kill`: which processes can be killed

`kill` works only on the core that the process has affinity to. A process
gets its core from the first `ready`, so between `create` and `ready`
there is no core on which it can be killed (`kill_suspended`). A process
that kills itself also needs another one that its core can run.

`kills_of_reachable` says that these are the only exceptions, in every
run of all the calls in which no `create` overruns the stack it makes and
no process is killed while it waits in `send`. Such a process can be
killed, but it stays on its message queue.
-/

namespace Xinu

open AbsKernel (SchedInv)

/-! ### A process that ends -/

namespace AbsKernel

variable {a b : AbsKernel} {c : Core} {p : Int}

theorem dispatch_eq_none (h : ∀ p, ¬ a.OnReady c p) : a.dispatch c = none := by
  unfold AbsKernel.dispatch
  simp only
  split
  · rfl
  · rename_i p l hl
    exact absurd ⟨_, highestPrio_range, hl ▸ List.mem_cons_self⟩ (h p)

/-- When the process of a core has stopped, the core needs another one
that is ready. -/
theorem resched_isSome_iff (hstop : a.states (a.currpid c) ≠ .PRCURR) :
    (∃ b, a.resched c = some b) ↔ ∃ p, a.OnReady c p := by
  constructor
  · rintro ⟨b, hb⟩
    by_contra hnone
    -- A process that stopped does not go back to a ready queue, and aging
    -- only moves what is there.
    have hyield : (a.age c).yield c = a.age c := by
      refine yield_of_stopped ?_
      rw [age_proctab, age_currpid]
      exact hstop
    have hdisp : (a.age c).dispatch c = none := dispatch_eq_none fun p hp =>
      hnone ⟨p, onReady_age.mp hp⟩
    rw [AbsKernel.resched, hyield, hdisp] at hb
    cases hb
  · rintro ⟨p, hp⟩
    exact resched_isSome hp

/-- The processes on the ready queues of a core are the ready ones with
affinity to it. -/
theorem SchedInv.exists_onReady (h : a.SchedInv ∅) (hwf : a.Wf) :
    (∃ q, a.OnReady c q) ↔
      ∃ q, IsPid q ∧ a.states q = .PRREADY ∧ (a.proctab q).coreAffinity = c := by
  constructor
  · rintro ⟨q, i, hi, hq⟩
    have hpid : IsPid q := hwf.pids _ (Queue.valid_ready c hi) q hq
    exact ⟨q, hpid, (h.procs q hpid).ready_state c (isCore c) ⟨i, hi, hq⟩⟩
  · rintro ⟨q, hpid, hready, haff⟩
    exact ⟨q, haff ▸ (h.procs q hpid).ready_queued hready⟩

/-- The `switch` of `kill` comes to an end, unless the process is the one
that runs and its core has no other. -/
theorem SchedInv.killSwitch_isSome (h : a.SchedInv ∅) (hp : IsPid p)
    (haff : (a.proctab p).coreAffinity = c) :
    (∃ b, a.killSwitch c p = some b) ↔ (a.states p = .PRCURR → ∃ q, a.OnReady c q) := by
  by_cases hcur : a.states p = .PRCURR
  · have hself := h.currpid_of_current hp hcur haff
    have hswitch : a.killSwitch c p = (a.setState p .PRFREE).resched c := by
      unfold AbsKernel.killSwitch
      rw [show (a.proctab p).state = .PRCURR from hcur]
    -- The slot is free before `resched`, so its process is not put back.
    have hstop : (a.setState p .PRFREE).states ((a.setState p .PRFREE).currpid c) ≠ .PRCURR := by
      rw [show (a.setState p .PRFREE).currpid c = p from hself, states_setState_self]
      decide
    rw [hswitch, resched_isSome_iff hstop]
    exact ⟨fun hq _ => hq, fun hq => hq hcur⟩
  · refine iff_of_true ?_ fun hcur' => absurd hcur' hcur
    unfold AbsKernel.killSwitch
    split
    · rename_i hcur'
      exact absurd hcur' hcur
    · exact ⟨_, rfl⟩
    · exact ⟨_, rfl⟩

end AbsKernel

/-! ### One `kill` -/

/-- `kill(p)` on core `c` returns `OK`. The slot is free then, and every
address of the stack is on a free list. -/
def Kernel.Kills (k : Kernel) (c : Core) (p : Int) : Prop :=
  ∃ k', k.kill c p = .ok (.ok, k') ∧ k'.states p = .PRFREE ∧
    ∀ x, (k.stackSpan p).Contains x → ∃ n, k'.heap.FreeAt n x

section Kill
variable {h0 : Heap} {k k' : Kernel} {a : AbsKernel} {c : Core} {p : Int} {lost : List Heap.Alloc}

/-- A `kill` that returns `OK` was not refused. -/
theorem Kernel.killRefuses_of_ok (h : k.kill c p = .ok (.ok, k')) : k.killRefuses c p = false := by
  cases href : k.killRefuses c p with
  | false => rfl
  | true =>
    rw [Kernel.kill, href, if_pos rfl] at h
    cases h

theorem Kernel.release_of_ok {r : Syscall} (href : k.killRefuses c p = false)
    (h : k.kill c p = .ok (r, k')) : r = .ok ∧ ∃ v, k.release p = .ok v := by
  rw [Kernel.kill, href] at h
  obtain ⟨v, hrel, h⟩ := bind_eq_ok h
  obtain ⟨k1, -, h⟩ := bind_eq_ok h
  exact ⟨(ok_pair h).1.symm, v, hrel⟩

variable (hr : Refines k a) (hinv : a.SchedInv ∅)
include hr hinv

/-- The slot is free after a `kill` that returns `OK`, for a process
blocked in `send` too. -/
theorem Refines.free_of_kill (h : k.kill c p = .ok (.ok, k')) : k'.states p = .PRFREE := by
  have href : a.killRefuses c p = false := hr.vars ▸ Kernel.killRefuses_of_ok h
  -- A sender stays on the queue of the receiver, so the killed state has
  -- no invariant. Only its own slot is read here.
  by_cases hsend : a.states p = .PRSEND
  · obtain ⟨-, v, hrel⟩ := Kernel.release_of_ok (hr.vars ▸ href) h
    rw [hr.vars] at hrel
    obtain ⟨b, hb, hr'⟩ := (hr.kill_simulates hinv href hrel).2.of_ok (map_snd_of_ok h)
    obtain ⟨h', rfl⟩ := Vars.release_eq hrel
    unfold AbsKernel.killSwitch at hb
    rw [show (a.proctab p).state = .PRSEND from hsend] at hb
    cases hb
    rw [hr'.states, AbsKernel.states_setState_self]
  · rcases hr.kill_ends hinv (Set.notMem_empty c) (fun _ => hsend) h with
      ⟨hok, -⟩ | ⟨-, -, b, hr', -, hkilled, -⟩
    · cases hok
    · rw [hr'.states]
      exact hkilled.free

/-- A process has a core on which it can be killed, unless it is
suspended, or it runs and its core has no other process to run. -/
theorem Refines.kills_iff (hs : Vars.Held h0 k.toVars lost) (hp : IsPid p)
    (hlive : k.states p ≠ .PRFREE) (hnull : 4 ≤ p) :
    (∃ c, k.Kills c p) ↔ k.states p ≠ .PRSUSP ∧ (k.states p = .PRCURR →
      ∃ q, IsPid q ∧ k.states q = .PRREADY ∧
        (k.proctab q).coreAffinity = (k.proctab p).coreAffinity) := by
  have hok := hinv.procs p hp
  rw [hr.states, hr.proctab]
  rw [hr.states] at hlive
  constructor
  · rintro ⟨c, k', hrun, -, -⟩
    have href : a.killRefuses c p = false := hr.vars ▸ Kernel.killRefuses_of_ok hrun
    obtain ⟨-, -, haff⟩ := Vars.killRefuses_eq_false.mp href
    refine ⟨fun hsusp => ?_, ?_⟩
    · -- A suspended process has the core -1.
      have hnone := haff.symm.trans (hok.suspended hsusp)
      have := (isCore c).1
      omega
    · obtain ⟨-, v, hrel⟩ := Kernel.release_of_ok (hr.vars ▸ href) hrun
      rw [hr.vars] at hrel
      obtain ⟨hinv', hsim⟩ := hr.kill_simulates hinv href hrel
      obtain ⟨b, hb, -⟩ := hsim.of_ok (map_snd_of_ok hrun)
      obtain ⟨h', rfl⟩ := Vars.release_eq hrel
      have hready := (hinv'.killSwitch_isSome hp haff).mp ⟨b, hb⟩
      intro hcur
      rw [haff]
      exact (hinv.exists_onReady hr.wf).mp (hready hcur)
  · rintro ⟨hsusp, hother⟩
    obtain ⟨c, hc⟩ := exists_core (hok.placed hlive hsusp)
    have href : a.killRefuses c p = false := Vars.killRefuses_eq_false.mpr
      ⟨isbadpid_eq_false.mpr ⟨hp, hlive⟩, hnull, hc.symm⟩
    obtain ⟨h', hfree, hfreed, -⟩ := hs.release (hr.mem_users href)
    -- The stack was allocated by `create`, so `free` takes it.
    have hfree' := hfree
    rw [hr.vars] at hfree'
    have hrel : a.release p = .ok { a.toVars with numproc := a.numproc - 1, heap := h' } := by
      simp only [Vars.release, hfree', ok_bind]
      rfl
    obtain ⟨hinv', hsim⟩ := hr.kill_simulates hinv href hrel
    obtain ⟨b, hb⟩ := (hinv'.killSwitch_isSome hp hc.symm).mpr fun hcur =>
      (hinv.exists_onReady hr.wf).mpr (hc ▸ hother hcur)
    obtain ⟨⟨r, k'⟩, hrun⟩ := hsim.returns hb
    obtain ⟨rfl, -⟩ := Kernel.release_of_ok (hr.vars ▸ href) hrun
    refine ⟨c, k', hrun, hr.free_of_kill hinv hrun, fun x hx => ?_⟩
    obtain ⟨res, h'', hfree'', hheap, -⟩ := Kernel.kill_heap (hr.vars ▸ href) hrun
    cases hfree.symm.trans hfree''
    rw [hheap]
    exact hfreed x hx

end Kill

/-! ### Whole runs -/

/-- A `create` makes a stack with room for what it writes there, and
`kill` is not used on a process that is blocked in `send`. -/
def Sys.Orderly (s : Sys) (cpuid : Core) : Call → Prop
  | .create args => s.kernel.Fitting cpuid args
  | call => s.SparesSenders cpuid call

instance (s : Sys) (cpuid : Core) (call : Call) : Decidable (s.Orderly cpuid call) := by
  rcases call <;> dsimp only [Sys.Orderly] <;> infer_instance

theorem held_of_reachable {memheap maxaddr end_ : Ulong} {mem : Ulong → Ulong} {s0 s : Sys}
    (hb : Heap.BootHeap memheap maxaddr)
    (hboot : Kernel.sysinit memheap maxaddr end_ mem = .ok s0.kernel)
    (h : Sys.ReachableFrom Sys.Orderly s0 s) :
    ∃ a lost, Refines s.kernel a ∧ a.SchedInv ∅ ∧ a.NullsLive ∧
      Vars.Held (Heap.sysinit memheap maxaddr mem) s.kernel.toVars lost := by
  refine Lib.Reaches.induction (P := fun s => ∃ a lost, Refines s.kernel a ∧ a.SchedInv ∅ ∧
    a.NullsLive ∧ Vars.Held (Heap.sysinit memheap maxaddr mem) s.kernel.toVars lost) h ?_ ?_
  · intro s hs
    subst hs
    obtain ⟨⟨a, hr, hinv, hsteady⟩, hs⟩ := Vars.held_sysinit hb hboot
    exact ⟨a, [], hr, hinv, hsteady.nullsLive, hs⟩
  · rintro s ⟨c, call⟩ s' ⟨a, lost, hr, hinv, hnull, hs⟩ ⟨hperm, hok⟩ hrun
    have hspare : ∀ pid, call = .kill pid → s.kernel.killRefuses c pid = false →
        s.kernel.states pid ≠ .PRSEND := by
      intro pid hcall
      subst hcall
      exact hok
    obtain ⟨b, hr', hinv', he, -⟩ := Sys.exec_effect hr hinv hperm hspare hrun
    obtain ⟨lost', hs', -⟩ := hs.exec hr hinv hnull
      (fun args hcall => by subst hcall; exact hok) hspare hr' he hrun
    exact ⟨b, lost', hr', hinv', hnull.effect he hinv hr.wf, hs'⟩

/-- In every state of every orderly run from `sysinit`, a live process
that is not a null process has a core on which `kill` returns `OK`, frees
its slot and puts its stack on a free list, exactly when it is not
suspended and, if it is running, another process is ready on its core. -/
theorem kills_of_reachable {memheap maxaddr end_ : Ulong} {mem : Ulong → Ulong} {s0 s : Sys}
    (hb : Heap.BootHeap memheap maxaddr)
    (hboot : Kernel.sysinit memheap maxaddr end_ mem = .ok s0.kernel)
    (h : Sys.ReachableFrom Sys.Orderly s0 s) {p : Int} (hp : IsPid p)
    (hlive : s.kernel.states p ≠ .PRFREE) (hnull : 4 ≤ p) :
    (∃ c, s.kernel.Kills c p) ↔ s.kernel.states p ≠ .PRSUSP ∧ (s.kernel.states p = .PRCURR →
      ∃ q, IsPid q ∧ s.kernel.states q = .PRREADY ∧
        (s.kernel.proctab q).coreAffinity = (s.kernel.proctab p).coreAffinity) := by
  obtain ⟨a, lost, hr, hinv, -, hs⟩ := held_of_reachable hb hboot h
  exact hr.kills_iff hinv hs hp hlive hnull

/-- A process waits in `send`: it sends twice to a process that does not
receive. -/
def blockedRun : List (Core × Call) :=
  [(0, .create highPriority), (0, .ready 4 true 0), (0, .create highPriority), (0, .send 5 1),
    (0, .send 5 2)]

/-- It can be killed. -/
theorem kills_blocked : ∃ s : Sys, s.kernel.states 4 = .PRSEND ∧ ∃ c, s.kernel.Kills c 4 := by
  obtain ⟨s0, s, hboot, hreach, htest⟩ := Sys.exists_reachableFrom Sys.Orderly 0x10000 0x90000
    0x8000 (fun _ => 0) blockedRun (fun s => decide (s.kernel.states 4 = .PRSEND))
    (by decide +kernel)
  have hsend : s.kernel.states 4 = .PRSEND := of_decide_eq_true htest
  refine ⟨s, hsend, (kills_of_reachable (by decide) hboot hreach (by decide) ?_ (by decide)).mpr
    ⟨?_, fun hcur => ?_⟩⟩
  · simp [hsend]
  · simp [hsend]
  · cases hsend.symm.trans hcur

/-- On every core `kill` refuses a process that was just created. And when
the null process of core 0 waits in `recv`, the only process of the core
cannot kill itself: `resched` finds nothing to run. -/
theorem kill_suspended :
    (∃ s0 s : Sys, Kernel.sysinit 0x10000 0x90000 0x8000 (fun _ => 0) = .ok s0.kernel ∧
      Sys.ReachableFrom Sys.Orderly s0 s ∧ s.kernel.states 4 = .PRSUSP ∧
      ∀ c, s.kernel.kill c 4 = .ok (.syserr, s.kernel)) ∧
    ∃ s0 s : Sys, Kernel.sysinit 0x10000 0x90000 0x8000 (fun _ => 0) = .ok s0.kernel ∧
      Sys.ReachableFrom Sys.Orderly s0 s ∧ s.kernel.states 4 = .PRCURR ∧
      s.kernel.currpid 0 = 4 ∧ s.kernel.kill 0 4 = .error .outOfBounds := by
  constructor
  · obtain ⟨s0, s, hboot, hreach, htest⟩ := Sys.exists_reachableFrom Sys.Orderly 0x10000 0x90000
      0x8000 (fun _ => 0) [(0, .create highPriority)]
      (fun s => decide (s.kernel.states 4 = .PRSUSP ∧ ∀ c, s.kernel.killRefuses c 4 = true))
      (by decide +kernel)
    obtain ⟨hsusp, href⟩ := of_decide_eq_true htest
    refine ⟨s0, s, hboot, hreach, hsusp, fun c => ?_⟩
    rw [Kernel.kill, href c, if_pos rfl]
  · obtain ⟨s0, s, hboot, hreach, htest⟩ := Sys.exists_reachableFrom Sys.Orderly 0x10000 0x90000
      0x8000 (fun _ => 0) [(0, .create highPriority), (0, .ready 4 false 0), (0, .recv)]
      (fun s => decide (s.kernel.states 4 = .PRCURR ∧ s.kernel.currpid 0 = 4 ∧
        (s.kernel.kill 0 4).map (fun _ => ()) = .error .outOfBounds))
      (by decide +kernel)
    obtain ⟨hcur, hself, hkill⟩ := of_decide_eq_true htest
    refine ⟨s0, s, hboot, hreach, hcur, hself, ?_⟩
    cases hrun : s.kernel.kill 0 4 with
    | ok r =>
      rw [hrun] at hkill
      cases hkill
    | error e =>
      rw [hrun] at hkill
      exact congrArg Except.error (Except.error.inj hkill)

end Xinu
