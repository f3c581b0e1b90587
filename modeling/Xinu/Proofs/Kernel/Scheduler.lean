import Mathlib.Algebra.Order.Interval.Finset.Basic
import Xinu.Proofs.Kernel.Boot
import Xinu.Proofs.Kernel.Effects

/-!
# `Xinu.Proofs.Kernel.Scheduler`: the scheduler over whole runs

The calls `create`, `ready`, `resched` and `kill` keep the process table,
the current processes and the twelve ready queues consistent.
`Scheduled k` says so in terms of the kernel's own variables, and
`scheduled_of_reachable` proves it for every state of every run.

Beside `SchedInv`, which all calls keep, the proof carries three facts
that need the choice of calls: each core's null process is current or
ready, no process waits to send, and `numproc` counts the live processes.
-/

namespace Xinu

/-- The live processes. -/
def Vars.live (v : Vars) : Finset Int :=
  (@Finset.Ico Int _ Int.instLocallyFiniteOrder 0 NPROC).filter fun p => v.states p ≠ .PRFREE

theorem Vars.mem_live {v : Vars} {p : Int} : p ∈ v.live ↔ IsPid p ∧ v.states p ≠ .PRFREE := by
  simp only [live, Finset.mem_filter, Finset.mem_Ico]
  rfl

theorem Vars.live_congr {v w : Vars} (h : ∀ x, w.states x = .PRFREE ↔ v.states x = .PRFREE) :
    w.live = v.live := by
  ext x
  simp only [mem_live, ne_eq, h]

/-- One more process is live. -/
theorem Vars.card_live_succ {v w : Vars} {p : Int} (hp : IsPid p) (hfree : v.states p = .PRFREE)
    (hlive : w.states p ≠ .PRFREE)
    (hsame : ∀ x, x ≠ p → (w.states x = .PRFREE ↔ v.states x = .PRFREE)) :
    w.live.card = v.live.card + 1 := by
  have hins : w.live = insert p v.live := by
    ext x
    rw [Finset.mem_insert, mem_live, mem_live]
    by_cases hx : x = p
    · subst hx
      simp [hp, hlive]
    · simp [hx, hsame x hx]
  have hnot : p ∉ v.live := fun hm => (mem_live.mp hm).2 hfree
  rw [hins, Finset.card_insert_of_notMem hnot]

namespace AbsKernel

variable {a b : AbsKernel} {c : Core} {p x : Int} {call : Call}

/-- What the scheduler's own calls keep beside `SchedInv`. -/
structure Steady (a : AbsKernel) : Prop where
  null : ∀ c : Core, (a.states c).Active ∧ (a.proctab c).coreAffinity = c
  noSend : ∀ p, IsPid p → a.states p ≠ .PRSEND
  numproc : a.numproc = a.live.card

theorem isPid_core (c : Core) : IsPid c := by
  have := c.isLt
  unfold NCORES at this
  exact ⟨by omega, by unfold NPROC; omega⟩

/-- A null process is active. -/
theorem Steady.ne_null (h : a.Steady) (hp : ¬ (a.states p).Active) (c : Core) : (c : Int) ≠ p :=
  fun heq => hp (heq ▸ (h.null c).1)

theorem Steady.rescheduled (h : a.Steady) (hres : Rescheduled a b) : b.Steady where
  null c := ⟨hres.active (h.null c).1, by rw [hres.pcb]; exact (h.null c).2⟩
  noSend p hp hs := h.noSend p hp ((hres.states_eq_iff (by simp [PrState.Active])).mp hs)
  numproc := by
    rw [hres.numproc, h.numproc,
      Vars.live_congr fun x => hres.states_eq_iff (by simp [PrState.Active])]

/-- One inactive process changes, and it does not block in `send`. -/
theorem Steady.of_pcb (h : a.Steady) (hp : ¬ (a.states p).Active) (hstate : b.states p ≠ .PRSEND)
    (hother : ∀ x, x ≠ p → b.proctab x = a.proctab x) (hnum : b.numproc = b.live.card) :
    b.Steady where
  null c := by
    rw [Vars.states, hother c (h.ne_null hp c)]
    exact h.null c
  noSend x hx := by
    by_cases hxp : x = p
    · exact hxp ▸ hstate
    · rw [Vars.states, hother x hxp]
      exact h.noSend x hx
  numproc := hnum

theorem Steady.wake (h : a.Steady) {core : Ulong} (hsusp : a.states p = .PRSUSP) :
    (a.wake p core).Steady := by
  have hstate : (a.wake p core).states p = .PRREADY := Vars.makeReady_state ..
  have hother : ∀ x, x ≠ p → (a.wake p core).proctab x = a.proctab x := fun x hx =>
    Vars.makeReady_of_ne hx
  have hlive : (a.wake p core).live = a.live := Vars.live_congr fun x => by
    by_cases hxp : x = p
    · rw [hxp, hstate, hsusp]
      simp
    · rw [Vars.states, hother x hxp]
      rfl
  refine h.of_pcb (by simp [hsusp, PrState.Active]) (by simp [hstate]) hother ?_
  rw [hlive, ← h.numproc]
  exact Vars.makeReady_numproc

theorem Steady.entered (h : a.Steady) {args : Vars.CreateArgs} {saddr : Ulong} (hp : IsPid p)
    (hfree : a.states p = .PRFREE) (hb : Entered a b args p saddr) : b.Steady := by
  have hself : b.proctab p = Vars.newPcb (a.proctab p) args saddr := by
    rw [hb.proctab, Function.update_self]
  have hstate : b.states p = .PRSUSP := congrArg Pcb.state hself
  have hother : ∀ x, x ≠ p → b.proctab x = a.proctab x := fun x hx => by
    rw [hb.proctab, Function.update_of_ne hx]
  refine h.of_pcb (by simp [hfree, PrState.Active]) (by simp [hstate]) hother ?_
  rw [hb.numproc, h.numproc, Vars.card_live_succ hp hfree (w := b.toVars) (by simp [hstate])
    fun x hx => by rw [Vars.states, Vars.states, hother x hx]]
  simp

theorem Steady.killed (h : a.Steady) (hno : a.killRefuses c p = false) (hb : Killed a b p)
    (hnum : b.numproc = a.numproc - 1) : b.Steady := by
  obtain ⟨hgood, hnull, -⟩ := Vars.killRefuses_eq_false.mp hno
  obtain ⟨hp, hlive⟩ := isbadpid_eq_false.mp hgood
  refine ⟨fun c => ?_, fun x hx hs => ?_, ?_⟩
  · have hne : (c : Int) ≠ p := by
      have := c.isLt
      unfold NCORES at this
      omega
    refine ⟨?_, by rw [hb.pcb c hne]; exact (h.null c).2⟩
    rcases hb.state c hne with heq | ⟨-, hact⟩
    · rw [heq]
      exact (h.null c).1
    · exact hact
  · have hxp : x ≠ p := fun heq => by
      rw [heq, hb.free] at hs
      cases hs
    exact h.noSend x hx ((hb.states_eq_iff hxp (by simp [PrState.Active])).mp hs)
  · have hcard := Vars.card_live_succ hp hb.free hlive fun x hx =>
      (hb.states_eq_iff hx (by simp [PrState.Active])).symm
    rw [hnum, h.numproc, hcard]
    simp

end AbsKernel

/-! ### After `sysinit` -/

theorem exists_core {p : Int} (h : 0 ≤ p ∧ p < 4) : ∃ c : Core, (c : Int) = p :=
  ⟨⟨p.toNat, by unfold NCORES; omega⟩, by simp only; omega⟩

namespace Kernel.Booted

variable {a : AbsKernel} (h : Booted a)
include h

theorem not_queued {p : Int} : ¬ a.Queued p := by
  rintro ⟨q, -, hp⟩
  rw [h.queue] at hp
  cases hp

theorem schedInv : a.SchedInv ∅ where
  procs p hp := by
    by_cases h4 : 4 ≤ p
    · have hfree := h.free p hp h4
      exact .of_not_queued h.not_queued (by simp [hfree]) (by simp [hfree]) (by simp [hfree])
        (by simp [hfree])
    · obtain ⟨c, rfl⟩ := exists_core ⟨hp.1, Int.not_le.mp h4⟩
      obtain ⟨hcur, haff, hprio, -⟩ := h.null c
      refine .of_not_queued h.not_queued (by simp [hcur]) (fun _ => ?_) (fun _ _ => ?_)
        (by simp [hcur])
      · rw [hprio]
        decide
      · rw [haff]
        exact isCore c
  pid c := by rw [h.currpid]; exact AbsKernel.isPid_core c
  affinity c := by rw [h.currpid]; exact (h.null c).2.1
  current c _ := by rw [h.currpid]; exact (h.null c).1
  currentOnly p hp hcur := by
    by_cases h4 : 4 ≤ p
    · rw [h.free p hp h4] at hcur
      cases hcur
    · obtain ⟨c, rfl⟩ := exists_core ⟨hp.1, Int.not_le.mp h4⟩
      exact ⟨c, Set.notMem_empty c, h.currpid c⟩

theorem steady : a.Steady where
  null c := ⟨Or.inl (h.null c).1, (h.null c).2.1⟩
  noSend p hp hs := by
    by_cases h4 : 4 ≤ p
    · rw [h.free p hp h4] at hs
      cases hs
    · obtain ⟨c, rfl⟩ := exists_core ⟨hp.1, Int.not_le.mp h4⟩
      rw [(h.null c).1] at hs
      cases hs
  numproc := by
    have hlive : a.live = Finset.Ico 0 4 := by
      ext p
      rw [Vars.mem_live, Finset.mem_Ico]
      constructor
      · rintro ⟨hp, hs⟩
        exact ⟨hp.1, Int.not_le.mp fun h4 => hs (h.free p hp h4)⟩
      · intro hp
        obtain ⟨c, rfl⟩ := exists_core hp
        exact ⟨AbsKernel.isPid_core c, by simp [(h.null c).1]⟩
    rw [hlive, h.numproc]
    rfl

end Kernel.Booted

/-! ### The theorem -/

namespace Kernel

/-- The processes on `readylist[core][priority]`, in order. -/
def readyMembers (k : Kernel) (core priority : Int) : List Int :=
  k.queues.members (k.readylist core priority)

/-- The process table, the current processes and the ready queues agree,
and the scheduler's calls can go on. -/
structure Scheduled (k : Kernel) : Prop where
  /-- The current processes are those the cores run, each with the
  affinity of its core. -/
  current : ∀ p, IsPid p → (k.states p = .PRCURR ↔ ∃ c, k.currpid c = p)
  currentCore : ∀ c : Core, IsPid (k.currpid c) ∧ (k.proctab (k.currpid c)).coreAffinity = c
  /-- The ready queues of a core hold its ready processes. -/
  ready : ∀ (c : Core) p, (∃ i, (0 ≤ i ∧ i < 3) ∧ p ∈ k.readyMembers c i) ↔
    IsPid p ∧ k.states p = .PRREADY ∧ (k.proctab p).coreAffinity = c
  /-- A process is on one ready queue, and there once. -/
  nodup : ∀ (c : Core) i, 0 ≤ i ∧ i < 3 → (k.readyMembers c i).Nodup
  unique : ∀ (c d : Core) i j p, 0 ≤ i ∧ i < 3 → 0 ≤ j ∧ j < 3 → p ∈ k.readyMembers c i →
    p ∈ k.readyMembers d j → c = d ∧ i = j
  /-- A core's null process is current or ready. -/
  null : ∀ c : Core, k.states c = .PRCURR ∨ k.states c = .PRREADY
  /-- `numproc` counts the slots in use. -/
  numproc : k.numproc = k.live.card
  /-- `resched` finds a process, also at the end of `ready` and of
  `kill`. -/
  resched : ∀ c, ∃ k', k.resched c = .ok k'
  readyReturns : ∀ c pid resch core, IsPid pid → k.states pid = .PRSUSP → core.toNat < NCORES →
    ∃ r, k.ready c pid resch core = .ok r
  killReturns : ∀ c pid v, k.release pid = .ok v → ∃ r, k.kill c pid = .ok r
  /-- `create` takes free slots. -/
  create : ∀ c args pid k', k.create c args = .ok (some pid, k') →
    IsPid pid ∧ k.states pid = .PRFREE

end Kernel

section Scheduled
variable {k : Kernel} {a : AbsKernel} {c : Core} {p : Int}

/-- A computation with an abstract result returns. -/
theorem Simulates.returns {β : Type} {x : Except Fault (β × Kernel)} {o : Option AbsKernel}
    {b : AbsKernel} (h : Simulates (x.map Prod.snd) o) (hb : o = some b) : ∃ r, x = .ok r := by
  obtain ⟨k', hk', -⟩ := hb ▸ h
  cases x with
  | error e => cases hk'
  | ok r => exact ⟨r, rfl⟩

theorem Refines.readyMembers (hr : Refines k a) {i : Int} (hi : 0 ≤ i ∧ i < 3) :
    k.readyMembers c i = a.queue (.ready c i) := by
  have hq := Queue.valid_ready c hi
  rw [Kernel.readyMembers, hr.readyIds c i hq, Queuetab.members_eq hr.table (Queue.ix_lt hq),
    AbsKernel.contents_ix hq]

/-- When a process kills itself, its core still has the null process. -/
theorem AbsKernel.SchedInv.resched_isSome_of_killed (h : a.SchedInv ∅)
    (hs : (a.states c).Active ∧ (a.proctab c).coreAffinity = c) (hnull : 4 ≤ p)
    (hcur : a.currpid c = p) : ∃ b, (a.setState p .PRFREE).resched c = some b := by
  have hready : a.states c = .PRREADY := by
    refine hs.1.resolve_left fun hc => ?_
    have hcc := h.currpid_of_current (isPid_core c) hc hs.2
    have := c.isLt
    unfold NCORES at this
    omega
  have hon := (h.procs c (isPid_core c)).ready_queued hready
  rw [hs.2] at hon
  exact AbsKernel.resched_isSome hon

theorem Refines.ready_returns (hr : Refines k a) (h : a.SchedInv ∅) {resch : Bool} {core : Ulong}
    (hp : IsPid p) (hsusp : a.states p = .PRSUSP) (hcore : core.toNat < NCORES) :
    ∃ r, k.ready c p resch core = .ok r := by
  obtain ⟨hasleep, hint⟩ := h.asleep_of_suspended hp hsusp hcore
  have hwake := h.wake hasleep fun _ => hint
  have hsim := hr.ready c resch (h.canWake core hasleep fun _ => hint)
    fun _ _ => hwake.canResched (hr.wf.wake hasleep) c
  obtain ⟨b, hb⟩ : ∃ b, a.ready c p resch core = some b := by
    unfold AbsKernel.ready
    simp only
    split
    · exact hwake.resched_isSome (Set.notMem_empty c)
    · exact ⟨_, rfl⟩
  exact hsim.returns hb

theorem Refines.kill_returns (hr : Refines k a) (h : a.SchedInv ∅) (hs : a.Steady) {v : Vars}
    (hrel : a.release p = .ok v) : ∃ r, k.kill c p = .ok r := by
  cases href : a.killRefuses c p with
  | true => exact ⟨_, by rw [Kernel.kill, hr.vars, href, if_pos rfl]⟩
  | false =>
    obtain ⟨hgood, hnull, haff⟩ := Vars.killRefuses_eq_false.mp href
    obtain ⟨hp, -⟩ := isbadpid_eq_false.mp hgood
    obtain ⟨hinv, hsim⟩ := hr.kill_simulates h href hrel
    obtain ⟨hp', rfl⟩ := Vars.release_eq hrel
    obtain ⟨b, hb⟩ : ∃ b, ({ a with numproc := a.numproc - 1, heap := hp' } :
        AbsKernel).killSwitch c p = some b := by
      unfold AbsKernel.killSwitch
      split
      · rename_i hcur
        exact hinv.resched_isSome_of_killed (hs.null c) hnull
          (hinv.currpid_of_current hp hcur haff)
      · exact ⟨_, rfl⟩
      · exact ⟨_, rfl⟩
    exact hsim.returns hb

/-- The abstract invariants give the kernel's. -/
theorem Refines.scheduled (hr : Refines k a) (h : a.SchedInv ∅) (hs : a.Steady) :
    k.Scheduled where
  current p hp := by
    rw [hr.states, hr.currpid]
    constructor
    · intro hcur
      obtain ⟨c, -, hc⟩ := h.currentOnly p hp hcur
      exact ⟨c, hc⟩
    · rintro ⟨c, rfl⟩
      exact h.current c (Set.notMem_empty c)
  currentCore c := by
    rw [hr.proctab, hr.currpid]
    exact ⟨h.pid c, h.affinity c⟩
  ready c p := by
    rw [hr.states, hr.proctab]
    constructor
    · rintro ⟨i, hi, hm⟩
      rw [hr.readyMembers hi] at hm
      have hp := hr.wf.pids _ (Queue.valid_ready c hi) p hm
      exact ⟨hp, (h.procs p hp).ready_state c (isCore c) ⟨i, hi, hm⟩⟩
    · rintro ⟨hp, hready, haff⟩
      obtain ⟨i, hi, hm⟩ := (h.procs p hp).ready_queued hready
      rw [haff] at hm
      exact ⟨i, hi, (hr.readyMembers hi).symm ▸ hm⟩
  nodup c i hi := by
    rw [hr.readyMembers hi]
    exact hr.wf.nodup _ (Queue.valid_ready c hi)
  unique c d i j p hi hj hm hm' := by
    rw [hr.readyMembers hi] at hm
    rw [hr.readyMembers hj] at hm'
    obtain ⟨hcd, hij⟩ := Queue.ready.inj (hr.wf.disjoint _ _ (Queue.valid_ready c hi)
      (Queue.valid_ready d hj) p hm hm')
    exact ⟨Fin.ext (by exact_mod_cast hcd), hij⟩
  null c := by
    rw [hr.states]
    exact (hs.null c).1
  numproc := by
    rw [hr.vars]
    exact hs.numproc
  resched c := by
    obtain ⟨b, hb⟩ := h.resched_isSome (Set.notMem_empty c)
    have hsim := hr.resched (h.canResched hr.wf c)
    rw [hb] at hsim
    exact hsim.imp fun k' hk' => hk'.1
  readyReturns c pid resch core hp hsusp hcore := hr.ready_returns h hp (hr.states ▸ hsusp) hcore
  killReturns c pid v hrel := hr.kill_returns h hs (hr.vars ▸ hrel)
  create c args pid k' hrun := by
    rw [hr.states]
    obtain ⟨hcreate, -⟩ := hr.create hrun
    -- A `create` that returns a process has taken a free slot for it.
    rcases Vars.create_cases hcreate with ⟨hnone, -⟩ | ⟨pid', saddr, hp, n, hsome, hpid, hfree, -⟩
    · cases hnone
    · cases hsome
      exact ⟨hpid, hfree⟩

end Scheduled

/-- The calls that only concern the scheduler. -/
def Call.Scheduling : Call → Prop
  | .create _ | .ready _ _ _ | .resched | .kill _ => True
  | _ => False

instance (call : Call) : Decidable call.Scheduling := by
  rcases call <;> dsimp only [Call.Scheduling] <;> infer_instance

/-- One call of the scheduler keeps the invariants. -/
theorem AbsKernel.Steady.effect {a b : AbsKernel} {c : Core} {call : Call} (hs : a.Steady)
    (hcall : call.Scheduling) (he : Effect a c call b) : b.Steady := by
  cases he with
  | same h => exact hs.rescheduled (.of_proctab h.proctab (fun _ => by rw [h.queue]) h.numproc)
  | create hpid hfree h => exact hs.entered hpid hfree h
  | ready hp hsusp h => exact (hs.wake hsusp).rescheduled h
  | resched h => exact hs.rescheduled h
  | kill hno h hnum => exact hs.killed hno h hnum
  | deposit hcall' | deliver hcall' | drain hcall' | refill hcall' =>
    rcases hcall' with rfl | rfl <;> exact hcall.elim
  | park | wait | recvnow => exact hcall.elim

/-- The invariant of the runs of scheduler calls. -/
theorem steady_of_reachable {s : Sys} (h : Sys.Reachable (fun _ _ call => call.Scheduling) s) :
    ∃ a, Refines s.kernel a ∧ a.SchedInv ∅ ∧ a.Steady := by
  refine Lib.Reaches.induction
    (P := fun s => ∃ a, Refines s.kernel a ∧ a.SchedInv ∅ ∧ a.Steady) h ?_ ?_
  · intro s hboot
    obtain ⟨⟨_, _, _, _, hinit⟩, -⟩ := hboot
    obtain ⟨a, hr, ha⟩ := Kernel.sysinit_refines hinit
    exact ⟨a, hr, ha.schedInv, ha.steady⟩
  · rintro s ⟨c, call⟩ s' ⟨a, hr, hinv, hsteady⟩ ⟨hperm, hok⟩ hrun
    obtain ⟨b, hr', hinv', he, -⟩ := Sys.exec_effect hr hinv hperm (fun pid _ href => by
      obtain ⟨hgood, -⟩ := Vars.killRefuses_eq_false.mp href
      rw [hr.states]
      exact hsteady.noSend pid (isbadpid_eq_false.mp hgood).1) hrun
    exact ⟨b, hr', hinv', hsteady.effect hok he⟩

/-- In every run of `create`, `ready`, `resched` and `kill` from
`sysinit`, the scheduler's variables agree in every state. -/
theorem scheduled_of_reachable {s : Sys}
    (h : Sys.Reachable (fun _ _ call => call.Scheduling) s) : s.kernel.Scheduled := by
  obtain ⟨a, hr, hinv, hsteady⟩ := steady_of_reachable h
  exact hr.scheduled hinv hsteady

/-- A process of high priority with no arguments. -/
def highPriority : Vars.CreateArgs where
  funcaddr := 0x100
  ssize := 4096
  priority := 2
  nargs := 0
  args _ := 0

/-- Two processes are created and made ready, the first of them runs on
core 0 and is killed by the second. -/
def killRun : List (Core × Call) :=
  [(0, .create highPriority), (0, .ready 4 true 0), (1, .create highPriority),
    (1, .ready 5 false 0), (0, .resched), (0, .kill 4)]

theorem scheduled_killRun :
    (Sys.boot (fun _ _ call => call.Scheduling) 0x10000 0x90000 0x8000 (fun _ => 0) killRun).any
      (fun s => s.kernel.currpid 0 = 5 && s.kernel.numproc = 5) = true ∧
    ∀ s, Sys.boot (fun _ _ call => call.Scheduling) 0x10000 0x90000 0x8000 (fun _ => 0)
      killRun = some s → s.kernel.Scheduled :=
  ⟨by decide +kernel, fun _ hs => scheduled_of_reachable (Sys.reachable_boot hs)⟩

end Xinu
