import Xinu.Abstract.Invariant

/-!
# `Xinu.Abstract.Calls`: the calls keep the scheduler's invariant

What each call of the abstract kernel does to `SchedInv`. A call that
switches processes first takes the current process off its core
(`SchedInv.block`, `SchedInv.park`) and then goes through `resched`. The
others change one process that is not current.

`CanResched` and `CanWake` are the conditions under which the queue table
follows. They follow from the invariant.
-/

namespace Xinu

open Function List

namespace Vars

variable {v : Vars} {p x : Int} {core : Ulong}

theorem makeReady_of_ne (h : x ≠ p) : (v.makeReady p core).proctab x = v.proctab x := by
  unfold makeReady
  simp only
  split <;> simp [setState, setPcb, h]

/-- `makeReady` changes the state and the core of one process. -/
theorem makeReady_self (v : Vars) (p : Int) (core : Ulong) : ∃ d, (v.makeReady p core).proctab p =
    { v.proctab p with state := .PRREADY, coreAffinity := d } ∧
    (d = if (v.proctab p).coreAffinity = -1 then core.toInt else (v.proctab p).coreAffinity) := by
  unfold makeReady
  simp only [setState, setPcb, update_self]
  split <;> exact ⟨_, by simp, rfl⟩

theorem makeReady_state (v : Vars) (p : Int) (core : Ulong) :
    (v.makeReady p core).states p = .PRREADY := by
  obtain ⟨d, hself, -⟩ := makeReady_self v p core
  exact congrArg Pcb.state hself

/-- A process that has a core keeps it. -/
theorem makeReady_affinity (h : (v.proctab p).coreAffinity ≠ -1) :
    ((v.makeReady p core).proctab p).coreAffinity = (v.proctab p).coreAffinity := by
  obtain ⟨d, hself, hd⟩ := makeReady_self v p core
  rw [hself, hd, if_neg h]

theorem makeReady_counters : (v.makeReady p core).promoteMedium = v.promoteMedium ∧
    (v.makeReady p core).promoteLow = v.promoteLow := by
  unfold makeReady
  simp only
  split <;> exact ⟨rfl, rfl⟩

theorem makeReady_currpid : (v.makeReady p core).currpid = v.currpid := by
  unfold makeReady
  simp only
  split <;> rfl

theorem makeReady_heap :
    (v.makeReady p core).heap = v.heap ∧ (v.makeReady p core).nextpid = v.nextpid := by
  unfold makeReady
  simp only
  split <;> exact ⟨rfl, rfl⟩

theorem makeReady_numproc : (v.makeReady p core).numproc = v.numproc := by
  unfold makeReady
  simp only
  split <;> rfl

end Vars

namespace AbsKernel

variable {a b : AbsKernel} {c : Core} {p r x : Int} {idle : Set Core}

/-- What `resched` needs on core `c`: the old process exists, a current
process is on no queue yet, and the ready processes are live. -/
structure CanResched (a : AbsKernel) (c : Core) : Prop where
  pid : IsPid (a.currpid c)
  current : a.states (a.currpid c) = .PRCURR → ¬ a.Queued (a.currpid c) ∧
    0 ≤ (a.proctab (a.currpid c)).priority ∧ (a.proctab (a.currpid c)).priority < 3
  live : ∀ p, a.OnReady c p → a.states p ≠ .PRFREE

/-- What waking `p` needs: it is live, on no queue, and its ready queue
exists. -/
structure CanWake (a : AbsKernel) (p : Int) (core : Ulong) : Prop where
  live : isbadpid a.states p = false
  free : ¬ a.Queued p
  queue : (Queue.ready ((a.makeReady p core).proctab p).coreAffinity
    ((a.makeReady p core).proctab p).priority).Valid

theorem SchedInv.canResched (h : a.SchedInv idle) (hwf : a.Wf) (c : Core) : a.CanResched c where
  pid := h.pid c
  current hs := by
    have hcur := h.procs _ (h.pid c)
    exact ⟨hcur.not_queued (by simp [hs]) (by simp [hs]), hcur.priority (by simp [hs])⟩
  live p hp := by
    obtain ⟨i, hi, hmem⟩ := hp
    have hpid := hwf.pids _ (Queue.valid_ready c hi) p hmem
    have hready := ((h.procs p hpid).ready_state c (isCore c) ⟨i, hi, hmem⟩).1
    simp [hready]

/-- A live process that is neither ready nor current. -/
structure Asleep (a : AbsKernel) (p : Int) : Prop where
  pid : IsPid p
  notFree : a.states p ≠ .PRFREE
  notReady : a.states p ≠ .PRREADY
  notCurrent : a.states p ≠ .PRCURR
  free : ¬ a.Queued p

/-- A suspended process sleeps, and the core that `ready` gets for it
exists. -/
theorem SchedInv.asleep_of_suspended (h : a.SchedInv idle) {core : Ulong} (hp : IsPid p)
    (hsusp : a.states p = .PRSUSP) (hcore : core.toNat < NCORES) :
    a.Asleep p ∧ IsCore core.toInt := by
  refine ⟨⟨hp, by simp [hsusp], by simp [hsusp], by simp [hsusp],
    (h.procs p hp).not_queued (by simp [hsusp]) (by simp [hsusp])⟩, ?_⟩
  unfold NCORES at hcore
  rw [BitVec.toInt_eq_toNat_of_lt (by omega)]
  exact ⟨by omega, by unfold NCORES; omega⟩

/-- A process that is woken has a core: its own, or the one `ready` was
given. -/
theorem SchedInv.isCore_makeReady (h : a.SchedInv idle) (hp : a.Asleep p) {core : Ulong}
    (hcore : a.states p = .PRSUSP → IsCore core.toInt) :
    IsCore ((a.makeReady p core).proctab p).coreAffinity := by
  obtain ⟨d, hself, hd⟩ := Vars.makeReady_self a.toVars p core
  have hok := h.procs p hp.pid
  rw [hself]
  show IsCore d
  by_cases hsusp : a.states p = .PRSUSP
  · rw [hd, if_pos (hok.suspended hsusp)]
    exact hcore hsusp
  · have hplaced := hok.placed hp.notFree hsusp
    have hne : (a.proctab p).coreAffinity ≠ -1 := fun heq => by
      have := hplaced.1
      omega
    rwa [hd, if_neg hne]

theorem SchedInv.canWake (h : a.SchedInv idle) (core : Ulong) (hp : a.Asleep p)
    (hcore : a.states p = .PRSUSP → IsCore core.toInt) : a.CanWake p core := by
  obtain ⟨d, hself, hd⟩ := Vars.makeReady_self a.toVars p core
  have hprio := (h.procs p hp.pid).priority hp.notFree
  have hplace := h.isCore_makeReady hp hcore
  refine ⟨isbadpid_eq_false.mpr ⟨hp.pid, hp.notFree⟩, hp.free, hplace, ?_⟩
  rw [hself]
  exact hprio

/-- Waking a process keeps the invariant. -/
theorem SchedInv.wake (h : a.SchedInv idle) (hp : a.Asleep p) {core : Ulong}
    (hcore : a.states p = .PRSUSP → IsCore core.toInt) : (a.wake p core).SchedInv idle := by
  obtain ⟨d, hself, hd⟩ := Vars.makeReady_self a.toVars p core
  have hprio : 0 ≤ ((a.makeReady p core).proctab p).priority ∧
      ((a.makeReady p core).proctab p).priority < 3 := by
    rw [hself]
    exact (h.procs p hp.pid).priority hp.notFree
  have hplace := h.isCore_makeReady hp hcore
  have hstate : (a.makeReady p core).states p = .PRREADY := by
    rw [Vars.states, hself]
  -- First the slot of `p` changes, then its place on a ready queue.
  have hdiff : Differs a ({ a with toVars := a.makeReady p core } : AbsKernel) p := by
    refine ⟨Vars.makeReady_currpid, fun x hx => ?_, fun x hx => ?_, fun x hx => ?_,
      fun _ _ _ _ => Iff.rfl, fun _ _ _ _ h => h⟩
    · exact congrArg Pcb.state (Vars.makeReady_of_ne hx)
    · exact congrArg Pcb.coreAffinity (Vars.makeReady_of_ne hx)
    · exact congrArg Pcb.priority (Vars.makeReady_of_ne hx)
  refine (hdiff.trans differs_push).same h (fun _ => .of_ready hstate hplace hprio ?_ ?_) ?_
    hp.notCurrent fun heq => by cases hstate.symm.trans heq
  · exact fun d hd => onReady_push_self hprio hp.free hd
  · exact fun r hr => not_mem_senders_push hp.free hr
  · -- The old process of a switching core has a core, so it keeps it.
    intro c hc
    have haff : (a.proctab p).coreAffinity = c := hc ▸ h.affinity c
    show ((a.makeReady p core).proctab p).coreAffinity = c
    rw [hself]
    show d = c
    rw [hd, if_neg (by omega), haff]

theorem Wf.wake (hwf : a.Wf) (hp : a.Asleep p) {core : Ulong} : (a.wake p core).Wf :=
  Wf.push (hwf.congr rfl) hp.pid hp.free

/-- A current process takes a blocked state, or dies. -/
theorem SchedInv.block (h : a.SchedInv idle) (hcur : a.states (a.currpid c) = .PRCURR)
    {s : PrState} (hs : s = .PRRECV ∨ s = .PRSEND ∨ s = .PRFREE) :
    (a.setState (a.currpid c) s).SchedInv (insert c idle) := by
  have hok := h.procs _ (h.pid c)
  have hstate : (a.setState (a.currpid c) s).states (a.currpid c) = s :=
    states_setState_self
  have haff : ((a.setState (a.currpid c) s).proctab (a.currpid c)).coreAffinity = c :=
    Vars.coreAffinity_setState.trans (h.affinity c)
  have hne : s ≠ .PRREADY ∧ s ≠ .PRCURR ∧ s ≠ .PRSUSP := by rcases hs with rfl | rfl | rfl <;> simp
  refine differs_setState.leave h rfl
    (.of_not_queued ?_ ?_ (fun _ => ?_) (fun _ _ => ?_) ?_) haff ?_
  · exact hok.not_queued (by simp [hcur]) (by simp [hcur])
  · rw [hstate]
    exact hne.1
  · exact (Vars.priority_setState (v := a.toVars)).symm ▸ hok.priority (by simp [hcur])
  · exact haff.symm ▸ isCore c
  · exact fun hsusp => absurd (hstate.symm.trans hsusp) hne.2.2
  · rw [hstate]
    exact hne.2.1

/-- A current process parks at another one's mailbox. -/
theorem SchedInv.park (h : a.SchedInv idle) (hcur : a.states (a.currpid c) = .PRCURR) {msg : Int} :
    (a.park (a.currpid c) r msg).SchedInv (insert c idle) := by
  have hok := h.procs _ (h.pid c)
  have hfree := hok.not_queued (by simp [hcur]) (by simp [hcur])
  have hpcb : (a.park (a.currpid c) r msg).proctab (a.currpid c) =
      { a.proctab (a.currpid c) with msgout := msg, state := .PRSEND } :=
    update_self ..
  have hstate : (a.park (a.currpid c) r msg).states (a.currpid c) = .PRSEND := by
    rw [Vars.states, hpcb]
  refine (differs_setPcb.trans differs_push).leave h rfl ⟨?_, ?_, ?_, ?_, ?_, ?_⟩ ?_ ?_
  · rintro d hd ⟨i, hi, hp⟩
    rcases mem_push.mp hp with hp | ⟨-, heq⟩
    · exact absurd ⟨.ready d i, ⟨hd, hi⟩, hp⟩ hfree
    · cases heq
  · exact fun hs => by cases hstate.symm.trans hs
  · exact fun _ _ _ => hstate
  · intro _
    exact congrArg Pcb.priority hpcb ▸ hok.priority (by simp [hcur])
  · intro _ _
    exact congrArg Pcb.coreAffinity hpcb ▸ hok.placed (by simp [hcur]) (by simp [hcur])
  · exact fun hs => by cases hstate.symm.trans hs
  · exact (congrArg Pcb.coreAffinity hpcb).trans (h.affinity c)
  · exact fun hs => by cases hstate.symm.trans hs

/-! ### Changes the invariant does not see -/

/-- The two kernels agree on what the scheduler's invariant reads. -/
structure SameSched (a b : AbsKernel) : Prop where
  currpid : b.currpid = a.currpid
  queue : b.queue = a.queue
  states : ∀ x, b.states x = a.states x
  affinity : ∀ x, (b.proctab x).coreAffinity = (a.proctab x).coreAffinity
  priority : ∀ x, (b.proctab x).priority = (a.proctab x).priority

theorem SchedInv.congr (h : a.SchedInv idle) (hs : SameSched a b) : b.SchedInv idle where
  procs p hp := (h.procs p hp).congr_queue (hs.states p) (hs.affinity p) (hs.priority p) hs.queue
  pid c := by rw [hs.currpid]; exact h.pid c
  affinity c := by rw [hs.currpid, hs.affinity]; exact h.affinity c
  current c hc := by rw [hs.currpid, hs.states]; exact h.current c hc
  currentOnly p hp hst := by
    rw [hs.currpid]
    exact h.currentOnly p hp (hs.states p ▸ hst)

/-- Writing the message fields of a process. -/
theorem sameSched_setPcb {y : Pcb} (hs : y.state = (a.proctab p).state)
    (haff : y.coreAffinity = (a.proctab p).coreAffinity)
    (hprio : y.priority = (a.proctab p).priority) : SameSched a (a.setPcb p y) := by
  have hproc : ∀ x, (a.setPcb p y).proctab x = if x = p then y else a.proctab x := fun x =>
    update_apply ..
  refine ⟨rfl, rfl, fun x => ?_, fun x => ?_, fun x => ?_⟩
  · rw [Vars.states, hproc]
    split
    · rename_i hx
      rw [hs, hx]
      rfl
    · rfl
  · rw [hproc]
    split
    · rename_i hx
      rw [haff, hx]
    · rfl
  · rw [hproc]
    split
    · rename_i hx
      rw [hprio, hx]
    · rfl

theorem sameSched_deposit {msg : Int} : SameSched a (a.deposit p msg) :=
  sameSched_setPcb rfl rfl rfl

theorem sameSched_drain : SameSched a (a.drain p) := sameSched_setPcb rfl rfl rfl

/-! ### A sender leaves a mailbox's queue -/

/-- The first sender leaves the queue of a mailbox. Its state does not
change until `ready`. -/
theorem SchedInv.popSender (h : a.SchedInv idle) (hwf : a.Wf) {sender : Int} {l : List Int}
    (hp : IsPid p) (hl : a.queue (.senders p) = sender :: l) :
    (a.pop (.senders p)).SchedInv idle ∧ IsPid sender ∧ a.states sender = .PRSEND ∧
      ¬ (a.pop (.senders p)).Queued sender := by
  have hq : (Queue.senders p).Valid := hp
  have hmem : sender ∈ a.queue (.senders p) := hl ▸ mem_cons_self
  have hpid := hwf.pids _ hq sender hmem
  have hok := h.procs sender hpid
  have hsend : a.states sender = .PRSEND := hok.sending p hp hmem
  have hgone := hwf.not_queued_pop hq hl
  refine ⟨(hwf.differs_pop hq hl).same h (fun _ => .of_not_queued hgone ?_ ?_ ?_ ?_)
    (fun c hc => hc ▸ h.affinity c) ?_ ?_, hpid, hsend, hgone⟩
  · show a.states sender ≠ _
    simp [hsend]
  · exact hok.priority
  · exact hok.placed
  · exact hok.suspended
  · simp [hsend]
  · show a.states sender ≠ _
    simp [hsend]

/-- The sender whose message is taken is on no queue any more. -/
theorem SchedInv.refill (h : a.SchedInv idle) (hwf : a.Wf) {sender : Int} {l : List Int}
    (hp : IsPid p) (hl : a.queue (.senders p) = sender :: l) :
    (a.refill p sender).SchedInv idle ∧ (a.refill p sender).Asleep sender ∧
      (a.refill p sender).states sender = .PRSEND := by
  obtain ⟨hpop, hpid, hsend, hgone⟩ := h.popSender hwf hp hl
  have hsame1 : SameSched (a.pop (.senders p)) ((a.pop (.senders p)).setPcb p
      { (a.pop (.senders p)).proctab p with
        msgin := ((a.pop (.senders p)).proctab sender).msgout }) := sameSched_setPcb rfl rfl rfl
  have hsame2 : SameSched _ (a.refill p sender) := sameSched_setPcb rfl rfl rfl
  have hstate : (a.refill p sender).states sender = .PRSEND :=
    (hsame2.states sender).trans ((hsame1.states sender).trans hsend)
  exact ⟨(hpop.congr hsame1).congr hsame2,
    ⟨hpid, by simp [hstate], by simp [hstate], by simp [hstate], hgone⟩, hstate⟩

/-! ### Birth and death -/

/-- Freeing a process that is on no queue and not current. -/
theorem SchedInv.free (h : a.SchedInv idle) (hfree : ¬ a.Queued p) (hcur : a.states p ≠ .PRCURR) :
    (a.setState p .PRFREE).SchedInv idle := by
  have hstate : (a.setState p .PRFREE).states p = .PRFREE :=
    states_setState_self
  refine differs_setState.same h (fun _ => .of_not_queued hfree ?_ ?_ ?_ ?_)
    (fun c hc => Vars.coreAffinity_setState.trans (hc ▸ h.affinity c)) hcur ?_
  · simp [hstate]
  · simp [hstate]
  · simp [hstate]
  · exact fun hs => by cases hstate.symm.trans hs
  · simp [hstate]

theorem Wf.not_queued_erase (hwf : a.Wf) : ¬ (a.erase p).Queued p := by
  rintro ⟨q, hq, hp⟩
  exact absurd rfl ((List.Nodup.mem_erase_iff (hwf.nodup q hq)).mp hp).1

theorem Wf.erase (hwf : a.Wf) : (a.erase p).Wf where
  pids q hq x hx := hwf.pids q hq x (mem_of_mem_erase hx)
  nodup q hq := (hwf.nodup q hq).erase p
  disjoint q q' hq hq' x hx hx' :=
    hwf.disjoint q q' hq hq' x (mem_of_mem_erase hx) (mem_of_mem_erase hx')

/-- Freeing a ready process, off its queue. -/
theorem SchedInv.free_ready (h : a.SchedInv idle) (hwf : a.Wf) (hready : a.states p = .PRREADY) :
    ((a.erase p).setState p .PRFREE).SchedInv idle := by
  have hstate : ((a.erase p).setState p .PRFREE).states p = .PRFREE :=
    states_setState_self
  refine (differs_erase.trans differs_setState).same h
    (fun _ => .of_not_queued hwf.not_queued_erase ?_ ?_ ?_ ?_)
    (fun c hc => Vars.coreAffinity_setState.trans (hc ▸ h.affinity c)) (by simp [hready]) ?_
  · simp [hstate]
  · simp [hstate]
  · simp [hstate]
  · exact fun hs => by cases hstate.symm.trans hs
  · simp [hstate]

/-- A process entered into a free slot. -/
theorem SchedInv.enter (h : a.SchedInv idle) {args : Vars.CreateArgs} {saddr : Ulong}
    (hfree : a.states p = .PRFREE) (hpid : IsPid p)
    (hcurr : ∀ c, a.currpid c ≠ p) (hprio : 0 ≤ args.priority.toInt ∧ args.priority.toInt < 3) :
    (a.setPcb p (Vars.newPcb (a.proctab p) args saddr)).SchedInv idle := by
  have hpcb : (a.setPcb p (Vars.newPcb (a.proctab p) args saddr)).proctab p =
      Vars.newPcb (a.proctab p) args saddr := update_self ..
  have hstate : (a.setPcb p (Vars.newPcb (a.proctab p) args saddr)).states p = .PRSUSP := by
    rw [Vars.states, hpcb]
    rfl
  have hnq := (h.procs p hpid).not_queued (by simp [hfree]) (by simp [hfree])
  refine differs_setPcb.same h (fun _ => .of_not_queued hnq ?_ ?_ ?_ ?_)
    (fun c hc => absurd hc (hcurr c)) (by simp [hfree]) ?_
  · simp [hstate]
  · intro _
    rw [hpcb]
    exact hprio
  · exact fun _ hs => absurd hstate hs
  · intro _
    rw [hpcb]
    rfl
  · simp [hstate]

end AbsKernel

end Xinu
