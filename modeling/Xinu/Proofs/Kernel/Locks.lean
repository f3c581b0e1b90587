import Xinu.Abstract.Locks
import Xinu.Proofs.Kernel.Delivery

/-!
# `Xinu.Proofs.Kernel.Locks`: a process with a mailbox lock can run

Every statement of the message calls keeps the invariant `Guarded` of the
abstract kernel that the kernel refines (`Locks.Inv`), and so do the clock
and the other calls, as long as the clock does not switch a process out
that has given up its turn and still has the lock. The main result,
`holder_of_reachable`, is that then the holder of a lock is on a core or
on a ready queue.

`recv` and `send` have such a gap: they set the state of the process
before they release the lock. `stranded_recv` is a run in which the clock
strikes there. The process is on no core and on no ready queue, and its
mailbox stays locked.
-/

namespace Xinu

open Function

open AbsKernel (Guarded Exclusive Moves Resumes SchedInv SameSched)

variable {resch : Bool} {pid : Int} {r : Syscall}

namespace Locks

variable {s s' : Locks} {a b : AbsKernel} {c : Core} {x y : Pc}

/-- The clock does not use up the quantum of a process that parts, and
`kill` spares the processes that are in a message call or blocked in
one. -/
def Masked (s : Locks) (cpuid : Core) : Action → Prop
  | .clock => (s.pc (s.self cpuid)).Parting → s.kernel.preempt cpuid ≠ 1
  | .kill pid => s.kernel.killRefuses cpuid pid = false →
      s.pc pid = .running ∧ s.kernel.states pid ≠ .PRSEND ∧ s.kernel.states pid ≠ .PRRECV
  | _ => True

instance (s : Locks) (cpuid : Core) (act : Action) : Decidable (s.Masked cpuid act) := by
  rcases act <;> dsimp only [Masked] <;> infer_instance

/-- The invariant between two statements. -/
def Inv (s : Locks) : Prop := ∃ a, Refines s.kernel a ∧ a.Guarded s.pc s.holder

theorem inv_booted (h : s.Booted) : s.Inv := by
  obtain ⟨⟨_, _, _, _, hinit⟩, hpc, hholder⟩ := h
  obtain ⟨a, hr, ha⟩ := Kernel.sysinit_refines hinit
  have hsched := ha.schedInv
  have hheld : ∀ w, (s.pc w).held w = none := fun w => by rw [hpc]; rfl
  have hnotWakes : ∀ w t, ¬ (s.pc w).Wakes t := fun w t => by rw [hpc]; exact not_false
  refine ⟨a, hr, ⟨hsched.switching_eq.symm ▸ hsched, fun c => ?_, fun c hc => ?_, fun w _ hw => ?_⟩,
    ⟨fun r w => ?_, fun w r _ hw => ?_⟩, fun p _ =>
      ⟨fun _ => hpc p, fun r hr => ?_, fun r _ hm => ?_,
      fun _ => Or.inl (hheld p), fun r hr => ?_, fun hp => ?_⟩,
    ⟨fun w t _ hw => absurd hw (hnotWakes w t), fun w _ t _ _ hw => absurd hw (hnotWakes w t),
      fun _ t _ _ _ w' _ => hnotWakes w' t, fun w t resch _ hw => ?_⟩⟩
  · simp [hsched.current c (Set.notMem_empty c)]
  · rw [hsched.switching_eq] at hc
    exact hc.elim
  · rw [hpc] at hw
    exact hw.elim
  · rw [hholder, hheld]
    simp
  · cases (hheld w).symm.trans hw
  · cases (hheld p).symm.trans hr
  · rw [ha.queue] at hm
    exact absurd hm List.not_mem_nil
  · cases (hpc p).symm.trans hr
  · cases (hpc p).symm.trans hp
  · cases (hpc w).symm.trans hw

section Steps
variable (hr : Refines s.kernel a) (h : a.Guarded s.pc s.holder)
include hr

theorem self_eq : s.self c = a.currpid c := congrFun hr.currpid c

include h

/-! ### Statements that only go on -/

/-- A process that is not leaving is current. -/
theorem current_of_pc (hx : s.pc (s.self c) = x) (hl : ¬ x.Leaving) :
    a.states (a.currpid c) = .PRCURR := by
  refine h.cores.current ?_
  rw [← self_eq hr, hx]
  exact hl

theorem inv_move {k : Kernel} {holder : Int → Option Int} (hr' : Refines k b)
    (hm : Moves a b s.pc c x y)
    (hlocks : Exclusive (update s.pc (a.currpid c) y) holder) :
    Inv ⟨k, update s.pc (s.self c) y, holder⟩ := by
  refine ⟨b, hr', ?_⟩
  show b.Guarded (update s.pc (s.self c) y) holder
  rw [self_eq hr]
  exact h.move hm hlocks

/-- A step of a process that keeps its locks. -/
theorem inv_keep {k : Kernel} (hr' : Refines k b) (hm : Moves a b s.pc c x y)
    (hheld : y.held (s.self c) = x.held (s.self c)) :
    Inv ⟨k, update s.pc (s.self c) y, s.holder⟩ := by
  refine inv_move hr h hr' hm (h.locks.congr ?_)
  rw [hm.from_, ← self_eq hr]
  exact hheld

/-- A step of a process that is current and makes no promise. -/
theorem moves_quiet (hx : s.pc (s.self c) = x) (hl : ¬ x.Leaving) (hq : x.Quiet y)
    (hsame : SameSched a b) (hmsg : ∀ t, a.states t ≠ .PRCURR → (a.proctab t).hasMessage = true →
      (b.proctab t).hasMessage = true) : Moves a b s.pc c x y := by
  have hcur := current_of_pc hr h hx hl
  exact .of_quiet (self_eq hr ▸ hx) hq hsame hmsg fun hnot => absurd hcur hnot

/-- A test, or the start of a call. -/
theorem inv_goto (hx : s.pc (s.self c) = x) (hl : ¬ x.Leaving) (hy : y.Plain)
    (hheld : y.held (s.self c) = x.held (s.self c)) : Inv (s.goto (s.self c) y) :=
  inv_keep hr h hr (moves_quiet hr h hx hl hy.quiet
    ⟨rfl, rfl, fun _ => rfl, fun _ => rfl, fun _ => rfl⟩ fun _ _ hm => hm) hheld

omit hr h in
/-- A test, with what follows either way. -/
theorem inv_test {q : Prop} [Decidable q] {s1 s2 : Locks}
    (hrun : (if q then .ok s1 else .ok s2 : Except Fault Locks) = .ok s') (h1 : q → s1.Inv)
    (h2 : ¬ q → s2.Inv) : s'.Inv := by
  split at hrun <;> rename_i hq <;> obtain rfl := Except.ok.inj hrun
  · exact h1 hq
  · exact h2 hq

/-- A test between two plain statements. -/
theorem inv_branch {q : Prop} [Decidable q] {z : Pc} (hx : s.pc (s.self c) = x)
    (hl : ¬ x.Leaving)
    (hrun : (if q then .ok (s.goto (s.self c) y) else .ok (s.goto (s.self c) z) :
      Except Fault Locks) = .ok s')
    (hy : y.Plain) (hyheld : y.held (s.self c) = x.held (s.self c))
    (hz : z.Plain) (hzheld : z.held (s.self c) = x.held (s.self c)) : s'.Inv :=
  inv_test hrun (fun _ => inv_goto hr h hx hl hy hyheld) fun _ => inv_goto hr h hx hl hz hzheld

/-- A write to the message fields of slot `pid`. Only the process itself
clears its flag. -/
theorem inv_write {p : Pcb} (hx : s.pc (s.self c) = x) (hl : ¬ x.Leaving)
    (hq : x.Quiet y) (hheld : y.held (s.self c) = x.held (s.self c))
    (hfields : p.state = (s.kernel.proctab pid).state ∧
      p.coreAffinity = (s.kernel.proctab pid).coreAffinity ∧
      p.priority = (s.kernel.proctab pid).priority ∧ p.msgqueue = (s.kernel.proctab pid).msgqueue)
    (hflag : pid = s.self c ∨ p.hasMessage = (s.kernel.proctab pid).hasMessage) :
    Inv (s.write (s.self c) pid p y) := by
  rw [hr.proctab] at hfields hflag
  obtain ⟨hstate, haff, hprio, hqueue⟩ := hfields
  have hcur := current_of_pc hr h hx hl
  refine inv_keep hr h (hr.setPcb hqueue) (moves_quiet hr h hx hl hq
    (AbsKernel.sameSched_setPcb hstate haff hprio) fun t ht hm => ?_) hheld
  show (update a.proctab pid p t).hasMessage = true
  by_cases htp : t = pid
  · subst htp
    rw [update_self]
    rcases hflag with hself | hsame
    · exact absurd ((hself.trans (self_eq hr)) ▸ hcur) ht
    · exact hsame.trans hm
  · rwa [update_of_ne htp]

/-- `lock_acquire` takes a lock that is free, and spins otherwise. -/
theorem inv_acquire {lock : Int} (hlock : IsPid lock) (hx : s.pc (s.self c) = x) (hl : ¬ x.Leaving)
    (hy : y.Plain) (hnone : ∀ w, x.held w = none) (hheld : y.held (s.self c) = some lock) :
    Inv (s.acquire (s.self c) lock y) := by
  unfold acquire
  cases hholder : s.holder lock with
  | some w => exact ⟨a, hr, h⟩
  | none =>
    have hm : Moves a a s.pc c x y := moves_quiet hr h hx hl hy.quiet
      ⟨rfl, rfl, fun _ => rfl, fun _ => rfl, fun _ => rfl⟩ fun _ _ hm => hm
    rw [self_eq hr] at hheld
    have hfrom : (s.pc (a.currpid c)).held (a.currpid c) = none := by
      rw [hm.from_]
      exact hnone _
    have hlocks := h.locks.acquire (h.cores.sched.pid c) hlock hholder hfrom hheld
    rw [← self_eq hr] at hlocks
    exact inv_move hr h hr hm (self_eq hr ▸ hlocks)

/-- `lock_release`, by a process that is current or goes on to leave. -/
theorem inv_unlock {lock : Int} (hx : s.pc (s.self c) = x) (hheld : x.held (s.self c) = some lock)
    (hq : x.Quiet y) (hl : x.Leaving → y.Leaving) (hnone : ∀ w, y.held w = none) :
    Inv (s.unlock (s.self c) lock y) := by
  rw [self_eq hr] at hx hheld
  have hm : Moves a a s.pc c x y := by
    refine .of_quiet hx hq ⟨rfl, rfl, fun _ => rfl, fun _ => rfl, fun _ => rfl⟩
      (fun _ _ hm => hm) fun hnot => ⟨hl ?_, Or.inl (hnone _)⟩
    rw [← hx]
    exact h.cores.leaving c hnot
  have hlocks := h.locks.release (h.cores.sched.pid c) (hx ▸ hheld) (hnone _)
  rw [← self_eq hr] at hlocks
  exact inv_move hr h hr hm (self_eq hr ▸ hlocks)

/-! ### Delivering a message -/

/-- The mailbox is empty, so nobody is about to wake its owner. -/
theorem inv_deliver {pid msg : Int} (hx : s.pc (s.self c) = x) (hl : ¬ x.Leaving)
    (hheld : x.held (s.self c) = some pid) (hempty : (s.kernel.proctab pid).hasMessage = false) :
    Inv (s.goto (s.self c) (.deposit pid msg resch)) := by
  have hcur := current_of_pc hr h hx hl
  rw [hr.proctab] at hempty
  refine inv_keep hr h hr (b := a) (x := x) ⟨⟨rfl, rfl, fun _ => rfl, fun _ => rfl, fun _ => rfl⟩,
    fun _ _ hm => hm, self_eq hr ▸ hx, fun hnot => absurd hcur hnot, nofun, nofun, nofun,
    fun t hwake => hwake.elim, fun t hdel => Or.inr ?_⟩ hheld.symm
  obtain rfl : pid = t := hdel
  intro hs w hw hwake
  rcases (h.wakes.target w pid hw hwake).state with hsend | ⟨-, hfull⟩
  · cases hs.symm.trans hsend
  · cases hempty.symm.trans hfull

/-- `hasMessage = TRUE`. -/
theorem inv_raise (hx : s.pc (s.self c) = .raise pid resch) :
    Inv (s.write (s.self c) pid { s.kernel.proctab pid with hasMessage := true }
      (.waiting pid resch)) := by
  have hcur := current_of_pc hr h hx not_false
  rw [hr.proctab]
  refine inv_keep hr h (hr.setPcb rfl) (x := .raise pid resch)
    ⟨AbsKernel.sameSched_setPcb rfl rfl rfl,
    fun t _ hm => ?_, self_eq hr ▸ hx, fun hnot => absurd hcur hnot, nofun, nofun, ?_,
    fun t hwake => hwake.elim, fun t hdel => Or.inl hdel⟩ rfl
  · show (update a.proctab pid _ t).hasMessage = true
    by_cases htp : t = pid
    · rw [htp, update_self]
    · rwa [update_of_ne htp]
  · rintro t _ ⟨rfl, rfl⟩
    show (update a.proctab pid _ pid).hasMessage = true
    rw [update_self]

/-- The owner of the mailbox waits: it will be woken, by this process
alone. -/
theorem inv_waiting (hx : s.pc (s.self c) = .waiting pid resch)
    (hwait : (s.kernel.proctab pid).state = .PRRECV) :
    Inv (s.goto (s.self c) (.wakeRelease pid pid resch)) := by
  have hcur := current_of_pc hr h hx not_false
  rw [hr.proctab] at hwait
  have hs : a.states pid = .PRRECV := hwait
  have hself := h.cores.sched.pid c
  have hfrom : s.pc (a.currpid c) = .waiting pid resch := self_eq hr ▸ hx
  have hheld : (s.pc (a.currpid c)).held (a.currpid c) = some pid := by rw [hfrom]; rfl
  have hdel : (s.pc (a.currpid c)).Delivers pid := by rw [hfrom]; exact rfl
  have hpid := h.locks.lockPid _ _ hself hheld
  have hsleeper : a.Sleeper s.pc pid := by
    refine ⟨hpid, ?_, fun r hr' hm => ?_, Or.inr ⟨hs, h.wakes.raised _ pid resch hself hfrom hs⟩⟩
    · -- The owner could only hold its own lock, which this process has.
      rcases (h.procs pid hpid).receiving hs with hnone | hown
      · exact hnone
      · have heq := h.locks.unique hself hpid hheld hown
        cases hs.symm.trans (heq ▸ hcur)
    · cases hs.symm.trans ((h.cores.sched.procs pid hpid).sending r hr' hm)
  refine inv_keep hr h hr (b := a) (x := .waiting pid resch)
    ⟨⟨rfl, rfl, fun _ => rfl, fun _ => rfl, fun _ => rfl⟩, fun _ _ hm => hm, hfrom,
      fun hnot => absurd hcur hnot, nofun, nofun, nofun, fun t hwake => Or.inr ?_,
      fun t hdel => hdel.elim⟩ rfl
  obtain rfl : pid = t := hwake
  refine ⟨hsleeper, fun w hw hne => ⟨h.wakes.delivering _ pid hself hdel hs w hw, fun hdel' => ?_⟩⟩
  exact hne (h.locks.unique hw hself hdel'.held hheld)

/-! ### The state and the queue of a process -/

/-- `send` and `recv` give up the turn of the process. -/
theorem inv_block {st : PrState} (hx : s.pc (s.self c) = x) (hl : ¬ x.Leaving)
    (hy : st = .PRRECV ∧ y = .recvRelease ∨ st = .PRSEND ∧ ∃ r, y = .sendEnqueue r)
    (hheld : y.held (s.self c) = x.held (s.self c)) :
    Inv (s.write (s.self c) (s.self c) { s.kernel.proctab (s.self c) with state := st } y) := by
  have hcur := current_of_pc hr h hx hl
  have hr' := hr.setPcb (p := a.currpid c) (x := { a.proctab (a.currpid c) with state := st }) rfl
  rw [hr.proctab, self_eq hr] at *
  refine ⟨_, hr', ?_⟩
  show (a.setState (a.currpid c) st).Guarded (update s.pc (a.currpid c) y) s.holder
  exact h.block hcur hy (by rw [hx]; exact hheld)

theorem inv_enqueue {k : Kernel} (hx : s.pc (s.self c) = .sendEnqueue pid)
    (hrun : s.kernel.enqueue (s.self c) (s.kernel.proctab pid).msgqueue = .ok k) :
    Inv { s.goto (s.self c) (.sendRelease pid) with kernel := k } := by
  have hself := h.cores.sched.pid c
  have hfrom : s.pc (a.currpid c) = .sendEnqueue pid := self_eq hr ▸ hx
  have hpid : IsPid pid := h.locks.lockPid _ _ hself (by rw [hfrom]; rfl)
  obtain ⟨hs, hfree⟩ := (h.procs _ hself).enqueuing pid hfrom
  obtain ⟨k', hk', hr'⟩ := hr.enqueue (q := .senders pid) hpid
    (isbadpid_eq_false.mpr ⟨hself, by simp [hs]⟩) hfree
  rw [hr.proctab, hr.msgIds pid hpid, self_eq hr, hk'] at hrun
  cases hrun
  refine ⟨_, hr', ?_⟩
  show AbsKernel.Guarded _ (update s.pc (s.self c) _) s.holder
  rw [self_eq hr]
  exact h.enqueue hfrom

/-- The queue is not empty, and stays so while the process has its
lock. -/
theorem inv_nonempty (hx : s.pc (s.self c) = .recvNonempty)
    (hne : a.queue (.senders (a.currpid c)) ≠ []) : Inv (s.goto (s.self c) .recvDequeue) := by
  have hcur := current_of_pc hr h hx not_false
  exact inv_keep hr h hr (b := a) (x := .recvNonempty)
    ⟨⟨rfl, rfl, fun _ => rfl, fun _ => rfl, fun _ => rfl⟩, fun _ _ hm => hm, self_eq hr ▸ hx,
      fun hnot => absurd hcur hnot, nofun, fun _ => hne, nofun, fun t hwake => hwake.elim,
      fun t hdel => hdel.elim⟩ rfl

theorem inv_dequeue {senderpid : Int} {k : Kernel} (hx : s.pc (s.self c) = .recvDequeue)
    (hrun : s.kernel.dequeue (s.kernel.proctab (s.self c)).msgqueue = .ok (senderpid, k)) :
    Inv { s.goto (s.self c) (.recvRefill senderpid) with kernel := k } := by
  have hcur := current_of_pc hr h hx not_false
  have hself := h.cores.sched.pid c
  have hfrom : s.pc (a.currpid c) = .recvDequeue := self_eq hr ▸ hx
  obtain ⟨k', hk', hr'⟩ := hr.dequeue (q := .senders (a.currpid c)) hself
  rw [hr.proctab, self_eq hr, hr.msgIds _ hself, hk'] at hrun
  obtain ⟨hpid, rfl⟩ := ok_pair hrun
  cases hl : a.queue (.senders (a.currpid c)) with
  | nil => exact absurd hl ((h.procs _ hself).dequeuing hfrom)
  | cons t l =>
    rw [hl] at hpid
    obtain rfl : t = senderpid := hpid
    refine ⟨_, hr', ?_⟩
    show AbsKernel.Guarded _ (update s.pc (s.self c) _) s.holder
    rw [self_eq hr]
    exact h.dequeue hcur hr.wf hfrom hl

/-! ### Switching and waking -/

/-- `resched` at the end of `send`, and before `recv` takes its
message. -/
theorem inv_resched {k : Kernel} (hx : s.pc (s.self c) = x) (hpart : ¬ x.Parting)
    (hnone : ∀ w, x.held w = none) (hy : y = .running ∨ y = .recvReacquire)
    (hrun : s.kernel.resched c = .ok k) : Inv { s.goto (s.self c) y with kernel := k } := by
  obtain ⟨b, hb, hr'⟩ := (hr.resched (h.cores.sched.canResched hr.wf c)).of_ok hrun
  rw [self_eq hr] at hx
  refine ⟨b, hr', ?_⟩
  show b.Guarded (update s.pc (s.self c) y) s.holder
  rw [self_eq hr]
  refine h.resched hr.wf hb (Resumes.update hy ?_) (hx ▸ hpart)
  rw [hx]
  exact hnone _

/-- `resched` from outside the message calls. -/
theorem inv_switch {k : Kernel} (hpart : ¬ (s.pc (s.self c)).Parting)
    (hrun : s.kernel.resched c = .ok k) : Inv { s with kernel := k } := by
  obtain ⟨b, hb, hr'⟩ := (hr.resched (h.cores.sched.canResched hr.wf c)).of_ok hrun
  rw [self_eq hr] at hpart
  exact ⟨b, hr', h.resched hr.wf hb (.refl hpart) hpart⟩

/-- The clock, when it does not use up the quantum of a parting
process. -/
theorem inv_clock {k : Kernel} (hmask : s.Masked c .clock)
    (hrun : s.kernel.clkhandler c = .ok k) : Inv { s with kernel := k } := by
  have hr' := hr.mapVars (fun v => { v with preempt := update v.preempt c (v.preempt c - 1) })
    fun _ _ => rfl
  have h' : AbsKernel.Guarded { a with
      preempt := update a.preempt c (a.preempt c - 1) } s.pc s.holder := h.congr rfl rfl rfl
  rw [Kernel.clkhandler] at hrun
  simp only [update_self] at hrun
  split at hrun
  · rename_i hzero
    refine inv_switch (s := { s with kernel := _ }) hr' h' (fun hpart => hmask hpart ?_) hrun
    -- The counter is unsigned, so it is used up at zero only.
    have hz : (s.kernel.preempt c - 1).toNat ≤ 0 := hzero
    have hone : (1 : Ulong).toNat = 1 := rfl
    apply BitVec.eq_of_toNat_eq
    rw [BitVec.toNat_sub] at hz
    omega
  · cases hrun
    exact ⟨_, hr', h'⟩

omit h in
/-- `ready` ends with the process on a ready queue, and a switch
perhaps. -/
theorem ready_guarded {k : Kernel} {t : Int} {core : Ulong}
    {pc : Int → Pc} {idle : Set Core} (hsched : a.SchedInv idle) (ht : a.Asleep t)
    (hcore : a.states t = .PRSUSP → IsCore core.toInt)
    (hwake : (a.wake t core).Guarded pc s.holder) (hpart : ¬ (pc (a.currpid c)).Parting)
    (hrun : s.kernel.ready c t resch core = .ok (r, k)) :
    Inv { s with kernel := k, pc := pc } := by
  have hwf : (a.wake t core).Wf := hr.wf.wake ht
  have hcurr : (a.wake t core).currpid = a.currpid := Vars.makeReady_currpid
  obtain ⟨b, hb, hr'⟩ := (hr.ready c resch (hsched.canWake core ht hcore)
    fun _ _ => hwake.cores.sched.canResched hwf c).of_ok (map_snd_of_ok hrun)
  unfold AbsKernel.ready at hb
  simp only at hb
  split at hb
  · rw [← hcurr] at hpart
    exact ⟨b, hr', hwake.resched hwf hb (.refl hpart) hpart⟩
  · cases hb
    exact ⟨_, hr', hwake⟩

/-- The `ready` at the end of a message call. -/
theorem inv_ready {k : Kernel} {t : Int} {core : Ulong}
    (hx : s.pc (s.self c) = .ready t resch) (hrun : s.kernel.ready c t resch core = .ok (r, k)) :
    Inv { s.goto (s.self c) .running with kernel := k } := by
  have hcur := current_of_pc hr h hx not_false
  have hself := h.cores.sched.pid c
  have hfrom : s.pc (a.currpid c) = .ready t resch := self_eq hr ▸ hx
  have hwakes : (s.pc (a.currpid c)).Wakes t := by rw [hfrom]; exact rfl
  have hsleep := h.wakes.target _ t hself hwakes
  obtain ⟨hasleep, hsusp⟩ := hsleep.asleep h.cores.sched
  have hcore : a.states t = .PRSUSP → IsCore core.toInt := fun hs => absurd hs hsusp
  have hres : Resumes a s.pc (update s.pc (a.currpid c) .running) c :=
    .update (Or.inl rfl) (by rw [hfrom]; rfl)
  show Inv { s with kernel := k, pc := update s.pc (s.self c) .running }
  rw [self_eq hr]
  refine ready_guarded hr h.cores.sched hasleep hcore (h.wake hasleep hres hcur hcore ?_ ?_)
    hres.notParting hrun
  · intro r hr'
    have hunl := hsleep.unlocked
    rw [hr'] at hunl
    cases hunl
  · intro w hw hwake
    by_cases hwc : w = a.currpid c
    · rw [hwc, update_self] at hwake
      exact hwake
    · rw [update_of_ne hwc] at hwake
      exact hwc (h.wakes.distinct w _ t hw hself hwake hwakes)

/-- `ready` of a suspended process. -/
theorem inv_start {k : Kernel} {t : Int} {core : Ulong}
    (hx : s.pc (s.self c) = .running) (ht : IsPid t) (hsusp : a.states t = .PRSUSP)
    (hcore : core.toNat < NCORES) (hrun : s.kernel.ready c t resch core = .ok (r, k)) :
    Inv { s with kernel := k } := by
  have hcur := current_of_pc hr h hx not_false
  have hpart : ¬ (s.pc (a.currpid c)).Parting := by
    rw [← self_eq hr, hx]
    exact not_false
  obtain ⟨hasleep, hint⟩ := h.cores.sched.asleep_of_suspended ht hsusp hcore
  refine ready_guarded hr h.cores.sched hasleep (fun _ => hint)
    (h.wake hasleep (.refl hpart) hcur (fun _ => hint) ?_ ?_) hpart hrun
  · intro r hr'
    cases hsusp.symm.trans ((h.procs t ht).enqueuing r hr').1
  · intro w hw hwake
    exact ((h.wakes.target w t hw hwake).asleep h.cores.sched).2 hsusp

/-! ### `create` and `kill` -/

theorem inv_create {k : Kernel} {args : Vars.CreateArgs} {r : Option Int}
    (hprio : (args.priority.toNat : Int) ≤ PRIORITY_HIGH)
    (hrun : s.kernel.create c args = .ok (r, k)) : Inv { s with kernel := k } := by
  obtain ⟨b, hr', hinv, hb⟩ := hr.create_ends h.cores.sched h.cores.live hprio hrun
  rcases hb with ⟨-, hsame⟩ | ⟨pid, saddr, -, hpid, hfree, hent⟩
  · exact ⟨b, hr', h.congr hsame.proctab hsame.currpid hsame.queue⟩
  · exact ⟨b, hr', h.entered hpid hfree hent hinv⟩

theorem inv_kill {k : Kernel} (hx : s.pc (s.self c) = .running)
    (hmask : s.Masked c (.kill pid)) (hrun : s.kernel.kill c pid = .ok (r, k)) :
    Inv { s with kernel := k } := by
  have hleave : ¬ (s.pc (a.currpid c)).Leaving := by
    rw [← self_eq hr, hx]
    exact not_false
  have hspare : a.killRefuses c pid = false →
      s.pc pid = .running ∧ a.states pid ≠ .PRSEND ∧ a.states pid ≠ .PRRECV := by
    intro href
    rw [← hr.states]
    exact hmask (by rw [hr.vars, href])
  rcases hr.kill_ends h.cores.sched (fun hm => hleave (h.cores.leaving c hm))
      (fun href => (hspare href).2.1) hrun with
    ⟨-, rfl, -⟩ | ⟨-, href, b, hr', hinv, hkilled, -, hcurr, -⟩
  · exact ⟨a, hr, h⟩
  · obtain ⟨hpc, hsend, hrecv⟩ := hspare href
    obtain ⟨-, -, haff⟩ := Vars.killRefuses_eq_false.mp href
    exact ⟨b, hr', h.killed hkilled hinv hcurr haff hpc hsend hrecv hleave⟩

/-! ### Every step, every run -/

/-- The next statement of the process of core `c`. -/
theorem inv_proceed (hrun : s.proceed c = .ok s') : s'.Inv := by
  -- One case for each statement, in the order of `Pc`. Each is an instance of one of the
  -- few kinds of statements above.
  unfold proceed at hrun
  simp only at hrun
  cases hx : s.pc (s.self c) <;> simp only [hx] at hrun
  case running =>
    cases hrun
    exact ⟨a, hr, h⟩
  case sendBadpid pid msg =>
    exact inv_branch hr h hx not_false hrun trivial rfl trivial rfl
  case sendAcquire pid msg =>
    obtain ⟨p, hp, hrest⟩ := bind_eq_ok hrun
    cases hrest
    exact inv_acquire hr h (isPid_of_pcb hp) hx not_false trivial
      (fun _ => rfl) rfl
  case sendFree pid msg =>
    exact inv_branch hr h hx not_false hrun trivial rfl trivial rfl
  case sendFull pid msg =>
    refine inv_test hrun (fun _ => ?_) fun hempty => ?_
    · exact inv_goto hr h hx not_false trivial rfl
    · exact inv_deliver hr h hx not_false rfl (Bool.eq_false_of_not_eq_true hempty)
  case sendMsgout pid msg =>
    cases hrun
    exact inv_write hr h hx not_false (Pc.Plain.quiet trivial) rfl
      ⟨rfl, rfl, rfl, rfl⟩ (Or.inl rfl)
  case sendState pid =>
    cases hrun
    exact inv_block hr h hx not_false (Or.inr ⟨rfl, pid, rfl⟩) rfl
  case sendEnqueue pid =>
    obtain ⟨k, hk, hrest⟩ := bind_eq_ok hrun
    cases hrest
    exact inv_enqueue hr h hx hk
  case sendRelease pid =>
    cases hrun
    exact inv_unlock hr h hx rfl (Pc.Plain.quiet trivial) id fun _ => rfl
  case sendResched =>
    obtain ⟨k, hk, hrest⟩ := bind_eq_ok hrun
    cases hrest
    exact inv_resched hr h hx not_false (fun _ => rfl) (Or.inl rfl) hk
  -- `sendnow` takes the lock before it tests the process, `send` after it.
  case sendnowAcquire pid msg =>
    obtain ⟨p, hp, hrest⟩ := bind_eq_ok hrun
    cases hrest
    exact inv_acquire hr h (isPid_of_pcb hp) hx not_false trivial
      (fun _ => rfl) rfl
  case sendnowBadpid pid msg =>
    exact inv_branch hr h hx not_false hrun trivial rfl trivial rfl
  case sendnowFull pid msg =>
    refine inv_test hrun (fun _ => ?_) fun hempty => ?_
    · exact inv_goto hr h hx not_false trivial rfl
    · exact inv_deliver hr h hx not_false rfl
        (Bool.eq_false_of_not_eq_true fun hmsg => hempty (Or.inr hmsg))
  -- The end of `send` and `sendnow` at an empty mailbox.
  case deposit pid msg resch =>
    cases hrun
    exact inv_write hr h hx not_false ⟨nofun, nofun, nofun, nofun, fun _ hdel => hdel⟩ rfl
      ⟨rfl, rfl, rfl, rfl⟩ (Or.inr rfl)
  case raise pid resch =>
    cases hrun
    exact inv_raise hr h hx
  case waiting pid resch =>
    refine inv_test hrun (fun hwait => ?_) fun _ => ?_
    · exact inv_waiting hr h hx hwait
    · exact inv_goto hr h hx not_false trivial rfl
  case recvAcquire =>
    cases hrun
    exact inv_acquire hr h (self_eq hr ▸ h.cores.sched.pid c) hx not_false
      trivial (fun _ => rfl) rfl
  case recvEmpty =>
    exact inv_branch hr h hx not_false hrun trivial rfl trivial rfl
  case recvState =>
    cases hrun
    exact inv_block hr h hx not_false (Or.inl ⟨rfl, rfl⟩) rfl
  case recvRelease =>
    cases hrun
    exact inv_unlock hr h hx rfl (Pc.Plain.quiet trivial) id fun _ => rfl
  case recvResched =>
    obtain ⟨k, hk, hrest⟩ := bind_eq_ok hrun
    cases hrest
    exact inv_resched hr h hx not_false (fun _ => rfl) (Or.inr rfl) hk
  case recvReacquire =>
    cases hrun
    exact inv_acquire hr h (self_eq hr ▸ h.cores.sched.pid c) hx not_false
      trivial (fun _ => rfl) rfl
  case recvTake =>
    cases hrun
    exact inv_goto hr h hx not_false trivial rfl
  -- The senders that wait are the members of the process's own queue.
  case recvNonempty =>
    have hpid := h.cores.sched.pid c
    have hne : s.kernel.queues.nonempty (s.kernel.proctab (s.self c)).msgqueue =
        .ok (!(a.queue (.senders (a.currpid c))).isEmpty) := by
      rw [hr.proctab, self_eq hr, hr.msgIds _ hpid]
      exact hr.nonempty hpid
    simp only [hne, ok_bind] at hrun
    refine inv_test hrun (fun hne => ?_) fun _ => ?_
    · refine inv_nonempty hr h hx fun hnil => ?_
      rw [hnil] at hne
      cases hne
    · exact inv_goto hr h hx not_false trivial rfl
  case recvDequeue =>
    obtain ⟨⟨senderpid, k⟩, hk, hrest⟩ := bind_eq_ok hrun
    cases hrest
    exact inv_dequeue hr h hx hk
  case recvRefill senderpid =>
    cases hrun
    exact inv_write hr h hx not_false ⟨nofun, nofun, nofun, fun _ hwake => hwake, nofun⟩
      rfl ⟨rfl, rfl, rfl, rfl⟩ (Or.inl rfl)
  case recvClear senderpid =>
    cases hrun
    exact inv_write hr h hx not_false ⟨nofun, nofun, nofun, fun _ hwake => hwake, nofun⟩
      rfl ⟨rfl, rfl, rfl, rfl⟩ (Or.inr rfl)
  case recvnowAcquire =>
    cases hrun
    exact inv_acquire hr h (self_eq hr ▸ h.cores.sched.pid c) hx not_false
      trivial (fun _ => rfl) rfl
  case recvnowEmpty =>
    exact inv_branch hr h hx not_false hrun trivial rfl trivial rfl
  case recvnowTake =>
    cases hrun
    exact inv_goto hr h hx not_false trivial rfl
  case lower =>
    cases hrun
    exact inv_write hr h hx not_false (Pc.Plain.quiet trivial) rfl
      ⟨rfl, rfl, rfl, rfl⟩ (Or.inl rfl)
  case wakeRelease lock pid resch =>
    cases hrun
    exact inv_unlock hr h hx rfl ⟨nofun, nofun, nofun, fun _ hwake => hwake, nofun⟩
      (fun hl => hl.elim) fun _ => rfl
  case ready pid resch =>
    obtain ⟨⟨r, k⟩, hk, hrest⟩ := bind_eq_ok hrun
    cases hrest
    exact inv_ready hr h hx hk
  case release lock =>
    cases hrun
    exact inv_unlock hr h hx rfl (Pc.Plain.quiet trivial) (fun hl => hl.elim) fun _ => rfl

end Steps

/-- Every step keeps the invariant. -/
theorem inv_exec {act : Action} (hinv : s.Inv) (hperm : s.Permitted c act) (hmask : s.Masked c act)
    (hrun : s.exec c act = .ok s') : s'.Inv := by
  obtain ⟨a, hr, h⟩ := hinv
  cases act with
  | create args =>
    obtain ⟨⟨r, k⟩, hk, hrest⟩ := bind_eq_ok hrun
    cases hrest
    exact inv_create hr h hperm.2 hk
  | ready pid resch core =>
    obtain ⟨⟨r, k⟩, hk, hrest⟩ := bind_eq_ok hrun
    cases hrest
    obtain ⟨hx, hpid, hsusp, hcore⟩ := hperm
    exact inv_start hr h hx hpid (hr.states ▸ hsusp) hcore hk
  | resched =>
    obtain ⟨k, hk, hrest⟩ := bind_eq_ok hrun
    cases hrest
    have hx : s.pc (s.self c) = .running := hperm
    exact inv_switch hr h (by rw [hx]; exact not_false) hk
  | kill pid =>
    obtain ⟨⟨r, k⟩, hk, hrest⟩ := bind_eq_ok hrun
    cases hrest
    exact inv_kill hr h hperm hmask hk
  | send pid msg =>
    cases hrun
    exact inv_goto hr h hperm not_false trivial rfl
  | sendnow pid msg =>
    cases hrun
    exact inv_goto hr h hperm not_false trivial rfl
  | recv =>
    cases hrun
    exact inv_goto hr h hperm not_false trivial rfl
  | recvnow =>
    cases hrun
    exact inv_goto hr h hperm not_false trivial rfl
  | proceed => exact inv_proceed hr h hrun
  | clock =>
    obtain ⟨k, hk, hrest⟩ := bind_eq_ok hrun
    cases hrest
    exact inv_clock hr h hmask hk

theorem inv_of_reachable (h : Reachable Masked s) : s.Inv := by
  refine Lib.Reaches.induction h (fun _ hs => inv_booted hs) ?_
  intro s act s' hinv hperm hrun
  exact inv_exec hinv hperm.1 hperm.2 hrun

/-- The process is on a core or on a ready queue. -/
def CanRun (s : Locks) (p : Int) : Prop :=
  (∃ c, s.kernel.currpid c = p) ∨
    ∃ c : Core, ∃ i : Int, (0 ≤ i ∧ i < 3) ∧ p ∈ s.kernel.readyMembers c i

instance (s : Locks) (p : Int) : Decidable (s.CanRun p) := by
  refine decidable_of_iff ((∃ c, s.kernel.currpid c = p) ∨
    ∃ c : Core, ∃ i : Fin 3, p ∈ s.kernel.readyMembers c i) (or_congr_right ?_)
  constructor
  · rintro ⟨c, i, hmem⟩
    exact ⟨c, i, by omega, hmem⟩
  · rintro ⟨c, i, hi, hmem⟩
    refine ⟨c, ⟨i.toNat, by omega⟩, ?_⟩
    rwa [show ((⟨i.toNat, by omega⟩ : Fin 3) : Int) = i from Int.toNat_of_nonneg hi.1]

end Locks

/-- As long as no process is switched out between giving up its turn and
releasing the lock, who holds a mailbox lock is on a core or on a ready
queue. -/
theorem holder_of_reachable {s : Locks} (h : Locks.Reachable Locks.Masked s) {r p : Int}
    (hheld : s.holder r = some p) : s.CanRun p := by
  obtain ⟨a, hr, ha⟩ := Locks.inv_of_reachable h
  have hpid := ((ha.locks.holds r p).mp hheld).1
  rcases ha.active_or_current hheld with hact | ⟨c, hc⟩
  · have hok := ha.cores.sched.procs p hpid
    rcases hact with hcur | hready
    · obtain ⟨c, -, hc⟩ := ha.cores.sched.currentOnly p hpid hcur
      exact Or.inl ⟨c, by rw [hr.currpid, hc]⟩
    · have hplaced := hok.placed (by simp [hready]) (by simp [hready])
      obtain ⟨c, hc⟩ := exists_core hplaced
      obtain ⟨i, hi, hmem⟩ := hok.ready_queued hready
      exact Or.inr ⟨c, i, hi, by rwa [hr.readyMembers hi, hc]⟩
  · exact Or.inl ⟨c, by rw [hr.currpid, hc]⟩

/-- Process 4 runs on core 0 and calls `recv`, and process 5 is ready.
The process is at the first statement of the call. -/
def recvRun : List (Core × Locks.Action) :=
  [(0, .create highPriority), (0, .create highPriority), (0, .ready 5 false 0),
    (0, .ready 4 true 0), (0, .resched), (0, .recv)]

/-- The clock switches process 4 out while it looks into its mailbox: it
holds the lock, and is ready. -/
theorem holder_recvRun : ∃ s : Locks, Locks.Reachable Locks.Masked s ∧ s.holder 4 = some 4 ∧
    s.kernel.states 4 = .PRREADY ∧ s.CanRun 4 := by
  obtain ⟨s, hs, htest⟩ := Locks.exists_reachable Locks.Masked 0x10000 0x90000 0x8000 (fun _ => 0)
    (recvRun ++ (0, .proceed) :: List.replicate 3 (0, .clock))
    (fun s => decide (s.holder 4 = some 4 ∧ s.kernel.states 4 = .PRREADY)) (by decide +kernel)
  obtain ⟨hheld, hready⟩ := of_decide_eq_true htest
  exact ⟨s, hs, hheld, hready, holder_of_reachable hs hheld⟩

/-- The clock switches process 4 out after `recv` has set its state and
before it releases the lock. The process is on no core and on no ready
queue, and its mailbox stays locked. -/
theorem stranded_recv : ∃ s : Locks, Locks.Reachable (fun _ _ _ => True) s ∧
    s.holder 4 = some 4 ∧ s.kernel.states 4 = .PRRECV ∧ ¬ s.CanRun 4 := by
  obtain ⟨s, hs, htest⟩ := Locks.exists_reachable (fun _ _ _ => True) 0x10000 0x90000 0x8000
    (fun _ => 0) (recvRun ++ List.replicate 3 (0, .proceed) ++ List.replicate 3 (0, .clock))
    (fun s => decide (s.holder 4 = some 4 ∧ s.kernel.states 4 = .PRRECV ∧ ¬ s.CanRun 4))
    (by decide +kernel)
  exact ⟨s, hs, of_decide_eq_true htest⟩

end Xinu
