import Xinu.Abstract.Delivery
import Xinu.Proofs.Kernel.Mailbox

/-!
# `Xinu.Proofs.Kernel.Delivery`: messages arrive once and in order

Every step of the cores keeps the invariant `Delivery` of the abstract
kernel that the kernel refines (`Smp.Inv`). The main result,
`delivered_of_reachable`, is about any interleaving of the locked
sections of `send`, `sendnow` and `recv` on any cores, with the clock
switching processes in between: a live process has taken a first part of
the messages that were accepted for it, in order, and the rest is in its
mailbox and with the senders blocked on it.
-/

namespace Xinu

open Function

open AbsKernel (Delivery SchedInv)

variable {k : Kernel} {r : Syscall}

/-- The messages that a process has not taken yet: the one in its
mailbox, then those of the senders blocked on it. -/
def Kernel.undelivered (k : Kernel) (r : Int) : List Int :=
  (if (k.proctab r).hasMessage then [(k.proctab r).msgin] else []) ++
    (k.senders r).map fun q => (k.proctab q).msgout

namespace Smp

variable {s s' : Smp} {a : AbsKernel} {c : Core}

/-- The invariant of the cores. -/
def Inv (s : Smp) : Prop := ∃ a, Refines s.kernel a ∧ a.Delivery s.point s.accepted s.delivered

theorem inv_booted (h : s.Booted) : s.Inv := by
  obtain ⟨⟨_, _, _, _, hinit⟩, hpoint, hacc, hdel⟩ := h
  obtain ⟨a, hr, ha⟩ := Kernel.sysinit_refines hinit
  refine ⟨a, hr, .of_schedInv ha.schedInv (fun c hc => hc.elim) ?_, ⟨?_, ?_⟩, ?_⟩
  · intro c
    simp [ha.schedInv.current c (Set.notMem_empty c)]
  · intro w t resch _ hp
    rw [hpoint] at hp
    cases hp
  · intro w w' t resch resch' _ _ hp
    rw [hpoint] at hp
    cases hp
  · intro p hp
    refine ⟨fun _ => ha.queue _, fun hs => absurd (ha.queue _) hs, fun hx => ?_, fun hs => ?_⟩
    · rw [hpoint] at hx
      exact hx.elim
    · -- Only the null processes are live, and their mailboxes are empty.
      have hmsg : (a.proctab p).hasMessage = false := by
        by_cases h4 : 4 ≤ p
        · exact absurd (ha.free p hp h4) hs
        · obtain ⟨c, rfl⟩ := exists_core ⟨hp.1, Int.not_le.mp h4⟩
          exact (ha.null c).2.2.2
      rw [hacc, hdel]
      simp [AbsKernel.mailbox, AbsKernel.parked, hmsg, ha.queue]

/-! ### Switching and waking -/

section Steps
variable (hr : Refines s.kernel a) (h : a.Delivery s.point s.accepted s.delivered)
include hr h

/-- `resched` on core `c`, when the process of that core reaches `y`. -/
theorem inv_resched {y : Point} (hready : ∀ t resch, y ≠ .ready t resch)
    (hrecv : y.Receiving → (s.point (s.self c)).Receiving)
    (hrun : s.kernel.resched c = .ok k) : Inv { s.reach (s.self c) y with kernel := k } := by
  obtain ⟨b, hb, hr'⟩ := (hr.resched (h.cores.sched.canResched hr.wf c)).of_ok hrun
  have hself : s.self c = a.currpid c := congrFun hr.currpid c
  refine ⟨b, hr', h.resched hr.wf hb ?_ ?_ ?_⟩
  · intro x hx
    exact update_of_ne (hself ▸ hx) _ _
  · intro w t resch hp
    exact (AbsKernel.ready_of_update hready hp).2
  · intro p hp
    by_cases hpc : p = s.self c
    · subst hpc
      exact hrecv (by simpa [reach] using hp)
    · simpa [reach, hpc] using hp

theorem inv_tick (hrun : s.kernel.resched c = .ok k) : Inv { s with kernel := k } := by
  obtain ⟨b, hb, hr'⟩ := (hr.resched (h.cores.sched.canResched hr.wf c)).of_ok hrun
  exact ⟨b, hr', h.resched hr.wf hb (fun _ _ => rfl) (fun _ _ _ hp => hp) fun _ hp => hp⟩

omit h in
/-- `ready` of a process that sleeps ends with the process on a ready
queue, and a switch perhaps. -/
theorem ready_delivery {t : Int} {resch : Bool} {core : Ulong}
    {point : Int → Point} {idle : Set Core} (hsched : a.SchedInv idle) (ht : a.Asleep t)
    (hcore : a.states t = .PRSUSP → IsCore core.toInt)
    (hwake : (a.wake t core).Delivery point s.accepted s.delivered)
    (hrun : s.kernel.ready c t resch core = .ok (r, k)) :
    Inv { s with kernel := k, point := point } := by
  have hwf : (a.wake t core).Wf := hr.wf.wake ht
  obtain ⟨b, hb, hr'⟩ := (hr.ready c resch (hsched.canWake core ht hcore)
    fun _ _ => hwake.cores.sched.canResched hwf c).of_ok (map_snd_of_ok hrun)
  unfold AbsKernel.ready at hb
  simp only at hb
  split at hb
  · exact ⟨b, hr', hwake.resched hwf hb (fun _ _ => rfl) (fun _ _ _ hp => hp) fun _ hp => hp⟩
  · cases hb
    exact ⟨_, hr', hwake⟩

/-- A process at a `ready` wakes the process it is about. -/
theorem inv_ready {t : Int} {resch : Bool} {core : Ulong}
    (hpoint : s.point (s.self c) = .ready t resch)
    (hrun : s.kernel.ready c t resch core = .ok (r, k)) :
    Inv { s.reach (s.self c) .running with kernel := k } := by
  have hself : s.self c = a.currpid c := congrFun hr.currpid c
  have hpid : IsPid (s.self c) := hself ▸ h.cores.sched.pid c
  obtain ⟨hasleep, hsusp⟩ := h.wakes.asleep h.cores.sched hpid hpoint
  have hcore : a.states t = .PRSUSP → IsCore core.toInt := fun hs => absurd hs hsusp
  refine ready_delivery hr h.cores.sched hasleep hcore (h.wake hasleep hcore ?_ ?_ ?_ ?_) hrun
  · intro hs
    obtain ⟨-, -, hsend | ⟨-, hmsg⟩⟩ := h.wakes.target _ t resch hpid hpoint
    · cases hs.symm.trans hsend
    · exact hmsg
  · intro x hx
    refine update_of_ne ?_ _ _
    rintro rfl
    rw [hpoint] at hx
    exact hx.elim
  · intro w t' resch' hw hp
    obtain ⟨hne, hp⟩ := AbsKernel.ready_of_update (by simp) hp
    refine ⟨hp, ?_⟩
    rintro rfl
    exact hne (h.wakes.distinct w _ t' resch' resch hw hpid hp hpoint)
  · intro p hp
    exact (AbsKernel.receiving_of_update (y := .running) not_false hp).2

/-- `ready` of a suspended process. -/
theorem inv_start {t : Int} {resch : Bool} {core : Ulong}
    (ht : IsPid t) (hsusp : a.states t = .PRSUSP) (hcore : core.toNat < NCORES)
    (hrun : s.kernel.ready c t resch core = .ok (r, k)) : Inv { s with kernel := k } := by
  obtain ⟨hasleep, hint⟩ := h.cores.sched.asleep_of_suspended ht hsusp hcore
  refine ready_delivery hr h.cores.sched hasleep (fun _ => hint)
    (h.wake hasleep (fun _ => hint) ?_ (fun _ _ => rfl) ?_ fun _ hp => hp) hrun
  · intro hs
    cases hsusp.symm.trans hs
  · intro w t' resch' hw hp
    refine ⟨hp, ?_⟩
    rintro rfl
    exact (h.wakes.asleep h.cores.sched hw hp).2 hsusp

/-! ### `create` and `kill` -/

theorem inv_create {args : Vars.CreateArgs} {r : Option Int}
    (hprio : (args.priority.toNat : Int) ≤ PRIORITY_HIGH)
    (hrun : s.kernel.create c args = .ok (r, k)) : Inv { s.enter r with kernel := k } := by
  obtain ⟨b, hr', hinv, hb⟩ := hr.create_ends h.cores.sched h.cores.live hprio hrun
  rcases hb with ⟨rfl, hsame⟩ | ⟨pid, saddr, rfl, hpid, hfree, hent⟩
  · exact ⟨b, hr', h.congr hsame⟩
  · exact ⟨b, hr', h.entered hpid hfree hent hinv⟩

theorem inv_kill {pid : Int} (hpoint : s.point (s.self c) = .running)
    (hspare : a.killRefuses c pid = false → a.states pid ≠ .PRSEND ∧ a.states pid ≠ .PRRECV ∧
      a.queue (.senders pid) = []) (hrun : s.kernel.kill c pid = .ok (r, k)) :
    r = .syserr ∧ k = s.kernel ∨ r = .ok ∧ Inv { s.reach pid .running with kernel := k } := by
  have hself : s.self c = a.currpid c := congrFun hr.currpid c
  have hc : c ∉ a.switching := by
    intro hm
    have hy := h.cores.yielding c hm
    rw [← hself, hpoint] at hy
    exact hy
  rcases hr.kill_ends h.cores.sched hc (fun href => (hspare href).1) hrun with
    ⟨hrefused, hk, -⟩ | ⟨hok, href, b, hr', hinv, hkilled, -, hcurr, -⟩
  · exact Or.inl ⟨hrefused, hk⟩
  · obtain ⟨hsend, hrecv, hnone⟩ := hspare href
    obtain ⟨hgood, -, haff⟩ := Vars.killRefuses_eq_false.mp href
    have hpid : IsPid pid := (isbadpid_eq_false.mp hgood).1
    -- The victim belongs to this core, so no other core runs it.
    have hne : ∀ d, d ≠ c → a.currpid d ≠ pid := by
      rintro d hd rfl
      have hdc : (d : Int) = c := (h.cores.sched.affinity d).symm.trans haff
      exact hd (Fin.ext (by exact_mod_cast hdc))
    refine Or.inr ⟨hok, b, hr', h.killed hpid hsend hrecv hnone hkilled (.of_schedInv hinv ?_ ?_)⟩
    · intro d hd
      have hdc : d ≠ c := fun heq => hc (heq ▸ hd)
      rw [hcurr d hdc, update_of_ne (hne d hdc)]
      exact h.cores.yielding d hd
    · intro d
      by_cases hdc : d = c
      · subst hdc
        simp [hinv.current d hc]
      · rw [hcurr d hdc]
        intro hfree
        exact h.cores.live d
          ((hkilled.states_eq_iff (hne d hdc) (by simp [PrState.Active])).mp hfree)

/-! ### Messages -/

/-- A process that is not at a `resched` is current. -/
theorem current_self {y : Point} (hpoint : s.point (s.self c) = y) (hy : ¬ y.Yielding) :
    s.self c = a.currpid c ∧ a.states (a.currpid c) = .PRCURR := by
  have hself : s.self c = a.currpid c := congrFun hr.currpid c
  refine ⟨hself, h.cores.current ?_⟩
  rw [← hself, hpoint]
  exact hy

theorem inv_send {pid msg : Int} {after : Kernel.After} (hpoint : s.point (s.self c) = .running)
    (hrun : s.kernel.sendSection (s.self c) pid msg = .ok (after, k)) :
    Inv { (s.accept pid msg after).reach (s.self c) (.ofAfter after) with kernel := k } := by
  obtain ⟨hself, hcur⟩ := current_self hr h hpoint not_false
  have hfree := (h.cores.sched.procs _ (h.cores.sched.pid c)).not_queued (by simp [hcur])
    (by simp [hcur])
  obtain ⟨k', hsec, hr'⟩ := hr.sendSection pid msg (h.cores.sched.pid c) hfree
  rw [hself] at hrun
  obtain ⟨rfl, rfl⟩ : after = _ ∧ k = k' := ok_pair (hrun.symm.trans hsec)
  refine ⟨_, hr', ?_⟩
  have hrunning : update s.point (a.currpid c) .running = s.point := by
    rw [← hself, ← hpoint, update_eq_self]
  unfold AbsKernel.sendSection
  rw [hself]
  cases hbad : isbadpid a.states pid with
  | true =>
    simp only [if_true, accept, reach, Point.ofAfter, hrunning]
    exact h
  | false =>
    obtain ⟨hpid, hlive⟩ := isbadpid_eq_false.mp hbad
    simp only [Bool.false_eq_true, if_false]
    cases hmsg : (a.proctab pid).hasMessage with
    | true => exact h.park hcur hpid hlive hmsg
    | false =>
      by_cases hst : (a.proctab pid).state = .PRRECV
      · simp only [Bool.false_eq_true, if_false, if_pos hst]
        exact h.deposit hcur hpid hlive hmsg (Or.inr ⟨hst, true, rfl⟩)
      · simp only [Bool.false_eq_true, if_false, if_neg hst]
        exact h.deposit hcur hpid hlive hmsg (Or.inl rfl)

theorem inv_sendnow {pid msg : Int} {after : Kernel.After} (hpoint : s.point (s.self c) = .running)
    (hrun : s.kernel.sendnowSection pid msg = .ok (after, k)) :
    Inv { (s.accept pid msg after).reach (s.self c) (.ofAfter after) with kernel := k } := by
  obtain ⟨hself, hcur⟩ := current_self hr h hpoint not_false
  have hpid : IsPid pid := isPid_of_sendnowSection hrun
  obtain ⟨k', hsec, hr'⟩ := hr.sendnowSection msg hpid
  obtain ⟨rfl, rfl⟩ : after = _ ∧ k = k' := ok_pair (hrun.symm.trans hsec)
  refine ⟨_, hr', ?_⟩
  have hrunning : update s.point (a.currpid c) .running = s.point := by
    rw [← hself, ← hpoint, update_eq_self]
  unfold AbsKernel.sendnowSection
  rw [hself]
  by_cases hrefuse : isbadpid a.states pid = true ∨ (a.proctab pid).hasMessage = true
  · simp only [if_pos hrefuse, if_true, accept, reach, Point.ofAfter, hrunning]
    exact h
  · obtain ⟨hbad, hmsg⟩ := not_or.mp hrefuse
    have hlive := (isbadpid_eq_false.mp (Bool.eq_false_of_not_eq_true hbad)).2
    have hempty := Bool.eq_false_of_not_eq_true hmsg
    by_cases hst : (a.proctab pid).state = .PRRECV
    · simp only [if_neg hrefuse, if_pos hst]
      exact h.deposit hcur hpid hlive hempty (Or.inr ⟨hst, false, rfl⟩)
    · simp only [if_neg hrefuse, if_neg hst]
      exact h.deposit hcur hpid hlive hempty (Or.inl rfl)

/-- The section of `recv` that takes the message. -/
theorem inv_collect {y : Point} (hpoint : s.point (s.self c) = y) (hy : ¬ y.Yielding)
    (hfull : (a.proctab (a.currpid c)).hasMessage = true)
    (hrun : s.collect (s.self c) = .ok s') : s'.Inv := by
  obtain ⟨hself, hcur⟩ := current_self hr h hpoint hy
  obtain ⟨k', hcol, hr'⟩ := hr.recvCollect (h.cores.sched.pid c)
  unfold AbsKernel.recvCollect at hcol hr'
  simp only [collect, hself] at hrun
  cases hl : a.queue (.senders (a.currpid c)) with
  | nil =>
    simp only [hl] at hcol hr'
    simp only [hcol, ok_bind] at hrun
    cases hrun
    exact ⟨_, hr', h.drain hcur hfull hl⟩
  | cons sender l =>
    simp only [hl] at hcol hr'
    simp only [hcol, ok_bind] at hrun
    cases hrun
    exact ⟨_, hr', h.refill hcur hr.wf hl⟩

theorem inv_recv {wait : Bool} (hpoint : s.point (s.self c) = .running)
    (hcheck : s.kernel.recvCheck (s.self c) = .ok (wait, k))
    (hrun : (if wait then .ok { s.reach (s.self c) .recvResched with kernel := k }
      else collect { s with kernel := k } (s.self c)) = .ok s') : s'.Inv := by
  obtain ⟨hself, hcur⟩ := current_self hr h hpoint not_false
  obtain ⟨k', hsec, hr'⟩ := hr.recvCheck (h.cores.sched.pid c)
  rw [hself] at hcheck
  obtain ⟨rfl, rfl⟩ : wait = _ ∧ k = k' := ok_pair (hcheck.symm.trans hsec)
  cases hmsg : (a.proctab (a.currpid c)).hasMessage with
  | true =>
    simp only [hmsg, Bool.not_true, Bool.false_eq_true, if_false, if_true] at hrun hr'
    have hself' : ({ s with kernel := k } : Smp).self c = s.self c :=
      (congrFun hr'.currpid c).trans hself.symm
    rw [← hself'] at hpoint hrun
    exact inv_collect (s := { s with kernel := k }) (y := .running) hr' h hpoint not_false hmsg hrun
  | false =>
    simp only [hmsg, Bool.not_false, if_true, Bool.false_eq_true, if_false] at hrun hr'
    cases hrun
    refine ⟨_, hr', ?_⟩
    simp only [reach, hself]
    exact h.wait hcur

/-! ### Every step, every run -/

/-- The next step of the call that the process of core `c` is in. -/
theorem inv_proceed (hrun : s.proceed c = .ok s') : s'.Inv := by
  unfold proceed at hrun
  split at hrun
  case h_1 hpoint =>
    cases hrun
    exact ⟨a, hr, h⟩
  case h_2 hpoint =>
    obtain ⟨k, hk, hrest⟩ := bind_eq_ok hrun
    cases hrest
    exact inv_resched hr h (by simp) (fun hx => hx.elim) hk
  case h_3 pid resch hpoint =>
    obtain ⟨p, -, hrest⟩ := bind_eq_ok hrun
    obtain ⟨⟨r, k⟩, hk, hrest⟩ := bind_eq_ok hrest
    cases hrest
    exact inv_ready hr h hpoint hk
  case h_4 hpoint =>
    obtain ⟨k, hk, hrest⟩ := bind_eq_ok hrun
    cases hrest
    refine inv_resched hr h (by simp) (fun _ => ?_) hk
    rw [hpoint]
    trivial
  case h_5 hpoint =>
    -- The process was woken by whoever left it a message.
    obtain ⟨hself, hcur⟩ := current_self hr h hpoint not_false
    have hrecv : (s.point (a.currpid c)).Receiving := by
      rw [← hself, hpoint]
      trivial
    have hfull : (a.proctab (a.currpid c)).hasMessage = true := by
      rcases (h.logged _ (h.cores.sched.pid c)).receiving hrecv with hmsg | hwait
      · exact hmsg
      · cases hcur.symm.trans hwait
    exact inv_collect hr h hpoint not_false hfull hrun

end Steps

/-- Every step keeps the invariant. -/
theorem inv_exec {act : Action} (hinv : s.Inv) (hperm : s.Permitted c act)
    (hrun : s.exec c act = .ok s') : s'.Inv := by
  obtain ⟨a, hr, h⟩ := hinv
  cases act with
  | create args =>
    obtain ⟨⟨r, k⟩, hk, hrest⟩ := bind_eq_ok hrun
    cases hrest
    exact inv_create hr h hperm.2 hk
  | ready pid resch core =>
    obtain ⟨⟨r, k⟩, hk, hrest⟩ := bind_eq_ok hrun
    cases hrest
    obtain ⟨-, hpid, hsusp, hcore⟩ := hperm
    exact inv_start hr h hpid (hr.states ▸ hsusp) hcore hk
  | kill pid =>
    obtain ⟨⟨r, k⟩, hk, hrest⟩ := bind_eq_ok hrun
    have hspare : a.killRefuses c pid = false → a.states pid ≠ .PRSEND ∧
        a.states pid ≠ .PRRECV ∧ a.queue (.senders pid) = [] := by
      intro href
      have hpid : IsPid pid := (isbadpid_eq_false.mp (Vars.killRefuses_eq_false.mp href).1).1
      have hspare := hperm.2
      rw [hr.states, hr.senders hpid] at hspare
      exact hspare (by rw [hr.vars, href])
    rcases inv_kill hr h hperm.1 hspare hk with ⟨rfl, rfl⟩ | ⟨rfl, hinv⟩
    · cases hrest
      exact ⟨a, hr, h⟩
    · cases hrest
      exact hinv
  | send pid msg =>
    obtain ⟨⟨after, k⟩, hk, hrest⟩ := bind_eq_ok hrun
    cases hrest
    exact inv_send hr h hperm hk
  | sendnow pid msg =>
    obtain ⟨⟨after, k⟩, hk, hrest⟩ := bind_eq_ok hrun
    cases hrest
    exact inv_sendnow hr h hperm hk
  | recv =>
    obtain ⟨⟨wait, k⟩, hk, hrest⟩ := bind_eq_ok hrun
    exact inv_recv hr h hperm hk hrest
  | proceed => exact inv_proceed hr h hrun
  | tick =>
    obtain ⟨k, hk, hrest⟩ := bind_eq_ok hrun
    cases hrest
    exact inv_tick hr h hk

theorem inv_of_reachable (h : s.Reachable) : s.Inv := by
  refine Lib.Reaches.induction h (fun _ hs => inv_booted hs) ?_
  intro s act s' hinv hperm hrun
  exact inv_exec hinv hperm hrun

end Smp

/-- What a live process has taken is a first part of what was accepted
for it, and the rest is in its mailbox and with its senders, in order. -/
theorem delivered_of_reachable {s : Smp} (h : s.Reachable) {r : Int} (hr : IsPid r)
    (hlive : s.kernel.states r ≠ .PRFREE) :
    s.delivered r <+: s.accepted r ∧
      s.accepted r = s.delivered r ++ s.kernel.undelivered r := by
  obtain ⟨a, hk, ha⟩ := Smp.inv_of_reachable h
  rw [hk.states] at hlive
  have hlog : s.accepted r = s.delivered r ++ s.kernel.undelivered r := by
    rw [(ha.logged r hr).log hlive, Kernel.undelivered, hk.senders hr, hk.proctab,
      List.append_assoc]
    rfl
  exact ⟨hlog ▸ List.prefix_append _ _, hlog⟩

/-- Process 4 on core 0 and process 6 on core 1 send to process 5. Both
are blocked, process 6 before process 4 gives up its core, and process 5
takes the first message. -/
def crossRun : List (Core × Action) :=
  [(0, .create highPriority), (0, .ready 4 true 0), (0, .create highPriority),
    (0, .ready 5 false 0), (1, .create highPriority), (1, .ready 6 true 1), (0, .send 5 77),
    (0, .send 5 78), (1, .send 5 79), (0, .proceed), (1, .proceed), (0, .recv)]

theorem delivered_crossRun : ∃ s : Smp, s.Reachable ∧ s.delivered 5 = [77] ∧
    s.kernel.undelivered 5 = [78, 79] ∧ s.delivered 5 <+: s.accepted 5 ∧
      s.accepted 5 = s.delivered 5 ++ s.kernel.undelivered 5 := by
  obtain ⟨s, hs, htest⟩ := Smp.exists_reachable Smp.Permitted 0x10000 0x90000 0x8000
    (fun _ => 0) crossRun
    (fun s => decide (s.kernel.states 5 ≠ .PRFREE ∧ s.delivered 5 = [77] ∧
      s.kernel.undelivered 5 = [78, 79])) (by decide +kernel)
  obtain ⟨hlive, hdel, hleft⟩ := of_decide_eq_true htest
  exact ⟨s, hs, hdel, hleft, delivered_of_reachable hs (by decide) hlive⟩

/-- Only `r` and the processes that are blocked in a `send` to `r` are
spared by `kill`. -/
def Smp.Spares (r : Int) (s : Smp) (cpuid : Core) : Action → Prop
  | .kill pid => s.point (s.self cpuid) = .running ∧
      (s.kernel.killRefuses cpuid pid = false → pid ≠ r ∧ pid ∉ s.kernel.senders r)
  | act => s.Permitted cpuid act

instance (r : Int) (s : Smp) (cpuid : Core) (act : Action) : Decidable (s.Spares r cpuid act) := by
  rcases act <;> dsimp only [Smp.Spares] <;> infer_instance

/-- Process 4 blocks in a `send` to process 6 and is killed by process 5.
Slot 4 is used again, and the new process 4 blocks in a `send` to process
5. Then process 6 calls `recv`. -/
def lossRun : List (Core × Action) :=
  [(0, .create highPriority), (0, .ready 4 true 0), (0, .create highPriority),
    (0, .create highPriority), (0, .ready 5 false 0), (0, .send 6 79), (0, .send 6 80),
    (0, .proceed), (0, .kill 4)] ++ List.replicate 44 (0, .create highPriority) ++
  [(0, .ready 4 false 0), (0, .tick), (0, .send 5 70), (0, .send 5 81), (0, .proceed),
    (0, .ready 6 true 0), (0, .recv)]

/-- The killed process was still in the queue of process 6. So this `recv`
takes the new process 4 out of the queue of process 5, and the message 81
goes to process 6. -/
theorem delivered_lost : ∃ s : Smp, Lib.Reaches Smp.Booted
      (fun s (a : Core × Action) => s.Spares 5 a.1 a.2) (fun s a => s.exec a.1 a.2) s ∧
    s.kernel.states 5 ≠ .PRFREE ∧ s.accepted 5 = [70, 81] ∧ s.delivered 5 = [] ∧
    s.kernel.undelivered 5 = [70] ∧ (s.kernel.proctab 6).msgin = 81 := by
  obtain ⟨s, hs, htest⟩ := Smp.exists_reachable (fun s => s.Spares 5) 0x10000 0x400000 0x8000
    (fun _ => 0) lossRun (fun s => decide (s.kernel.states 5 ≠ .PRFREE ∧ s.accepted 5 = [70, 81] ∧
      s.delivered 5 = [] ∧ s.kernel.undelivered 5 = [70] ∧ (s.kernel.proctab 6).msgin = 81))
    (by decide +kernel)
  exact ⟨s, hs, of_decide_eq_true htest⟩

end Xinu
