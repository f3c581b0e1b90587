import Xinu.Abstract.Aging
import Xinu.Proofs.Kernel.Calls

/-!
# `Xinu.Proofs.Kernel.Effects`: every call has one of its effects

`exec_effect` is the step lemma of the running system. A permitted call
that returns leads to a kernel that refines an abstract one, which the
scheduler's invariant holds of and which is an `Effect` of the call. The
one exception is `kill` of a process that waits in another one's message
queue: it leaves that process linked.
-/

namespace Xinu

open AbsKernel (SchedInv Effect Rescheduled Asleep)

variable {k k' : Kernel} {a : AbsKernel} {c : Core} {p : Int} {call : Call} {r : Syscall}
  {pid msg : Int}

/-- The kernel refines an abstract kernel that is in order and is an
effect of the call, with its turn at the ready queues. -/
def Follows (k' : Kernel) (a : AbsKernel) (c : Core) (call : Call) : Prop :=
  ∃ b, Refines k' b ∧ b.SchedInv ∅ ∧ Effect a c call b ∧ ∃ m, a.Turn c call b m

/-- A call without `resched` that leaves the ready queues alone. -/
theorem Follows.of_same {b : AbsKernel} (hr : Refines k' b) (hinv : b.SchedInv ∅)
    (heff : Effect a c call b)
    (hcount : b.promoteMedium = a.promoteMedium ∧ b.promoteLow = a.promoteLow)
    (hqueue : ∀ d i, b.queue (.ready d i) = a.queue (.ready d i))
    (hno : a.reschedules c call = false) : Follows k' a c call :=
  ⟨b, hr, hinv, heff, b, hr.wf, hcount, fun _ _ => .of_queue hqueue, by rw [hno]; rfl⟩

/-- A call that changes no process and no queue. -/
theorem Follows.of_unchanged {b : AbsKernel} (hr : Refines k' b) (hinv : b.SchedInv ∅)
    (hb : a.Unchanged b) (hno : a.reschedules c call = false) : Follows k' a c call :=
  .of_same hr hinv (.same hb) hb.counters (fun _ _ => by rw [hb.queue]) hno

/-- A call that ends in `resched`, and leaves the ready queues alone until
then. -/
theorem Follows.of_resched {m b : AbsKernel} (hr : Refines k' b) (hinv : b.SchedInv ∅)
    (heff : Effect a c call b) (hwf : m.Wf)
    (hcount : m.promoteMedium = a.promoteMedium ∧ m.promoteLow = a.promoteLow)
    (hqueue : ∀ d i, m.queue (.ready d i) = a.queue (.ready d i)) (hb : m.resched c = some b)
    (hyes : a.reschedules c call = true) : Follows k' a c call :=
  ⟨b, hr, hinv, heff, m, hwf, hcount, fun _ _ => .of_queue hqueue, by rw [hyes]; exact hb⟩

/-- A computation that returned has an abstract result. -/
theorem Simulates.of_ok {x : Except Fault Kernel} {o : Option AbsKernel} (h : Simulates x o)
    (hx : x = .ok k) : ∃ b, o = some b ∧ Refines k b := by
  cases o with
  | none =>
    obtain ⟨e, he⟩ := h
    cases hx.symm.trans he
  | some b =>
    obtain ⟨k', hk', hr⟩ := h
    obtain rfl : k = k' := Except.ok.inj (hx.symm.trans hk')
    exact ⟨b, rfl, hr⟩

theorem map_snd_of_ok {β : Type} {x : Except Fault (β × Kernel)} {r : β} (h : x = .ok (r, k)) :
    x.map Prod.snd = .ok k := by
  rw [h]
  rfl

/-- Only a valid process id reads the process table. -/
theorem isPid_of_pcb {v : Vars} {pid : Int} {p : Pcb} (h : v.pcb pid = .ok p) : IsPid pid := by
  by_contra hout
  have hout' : ¬ (0 ≤ pid ∧ pid < NPROC) := hout
  rw [Vars.pcb, if_neg hout'] at h
  cases h

/-- `sendnow` reads `proctab[pid]` before it tests `pid`, so it returns
only for a slot of the table. -/
theorem isPid_of_sendnowSection {after : Kernel.After}
    (h : k.sendnowSection pid msg = .ok (after, k')) : IsPid pid := by
  obtain ⟨ppcb, hpcb, -⟩ := bind_eq_ok h
  exact isPid_of_pcb hpcb

namespace Refines

/-! ### `create` and `kill` -/

section Slots
variable {idle : Set Core} (hr : Refines k a) (h : a.SchedInv idle)
include hr h

/-- What a `create` that returns did: no process changed, if it failed,
and otherwise a process was entered into a free slot. -/
theorem create_ends {args : Vars.CreateArgs} {r : Option Int}
    (hlive : ∀ c, a.states (a.currpid c) ≠ .PRFREE)
    (hprio : (args.priority.toNat : Int) ≤ PRIORITY_HIGH) (hrun : k.create c args = .ok (r, k')) :
    ∃ b, Refines k' b ∧ b.SchedInv idle ∧ ((r = none ∧ a.Unchanged b) ∨
      ∃ pid saddr, r = some pid ∧ IsPid pid ∧ a.states pid = .PRFREE ∧
        a.Entered b args pid saddr) := by
  obtain ⟨hcreate, hr'⟩ := hr.create hrun
  refine ⟨_, hr', ?_⟩
  rcases Vars.create_cases hcreate with ⟨rfl, hp, n, hv⟩ | ⟨pid, saddr, hp, n, rfl, hpid, hfree, hv⟩
  · rw [hv]
    exact ⟨h.congr ⟨rfl, rfl, fun _ => rfl, fun _ => rfl, fun _ => rfl⟩,
      Or.inl ⟨rfl, rfl, rfl, rfl, rfl, rfl, rfl⟩⟩
  · have hint : 0 ≤ args.priority.toInt ∧ args.priority.toInt < 3 := by
      simp only [PRIORITY_HIGH] at hprio
      rw [BitVec.toInt_eq_toNat_of_lt (by omega)]
      omega
    have hcurr : ∀ c, a.currpid c ≠ pid := fun c heq => hlive c (heq ▸ hfree)
    rw [hv]
    exact ⟨(h.enter hfree hpid hcurr hint).congr
      ⟨rfl, rfl, fun _ => rfl, fun _ => rfl, fun _ => rfl⟩,
      Or.inr ⟨pid, saddr, rfl, hpid, hfree, rfl, rfl, rfl, rfl, rfl, rfl⟩⟩

/-- The `switch` of `kill`, on a process that is in no message queue. -/
theorem killSwitch_ends {b : AbsKernel} (hc : c ∉ idle) (hp : IsPid p)
    (haff : (a.proctab p).coreAffinity = c) (hsend : a.states p ≠ .PRSEND)
    (href : a.killRefuses c p = false)
    (hb : a.killSwitch c p = some b) : b.SchedInv idle ∧ a.Killed b p ∧ b.numproc = a.numproc ∧
      (∀ d, d ≠ c → b.currpid d = a.currpid d) ∧ ∃ m, a.Turn c (.kill p) b m := by
  have hwf : (a.setState p .PRFREE).Wf := hr.wf.congr rfl
  have hsetState : ∀ {b}, b = a.setState p .PRFREE → a.states p ≠ .PRCURR → a.Killed b p ∧
      b.numproc = a.numproc ∧ (∀ d, d ≠ c → b.currpid d = a.currpid d) ∧
        ∃ m, a.Turn c (.kill p) b m := by
    rintro b rfl hcur
    exact ⟨.of_rescheduled (.of_proctab rfl (fun _ => rfl) rfl), rfl, fun _ _ => rfl, _, hwf,
      ⟨rfl, rfl⟩, fun _ _ => .of_queue fun _ _ => rfl, by simp [Vars.reschedules, hcur]⟩
  unfold AbsKernel.killSwitch at hb
  cases hst : (a.proctab p).state with
  | PRCURR =>
    simp only [hst] at hb
    -- The process kills itself: its core is without a current process until
    -- `resched` has found the next one.
    have hcur := h.currpid_of_current hp hst haff
    have hblock : (a.setState p .PRFREE).SchedInv (insert c idle) :=
      hcur ▸ h.block (hcur.symm ▸ hst) (Or.inr (Or.inr rfl))
    have hres := hblock.rescheduled hwf hb
    have hinv := hblock.resched hwf hb
    have hyes : a.reschedules c (.kill p) = true := by
      simp [Vars.reschedules, href, Vars.states, hst]
    rw [Set.insert_sdiff_self_of_notMem hc] at hinv
    exact ⟨hinv, .of_rescheduled hres, hres.numproc, fun d hd => AbsKernel.resched_currpid hb hd,
      _, hwf, ⟨rfl, rfl⟩, fun _ _ => .of_queue fun _ _ => rfl, by rw [hyes]; exact hb⟩
  | PRREADY =>
    simp only [hst] at hb
    cases hb
    have hcur : a.states p ≠ .PRCURR := by simp [Vars.states, hst]
    -- It is taken off its ready queue, and nobody is dispatched.
    refine ⟨h.free_ready hr.wf hst, ?_, rfl, fun _ _ => rfl, (a.erase p).setState p .PRFREE,
      hr.wf.erase.congr rfl, ⟨rfl, rfl⟩, fun x hx => AbsKernel.keepsPlace_erase (hx href),
      by simp [Vars.reschedules, hcur]⟩
    have hkilled := (hsetState rfl hcur).1
    refine ⟨hkilled.free, hkilled.pcb, hkilled.state,
      fun r hr' => List.erase_of_not_mem fun hm => ?_⟩
    cases hst.symm.trans ((h.procs p hp).sending r hr' hm)
  | PRSEND => exact absurd hst hsend
  | PRFREE | PRSUSP | PRRECV =>
    simp only [hst] at hb
    cases hb
    have hs : a.states p = _ := hst
    exact ⟨h.free ((h.procs p hp).not_queued (by simp [hs]) (by simp [hs])) (by simp [hs]),
      hsetState rfl (by simp [hs])⟩

/-- `kill` of a process that it does not refuse and whose stack is given
back ends with its `switch`. -/
theorem kill_simulates {v : Vars} (href : a.killRefuses c p = false)
    (hrel : a.release p = .ok v) : ({ a with toVars := v } : AbsKernel).SchedInv idle ∧
      Simulates ((k.kill c p).map Prod.snd)
        (({ a with toVars := v } : AbsKernel).killSwitch c p) := by
  obtain ⟨hgood, -, haff⟩ := Vars.killRefuses_eq_false.mp href
  obtain ⟨hp, hlive⟩ := isbadpid_eq_false.mp hgood
  have hinv : ({ a with toVars := v } : AbsKernel).SchedInv idle := by
    obtain ⟨hp', rfl⟩ := Vars.release_eq hrel
    exact h.congr ⟨rfl, rfl, fun _ => rfl, fun _ => rfl, fun _ => rfl⟩
  refine ⟨hinv, hr.kill href hrel (fun hcur => ?_) fun hst => ?_⟩
  · have hself : v.currpid c = p := by
      obtain ⟨hp', rfl⟩ := Vars.release_eq hrel
      exact h.currpid_of_current hp hcur haff
    have hstate : v.states (v.currpid c) = .PRCURR := by
      obtain ⟨hp', rfl⟩ := Vars.release_eq hrel
      rw [hself]
      exact hcur
    have hblock := hinv.block (c := c) hstate (s := .PRFREE) (Or.inr (Or.inr rfl))
    exact (hself ▸ hblock).canResched (hr.wf.congr rfl) c
  · exact AbsKernel.queued_iff.mpr (Or.inl ⟨_, (h.procs p hp).placed hlive (by simp [hst]),
      (h.procs p hp).ready_queued hst⟩)

/-- What a `kill` that returns did: nothing, if it was refused, and
otherwise the process is gone. -/
theorem kill_ends (hc : c ∉ idle) (hsend : a.killRefuses c p = false → a.states p ≠ .PRSEND)
    (hrun : k.kill c p = .ok (r, k')) :
    (r = .syserr ∧ k' = k ∧ a.killRefuses c p = true) ∨ r = .ok ∧ a.killRefuses c p = false ∧
      ∃ b, Refines k' b ∧ b.SchedInv idle ∧ a.Killed b p ∧ b.numproc = a.numproc - 1 ∧
        (∀ d, d ≠ c → b.currpid d = a.currpid d) ∧ ∃ m, a.Turn c (.kill p) b m := by
  cases href : a.killRefuses c p with
  | true =>
    rw [Kernel.kill, hr.vars, href, if_pos rfl] at hrun
    obtain ⟨hr', hk'⟩ := ok_pair hrun
    exact Or.inl ⟨hr'.symm, hk'.symm, rfl⟩
  | false =>
    obtain ⟨hgood, -, haff⟩ := Vars.killRefuses_eq_false.mp href
    have hp : IsPid p := (isbadpid_eq_false.mp hgood).1
    obtain ⟨v, hrel, hok⟩ : ∃ v, a.release p = .ok v ∧ r = .ok := by
      rw [Kernel.kill, hr.vars, href] at hrun
      simp only [Bool.false_eq_true, if_false] at hrun
      obtain ⟨v, hrel, hrun⟩ := bind_eq_ok hrun
      obtain ⟨k1, -, hrun⟩ := bind_eq_ok hrun
      exact ⟨v, hrel, (ok_pair hrun).1.symm⟩
    obtain ⟨hinv, hsim⟩ := hr.kill_simulates h href hrel
    obtain ⟨b, hb, hr'⟩ := hsim.of_ok (map_snd_of_ok hrun)
    obtain ⟨hp', rfl⟩ := Vars.release_eq hrel
    have hr1 := hr.withVars (v := { a.toVars with numproc := a.numproc - 1, heap := hp' })
      fun _ _ => rfl
    obtain ⟨hinv', hkilled, hnum, hcurr, m, hturn⟩ :=
      killSwitch_ends hr1 hinv hc hp haff (hsend href) href hb
    exact Or.inr ⟨hok, rfl, b, hr', hinv', ⟨hkilled.free, hkilled.pcb, hkilled.state,
      hkilled.senders⟩, hnum, hcurr, m, hturn.wf, hturn.counters, hturn.place, hturn.ends⟩

end Slots

section Calls
variable (hr : Refines k a) (h : a.SchedInv ∅)
include hr h

theorem create_follows {args : Vars.CreateArgs} {r : Option Int}
    (hprio : (args.priority.toNat : Int) ≤ PRIORITY_HIGH) (hrun : k.create c args = .ok (r, k')) :
    Follows k' a c (.create args) := by
  have hlive : ∀ c, a.states (a.currpid c) ≠ .PRFREE := fun c => by
    simp [h.current c (Set.notMem_empty c)]
  obtain ⟨b, hr', hinv, hb⟩ := hr.create_ends h hlive hprio hrun
  rcases hb with ⟨-, hsame⟩ | ⟨pid, saddr, -, hpid, hfree, hent⟩
  · exact .of_unchanged hr' hinv hsame rfl
  · exact .of_same hr' hinv (.create hpid hfree hent) hent.counters
      (fun _ _ => by rw [hent.queue]) rfl

theorem resched_follows (hrun : k.resched c = .ok k') : Follows k' a c .resched := by
  obtain ⟨b, hb, hr'⟩ := (hr.resched (h.canResched hr.wf c)).of_ok hrun
  exact .of_resched hr' (h.resched_of_idle (fun d hd => hd.elim) hr.wf hb)
    (.resched (h.rescheduled hr.wf hb)) hr.wf ⟨rfl, rfl⟩ (fun _ _ => rfl) hb rfl

/-- `ready` of a process that sleeps. -/
theorem ready_ends {resch : Bool} {core : Ulong} (hp : a.Asleep p)
    (hcore : a.states p = .PRSUSP → IsCore core.toInt)
    (hrun : k.ready c p resch core = .ok (r, k')) :
    ∃ b, Refines k' b ∧ b.SchedInv ∅ ∧ Rescheduled (a.wake p core) b ∧
      a.ready c p resch core = some b := by
  have hwake := h.wake hp hcore
  have hwf : (a.wake p core).Wf := hr.wf.wake hp
  obtain ⟨b, hb, hr'⟩ := (hr.ready c resch (h.canWake core hp hcore)
    fun _ _ => hwake.canResched hwf c).of_ok (map_snd_of_ok hrun)
  have hready := hb
  unfold AbsKernel.ready at hb
  simp only at hb
  split at hb
  · exact ⟨b, hr', hwake.resched_of_idle (fun d hd => hd.elim) hwf hb, hwake.rescheduled hwf hb,
      hready⟩
  · cases hb
    exact ⟨_, hr', hwake, .of_proctab rfl (fun _ => rfl) rfl, hready⟩

theorem ready_follows {resch : Bool} {core : Ulong} (hp : IsPid p)
    (hsusp : a.states p = .PRSUSP) (hcore : core.toNat < NCORES)
    (hrun : k.ready c p resch core = .ok (r, k')) : Follows k' a c (.ready p resch core) := by
  obtain ⟨hasleep, hint⟩ := h.asleep_of_suspended hp hsusp hcore
  obtain ⟨b, hr', hb, hres, hready⟩ := hr.ready_ends h hasleep (fun _ => hint) hrun
  exact ⟨b, hr', hb, .ready hasleep hsusp hres, _, .of_ready ⟨rfl, rfl⟩ (fun _ _ => rfl)
    (hr.wf.wake hasleep) hready rfl⟩

theorem kill_follows (hsend : k.killRefuses c p = false → k.states p ≠ .PRSEND)
    (hrun : k.kill c p = .ok (r, k')) : Follows k' a c (.kill p) := by
  rw [hr.states, hr.vars] at hsend
  rcases hr.kill_ends h (Set.notMem_empty c) hsend hrun with
    ⟨-, rfl, href⟩ | ⟨-, href, b, hr', hinv, hkilled, hnum, -, hturn⟩
  · exact .of_unchanged hr h ⟨rfl, rfl, rfl, rfl, rfl, rfl⟩ (by simp [Vars.reschedules, href])
  · exact ⟨b, hr', hinv, .kill href hkilled hnum, hturn⟩

/-! ### Messages -/

omit hr in
/-- A process that waits in `recv` sleeps, with or without a message. -/
theorem asleep_deposit (msg : Int) (hp : IsPid p) (hst : a.states p = .PRRECV) :
    (a.deposit p msg).Asleep p := by
  have hsame : AbsKernel.SameSched a (a.deposit p msg) := AbsKernel.sameSched_deposit
  have hstate := (hsame.states p).trans hst
  have h' := (h.congr hsame).procs p hp
  exact ⟨hp, by simp [hstate], by simp [hstate], by simp [hstate],
    h'.not_queued (by simp [hstate]) (by simp [hstate])⟩

omit hr in
/-- The end of `send` and `sendnow` to a process that waits. -/
theorem deliver_follows {resch : Bool} {k1 : Kernel}
    (hcall : call = .send pid msg ∨ call = .sendnow pid msg) (hpid : IsPid pid)
    (hempty : (a.proctab pid).hasMessage = false) (hst : a.states pid = .PRRECV)
    (hr1 : Refines k1 (a.deposit pid msg)) (hrun : k1.finish c (.wake pid resch) = .ok (r, k'))
    (hresch : a.reschedules c call =
      (resch && decide ((c : Int) = (a.proctab pid).coreAffinity))) : Follows k' a c call := by
  have hsame : AbsKernel.SameSched a (a.deposit pid msg) := AbsKernel.sameSched_deposit
  have hasleep := asleep_deposit h msg hpid hst
  simp only [Kernel.finish, hr1.pcb hpid, ok_bind] at hrun
  obtain ⟨⟨r', k2⟩, hready, hrun⟩ := bind_eq_ok hrun
  obtain rfl : k2 = k' := (ok_pair hrun).2
  have hsusp : (a.deposit pid msg).states pid ≠ .PRSUSP := by
    rw [hsame.states, hst]
    simp
  obtain ⟨b, hr', hb, hres, habs⟩ := hr1.ready_ends (h.congr hsame) hasleep
    (fun hs => absurd hs hsusp) hready
  refine ⟨b, hr', hb, .deliver hcall hpid hempty hst hres, _, .of_ready (e := a.deposit pid msg)
    ⟨rfl, rfl⟩ (fun _ _ => rfl) (hr1.wf.wake hasleep) habs ?_⟩
  -- A process that waits has a core already.
  have haff : ((a.deposit pid msg).proctab pid).coreAffinity ≠ -1 := by
    have hcore := (h.procs pid hpid).placed (by simp [hst]) (by simp [hst])
    rw [hsame.affinity]
    intro hneg
    rw [hneg] at hcore
    exact absurd hcore.1 (by decide)
  rw [hresch, Vars.makeReady_affinity haff, hsame.affinity]

theorem send_follows (hrun : k.send c pid msg = .ok (r, k')) :
    Follows k' a c (.send pid msg) := by
  have hcur : a.states (a.currpid c) = .PRCURR := h.current c (Set.notMem_empty c)
  obtain ⟨k1, hsec, hr1⟩ := hr.sendSection pid msg (h.pid c)
    ((h.procs _ (h.pid c)).not_queued (by simp [hcur]) (by simp [hcur]))
  simp only [Kernel.send, hr.currpid, hsec, ok_bind] at hrun
  unfold AbsKernel.sendSection at hrun hr1
  cases hbad : isbadpid a.states pid with
  | true =>
    simp only [hbad, if_true] at hrun hr1
    obtain rfl : k1 = k' := (ok_pair hrun).2
    exact .of_unchanged hr1 h ⟨rfl, rfl, rfl, rfl, rfl, rfl⟩ (by simp [Vars.reschedules, hbad])
  | false =>
    obtain ⟨hpid, hlive⟩ := isbadpid_eq_false.mp hbad
    simp only [hbad, Bool.false_eq_true, if_false] at hrun hr1
    cases hmsg : (a.proctab pid).hasMessage with
    | true =>
      simp only [hmsg, if_true] at hrun hr1
      obtain ⟨k2, hres, hrun⟩ := bind_eq_ok hrun
      obtain rfl : k2 = k' := (ok_pair hrun).2
      -- The mailbox is full: the sender parks and gives up its core.
      have hpark : (a.park (a.currpid c) pid msg).SchedInv (insert c ∅) := h.park hcur
      obtain ⟨b, hb, hr'⟩ := (hr1.resched (hpark.canResched hr1.wf c)).of_ok hres
      exact .of_resched hr' (hpark.resched_of_idle (by simp) hr1.wf hb)
        (.park hpid hlive hmsg (hpark.rescheduled hr1.wf hb)) hr1.wf ⟨rfl, rfl⟩
        (fun d i => by simp [AbsKernel.park, AbsKernel.push, AbsKernel.setPcb]) hb
        (by simp [Vars.reschedules, hbad, hmsg])
    | false =>
      simp only [hmsg, Bool.false_eq_true, if_false] at hrun hr1
      by_cases hst : (a.proctab pid).state = .PRRECV
      · simp only [if_pos hst] at hrun hr1
        exact deliver_follows h (Or.inl rfl) hpid hmsg hst hr1 hrun
          (by simp [Vars.reschedules, hbad, hmsg, hst, Vars.states])
      · simp only [if_neg hst] at hrun hr1
        obtain rfl : k1 = k' := (ok_pair hrun).2
        exact .of_same hr1 (h.congr AbsKernel.sameSched_deposit)
          (.deposit (Or.inl rfl) hpid hlive hmsg hst) ⟨rfl, rfl⟩ (fun _ _ => rfl)
          (by simp [Vars.reschedules, hmsg, hst, Vars.states])

theorem sendnow_follows (hrun : k.sendnow c pid msg = .ok (r, k')) :
    Follows k' a c (.sendnow pid msg) := by
  have hpid : IsPid pid := by
    obtain ⟨⟨after, k1⟩, hsec, -⟩ := bind_eq_ok hrun
    exact isPid_of_sendnowSection hsec
  obtain ⟨k1, hsec, hr1⟩ := hr.sendnowSection msg hpid
  simp only [Kernel.sendnow, hsec, ok_bind] at hrun
  unfold AbsKernel.sendnowSection at hrun hr1
  by_cases hrefuse : isbadpid a.states pid = true ∨ (a.proctab pid).hasMessage = true
  · simp only [if_pos hrefuse] at hrun hr1
    obtain rfl : k1 = k' := (ok_pair hrun).2
    exact .of_unchanged hr1 h ⟨rfl, rfl, rfl, rfl, rfl, rfl⟩ rfl
  · simp only [if_neg hrefuse] at hrun hr1
    obtain ⟨hbad, hmsg⟩ := not_or.mp hrefuse
    have hlive := (isbadpid_eq_false.mp (Bool.eq_false_of_not_eq_true hbad)).2
    have hempty := Bool.eq_false_of_not_eq_true hmsg
    by_cases hst : (a.proctab pid).state = .PRRECV
    · simp only [if_pos hst] at hrun hr1
      exact deliver_follows h (Or.inr rfl) hpid hempty hst hr1 hrun rfl
    · simp only [if_neg hst] at hrun hr1
      obtain rfl : k1 = k' := (ok_pair hrun).2
      exact .of_same hr1 (h.congr AbsKernel.sameSched_deposit)
        (.deposit (Or.inr rfl) hpid hlive hempty hst) ⟨rfl, rfl⟩ (fun _ _ => rfl) rfl

/-- The second half of `recv`. -/
theorem recvResume_follows {msg : Int} (hcall : call = .recv ∨ call = .recvResume)
    (hno : a.reschedules c call = false)
    (hrun : k.recvResume c = .ok (msg, k')) : Follows k' a c call := by
  obtain ⟨k1, hcol, hr1⟩ := hr.recvCollect (h.pid c)
  simp only [Kernel.recvResume, hr.currpid, hcol, ok_bind] at hrun
  unfold AbsKernel.recvCollect at hrun hr1
  cases hl : a.queue (.senders (a.currpid c)) with
  | nil =>
    simp only [hl] at hrun hr1
    obtain rfl : k1 = k' := (ok_pair hrun).2
    exact .of_same hr1 (h.congr AbsKernel.sameSched_drain) (.drain hcall hl) ⟨rfl, rfl⟩
      (fun _ _ => rfl) hno
  | cons sender l =>
    simp only [hl] at hrun hr1
    obtain ⟨hinv, hasleep, hsend⟩ := h.refill hr.wf (h.pid c) hl
    simp only [hr1.pcb hasleep.pid, ok_bind] at hrun
    obtain ⟨⟨r', k2⟩, hready, hrun⟩ := bind_eq_ok hrun
    obtain rfl : k2 = k' := (ok_pair hrun).2
    -- The sender is made ready without `resched`.
    have hcan := hinv.canWake (BitVec.ofInt 32
      ((a.refill (a.currpid c) sender).proctab sender).coreAffinity) hasleep
      fun hs => absurd (hsend.symm.trans hs) (by simp)
    obtain ⟨b, hb, hr'⟩ := (hr1.ready c false hcan
      (fun hf => absurd hf (by simp))).of_ok (map_snd_of_ok hready)
    have hturn : a.Turn c call b _ := .of_ready (e := a.refill (a.currpid c) sender) ⟨rfl, rfl⟩
      (fun d i => by simp [AbsKernel.refill, AbsKernel.pop, AbsKernel.setPcb])
      (hr1.wf.wake hasleep) hb hno
    simp only [AbsKernel.ready, Bool.false_eq_true, false_and, if_false] at hb
    cases hb
    exact ⟨_, hr', hinv.wake hasleep fun hs => absurd (hsend.symm.trans hs) (by simp),
      .refill hcall hl, _, hturn⟩

theorem recv_follows {r : Option Int} (hrun : k.recv c = .ok (r, k')) : Follows k' a c .recv := by
  obtain ⟨k1, hcheck, hr1⟩ := hr.recvCheck (h.pid c)
  simp only [Kernel.recv, hr.currpid, hcheck, ok_bind] at hrun
  cases hmsg : (a.proctab (a.currpid c)).hasMessage with
  | true =>
    simp only [hmsg, if_true, Bool.not_true, Bool.false_eq_true, if_false] at hrun hr1
    obtain ⟨⟨msg, k2⟩, hres, hrun⟩ := bind_eq_ok hrun
    obtain rfl : k2 = k' := (ok_pair hrun).2
    exact hr1.recvResume_follows h (Or.inl rfl) (by simp [Vars.reschedules, hmsg]) hres
  | false =>
    simp only [hmsg, Bool.false_eq_true, if_false, Bool.not_false, if_true] at hrun hr1
    obtain ⟨k2, hres, hrun⟩ := bind_eq_ok hrun
    obtain rfl : k2 = k' := (ok_pair hrun).2
    have hblock := h.block (h.current c (Set.notMem_empty c)) (s := .PRRECV) (Or.inl rfl)
    obtain ⟨b, hb, hr'⟩ := (hr1.resched (hblock.canResched hr1.wf c)).of_ok hres
    exact .of_resched hr' (hblock.resched_of_idle (by simp) hr1.wf hb)
      (.wait hmsg (hblock.rescheduled hr1.wf hb)) hr1.wf ⟨rfl, rfl⟩ (fun _ _ => rfl) hb
      (by simp [Vars.reschedules, hmsg])

theorem recvnow_follows {r : Option Int} (hrun : k.recvnow c = .ok (r, k')) :
    Follows k' a c .recvnow := by
  obtain ⟨k1, hnow, hr1⟩ := hr.recvnow (h.pid c)
  obtain rfl : k' = k1 := (ok_pair (hrun.symm.trans hnow)).2
  cases hmsg : (a.proctab (a.currpid c)).hasMessage with
  | true =>
    simp only [hmsg, if_true] at hr1
    exact .of_same hr1 (h.congr AbsKernel.sameSched_drain) (.recvnow hmsg) ⟨rfl, rfl⟩
      (fun _ _ => rfl) rfl
  | false =>
    simp only [hmsg, Bool.false_eq_true, if_false] at hr1
    exact .of_unchanged hr1 h ⟨rfl, rfl, rfl, rfl, rfl, rfl⟩ rfl

end Calls

end Refines

/-- Every permitted call has one of its effects, provided that `kill` is
not used on a process that waits to send. -/
theorem Sys.exec_effect {s s' : Sys} (hr : Refines s.kernel a) (h : a.SchedInv ∅)
    (hperm : s.Permitted c call)
    (hkill : ∀ pid, call = .kill pid → s.kernel.killRefuses c pid = false →
      s.kernel.states pid ≠ .PRSEND)
    (hrun : s.exec c call = .ok s') : Follows s'.kernel a c call := by
  cases call with
  | create args =>
    obtain ⟨⟨r, k'⟩, hcall, hrun⟩ := bind_eq_ok hrun
    cases hrun
    exact hr.create_follows h hperm.2 hcall
  | ready pid resch core =>
    obtain ⟨⟨r, k'⟩, hcall, hrun⟩ := bind_eq_ok hrun
    cases hrun
    obtain ⟨-, hpid, hsusp, hcore⟩ := hperm
    exact hr.ready_follows h hpid (hr.states ▸ hsusp) hcore hcall
  | resched =>
    obtain ⟨k', hcall, hrun⟩ := bind_eq_ok hrun
    cases hrun
    exact hr.resched_follows h hcall
  | kill pid =>
    obtain ⟨⟨r, k'⟩, hcall, hrun⟩ := bind_eq_ok hrun
    cases hrun
    exact hr.kill_follows h (hkill pid rfl) hcall
  | send pid msg =>
    obtain ⟨⟨r, k'⟩, hcall, hrun⟩ := bind_eq_ok hrun
    cases hrun
    exact hr.send_follows h hcall
  | sendnow pid msg =>
    obtain ⟨⟨r, k'⟩, hcall, hrun⟩ := bind_eq_ok hrun
    cases hrun
    exact hr.sendnow_follows h hcall
  | recv =>
    obtain ⟨⟨r, k'⟩, hcall, hrun⟩ := bind_eq_ok hrun
    cases hrun
    exact hr.recv_follows h hcall
  | recvResume =>
    obtain ⟨⟨r, k'⟩, hcall, hrun⟩ := bind_eq_ok hrun
    cases hrun
    exact hr.recvResume_follows h (Or.inr rfl) rfl hcall
  | recvnow =>
    obtain ⟨⟨r, k'⟩, hcall, hrun⟩ := bind_eq_ok hrun
    cases hrun
    exact hr.recvnow_follows h hcall

end Xinu
