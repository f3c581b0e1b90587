import Xinu.Proofs.Kernel.Scheduler

/-!
# `Xinu.Proofs.Kernel.Mailbox`: mailboxes and blocked senders over whole runs

A process has senders waiting only while its mailbox is full, and it
waits in `recv` only while the mailbox is empty. A free slot has no
senders, and no free process is on a queue.

Two calls do not respect this. `recvnow` empties the mailbox of a process
without looking at the senders that wait for it. `kill` frees a process
that waits to send without taking it off the queue it is on, and frees a
process that has senders waiting. `Careful` excludes these uses. Then
the property holds over every run (`noStranded_of_careful`,
`noTrace_of_careful`). Without it there are runs that break it
(`stranded_recvnow`, `trace_kill`).
-/

namespace Xinu

open Function

namespace AbsKernel

variable {a b : AbsKernel} {c : Core} {p x : Int} {call : Call}

/-- The mailbox of one process, its senders and its state agree. -/
structure MailOk (a : AbsKernel) (p : Int) : Prop where
  dead : a.states p = .PRFREE → a.queue (.senders p) = []
  full : a.queue (.senders p) ≠ [] → (a.proctab p).hasMessage = true
  waiting : a.states p = .PRRECV → (a.proctab p).hasMessage = false

/-- Neither the mailbox nor its senders changed, and the process did not
die or start to wait. -/
theorem MailOk.congr (h : a.MailOk p) (hfree : b.states p = .PRFREE → a.states p = .PRFREE)
    (hrecv : b.states p = .PRRECV → a.states p = .PRRECV)
    (hmsg : (b.proctab p).hasMessage = (a.proctab p).hasMessage)
    (hsend : b.queue (.senders p) = a.queue (.senders p)) : b.MailOk p where
  dead hs := hsend ▸ h.dead (hfree hs)
  full hs := hmsg ▸ h.full (hsend ▸ hs)
  waiting hs := hmsg ▸ h.waiting (hrecv hs)

theorem MailOk.congr_pcb (h : a.MailOk p) (hpcb : b.proctab p = a.proctab p)
    (hsend : b.queue (.senders p) = a.queue (.senders p)) : b.MailOk p := by
  have hstate : b.states p = a.states p := congrArg Pcb.state hpcb
  exact h.congr (fun hs => hstate ▸ hs) (fun hs => hstate ▸ hs) (by rw [hpcb]) hsend

theorem MailOk.rescheduled (h : a.MailOk p) (hres : Rescheduled a b) : b.MailOk p :=
  h.congr (hres.states_eq_iff (by simp [PrState.Active])).mp
    (hres.states_eq_iff (by simp [PrState.Active])).mp (by rw [hres.pcb]) (hres.senders p)

/-- Waking a process, its own mailbox included. -/
theorem MailOk.wake (h : x ≠ p → a.MailOk x)
    (hself : a.queue (.senders p) ≠ [] → (a.proctab p).hasMessage = true) {core : Ulong} :
    (a.wake p core).MailOk x := by
  have hsend : (a.wake p core).queue (.senders x) = a.queue (.senders x) := senders_push
  by_cases hx : x = p
  · subst hx
    obtain ⟨d, hpcb, -⟩ := Vars.makeReady_self a.toVars x core
    have hstate : (a.wake x core).states x = .PRREADY := congrArg Pcb.state hpcb
    refine ⟨fun hs => ?_, fun hs => ?_, fun hs => ?_⟩
    · cases hstate.symm.trans hs
    · exact (congrArg Pcb.hasMessage hpcb).trans (hself (hsend ▸ hs))
    · cases hstate.symm.trans hs
  · exact (h hx).congr_pcb (Vars.makeReady_of_ne hx) hsend

section Effects
variable (h : ∀ x, IsPid x → a.MailOk x)
include h

theorem mailOk_park {r msg : Int} (hpid : IsPid r) (hfull : (a.proctab r).hasMessage = true)
    (hlive : a.states r ≠ .PRFREE) (hx : IsPid x) : (a.park p r msg).MailOk x := by
  have hpcb : ∀ y, y ≠ p → (a.park p r msg).proctab y = a.proctab y := fun y hy =>
    update_of_ne hy _ _
  have hself : (a.park p r msg).proctab p = { a.proctab p with msgout := msg, state := .PRSEND } :=
    update_self ..
  have hmsg : ∀ y, ((a.park p r msg).proctab y).hasMessage = (a.proctab y).hasMessage := fun y => by
    by_cases hy : y = p
    · rw [hy, hself]
    · rw [hpcb y hy]
  have hstate : ∀ y, (a.park p r msg).states y = .PRSEND ∨
      (a.park p r msg).states y = a.states y := fun y => by
    by_cases hy : y = p
    · exact Or.inl (by rw [hy, Vars.states, hself])
    · exact Or.inr (by rw [Vars.states, hpcb y hy]; rfl)
  -- Whoever is in another state than `PRSEND` now was in it before.
  have hkeep : ∀ y s, s ≠ .PRSEND → (a.park p r msg).states y = s → a.states y = s :=
    fun y s hs heq => by
      rcases hstate y with hsend | hsame
      · exact absurd (heq.symm.trans hsend) hs
      · exact hsame ▸ heq
  by_cases hxr : x = r
  · subst hxr
    refine ⟨fun hs => ?_, fun _ => ?_, fun hs => ?_⟩
    · exact absurd (hkeep x _ (by simp) hs) hlive
    · rw [hmsg, hfull]
    · rw [hmsg]
      exact (h x hx).waiting (hkeep x _ (by simp) hs)
  · refine (h x hx).congr (hkeep x _ (by simp)) (hkeep x _ (by simp)) (hmsg x) ?_
    exact update_of_ne (by simp [hxr]) _ _

theorem mailOk_deposit {msg : Int} (hlive : a.states p ≠ .PRFREE) (hx : IsPid x)
    (hxp : x = p → a.states p ≠ .PRRECV) : (a.deposit p msg).MailOk x := by
  by_cases heq : x = p
  · subst heq
    have hpcb : (a.deposit x msg).proctab x =
        { a.proctab x with msgin := msg, hasMessage := true } := update_self ..
    have hstate : (a.deposit x msg).states x = a.states x := sameSched_deposit.states x
    refine ⟨fun hs => absurd (hstate ▸ hs) hlive, fun _ => by rw [hpcb], fun hs => ?_⟩
    exact absurd (hstate ▸ hs) (hxp rfl)
  · exact (h x hx).congr_pcb (update_of_ne heq _ _) rfl

theorem mailOk_drain (hnone : a.queue (.senders p) = []) (hx : IsPid x) : (a.drain p).MailOk x := by
  by_cases heq : x = p
  · subst heq
    have hpcb : (a.drain x).proctab x = { a.proctab x with hasMessage := false } :=
      update_self ..
    exact ⟨fun _ => hnone, fun hs => absurd hnone hs, fun _ => by rw [hpcb]⟩
  · exact (h x hx).congr_pcb (update_of_ne heq _ _) rfl

theorem mailOk_wait (hempty : (a.proctab p).hasMessage = false) (hx : IsPid x) :
    (a.setState p .PRRECV).MailOk x := by
  by_cases heq : x = p
  · subst heq
    have hpcb : (a.setState x .PRRECV).proctab x = { a.proctab x with state := .PRRECV } :=
      update_self ..
    have hstate : (a.setState x .PRRECV).states x = .PRRECV := congrArg Pcb.state hpcb
    refine ⟨fun hs => absurd (hstate.symm.trans hs) (by simp), fun hs => ?_, fun _ => ?_⟩
    · rw [hpcb]
      exact (h x hx).full hs
    · rw [hpcb, hempty]
  · exact (h x hx).congr_pcb (update_of_ne heq _ _) rfl

/-- `recv` with senders waiting: the mailbox stays full. -/
theorem mailOk_refill {sender : Int} {l : List Int}
    (hl : a.queue (.senders p) = sender :: l) (hx : IsPid x) : (a.refill p sender).MailOk x := by
  have hpcb : ∀ y, (((a.refill p sender).proctab y).state = (a.proctab y).state) ∧
      ((a.refill p sender).proctab y).hasMessage = (a.proctab y).hasMessage := fun y => by
    simp only [refill, setPcb, Vars.setPcb, pop, update_apply]
    split <;> split <;> simp_all
  have hstate : (a.refill p sender).states x = a.states x := (hpcb x).1
  by_cases heq : x = p
  · subst heq
    have hfull := (h x hx).full (by simp [hl])
    refine ⟨fun hs => ?_, fun _ => (hpcb x).2.trans hfull, fun hs => ?_⟩
    · rw [hstate] at hs
      rw [(h x hx).dead hs] at hl
      cases hl
    · exact (hpcb x).2.trans ((h x hx).waiting (hstate ▸ hs))
  · refine (h x hx).congr (fun hs => hstate ▸ hs) (fun hs => hstate ▸ hs) (hpcb x).2 ?_
    exact update_of_ne (by simp [heq]) _ _

/-- A call keeps every mailbox in order, unless it is `kill` of a process
with senders waiting, or `recvnow` by one. -/
theorem mailOk_effect (hwf : a.Wf) (hcur : IsPid (a.currpid c)) (he : Effect a c call b)
    (hkill : ∀ pid, call = .kill pid → a.killRefuses c pid = false → a.queue (.senders pid) = [])
    (hnow : call = .recvnow → (a.proctab (a.currpid c)).hasMessage = true →
      a.queue (.senders (a.currpid c)) = [])
    (hx : IsPid x) : b.MailOk x := by
  cases he with
  | same hsame =>
    exact (h x hx).congr_pcb (congrFun hsame.proctab x) (congrFun hsame.queue _)
  | @create args pid saddr _ hpid hfree hent =>
    by_cases hxp : x = pid
    · subst hxp
      have hpcb : b.proctab x = Vars.newPcb (a.proctab x) args saddr := by
        rw [hent.proctab, update_self]
      have hstate : b.states x = .PRSUSP := congrArg Pcb.state hpcb
      -- The slot was free, so no senders were left in its queue.
      have hnone : b.queue (.senders x) = [] := by rw [hent.queue, (h x hx).dead hfree]
      exact ⟨fun _ => hnone, fun hs => absurd hnone hs,
        fun hs => absurd (hstate.symm.trans hs) (by simp)⟩
    · exact (h x hx).congr_pcb (by rw [hent.proctab, update_of_ne hxp])
        (congrFun hent.queue _)
  | ready hp _ hres =>
    exact (MailOk.wake (fun _ => h x hx) (h _ hp.pid).full).rescheduled hres
  | resched hres => exact (h x hx).rescheduled hres
  | @kill pid _ hno hk =>
    by_cases hxp : x = pid
    · subst hxp
      have hnone : b.queue (.senders x) = [] := by rw [hk.senders x hx, hkill x rfl hno]
      exact ⟨fun _ => hnone, fun hs => absurd hnone hs,
        fun hs => absurd (hk.free.symm.trans hs) (by simp)⟩
    · exact (h x hx).congr (hk.states_eq_iff hxp (by simp [PrState.Active])).mp
        (hk.states_eq_iff hxp (by simp [PrState.Active])).mp (by rw [hk.pcb x hxp])
        (hk.senders x hx)
  | park hpid hlive hfull hres => exact (mailOk_park h hpid hfull hlive hx).rescheduled hres
  | deposit _ hpid hlive _ hst => exact mailOk_deposit h hlive hx fun _ => hst
  | @deliver _ pid msg core _ _ hpid hempty hst hres =>
    have hlive : a.states pid ≠ .PRFREE := by simp [hst]
    -- The receiver is woken with its message, so it does not wait any more.
    refine (MailOk.wake (fun hxp => mailOk_deposit h hlive hx fun heq => absurd heq hxp)
      fun _ => ?_).rescheduled hres
    simp [deposit, setPcb, Vars.setPcb]
  | wait hempty hres => exact (mailOk_wait h hempty hx).rescheduled hres
  | drain _ hnone => exact mailOk_drain h hnone hx
  | @refill _ sender l core _ hl =>
    have hall : ∀ y, IsPid y → (a.refill (a.currpid c) sender).MailOk y := fun y hy =>
      mailOk_refill h hl hy
    have hq : (Queue.senders (a.currpid c)).Valid := hcur
    exact MailOk.wake (fun _ => hall x hx)
      (hall sender (hwf.pids _ hq sender (hl ▸ List.mem_cons_self))).full
  | recvnow hfull => exact mailOk_drain h (hnow rfl hfull) hx

end Effects

end AbsKernel

/-! ### Runs -/

theorem Refines.senders {k : Kernel} {a : AbsKernel} {p : Int} (hr : Refines k a) (hp : IsPid p) :
    k.senders p = a.queue (.senders p) := by
  have hq : (Queue.senders p).Valid := hp
  rw [Kernel.senders, hr.proctab, hr.msgIds p hp, Queuetab.members_eq hr.table (Queue.ix_lt hq),
    AbsKernel.contents_ix hq]

namespace Sys

/-- `kill` is used on processes that neither wait to send nor have
senders waiting, and `recvnow` finds a message only where no sender
waits. -/
def Careful (s : Sys) (cpuid : Core) : Call → Prop
  | .kill pid => s.kernel.killRefuses cpuid pid = false →
      s.kernel.states pid ≠ .PRSEND ∧ s.kernel.senders pid = []
  | .recvnow => (s.kernel.proctab (s.self cpuid)).hasMessage = true →
      s.kernel.senders (s.self cpuid) = []
  | _ => True

instance (s : Sys) (cpuid : Core) (call : Call) : Decidable (s.Careful cpuid call) := by
  rcases call <;> dsimp only [Careful] <;> infer_instance

/-- The invariant of the careful runs. -/
theorem mailOk_of_careful {ok : Sys → Core → Call → Prop} {s : Sys}
    (hok : ∀ s c call, ok s c call → s.Careful c call) (h : Reachable ok s) :
    ∃ a, Refines s.kernel a ∧ a.SchedInv ∅ ∧ ∀ p, IsPid p → a.MailOk p := by
  refine Lib.Reaches.induction
    (P := fun s => ∃ a, Refines s.kernel a ∧ a.SchedInv ∅ ∧ ∀ p, IsPid p → a.MailOk p) h ?_ ?_
  · intro s hboot
    obtain ⟨⟨_, _, _, _, hinit⟩, -⟩ := hboot
    obtain ⟨a, hr, ha⟩ := Kernel.sysinit_refines hinit
    refine ⟨a, hr, ha.schedInv, fun p hp => ⟨fun _ => ha.queue _, fun hs => absurd (ha.queue _) hs,
      fun hs => ?_⟩⟩
    by_cases h4 : 4 ≤ p
    · rw [ha.free p hp h4] at hs
      cases hs
    · obtain ⟨c, rfl⟩ := exists_core ⟨hp.1, Int.not_le.mp h4⟩
      rw [(ha.null c).1] at hs
      cases hs
  · rintro s ⟨c, call⟩ s' ⟨a, hr, hinv, hmail⟩ ⟨hperm, hcall⟩ hrun
    have hcareful := hok s c call hcall
    obtain ⟨b, hr', hinv', he, -⟩ := Sys.exec_effect hr hinv hperm
      (fun pid hpid href => by subst hpid; exact (hcareful href).1) hrun
    refine ⟨b, hr', hinv', fun x hx => AbsKernel.mailOk_effect hmail hr.wf (hinv.pid c) he ?_ ?_ hx⟩
    · rintro pid rfl hno
      have hpid := (isbadpid_eq_false.mp (Vars.killRefuses_eq_false.mp hno).1).1
      rw [← hr.senders hpid]
      exact (hcareful (by rw [hr.vars]; exact hno)).2
    · rintro rfl hmsg
      rw [← hr.senders (hinv.pid c), ← hr.currpid]
      exact hcareful (by rw [Sys.self, hr.currpid, hr.proctab]; exact hmsg)

end Sys

/-! ### No stranded senders -/

namespace Kernel

/-- No sender is left behind: a process with senders waiting has a
message, and one that waits has neither. -/
structure NoStranded (k : Kernel) : Prop where
  full : ∀ p, IsPid p → k.senders p ≠ [] → (k.proctab p).hasMessage = true
  waiting : ∀ p, IsPid p → k.states p = .PRRECV →
    (k.proctab p).hasMessage = false ∧ k.senders p = []
  /-- A `recv` that blocks has no senders waiting. -/
  recv : ∀ c k', k.recv c = .ok (none, k') → k.senders (k.currpid c) = []
  /-- A later `send` joins the end of the queue, and a later `sendnow` is
  refused. -/
  send : ∀ (c : Core) p msg, IsPid p → k.senders p ≠ [] →
    ∃ k', k.sendSection (k.currpid c) p msg = .ok (.block, k') ∧
      k'.senders p = k.senders p ++ [k.currpid c]
  sendnow : ∀ p msg, IsPid p → k.senders p ≠ [] →
    k.sendnowSection p msg = .ok (.ret .syserr, k)

end Kernel

section NoStranded
variable {k : Kernel} {a : AbsKernel} (hr : Refines k a) (hinv : a.SchedInv ∅)
  (hmail : ∀ p, IsPid p → a.MailOk p)
include hr hinv hmail

/-- A `recv` that blocks found no message. -/
theorem Refines.recv_blocks {k' : Kernel} {c : Core} (hrun : k.recv c = .ok (none, k')) :
    k.senders (k.currpid c) = [] := by
  have hpid := hinv.pid c
  obtain ⟨k1, hcheck, -⟩ := hr.recvCheck hpid
  rw [hr.currpid, hr.senders hpid]
  by_contra hne
  simp only [Kernel.recv, hr.currpid, hcheck, ok_bind, (hmail _ hpid).full hne, Bool.not_true,
    Bool.false_eq_true, if_false] at hrun
  obtain ⟨⟨msg, k2⟩, -, hrun⟩ := bind_eq_ok hrun
  cases (ok_pair hrun).1

/-- While senders wait for `p`, a further one blocks behind them. -/
theorem Refines.send_blocks {c : Core} {p msg : Int} (hp : IsPid p) (hne : k.senders p ≠ []) :
    ∃ k', k.sendSection (k.currpid c) p msg = .ok (.block, k') ∧
      k'.senders p = k.senders p ++ [k.currpid c] := by
  have hcur : a.states (a.currpid c) = .PRCURR := hinv.current c (Set.notMem_empty c)
  have hfree := (hinv.procs _ (hinv.pid c)).not_queued (by simp [hcur]) (by simp [hcur])
  have hne' : a.queue (.senders p) ≠ [] := hr.senders hp ▸ hne
  have hbad : isbadpid a.states p = false :=
    isbadpid_eq_false.mpr ⟨hp, fun hs => hne' ((hmail p hp).dead hs)⟩
  obtain ⟨k', hsec, hr'⟩ := hr.sendSection p msg (hinv.pid c) hfree
  simp only [AbsKernel.sendSection, hbad, Bool.false_eq_true, if_false, (hmail p hp).full hne',
    if_true] at hsec hr'
  refine ⟨k', hr.currpid ▸ hsec, ?_⟩
  rw [hr'.senders hp, hr.senders hp, hr.currpid]
  simp [AbsKernel.park, AbsKernel.push, AbsKernel.setPcb]

theorem Refines.noStranded : k.NoStranded where
  full p hp hne := by
    rw [hr.proctab]
    exact (hmail p hp).full (hr.senders hp ▸ hne)
  waiting p hp hs := by
    have hempty := (hmail p hp).waiting (hr.states ▸ hs)
    rw [hr.proctab, hr.senders hp]
    refine ⟨hempty, ?_⟩
    by_contra hne
    cases hempty.symm.trans ((hmail p hp).full hne)
  recv c k' hrun := hr.recv_blocks hinv hmail hrun
  send c p msg hp hne := hr.send_blocks hinv hmail hp hne
  sendnow p msg hp hne := by
    have hfull := (hmail p hp).full (hr.senders hp ▸ hne)
    simp only [Kernel.sendnowSection, hr.pcb hp, ok_bind, hfull, or_true, if_true]
    split <;> rfl

end NoStranded

/-- The call is not `kill`. -/
def Call.NotKill : Call → Prop
  | .kill _ => False
  | _ => True

instance (call : Call) : Decidable call.NotKill := by
  rcases call <;> dsimp only [Call.NotKill] <;> infer_instance

/-- Process 4 sends two messages to process 5. The second `send` blocks,
and process 5 runs. -/
def sendRun : List (Core × Call) :=
  [(0, .create highPriority), (0, .ready 4 true 0), (0, .create highPriority),
    (0, .ready 5 false 0), (0, .send 5 77), (0, .send 5 78)]

/-- `recvnow` strands a sender: process 5 takes the first message with
it, and its mailbox is empty while process 4 waits. -/
theorem stranded_recvnow : ∃ s, Sys.Reachable (fun _ _ call => call.NotKill) s ∧
    s.kernel.senders 5 = [4] ∧ (s.kernel.proctab 5).hasMessage = false := by
  obtain ⟨s, hs, htest⟩ := Sys.exists_reachable (fun _ _ call => call.NotKill) 0x10000 0x90000
    0x8000 (fun _ => 0) (sendRun ++ [(0, .recvnow)])
    (fun s => decide (s.kernel.senders 5 = [4] ∧ (s.kernel.proctab 5).hasMessage = false))
    (by decide +kernel)
  exact ⟨s, hs, of_decide_eq_true htest⟩

/-- In every run without `kill` in which `recvnow` takes a message only
where no sender waits, no sender is stranded. -/
theorem noStranded_of_careful {s : Sys}
    (h : Sys.Reachable (fun s c call => call.NotKill ∧ s.Careful c call) s) :
    s.kernel.NoStranded := by
  obtain ⟨a, hr, hinv, hmail⟩ := Sys.mailOk_of_careful (fun _ _ _ hok => hok.2) h
  exact hr.noStranded hinv hmail

/-- Process 5 takes the first message with `recv`, which wakes process 4,
and the second with `recvnow`. -/
theorem noStranded_sendRun :
    (Sys.boot (fun s c call => call.NotKill ∧ s.Careful c call) 0x10000 0x90000 0x8000 (fun _ => 0)
      (sendRun ++ [(0, .recv), (0, .recvnow)])).any
        (fun s => s.kernel.states 4 = .PRREADY && !(s.kernel.proctab 5).hasMessage) = true ∧
    ∀ s, Sys.boot (fun s c call => call.NotKill ∧ s.Careful c call) 0x10000 0x90000 0x8000
      (fun _ => 0) (sendRun ++ [(0, .recv), (0, .recvnow)]) = some s → s.kernel.NoStranded :=
  ⟨by decide +kernel, fun _ hs => noStranded_of_careful (Sys.reachable_boot hs)⟩

/-! ### No trace of a killed process -/

namespace Kernel

/-- No free process is on a queue, and a free slot has no senders
waiting. -/
structure NoTrace (k : Kernel) : Prop where
  ready : ∀ (c : Core) i p, 0 ≤ i ∧ i < 3 → p ∈ k.readyMembers c i → k.states p ≠ .PRFREE
  senders : ∀ r p, IsPid r → p ∈ k.senders r → k.states p ≠ .PRFREE
  own : ∀ p, IsPid p → k.states p = .PRFREE → k.senders p = []
  /-- What `recv` takes off its queue waits to send: it is not a process
  created later in the same slot. -/
  sending : ∀ r p, IsPid r → p ∈ k.senders r → k.states p = .PRSEND
  /-- A new process has no senders waiting. -/
  create : ∀ c args pid k', k.create c args = .ok (some pid, k') → k'.senders pid = []

end Kernel

theorem Refines.noTrace {k : Kernel} {a : AbsKernel} (hr : Refines k a) (hinv : a.SchedInv ∅)
    (hmail : ∀ p, IsPid p → a.MailOk p) : k.NoTrace := by
  have hsending : ∀ r p, IsPid r → p ∈ k.senders r → k.states p = .PRSEND := fun r p hpr hp => by
    rw [hr.senders hpr] at hp
    have hq : (Queue.senders r).Valid := hpr
    rw [hr.states]
    exact (hinv.procs p (hr.wf.pids _ hq p hp)).sending r hpr hp
  refine ⟨fun c i p hi hp => ?_, fun r p hpr hp => ?_, fun p hp hs => ?_, hsending,
    fun c args pid k' hrun => ?_⟩
  · rw [hr.readyMembers hi] at hp
    rw [hr.states]
    exact (hinv.canResched hr.wf c).live p ⟨i, hi, hp⟩
  · simp [hsending r p hpr hp]
  · rw [hr.senders hp]
    exact (hmail p hp).dead (hr.states ▸ hs)
  · obtain ⟨hcreate, hr'⟩ := hr.create hrun
    rcases Vars.create_cases hcreate with ⟨hnone, -⟩ | ⟨pid', -, -, -, hsome, hpid, hfree, -⟩
    · cases hnone
    · cases hsome
      rw [hr'.senders hpid]
      exact (hmail pid hpid).dead hfree

/-- The call is not `recvnow`. -/
def Call.NotRecvnow : Call → Prop
  | .recvnow => False
  | _ => True

instance (call : Call) : Decidable call.NotRecvnow := by
  rcases call <;> dsimp only [Call.NotRecvnow] <;> infer_instance

/-- `kill` leaves a trace: process 5 kills process 4, which is still in
its queue of senders. -/
theorem trace_kill : ∃ s, Sys.Reachable (fun _ _ call => call.NotRecvnow) s ∧
    s.kernel.states 4 = .PRFREE ∧ s.kernel.senders 5 = [4] := by
  obtain ⟨s, hs, htest⟩ := Sys.exists_reachable (fun _ _ call => call.NotRecvnow) 0x10000 0x90000
    0x8000 (fun _ => 0) (sendRun ++ [(0, .kill 4)])
    (fun s => decide (s.kernel.states 4 = .PRFREE ∧ s.kernel.senders 5 = [4]))
    (by decide +kernel)
  exact ⟨s, hs, of_decide_eq_true htest⟩

/-- In every run without `recvnow` in which `kill` is used on processes
that neither wait to send nor have senders waiting, a killed process
leaves no trace. -/
theorem noTrace_of_careful {s : Sys}
    (h : Sys.Reachable (fun s c call => call.NotRecvnow ∧ s.Careful c call) s) :
    s.kernel.NoTrace := by
  obtain ⟨a, hr, hinv, hmail⟩ := Sys.mailOk_of_careful (fun _ _ _ hok => hok.2) h
  exact hr.noTrace hinv hmail

/-- Process 5 first receives from process 4 and then kills it. -/
theorem noTrace_sendRun :
    (Sys.boot (fun s c call => call.NotRecvnow ∧ s.Careful c call) 0x10000 0x90000 0x8000
      (fun _ => 0) (sendRun ++ [(0, .recv), (0, .kill 4)])).any
        (fun s => s.kernel.states 4 = .PRFREE) = true ∧
    ∀ s, Sys.boot (fun s c call => call.NotRecvnow ∧ s.Careful c call) 0x10000 0x90000 0x8000
      (fun _ => 0) (sendRun ++ [(0, .recv), (0, .kill 4)]) = some s → s.kernel.NoTrace :=
  ⟨by decide +kernel, fun _ hs => noTrace_of_careful (Sys.reachable_boot hs)⟩

end Xinu
