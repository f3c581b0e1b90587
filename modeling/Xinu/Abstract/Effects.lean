import Xinu.Abstract.Calls
import Xinu.System.Calls

/-!
# `Xinu.Abstract.Effects`: what a call can do

`Effect a c call b` lists, case by case, what the call of a process on
core `c` can turn the abstract kernel `a` into. The invariants of the
system are proved from these cases.

A call that ends in `resched` leaves the choice of the next process open:
`Rescheduled a b` says what does not depend on that choice.
-/

namespace Xinu

open Function

/-- Current or ready. -/
def PrState.Active (s : PrState) : Prop := s = .PRCURR ∨ s = .PRREADY

namespace AbsKernel

variable {a b e : AbsKernel} {c : Core} {p x : Int} {idle : Set Core}

/-! ### After a switch -/

/-- `b` is `a` after some scheduling: processes only go from current to
ready and back. -/
structure Rescheduled (a b : AbsKernel) : Prop where
  pcb : ∀ x, b.proctab x = { a.proctab x with state := b.states x }
  state : ∀ x, b.states x = a.states x ∨ (a.states x).Active ∧ (b.states x).Active
  senders : ∀ r, b.queue (.senders r) = a.queue (.senders r)
  numproc : b.numproc = a.numproc

theorem Rescheduled.trans (h1 : Rescheduled a b) (h2 : Rescheduled b e) : Rescheduled a e where
  pcb x := by rw [h2.pcb x, h1.pcb x]
  state x := by
    rcases h1.state x with h | ⟨ha, hb⟩
    · exact h ▸ h2.state x
    · rcases h2.state x with h | ⟨-, he⟩
      · exact Or.inr ⟨ha, h.symm ▸ hb⟩
      · exact Or.inr ⟨ha, he⟩
  senders r := (h2.senders r).trans (h1.senders r)
  numproc := h2.numproc.trans h1.numproc

/-- A process that is neither current nor ready keeps its state. -/
theorem Rescheduled.states_eq_iff (h : Rescheduled a b) {s : PrState} (hs : ¬ s.Active) :
    b.states x = s ↔ a.states x = s := by
  rcases h.state x with heq | ⟨ha, hb⟩
  · rw [heq]
  · exact ⟨fun heq => absurd (heq ▸ hb) hs, fun heq => absurd (heq ▸ ha) hs⟩

theorem Rescheduled.active (h : Rescheduled a b) (ha : (a.states x).Active) :
    (b.states x).Active := by
  rcases h.state x with heq | ⟨-, hb⟩
  · rwa [heq]
  · exact hb

/-- Nothing but queues of ready processes and counters changed. -/
theorem Rescheduled.of_proctab (hproc : b.proctab = a.proctab)
    (hsend : ∀ r, b.queue (.senders r) = a.queue (.senders r)) (hnum : b.numproc = a.numproc) :
    Rescheduled a b where
  pcb x := by
    rw [Vars.states, hproc]
  state x := Or.inl (by rw [Vars.states, hproc]; rfl)
  senders := hsend
  numproc := hnum

/-- One process goes from current to ready or back. -/
theorem Rescheduled.of_setState {s : PrState} (ha : (a.states p).Active) (hs : s.Active)
    (hproc : b.proctab = (a.setState p s).proctab)
    (hsend : ∀ r, b.queue (.senders r) = a.queue (.senders r)) (hnum : b.numproc = a.numproc) :
    Rescheduled a b := by
  have hother : ∀ x, x ≠ p → b.proctab x = a.proctab x := fun x hx =>
    (congrFun hproc x).trans (update_of_ne hx _ _)
  have hself : b.proctab p = { a.proctab p with state := s } :=
    (congrFun hproc p).trans (update_self ..)
  refine ⟨fun x => ?_, fun x => ?_, hsend, hnum⟩
  · by_cases hx : x = p
    · subst hx
      rw [Vars.states, hself]
    · rw [Vars.states, hother x hx]
  · by_cases hx : x = p
    · subst hx
      refine Or.inr ⟨ha, ?_⟩
      rwa [Vars.states, hself]
    · exact Or.inl (by rw [Vars.states, hother x hx]; rfl)

theorem rescheduled_yield : Rescheduled a (a.yield c) := by
  by_cases hs : (a.proctab (a.currpid c)).state = .PRCURR
  · rw [yield_of_current hs]
    exact .of_setState (p := a.currpid c) (s := .PRREADY) (Or.inl hs) (Or.inr rfl) rfl
      (fun r => senders_push) rfl
  · rw [yield_of_stopped hs]
    exact .of_proctab rfl (fun _ => rfl) rfl

/-- The process that is dispatched was ready. -/
theorem SchedInv.rescheduled_dispatch (h : a.SchedInv idle) (hwf : a.Wf)
    (hb : a.dispatch c = some b) : Rescheduled a b := by
  have hq := Queue.valid_ready c (highestPrio_range (a := a) (c := c))
  obtain ⟨p, l, hl, rfl⟩ := dispatch_eq_some hb
  have hmem : p ∈ a.queue (.ready c (a.highestPrio c)) := hl ▸ List.mem_cons_self
  have hready := ((h.procs p (hwf.pids _ hq p hmem)).ready_state c (isCore c)
    ⟨_, highestPrio_range, hmem⟩).1
  exact .of_setState (p := p) (s := .PRCURR) (Or.inr hready) (Or.inl rfl) rfl
    (fun r => senders_pop (a := a) (d := c) (i := a.highestPrio c)) rfl

theorem SchedInv.rescheduled (h : a.SchedInv idle) (hwf : a.Wf) (hb : a.resched c = some b) :
    Rescheduled a b := by
  have hage : Rescheduled a (a.age c) := .of_proctab age_proctab (fun _ => senders_age) age_numproc
  have hyield := (h.age (c := c)).yield (c := c)
  exact (hage.trans rescheduled_yield).trans
    (hyield.rescheduled_dispatch ((hwf.age (c := c)).yield (h.age (c := c))) hb)

/-! ### The effects of the calls -/

/-- No process and no queue changed. -/
structure Unchanged (a b : AbsKernel) : Prop where
  proctab : b.proctab = a.proctab
  currpid : b.currpid = a.currpid
  numproc : b.numproc = a.numproc
  queue : b.queue = a.queue
  counters : b.promoteMedium = a.promoteMedium ∧ b.promoteLow = a.promoteLow

/-- A process was entered into slot `pid`. -/
structure Entered (a b : AbsKernel) (args : Vars.CreateArgs) (pid : Int)
    (saddr : Ulong) : Prop where
  proctab : b.proctab = update a.proctab pid (Vars.newPcb (a.proctab pid) args saddr)
  currpid : b.currpid = a.currpid
  numproc : b.numproc = a.numproc + 1
  queue : b.queue = a.queue
  counters : b.promoteMedium = a.promoteMedium ∧ b.promoteLow = a.promoteLow

/-- Process `pid` was killed: the others are as after some scheduling,
and the queues of senders are as they were. -/
structure Killed (a b : AbsKernel) (pid : Int) : Prop where
  free : b.states pid = .PRFREE
  pcb : ∀ x, x ≠ pid → b.proctab x = { a.proctab x with state := b.states x }
  state : ∀ x, x ≠ pid → b.states x = a.states x ∨ (a.states x).Active ∧ (b.states x).Active
  senders : ∀ r, IsPid r → b.queue (.senders r) = a.queue (.senders r)

theorem Killed.of_rescheduled (h : Rescheduled (a.setState p .PRFREE) b) : Killed a b p := by
  have hstate : (a.setState p .PRFREE).states p = .PRFREE :=
    states_setState_self
  have hother : ∀ x, x ≠ p → (a.setState p .PRFREE).proctab x = a.proctab x := fun x hx =>
    update_of_ne hx _ _
  refine ⟨?_, fun x hx => ?_, fun x hx => ?_, fun r _ => h.senders r⟩
  · -- A free process is not active, so the switch left it alone.
    rcases h.state p with heq | ⟨hact, -⟩
    · exact heq.trans hstate
    · rw [hstate] at hact
      exact absurd hact (by simp [PrState.Active])
  · rw [h.pcb x, hother x hx]
  · have hs := h.state x
    rwa [show (a.setState p .PRFREE).states x = a.states x from
      congrArg Pcb.state (hother x hx)] at hs

theorem Killed.states_eq_iff (h : Killed a b p) (hx : x ≠ p) {s : PrState} (hs : ¬ s.Active) :
    b.states x = s ↔ a.states x = s := by
  rcases h.state x hx with heq | ⟨ha, hb⟩
  · rw [heq]
  · exact ⟨fun heq => absurd (heq ▸ hb) hs, fun heq => absurd (heq ▸ ha) hs⟩

/-- What a call of the process on core `c` can do. -/
inductive Effect (a : AbsKernel) (c : Core) : Call → AbsKernel → Prop where
  /-- The call was refused or found nothing to do. -/
  | same {call : Call} {b : AbsKernel} (h : Unchanged a b) : Effect a c call b
  | create {args : Vars.CreateArgs} {pid : Int} {saddr : Ulong} {b : AbsKernel} (hpid : IsPid pid)
    (hfree : a.states pid = .PRFREE)
      (h : Entered a b args pid saddr) : Effect a c (.create args) b
  | ready {pid : Int} {resch : Bool} {core : Ulong} {b : AbsKernel} (hp : a.Asleep pid)
    (hsusp : a.states pid = .PRSUSP)
      (h : Rescheduled (a.wake pid core) b) : Effect a c (.ready pid resch core) b
  | resched {b : AbsKernel} (h : Rescheduled a b) : Effect a c .resched b
  | kill {pid : Int} {b : AbsKernel} (hno : a.killRefuses c pid = false) (h : Killed a b pid)
      (hnum : b.numproc = a.numproc - 1) : Effect a c (.kill pid) b
  /-- `send` to a full mailbox. -/
  | park {pid msg : Int} {b : AbsKernel} (hpid : IsPid pid) (hlive : a.states pid ≠ .PRFREE)
      (hfull : (a.proctab pid).hasMessage = true)
      (h : Rescheduled (a.park (a.currpid c) pid msg) b) : Effect a c (.send pid msg) b
  /-- `send` or `sendnow` to an empty mailbox whose owner does not
  wait. -/
  | deposit {call : Call} {pid msg : Int} (hcall : call = .send pid msg ∨ call = .sendnow pid msg)
      (hpid : IsPid pid) (hlive : a.states pid ≠ .PRFREE)
      (hempty : (a.proctab pid).hasMessage = false) (hstate : a.states pid ≠ .PRRECV) :
      Effect a c call (a.deposit pid msg)
  /-- `send` or `sendnow` to a waiting process. -/
  | deliver {call : Call} {pid msg : Int} {core : Ulong} {b : AbsKernel}
      (hcall : call = .send pid msg ∨ call = .sendnow pid msg)
      (hpid : IsPid pid) (hempty : (a.proctab pid).hasMessage = false)
      (hstate : a.states pid = .PRRECV) (h : Rescheduled ((a.deposit pid msg).wake pid core) b) :
      Effect a c call b
  /-- `recv` with no message. -/
  | wait {b : AbsKernel} (hempty : (a.proctab (a.currpid c)).hasMessage = false)
      (h : Rescheduled (a.setState (a.currpid c) .PRRECV) b) : Effect a c .recv b
  /-- `recv` of the last message. -/
  | drain {call : Call} (hcall : call = .recv ∨ call = .recvResume)
      (hnone : a.queue (.senders (a.currpid c)) = []) : Effect a c call (a.drain (a.currpid c))
  /-- `recv` with senders waiting. -/
  | refill {call : Call} {sender : Int} {l : List Int} {core : Ulong}
      (hcall : call = .recv ∨ call = .recvResume)
      (hl : a.queue (.senders (a.currpid c)) = sender :: l) :
      Effect a c call ((a.refill (a.currpid c) sender).wake sender core)
  /-- `recvnow` empties the mailbox, whoever waits. -/
  | recvnow (hfull : (a.proctab (a.currpid c)).hasMessage = true) :
      Effect a c .recvnow (a.drain (a.currpid c))

/-- What `create` can do: enter a process, or nothing. -/
theorem Effect.create_cases {a b : AbsKernel} {c : Core} {args : Vars.CreateArgs}
    (he : Effect a c (.create args) b) : Unchanged a b ∨
      ∃ pid saddr, IsPid pid ∧ a.states pid = .PRFREE ∧ Entered a b args pid saddr := by
  cases he with
  | same h => exact Or.inl h
  | create hpid hfree h => exact Or.inr ⟨_, _, hpid, hfree, h⟩
  -- The other effects belong to the message calls.
  | deposit hcall | deliver hcall | drain hcall | refill hcall => simp at hcall

/-- What `kill` can do: kill the process, or nothing. -/
theorem Effect.kill_cases {a b : AbsKernel} {c : Core} {pid : Int} (he : Effect a c (.kill pid) b) :
    Unchanged a b ∨ a.killRefuses c pid = false ∧ Killed a b pid := by
  cases he with
  | same h => exact Or.inl h
  | kill hno h => exact Or.inr ⟨hno, h⟩
  | deposit hcall | deliver hcall | drain hcall | refill hcall => simp at hcall

end AbsKernel

end Xinu
