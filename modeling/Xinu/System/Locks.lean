import Xinu.Lib.Runs
import Xinu.System.Message

/-!
# `Xinu.System.Locks`: the message calls statement by statement

`send`, `sendnow`, `recv` and `recvnow` run with interrupts enabled, so
the clock may call `resched` between any two of their statements. Here
each statement is a step, `Pc` says which statement a process is at, and
the state records who holds each mailbox lock. `lock_acquire` of a lock
that is taken spins: its step changes nothing. `ready` and `resched`
disable interrupts and are one step each, and so are the queue functions.

The messages that `recv` and `recvnow` return stay in local variables
and are left out.
-/

namespace Xinu

open Function

/-- `clkhandler()` on core `cpuid`: the quantum of the running process
shrinks, and `resched` is called when it is used up. The counter is
unsigned. -/
def Kernel.clkhandler (k : Kernel) (cpuid : Core) : Except Fault Kernel :=
  let k := { k with preempt := update k.preempt cpuid (k.preempt cpuid - 1) }
  if k.preempt cpuid ≤ 0 then k.resched cpuid else .ok k

/-- The statement a process is at. -/
inductive Pc where
  /-- In no message call. -/
  | running
  /-- `if (isbadpid(pid)) return SYSERR` of `send`. -/
  | sendBadpid (pid msg : Int)
  /-- `lock_acquire(rpcb->msg_var.core_com_lock)` of `send`. -/
  | sendAcquire (pid msg : Int)
  /-- `if (PRFREE == rpcb->state)` of `send`. -/
  | sendFree (pid msg : Int)
  /-- `if (TRUE == rpcb->msg_var.hasMessage)` of `send`. -/
  | sendFull (pid msg : Int)
  /-- `spcb->msg_var.msgout = msg`. -/
  | sendMsgout (pid msg : Int)
  /-- `spcb->state = PRSEND`. -/
  | sendState (pid : Int)
  /-- `enqueue(currpid[getcpuid()], rpcb->msg_var.msgqueue)`. -/
  | sendEnqueue (pid : Int)
  /-- `lock_release` before the `resched` of `send`. -/
  | sendRelease (pid : Int)
  /-- `resched()` of `send`, then `return OK`. -/
  | sendResched
  /-- `lock_acquire(ppcb->msg_var.core_com_lock)` of `sendnow`. -/
  | sendnowAcquire (pid msg : Int)
  /-- `if (isbadpid(pid))` of `sendnow`. -/
  | sendnowBadpid (pid msg : Int)
  /-- `if (PRFREE == ppcb->state || ppcb->msg_var.hasMessage)` of
  `sendnow`. -/
  | sendnowFull (pid msg : Int)
  /-- `msgin = msg` of `send` and `sendnow`, which differ in what they
  pass to `ready` later. -/
  | deposit (pid msg : Int) (resch : Bool)
  /-- `hasMessage = TRUE`. -/
  | raise (pid : Int) (resch : Bool)
  /-- `if (PRRECV == rpcb->state)`. -/
  | waiting (pid : Int) (resch : Bool)
  /-- The first `lock_acquire` of `recv`. -/
  | recvAcquire
  /-- `if (FALSE == ppcb->msg_var.hasMessage)` of `recv`. -/
  | recvEmpty
  /-- `ppcb->state = PRRECV`. -/
  | recvState
  /-- `lock_release` before the `resched` of `recv`. -/
  | recvRelease
  /-- `resched()` of `recv`. -/
  | recvResched
  /-- The second `lock_acquire` of `recv`. -/
  | recvReacquire
  /-- `msg = ppcb->msg_var.msgin` of `recv`. -/
  | recvTake
  /-- `if (nonempty(ppcb->msg_var.msgqueue))`. -/
  | recvNonempty
  /-- `senderpid = dequeue(ppcb->msg_var.msgqueue)`. -/
  | recvDequeue
  /-- `ppcb->msg_var.msgin = proctab[senderpid].msg_var.msgout`. -/
  | recvRefill (senderpid : Int)
  /-- `proctab[senderpid].msg_var.msgout = EMPTY`. -/
  | recvClear (senderpid : Int)
  /-- `lock_acquire` of `recvnow`. -/
  | recvnowAcquire
  /-- `if (FALSE == ppcb->msg_var.hasMessage)` of `recvnow`. -/
  | recvnowEmpty
  /-- `msg = ppcb->msg_var.msgin` of `recvnow`. -/
  | recvnowTake
  /-- `hasMessage = FALSE` of `recv` and `recvnow`. -/
  | lower
  /-- `lock_release` before a `ready`. -/
  | wakeRelease (lock pid : Int) (resch : Bool)
  /-- `ready(pid, resch, proctab[pid].core_affinity)`, then `return`. -/
  | ready (pid : Int) (resch : Bool)
  /-- `lock_release`, then `return`. -/
  | release (lock : Int)
deriving DecidableEq

/-- The kernel between two statements. -/
structure Locks where
  kernel : Kernel
  pc : Int → Pc
  /-- Who holds the `core_com_lock` of a process slot. -/
  holder : Int → Option Int

namespace Locks

/-- The process that runs on the core. -/
def self (s : Locks) (cpuid : Core) : Int := s.kernel.currpid cpuid

/-- `self` goes on with the statement at `x`. -/
def goto (s : Locks) (self : Int) (x : Pc) : Locks := { s with pc := update s.pc self x }

/-- `lock_acquire` of the lock of slot `lock`. -/
def acquire (s : Locks) (self lock : Int) (x : Pc) : Locks :=
  match s.holder lock with
  | none => { s.goto self x with holder := update s.holder lock (some self) }
  | some _ => s

/-- `lock_release` of the lock of slot `lock`. -/
def unlock (s : Locks) (self lock : Int) (x : Pc) : Locks :=
  { s.goto self x with holder := update s.holder lock none }

/-- A write to `proctab[pid]`. -/
def write (s : Locks) (self pid : Int) (p : Pcb) (x : Pc) : Locks :=
  { s.goto self x with kernel := s.kernel.setPcb pid p }

/-- The next statement of the process that runs on core `cpuid`. -/
def proceed (s : Locks) (cpuid : Core) : Except Fault Locks :=
  let self := s.self cpuid
  let proctab := s.kernel.proctab
  match s.pc self with
  | .running => .ok s
  | .sendBadpid pid msg =>
    if isbadpid s.kernel.states pid then .ok (s.goto self .running)
    else .ok (s.goto self (.sendAcquire pid msg))
  | .sendAcquire pid msg => do
    let _ ← s.kernel.pcb pid
    return s.acquire self pid (.sendFree pid msg)
  | .sendFree pid msg =>
    if (proctab pid).state = .PRFREE then .ok (s.goto self (.release pid))
    else .ok (s.goto self (.sendFull pid msg))
  | .sendFull pid msg =>
    if (proctab pid).hasMessage then .ok (s.goto self (.sendMsgout pid msg))
    else .ok (s.goto self (.deposit pid msg true))
  | .sendMsgout pid msg =>
    .ok (s.write self self { proctab self with msgout := msg } (.sendState pid))
  | .sendState pid =>
    .ok (s.write self self { proctab self with state := .PRSEND } (.sendEnqueue pid))
  | .sendEnqueue pid => do
    let k ← s.kernel.enqueue self (proctab pid).msgqueue
    return { s.goto self (.sendRelease pid) with kernel := k }
  | .sendRelease pid => .ok (s.unlock self pid .sendResched)
  | .sendResched => do
    let k ← s.kernel.resched cpuid
    return { s.goto self .running with kernel := k }
  | .sendnowAcquire pid msg => do
    -- `sendnow` reads the lock from `proctab[pid]` before it tests `pid`.
    let _ ← s.kernel.pcb pid
    return s.acquire self pid (.sendnowBadpid pid msg)
  | .sendnowBadpid pid msg =>
    if isbadpid s.kernel.states pid then .ok (s.goto self (.release pid))
    else .ok (s.goto self (.sendnowFull pid msg))
  | .sendnowFull pid msg =>
    if (proctab pid).state = .PRFREE ∨ (proctab pid).hasMessage then
      .ok (s.goto self (.release pid))
    else .ok (s.goto self (.deposit pid msg false))
  | .deposit pid msg resch =>
    .ok (s.write self pid { proctab pid with msgin := msg } (.raise pid resch))
  | .raise pid resch =>
    .ok (s.write self pid { proctab pid with hasMessage := true } (.waiting pid resch))
  | .waiting pid resch =>
    if (proctab pid).state = .PRRECV then .ok (s.goto self (.wakeRelease pid pid resch))
    else .ok (s.goto self (.release pid))
  | .recvAcquire => .ok (s.acquire self self .recvEmpty)
  | .recvEmpty =>
    if (proctab self).hasMessage then .ok (s.goto self .recvTake)
    else .ok (s.goto self .recvState)
  | .recvState => .ok (s.write self self { proctab self with state := .PRRECV } .recvRelease)
  | .recvRelease => .ok (s.unlock self self .recvResched)
  | .recvResched => do
    let k ← s.kernel.resched cpuid
    return { s.goto self .recvReacquire with kernel := k }
  | .recvReacquire => .ok (s.acquire self self .recvTake)
  | .recvTake => .ok (s.goto self .recvNonempty)
  | .recvNonempty => do
    if ← s.kernel.queues.nonempty (proctab self).msgqueue then return s.goto self .recvDequeue
    else return s.goto self .lower
  | .recvDequeue => do
    let (senderpid, k) ← s.kernel.dequeue (proctab self).msgqueue
    return { s.goto self (.recvRefill senderpid) with kernel := k }
  | .recvRefill senderpid =>
    .ok (s.write self self { proctab self with msgin := (proctab senderpid).msgout }
      (.recvClear senderpid))
  | .recvClear senderpid =>
    .ok (s.write self senderpid { proctab senderpid with msgout := EMPTY }
      (.wakeRelease self senderpid false))
  | .recvnowAcquire => .ok (s.acquire self self .recvnowEmpty)
  | .recvnowEmpty =>
    if (proctab self).hasMessage then .ok (s.goto self .recvnowTake)
    else .ok (s.goto self (.release self))
  | .recvnowTake => .ok (s.goto self .lower)
  | .lower => .ok (s.write self self { proctab self with hasMessage := false } (.release self))
  | .wakeRelease lock pid resch => .ok (s.unlock self lock (.ready pid resch))
  | .ready pid resch => do
    let (_, k) ← s.kernel.ready cpuid pid resch (BitVec.ofInt 32 (proctab pid).coreAffinity)
    return { s.goto self .running with kernel := k }
  | .release lock => .ok (s.unlock self lock .running)

/-- The steps on a core. -/
inductive Action where
  | create (args : Vars.CreateArgs)
  | ready (pid : Int) (resch : Bool) (core : Ulong)
  | resched
  | kill (pid : Int)
  | send (pid msg : Int)
  | sendnow (pid msg : Int)
  | recv
  | recvnow
  /-- The next statement of the message call the process is in. -/
  | proceed
  /-- A clock interrupt. -/
  | clock

/-- One step on core `cpuid`. A message call starts at its first
statement. -/
def exec (s : Locks) (cpuid : Core) : Action → Except Fault Locks
  | .create args => do
    let (_, k) ← s.kernel.create cpuid args
    return { s with kernel := k }
  | .ready pid resch core => do
    let (_, k) ← s.kernel.ready cpuid pid resch core
    return { s with kernel := k }
  | .resched => do
    let k ← s.kernel.resched cpuid
    return { s with kernel := k }
  | .kill pid => do
    let (_, k) ← s.kernel.kill cpuid pid
    return { s with kernel := k }
  | .send pid msg => .ok (s.goto (s.self cpuid) (.sendBadpid pid msg))
  | .sendnow pid msg => .ok (s.goto (s.self cpuid) (.sendnowAcquire pid msg))
  | .recv => .ok (s.goto (s.self cpuid) .recvAcquire)
  | .recvnow => .ok (s.goto (s.self cpuid) .recvnowAcquire)
  | .proceed => s.proceed cpuid
  | .clock => do
    let k ← s.kernel.clkhandler cpuid
    return { s with kernel := k }

/-- The steps that are possible on core `cpuid`. A process starts a call
only outside of one, and `create` and `ready` get what they expect. The
clock may strike at any time. -/
def Permitted (s : Locks) (cpuid : Core) : Action → Prop
  | .create args => s.pc (s.self cpuid) = .running ∧ (args.priority.toNat : Int) ≤ PRIORITY_HIGH
  | .ready pid _ core => s.pc (s.self cpuid) = .running ∧ (0 ≤ pid ∧ pid < NPROC) ∧
      s.kernel.states pid = .PRSUSP ∧ core.toNat < NCORES
  | .resched | .kill _ | .send _ _ | .sendnow _ _ | .recv | .recvnow =>
    s.pc (s.self cpuid) = .running
  | .proceed => s.pc (s.self cpuid) ≠ .running
  | .clock => True

instance (s : Locks) (cpuid : Core) (act : Action) : Decidable (s.Permitted cpuid act) := by
  rcases act <;> dsimp only [Permitted] <;> infer_instance

/-- `sysinit` has returned, and no lock is taken. -/
def Booted (s : Locks) : Prop :=
  (∃ memheap maxaddr end_ mem, Kernel.sysinit memheap maxaddr end_ mem = .ok s.kernel) ∧
    (∀ p, s.pc p = .running) ∧ ∀ r, s.holder r = none

/-- A possible step that satisfies `ok`, with its core. -/
def Allowed (ok : Locks → Core → Action → Prop) (s : Locks) (a : Core × Action) : Prop :=
  s.Permitted a.1 a.2 ∧ ok s a.1 a.2

instance (ok : Locks → Core → Action → Prop) [∀ s cpuid act, Decidable (ok s cpuid act)]
    (s : Locks) (a : Core × Action) : Decidable (Allowed ok s a) :=
  inferInstanceAs (Decidable (_ ∧ _))

/-- The states that the cores reach by steps that satisfy `ok`. -/
def Reachable (ok : Locks → Core → Action → Prop) (s : Locks) : Prop :=
  Lib.Reaches Booted (Allowed ok) (fun s a => s.exec a.1 a.2) s

/-- `sysinit`, then the given steps. -/
def boot (ok : Locks → Core → Action → Prop) [∀ s cpuid act, Decidable (ok s cpuid act)]
    (memheap maxaddr end_ : Ulong) (mem : Ulong → Ulong) (steps : List (Core × Action)) :
    Option Locks :=
  match Kernel.sysinit memheap maxaddr end_ mem with
  | .ok k => Lib.follow (Allowed ok) (fun s a => s.exec a.1 a.2)
      ⟨k, fun _ => .running, fun _ => none⟩ steps
  | .error _ => none

/-- A run that passes a test gives a reachable state that does. -/
theorem exists_reachable (ok : Locks → Core → Action → Prop)
    [∀ s cpuid act, Decidable (ok s cpuid act)] (memheap maxaddr end_ : Ulong)
    (mem : Ulong → Ulong) (steps : List (Core × Action)) (test : Locks → Bool)
    (h : (boot ok memheap maxaddr end_ mem steps).any test = true) :
    ∃ s, Reachable ok s ∧ test s = true := by
  unfold boot at h
  split at h
  · rename_i k hk
    obtain ⟨s, hs, htest⟩ := (Option.any_eq_true ..).mp h
    have hboot : Booted ⟨k, fun _ => .running, fun _ => none⟩ :=
      ⟨⟨memheap, maxaddr, end_, mem, hk⟩, fun _ => rfl, fun _ => rfl⟩
    exact ⟨s, Lib.Reaches.follow ⟨_, hboot, .refl⟩ hs, htest⟩
  · cases h

end Locks

end Xinu
