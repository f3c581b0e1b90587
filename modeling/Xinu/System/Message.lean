import Xinu.System.Process

/-!
# `Xinu.System.Message`: `send`, `sendnow`, `recv`, `recvnow`

A process has a mailbox of one message, `msgin` with the flag
`hasMessage`, and a queue of senders that found it full, each of which
keeps its message in its own `msgout`.

Each function has a section under the receiver's `core_com_lock`, and
what follows it (`ready`, `resched`) runs after the lock is released.
The sections are definitions of their own. They return what the function
does next, so that other cores may be put in between.
-/

namespace Xinu.Kernel

/-- What a call does once it has released the lock. -/
inductive After where
  /-- Return. -/
  | ret (r : Syscall)
  /-- Call `resched`, then return `OK`. -/
  | block
  /-- Call `ready(pid, resch, proctab[pid].core_affinity)`, then return
  `OK`. -/
  | wake (pid : Int) (resch : Bool)
deriving DecidableEq, Repr

/-- `isbadpid` and the locked section of `send(pid, msg)`, for the
sending process `sender`. -/
def sendSection (k : Kernel) (sender pid msg : Int) : Except Fault (After × Kernel) :=
  if isbadpid k.states pid then .ok (.ret .syserr, k)
  else do
    let rpcb ← k.pcb pid
    let spcb ← k.pcb sender
    if rpcb.state = .PRFREE then return (.ret .syserr, k)
    else if rpcb.hasMessage then
      let k := k.setPcb sender { spcb with msgout := msg, state := .PRSEND }
      let k ← k.enqueue sender rpcb.msgqueue
      return (.block, k)
    else
      let k := k.setPcb pid { rpcb with msgin := msg, hasMessage := true }
      if rpcb.state = .PRRECV then return (.wake pid true, k)
      else return (.ret .ok, k)

/-- The locked section of `sendnow(pid, msg)`. The lock is taken from
`proctab[pid]` before `isbadpid` is tested. -/
def sendnowSection (k : Kernel) (pid msg : Int) : Except Fault (After × Kernel) := do
  let ppcb ← k.pcb pid
  if isbadpid k.states pid then return (.ret .syserr, k)
  else if ppcb.state = .PRFREE ∨ ppcb.hasMessage then return (.ret .syserr, k)
  else
    let k := k.setPcb pid { ppcb with msgin := msg, hasMessage := true }
    if ppcb.state = .PRRECV then return (.wake pid false, k)
    else return (.ret .ok, k)

/-- The rest of `send` and `sendnow`, after the lock. -/
def finish (k : Kernel) (cpuid : Core) : After → Except Fault (Syscall × Kernel)
  | .ret r => .ok (r, k)
  | .block => do
    let k ← k.resched cpuid
    return (.ok, k)
  | .wake pid resch => do
    let p ← k.pcb pid
    let (_, k) ← k.ready cpuid pid resch (BitVec.ofInt 32 p.coreAffinity)
    return (.ok, k)

/-- `send(pid, msg)` on core `cpuid`. -/
def send (k : Kernel) (cpuid : Core) (pid msg : Int) : Except Fault (Syscall × Kernel) := do
  let (after, k) ← k.sendSection (k.currpid cpuid) pid msg
  k.finish cpuid after

/-- `sendnow(pid, msg)` on core `cpuid`. -/
def sendnow (k : Kernel) (cpuid : Core) (pid msg : Int) : Except Fault (Syscall × Kernel) := do
  let (after, k) ← k.sendnowSection pid msg
  k.finish cpuid after

/-- The first locked section of `recv` by process `self`: `true` when
there is no message and the process has to wait. -/
def recvCheck (k : Kernel) (self : Int) : Except Fault (Bool × Kernel) := do
  let ppcb ← k.pcb self
  if ppcb.hasMessage then return (false, k)
  else return (true, k.setState self .PRRECV)

/-- The second locked section of `recv` by process `self`: the message,
and the blocked sender to make ready, if there is one. -/
def recvCollect (k : Kernel) (self : Int) : Except Fault ((Int × Option Int) × Kernel) := do
  let ppcb ← k.pcb self
  let msg := ppcb.msgin
  if ← k.queues.nonempty ppcb.msgqueue then
    let (senderpid, k) ← k.dequeue ppcb.msgqueue
    let spcb ← k.pcb senderpid
    let k := k.setPcb self { k.proctab self with msgin := spcb.msgout }
    let k := k.setPcb senderpid { k.proctab senderpid with msgout := EMPTY }
    return ((msg, some senderpid), k)
  else return ((msg, none), k.setPcb self { k.proctab self with hasMessage := false })

/-- `recv()` from its second locked section on, with `ready` of the
sender after the lock. -/
def recvResume (k : Kernel) (cpuid : Core) : Except Fault (Int × Kernel) := do
  let ((msg, sender), k) ← k.recvCollect (k.currpid cpuid)
  match sender with
  | none => return (msg, k)
  | some senderpid =>
    let spcb ← k.pcb senderpid
    let (_, k) ← k.ready cpuid senderpid false (BitVec.ofInt 32 spcb.coreAffinity)
    return (msg, k)

/-- `recv()` on core `cpuid`: `none` when the process waits. It goes on
with `recvResume` once it runs again. -/
def recv (k : Kernel) (cpuid : Core) : Except Fault (Option Int × Kernel) := do
  let (wait, k) ← k.recvCheck (k.currpid cpuid)
  if wait then
    let k ← k.resched cpuid
    return (none, k)
  else
    let (msg, k) ← k.recvResume cpuid
    return (some msg, k)

/-- `recvnow()` on core `cpuid`: `none` is its `SYSERR`. -/
def recvnow (k : Kernel) (cpuid : Core) : Except Fault (Option Int × Kernel) := do
  let self := k.currpid cpuid
  let ppcb ← k.pcb self
  if ppcb.hasMessage then
    return (some ppcb.msgin, k.setPcb self { ppcb with hasMessage := false })
  else return (none, k)

/-- The processes blocked on `p`, in order. -/
def senders (k : Kernel) (p : Int) : List Int := k.queues.members (k.proctab p).msgqueue

end Xinu.Kernel
