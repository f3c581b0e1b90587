import Xinu.System.Message
import Xinu.System.Spinlock

/-!
# `Xinu.System.Entry`: the calls that take a process id, with their locks

`enqueue`, `remove`, `ready`, `kill`, `send` and `sendnow` each test their
process id with `isbadpid`. Here they work on the table of spinlocks as
well, so that the place of the test among the accesses to the tables and
the calls of `lock_acquire` and `lock_release` is part of the model. A
call is one atomic step, and the results of the lock calls are ignored,
as in the source.

`ready` and `kill` use locks only inside the queue and the heap functions
they call after the test. Each of these has released its lock when it
returns, and in a step of its own nobody sees it held. So these two keep
the table as it is.
-/

namespace Xinu

/-- The kernel, the spinlocks, and the lock ids that the process table and
the queue table hold. -/
structure Machine where
  kernel : Kernel
  locks : Locktab
  coreComLock : Int → Nat
  queueLock : Int → Nat

/-- A `syscall`'s result as an `int`. -/
def Syscall.toInt : Syscall → Int
  | .ok => 1
  | .syserr => SYSERRint

namespace Machine

/-- `proctab[pid].msg_var.core_com_lock`. -/
def comLock (m : Machine) (pid : Int) : Except Fault Nat := do
  let _ ← m.kernel.pcb pid
  return m.coreComLock pid

/-- `queuetab[i].lock`. -/
def qLock (m : Machine) (i : Int) : Except Fault Nat :=
  if Queuetab.inTable i then .ok (m.queueLock i) else .error .outOfBounds

def acquire (m : Machine) (cpuid : Core) (lock : Nat) : Except Fault Machine := do
  -- The callers do not look at the result.
  let (_, locks) ← m.locks.lockAcquire cpuid lock
  return { m with locks := locks }

def release (m : Machine) (lock : Nat) : Except Fault Machine := do
  let (_, locks) ← m.locks.lockRelease lock
  return { m with locks := locks }

/-- A step of the kernel. -/
def withKernel (m : Machine) (x : Except Fault (Syscall × Kernel)) :
    Except Fault (Int × Machine) := do
  let (r, k) ← x
  return (r.toInt, { m with kernel := k })

def withQueues (m : Machine) (t : Queuetab) : Machine :=
  { m with kernel := { m.kernel with queues := t } }

/-- `enqueue(pid, q)`. The writes are those of `Queuetab.enqueue`, which
tests its arguments once more. -/
def enqueue (m : Machine) (cpuid : Core) (pid : Int) (q : Ulong) : Except Fault (Int × Machine) :=
  if isbadqueue q || isbadpid m.kernel.states pid then .ok (SYSERRint, m)
  else do
    let lock ← m.qLock (queuehead q)
    let m ← m.acquire cpuid lock
    let (r, t) ← m.kernel.queues.enqueue m.kernel.states pid q
    let m ← (m.withQueues t).release lock
    return (r, m)

/-- `remove(pid)`. -/
def remove (m : Machine) (cpuid : Core) (pid : Int) : Except Fault (Int × Machine) :=
  if isbadpid m.kernel.states pid then .ok (SYSERRint, m)
  else do
    match ← m.kernel.queues.findHead NQENT.toNat pid with
    | none => return (SYSERRint, m)
    | some head =>
      let lock ← m.qLock head
      let m ← m.acquire cpuid lock
      let t ← m.kernel.queues.unlink pid
      let m ← (m.withQueues t).release lock
      return (pid, m)

/-- `ready(pid, resch, core)`. -/
def ready (m : Machine) (cpuid : Core) (pid : Int) (resch : Bool) (core : Ulong) :
    Except Fault (Int × Machine) :=
  m.withKernel (m.kernel.ready cpuid pid resch core)

/-- `kill(pid)`. -/
def kill (m : Machine) (cpuid : Core) (pid : Int) : Except Fault (Int × Machine) :=
  m.withKernel (m.kernel.kill cpuid pid)

/-- `send(pid, msg)`. `isbadpid` is tested before the lock is taken. -/
def send (m : Machine) (cpuid : Core) (pid msg : Int) : Except Fault (Int × Machine) :=
  if isbadpid m.kernel.states pid then .ok (SYSERRint, m)
  else do
    let lock ← m.comLock pid
    let m ← m.acquire cpuid lock
    let (after, k) ← m.kernel.sendSection (m.kernel.currpid cpuid) pid msg
    let m ← { m with kernel := k }.release lock
    m.withKernel (m.kernel.finish cpuid after)

/-- `sendnow(pid, msg)`. The lock is read from `proctab[pid]` and taken
before `isbadpid` is tested. -/
def sendnow (m : Machine) (cpuid : Core) (pid msg : Int) : Except Fault (Int × Machine) := do
  let lock ← m.comLock pid
  let m ← m.acquire cpuid lock
  let (after, k) ← m.kernel.sendnowSection pid msg
  let m ← { m with kernel := k }.release lock
  m.withKernel (m.kernel.finish cpuid after)

end Machine

/-! ### `sysinit` -/

/-- Some calls of `lock_create` in a row, with their results. -/
def Locktab.lockCreates : Nat → Locktab → Except Fault (List (Option Nat) × Locktab)
  | 0, t => .ok ([], t)
  | n + 1, t => do
    let (lock, t) ← t.lockCreate
    let (locks, t) ← t.lockCreates n
    return (lock :: locks, t)

/-- The number of locks that `sysinit` creates: one for the serial port,
one for each free list, two for each process slot, and one for each ready
queue. -/
abbrev numLocks : Nat := 1 + NCORES + 2 * 50 + 3 * NCORES

/-- `sysinit`, after `platforminit` has cleared the table of locks. Slot
`i` of the process table gets its queue first, with the lock of the
queue's head slot, and then its own lock. Ready queues come last. -/
def Machine.sysinit (memheap maxaddr end_ : Ulong) (mem : Ulong → Ulong) (locktab : Nat → Lockent) :
    Except Fault Machine := do
  let kernel ← Kernel.sysinit memheap maxaddr end_ mem
  let (ids, locks) ← (Locktab.platforminit ⟨locktab, 0⟩).lockCreates numLocks
  -- A failed `lock_create` leaves `SYSERR` in the slot, an unsigned int.
  let id (n : Nat) : Nat := ((ids[n]?).join).getD SYSERR.toNat
  return {
    kernel := kernel
    locks := locks
    coreComLock := fun i => id (1 + NCORES + 2 * i.toNat + 1)
    queueLock := fun i =>
      let n := ((i - NPROC) / 2).toNat
      if i < NPROC ∨ i % 2 ≠ 0 ∨ NPROC + 2 * 62 ≤ i then 0
      else if n < 50 then id (1 + NCORES + 2 * n) else id (1 + NCORES + 2 * 50 + (n - 50)) }

/-- One of the six calls, with its arguments other than the process
id. -/
inductive PidCall where
  | enqueue (q : Ulong)
  | remove
  | ready (resch : Bool) (core : Ulong)
  | kill
  | send (msg : Int)
  | sendnow (msg : Int)

/-- The call for process `pid`, made on core `cpuid`. -/
def PidCall.run (m : Machine) (cpuid : Core) (pid : Int) : PidCall → Except Fault (Int × Machine)
  | .enqueue q => m.enqueue cpuid pid q
  | .remove => m.remove cpuid pid
  | .ready resch core => m.ready cpuid pid resch core
  | .kill => m.kill cpuid pid
  | .send msg => m.send cpuid pid msg
  | .sendnow msg => m.sendnow cpuid pid msg

end Xinu
