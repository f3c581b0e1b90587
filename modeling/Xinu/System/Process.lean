import Xinu.System.Memory
import Xinu.System.Queue

/-!
# `Xinu.System.Process`: the process table and the scheduler

`Vars` holds the variables of `initialize.c` and `clkinit.c` that the
scheduler reads and writes, next to the heap. `Kernel` adds the queue
table and the ids of the ready queues. A process is a slot of `proctab`.
The saved registers and the name of a process are left out: no function
here reads them.

A call is made by the process that runs on core `cpuid`, and it is one
atomic step. `resched` ends in `ctxsw`, which returns in the process
switched to. So a function that calls `resched` last is modelled up to
the switch, and the old process has nothing left to do when it resumes
except to return.
-/

namespace Xinu

open Function

abbrev PRIORITY_LOW : Int := 0
abbrev PRIORITY_MED : Int := 1
abbrev PRIORITY_HIGH : Int := 2

/-- The scheduling quantum, `clock.h`. -/
def QUANTUM : Ulong := 3

/-- Minimum process stack size, `proc.h`. -/
def MINSTK : Ulong := 4096

/-- The mark at the top of a process stack, `proc.h`. -/
def STACKMAGIC : Ulong := 0x0A0AAA99

/-- `struct pentry` with `struct pcb_msg` spread into it. -/
structure Pcb where
  state : PrState
  priority : Int
  stkbase : Ulong
  stklen : Ulong
  coreAffinity : Int
  hasMessage : Bool
  msgin : Int
  msgout : Int
  msgqueue : Ulong

/-- The kernel's variables other than the queues. -/
structure Vars where
  heap : Heap
  proctab : Int → Pcb
  currpid : Core → Int
  numproc : Int
  /-- The static variable of `newpid`. -/
  nextpid : Int
  promoteMedium : Core → Ulong
  promoteLow : Core → Ulong
  preempt : Core → Ulong

/-- The kernel's variables. -/
structure Kernel extends Vars where
  queues : Queuetab
  readylist : Int → Int → Ulong

namespace Vars

/-- `proctab[pid]`. -/
def pcb (v : Vars) (pid : Int) : Except Fault Pcb :=
  if 0 ≤ pid ∧ pid < NPROC then .ok (v.proctab pid) else .error .outOfBounds

/-- `proctab[pid] = p`, for a `pid` that was read before. -/
def setPcb (v : Vars) (pid : Int) (p : Pcb) : Vars :=
  { v with proctab := update v.proctab pid p }

/-- `proctab[pid].state = s`. -/
def setState (v : Vars) (pid : Int) (s : PrState) : Vars :=
  v.setPcb pid { v.proctab pid with state := s }

/-- The column of process states that `isbadpid` reads. -/
def states (v : Vars) (pid : Int) : PrState := (v.proctab pid).state

/-- The first writes of `ready`: the state, and the core of a process
that has none yet. -/
def makeReady (v : Vars) (pid : Int) (core : Ulong) : Vars :=
  let v := v.setState pid .PRREADY
  if (v.proctab pid).coreAffinity = -1 then
    v.setPcb pid { v.proctab pid with coreAffinity := core.toInt }
  else v

/-- `--promote_medium[cpuid]`. -/
def tickMedium (v : Vars) (cpuid : Core) : Vars :=
  { v with promoteMedium := update v.promoteMedium cpuid (v.promoteMedium cpuid - 1) }

/-- `promote_medium[cpuid] = QUANTUM`. -/
def resetMedium (v : Vars) (cpuid : Core) : Vars :=
  { v with promoteMedium := update v.promoteMedium cpuid QUANTUM }

/-- `--promote_low[cpuid]`. -/
def tickLow (v : Vars) (cpuid : Core) : Vars :=
  { v with promoteLow := update v.promoteLow cpuid (v.promoteLow cpuid - 1) }

/-- `promote_low[cpuid] = QUANTUM`. -/
def resetLow (v : Vars) (cpuid : Core) : Vars :=
  { v with promoteLow := update v.promoteLow cpuid QUANTUM }

/-- `pid` becomes the current process: the last writes of `resched`. -/
def run (v : Vars) (cpuid : Core) (pid : Int) : Vars :=
  { v.setState pid .PRCURR with
    currpid := update v.currpid cpuid pid
    preempt := update v.preempt cpuid QUANTUM }

end Vars

namespace Kernel

/-- `proctab[pid] = p`, for a `pid` that was read before. -/
def setPcb (k : Kernel) (pid : Int) (p : Pcb) : Kernel := { k with toVars := k.toVars.setPcb pid p }

/-- `proctab[pid].state = s`. -/
def setState (k : Kernel) (pid : Int) (s : PrState) : Kernel :=
  { k with toVars := k.toVars.setState pid s }

/-- `readylist[core][priority]`. -/
def readyQueue (k : Kernel) (core priority : Int) : Except Fault Ulong :=
  if (0 ≤ core ∧ core < NCORES) ∧ 0 ≤ priority ∧ priority < 3 then .ok (k.readylist core priority)
  else .error .outOfBounds

/-- `enqueue(pid, q)`, its result dropped. -/
def enqueue (k : Kernel) (pid : Int) (q : Ulong) : Except Fault Kernel := do
  let (_, queues) ← k.queues.enqueue k.states pid q
  return { k with queues := queues }

/-- `pid = dequeue(q)`. -/
def dequeue (k : Kernel) (q : Ulong) : Except Fault (Int × Kernel) := do
  let (pid, queues) ← k.queues.dequeue q
  return (pid, { k with queues := queues })

/-! ### `resched` -/

/-- `if (nonempty(readylist[cpuid][lo]))
enqueue(dequeue(readylist[cpuid][lo]), readylist[cpuid][hi])`. -/
def promote (k : Kernel) (cpuid : Core) (lo hi : Int) : Except Fault Kernel := do
  let from_ ← k.readyQueue cpuid lo
  let to_ ← k.readyQueue cpuid hi
  if ← k.queues.nonempty from_ then
    let (pid, k) ← k.dequeue from_
    k.enqueue pid to_
  else return k

/-- The low-priority half of the `AGING` part. -/
def ageLow (k : Kernel) (cpuid : Core) : Except Fault Kernel := do
  let k := { k with toVars := k.tickLow cpuid }
  if k.promoteLow cpuid ≤ 0 then
    let k ← k.promote cpuid PRIORITY_LOW PRIORITY_MED
    return { k with toVars := k.resetLow cpuid }
  else return k

/-- The `AGING` part of `resched`. The counters are unsigned, so
`--x <= 0` is a test for zero. -/
def age (k : Kernel) (cpuid : Core) : Except Fault Kernel := do
  let k := { k with toVars := k.tickMedium cpuid }
  if k.promoteMedium cpuid ≤ 0 then
    let k ← k.promote cpuid PRIORITY_MED PRIORITY_HIGH
    let k ← k.ageLow cpuid
    return { k with toVars := k.resetMedium cpuid }
  else return k

/-- The current process goes to the end of its ready queue, if it is
still current. -/
def yield (k : Kernel) (cpuid : Core) : Except Fault Kernel := do
  let oldpid := k.currpid cpuid
  let oldproc ← k.pcb oldpid
  if oldproc.state = .PRCURR then
    let k := k.setState oldpid .PRREADY
    let q ← k.readyQueue cpuid oldproc.priority
    k.enqueue oldpid q
  else return k

/-- The highest priority with a ready process, `PRIORITY_LOW` when there
is none. -/
def highestPrio (k : Kernel) (cpuid : Core) : Except Fault Int := do
  if ← k.queues.nonempty (← k.readyQueue cpuid PRIORITY_HIGH) then return PRIORITY_HIGH
  if ← k.queues.nonempty (← k.readyQueue cpuid PRIORITY_MED) then return PRIORITY_MED
  return PRIORITY_LOW

/-- The first process of the highest priority becomes current. -/
def dispatch (k : Kernel) (cpuid : Core) : Except Fault Kernel := do
  let highest ← k.highestPrio cpuid
  let q ← k.readyQueue cpuid highest
  let (pid, k) ← k.dequeue q
  let _ ← k.pcb pid
  return { k with toVars := k.run cpuid pid }

/-- `resched()` on core `cpuid`. -/
def resched (k : Kernel) (cpuid : Core) : Except Fault Kernel := do
  let k ← k.age cpuid
  let k ← k.yield cpuid
  k.dispatch cpuid

/-! ### `ready`, `create`, `kill` -/

/-- `ready` up to `resched`: the process joins the ready queue of its
core and priority. -/
def wake (k : Kernel) (pid : Int) (core : Ulong) : Except Fault Kernel := do
  let k := { k with toVars := k.makeReady pid core }
  let q ← k.readyQueue (k.proctab pid).coreAffinity (k.proctab pid).priority
  k.enqueue pid q

/-- `ready(pid, resch, core)` on core `cpuid`. -/
def ready (k : Kernel) (cpuid : Core) (pid : Int) (resch : Bool) (core : Ulong) :
    Except Fault (Syscall × Kernel) :=
  if isbadpid k.states pid then .ok (.syserr, k)
  else do
    let k ← k.wake pid core
    if resch ∧ (cpuid : Int) = (k.proctab pid).coreAffinity then
      let k ← k.resched cpuid
      return (.ok, k)
    else return (.ok, k)

end Kernel

namespace Vars

/-- `_atomic_increment_mod(&nextpid, NPROC)`. -/
def bumpNextpid (nextpid : Int) : Int := if nextpid + 1 ≥ NPROC then 0 else nextpid + 1

/-- The loop of `newpid` with the given number of rounds left: the new
value of `nextpid`, and the free slot it found, if any. -/
def newpidLoop (v : Vars) : Nat → Int → Except Fault (Option Int × Int)
  | 0, nextpid => .ok (none, nextpid)
  | rounds + 1, nextpid => do
    let nextpid := bumpNextpid nextpid
    let p ← v.pcb nextpid
    if p.state = .PRFREE then return (some nextpid, nextpid)
    else v.newpidLoop rounds nextpid

/-- `newpid()`, with the new value of `nextpid`: `none` is its
`SYSERR`. -/
def newpid (v : Vars) : Except Fault (Option Int × Int) := v.newpidLoop NPROC.toNat v.nextpid

/-- The arguments of `create`. The variable arguments are a function of
their position, as `va_arg` reads past those that were passed. -/
structure CreateArgs where
  funcaddr : Ulong
  ssize : Ulong
  priority : Ulong
  nargs : Ulong
  args : Nat → Ulong

/-- `*--saddr = v`. -/
def push (s : Heap × Ulong) (v : Ulong) : Heap × Ulong := (s.1.store (s.2 - 4) v, s.2 - 4)

/-- The stack of a new process: the accounting block, the padding, and
the arguments from the fifth on. Returns the stack pointer as well. -/
def initStack (h : Heap) (a : CreateArgs) (saddr ssize pid : Ulong) : Heap × Ulong :=
  let top := saddr + ssize - 4
  let s := [pid, ssize, saddr].foldl push (h.store top STACKMAGIC, top)
  let pads := if a.nargs = 0 then 0 else (a.nargs - 1) / 4 * 4
  let s := (List.replicate pads.toNat 0).foldl push s
  let extra := (List.range a.nargs.toNat).drop 4
  (extra.foldl (fun h i => h.store (s.2 + BitVec.ofNat 32 (4 * (i - 4))) (a.args i)) s.1, s.2)

/-- The stack size `create` asks for. -/
def stackSize (ssize : Ulong) : Ulong :=
  ((if ssize < MINSTK then MINSTK else ssize) + 3) &&& 0xFFFFFFFC

/-- The entry `create` writes into a slot that held `p`. The message
queue of the slot stays. -/
def newPcb (p : Pcb) (a : CreateArgs) (saddr : Ulong) : Pcb :=
  { p with
    state := .PRSUSP
    stkbase := saddr
    stklen := stackSize a.ssize
    coreAffinity := -1
    priority := a.priority.toInt
    hasMessage := false
    msgin := EMPTY
    msgout := EMPTY }

/-- `create` after its error check: the process is entered and its stack
set up. -/
def enter (v : Vars) (a : CreateArgs) (saddr : Ulong) (pid : Int) : Vars :=
  { v.setPcb pid (newPcb (v.proctab pid) a saddr) with
    numproc := v.numproc + 1
    heap := (initStack v.heap a saddr (stackSize a.ssize) (BitVec.ofInt 32 pid)).1 }

/-- `create(funcaddr, ssize, priority, name, nargs, ...)` on core
`cpuid`: `none` is its `SYSERR`. A stack that was allocated is not given
back when there is no free process slot. -/
def create (v : Vars) (cpuid : Core) (a : CreateArgs) : Except Fault (Option Int × Vars) := do
  let (saddr, heap) ← v.heap.getmem cpuid (stackSize a.ssize)
  let (pid, nextpid) ← v.newpid
  let v := { v with heap := heap, nextpid := nextpid }
  match pid with
  | none => return (none, v)
  | some pid =>
    if saddr = SYSERR then return (none, v)
    else return (some pid, v.enter a saddr pid)

/-- The guard of `kill`: what it refuses. -/
def killRefuses (v : Vars) (cpuid : Core) (pid : Int) : Bool :=
  isbadpid v.states pid || decide (pid = 0) || decide (pid = 1) || decide (pid = 2) ||
    decide (pid = 3) || decide ((cpuid : Int) ≠ (v.proctab pid).coreAffinity) ||
    decide ((v.proctab pid).state = .PRFREE)

/-- `kill` up to its `switch`: one process less, its stack given
back. -/
def release (v : Vars) (pid : Int) : Except Fault Vars := do
  let (_, heap) ← v.heap.freemem (v.proctab pid).stkbase (v.proctab pid).stklen
  return { v with numproc := v.numproc - 1, heap := heap }

end Vars

namespace Kernel

/-- `create` touches no queue. -/
def create (k : Kernel) (cpuid : Core) (a : Vars.CreateArgs) :
    Except Fault (Option Int × Kernel) := do
  let (pid, v) ← k.toVars.create cpuid a
  return (pid, { k with toVars := v })

/-- The `switch` of `kill`. A current process with the affinity of this
core is the caller. It does not come back from `resched`, so the cases
its `switch` falls through to are not reached. -/
def killSwitch (k : Kernel) (cpuid : Core) (pid : Int) : Except Fault Kernel :=
  match (k.proctab pid).state with
  | .PRCURR => (k.setState pid .PRFREE).resched cpuid
  | .PRREADY => do
    let (_, queues) ← k.queues.remove k.states pid
    return { k with queues := queues }.setState pid .PRFREE
  | _ => .ok (k.setState pid .PRFREE)

/-- `kill(pid)` on core `cpuid`. -/
def kill (k : Kernel) (cpuid : Core) (pid : Int) : Except Fault (Syscall × Kernel) :=
  if k.killRefuses cpuid pid then .ok (.syserr, k)
  else do
    let v ← k.release pid
    let k ← { k with toVars := v }.killSwitch cpuid pid
    return (.ok, k)

/-! ### `sysinit` -/

/-- The process table loop of `sysinit`. -/
def initSlot (k : Kernel) (i : Int) : Except Fault Kernel := do
  let (q, queues) ← k.queues.newqueue
  return { k with queues := queues }.setPcb i
    { k.proctab i with state := .PRFREE, coreAffinity := -1, msgqueue := q }

/-- The entry of core `i`'s null process. -/
def initNull (k : Kernel) (i : Core) (stkbase : Ulong) : Kernel :=
  { k.setPcb i { k.proctab i with
      state := .PRCURR
      stkbase := stkbase
      stklen := 8192
      coreAffinity := i
      priority := PRIORITY_LOW
      hasMessage := false
      msgin := 0
      msgout := 0 } with
    currpid := update k.currpid i i }

/-- One round of the ready list loops. -/
def initReady (k : Kernel) (ij : Int × Int) : Except Fault Kernel := do
  let (q, queues) ← k.queues.newqueue
  return { k with
    queues := queues
    readylist := update k.readylist ij.1 (update (k.readylist ij.1) ij.2 q) }

/-- The kernel's variables before `sysinit`: static storage is zero. -/
def zeroed (heap : Heap) : Kernel where
  heap := heap
  queues := Queuetab.boot
  proctab _ := ⟨.PRFREE, 0, 0, 0, 0, false, 0, 0, 0⟩
  readylist _ _ := 0
  currpid _ := 0
  numproc := 0
  nextpid := 0
  promoteMedium _ := 0
  promoteLow _ := 0
  preempt _ := 0

/-- The process slots in order. -/
def slots : List Int := (List.range NPROC.toNat).map fun i : Nat => (i : Int)

/-- The pairs of core and priority in the order of the ready list
loops. -/
def readyPairs : List (Int × Int) :=
  (List.range (NCORES * 3)).map fun i : Nat => ((i / 3 : Int), (i % 3 : Int))

/-- `sysinit()`, with `clkinit()` at its end. The null processes' stack
bases are `&_end + 8192 * i`, where `&_end` is a `void **`: the step is
`8192` words. -/
def sysinit (memheap maxaddr end_ : Ulong) (mem : Ulong → Ulong) : Except Fault Kernel := do
  let k := zeroed (Heap.sysinit memheap maxaddr mem)
  let k := { k with numproc := 4 }
  let k ← slots.foldlM initSlot k
  let k := (List.finRange NCORES).foldl
    (fun k i => k.initNull i (end_ + 4 * (8192 * BitVec.ofNat 32 i))) k
  let k ← readyPairs.foldlM initReady k
  return { k with
    promoteMedium := fun _ => QUANTUM
    promoteLow := fun _ => QUANTUM
    preempt := fun _ => QUANTUM }

end Kernel

end Xinu
