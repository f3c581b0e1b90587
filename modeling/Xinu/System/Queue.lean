import Mathlib.Logic.Function.Basic
import Xinu.System.Types

/-!
# `Xinu.System.Queue`: the process queue table

All process queues share one array, `queuetab`. Slots `0` to `NPROC - 1`
belong to the processes. A queue is a pair of later slots, its head and
its tail, and its id packs both slot numbers into one word. `next` and
`prev` of a slot are slot numbers, or `EMPTY` at the outer ends of a
queue.

`Queuetab` holds the two columns of the array and the static counter
`nextqueue`. Every access checks its index, as the C code does not: an
index outside the array is the fault `outOfBounds`.

A queue's lock makes each operation one atomic step. Locks are not part
of the state.
-/

namespace Xinu

/-- Number of process slots, `proc.h`. -/
abbrev NPROC : Int := 50

/-- Number of queue table entries, `queue.h`. -/
abbrev NQENT : Int := NPROC + 24 + NPROC + NPROC

/-- The end marker of a queue, `queue.h`. -/
abbrev EMPTY : Int := -2

/-- `SYSERR` as an `int`. -/
abbrev SYSERRint : Int := -1

/-- Process states, `proc.h`. -/
inductive PrState where
  | PRFREE
  | PRCURR
  | PRSUSP
  | PRREADY
  | PRRECV
  | PRSEND
deriving DecidableEq, Repr

/-- `isbadpid(x)`: out of range, or the slot is free. -/
def isbadpid (state : Int → PrState) (x : Int) : Bool :=
  decide (x < 0) || decide (x ≥ NPROC) || decide (state x = .PRFREE)

theorem isbadpid_eq_false {state : Int → PrState} {p : Int} :
    isbadpid state p = false ↔ (0 ≤ p ∧ p < NPROC) ∧ state p ≠ .PRFREE := by
  simp [isbadpid]

/-- The columns `next` and `prev` of `queuetab`, and `nextqueue`. -/
structure Queuetab where
  next : Int → Int
  prev : Int → Int
  nextqueue : Int

/-- `queuehead(q)`. -/
def queuehead (q : Ulong) : Int := ((q >>> 16) &&& 0xFFFF).toNat

/-- `queuetail(q)`. -/
def queuetail (q : Ulong) : Int := (q &&& 0xFFFF).toNat

/-- `isbadqueue(x)`. The test `queuehead(x) < 0` is never true of an
unsigned word, and `queuetail(x) - 1` is an unsigned subtraction that no
head equals when the tail is `0`. -/
def isbadqueue (x : Ulong) : Bool :=
  decide (queuehead x + 1 ≠ queuetail x) || decide (queuetail x ≥ NQENT)

namespace Queuetab

/-- The array index is inside the table. -/
def inTable (i : Int) : Bool := decide (0 ≤ i) && decide (i < NQENT)

/-- `queuetab[i].next`. -/
def getNext (t : Queuetab) (i : Int) : Except Fault Int :=
  if inTable i then .ok (t.next i) else .error .outOfBounds

/-- `queuetab[i].prev`. -/
def getPrev (t : Queuetab) (i : Int) : Except Fault Int :=
  if inTable i then .ok (t.prev i) else .error .outOfBounds

/-- `queuetab[i].next = v`. -/
def setNext (t : Queuetab) (i v : Int) : Except Fault Queuetab :=
  if inTable i then .ok { t with next := Function.update t.next i v } else .error .outOfBounds

/-- `queuetab[i].prev = v`. -/
def setPrev (t : Queuetab) (i v : Int) : Except Fault Queuetab :=
  if inTable i then .ok { t with prev := Function.update t.prev i v } else .error .outOfBounds

/-- The table before the first call of `newqueue`: static storage is
zero. -/
def boot : Queuetab := ⟨fun _ => 0, fun _ => 0, NPROC⟩

/-- `nonempty(q)`. -/
def nonempty (t : Queuetab) (q : Ulong) : Except Fault Bool := do
  let first ← t.getNext (queuehead q)
  return decide (first < NPROC)

/-- `enqueue(pid, q)`. -/
def enqueue (t : Queuetab) (state : Int → PrState) (pid : Int) (q : Ulong) :
    Except Fault (Int × Queuetab) :=
  if isbadqueue q || isbadpid state pid then .ok (SYSERRint, t)
  else do
    let tail := queuetail q
    let t ← t.setNext pid tail
    let last ← t.getPrev tail
    let t ← t.setPrev pid last
    let last ← t.getPrev tail
    let t ← t.setNext last pid
    let t ← t.setPrev tail pid
    return (pid, t)

/-- The two writes that take `pid` out from between its neighbours. Each
of them reads the links of `pid` again. -/
def unlink (t : Queuetab) (pid : Int) : Except Fault Queuetab := do
  let before ← t.getPrev pid
  let after ← t.getNext pid
  let t ← t.setNext before after
  let after ← t.getNext pid
  let before ← t.getPrev pid
  t.setPrev after before

/-- The loop of `remove`: follow `prev` from `temp` to a slot whose own
`prev` is `EMPTY`. The first argument is `NQENT - steps`. The head counts
as found only if steps are left after it. -/
def findHead (t : Queuetab) : Nat → Int → Except Fault (Option Int)
  | 0, _ => .ok none
  | steps + 1, temp => do
    let temp ← t.getPrev temp
    let before ← t.getPrev temp
    if before = EMPTY then
      return if steps = 0 then none else some temp
    t.findHead steps temp

/-- `remove(pid)`. -/
def remove (t : Queuetab) (state : Int → PrState) (pid : Int) :
    Except Fault (Int × Queuetab) :=
  if isbadpid state pid then .ok (SYSERRint, t)
  else do
    match ← t.findHead NQENT.toNat pid with
    | none => return (SYSERRint, t)
    | some _ =>
      let t ← t.unlink pid
      return (pid, t)

/-- `dequeue(q)`. -/
def dequeue (t : Queuetab) (q : Ulong) : Except Fault (Int × Queuetab) :=
  if isbadqueue q then .ok (SYSERRint, t)
  else do
    let pid ← t.getNext (queuehead q)
    if pid < NPROC then
      let t ← t.unlink pid
      let t ← t.setPrev pid pid
      let t ← t.setNext pid pid
      return (pid, t)
    else return (EMPTY, t)

/-- `newqueue()`. -/
def newqueue (t : Queuetab) : Except Fault (Ulong × Queuetab) := do
  let head := t.nextqueue
  let tail := t.nextqueue + 1
  let t := { t with nextqueue := t.nextqueue + 2 }
  let t ← t.setNext head tail
  let t ← t.setPrev head EMPTY
  let t ← t.setNext tail EMPTY
  let t ← t.setPrev tail head
  return ((BitVec.ofInt 32 head <<< 16) ||| (BitVec.ofInt 32 tail &&& 0xFFFF), t)

/-- The members of the queue from slot `i` on, read off the `next`
column. This is not a function of the kernel: it says which processes
are linked into a queue. -/
def walk (t : Queuetab) : Nat → Int → List Int
  | 0, _ => []
  | steps + 1, i => if 0 ≤ i ∧ i < NPROC then i :: t.walk steps (t.next i) else []

/-- The processes linked into queue `q`, first one first. -/
def members (t : Queuetab) (q : Ulong) : List Int :=
  t.walk NQENT.toNat (t.next (queuehead q))

end Queuetab

end Xinu
