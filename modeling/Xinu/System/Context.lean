import Mathlib.Data.BitVec
import Xinu.Lib.Registers
import Xinu.Lib.Runs
import Xinu.System.Process

/-!
# `Xinu.System.Context`: context switches

`ctxsw.S` of the ARM port, and the part of `create` that prepares the
first context of a process: its stack and its saved registers. A process
is a member of any type `P`, and `area p` is the address of its array
`regs`.

`Threads` is a machine in which the current process computes, creates
processes and calls `ctxsw`. It records what each process that is not
running has to find when it resumes: the registers with which it called
`ctxsw`, or the arguments of `create`.
-/

namespace Xinu.Arm

open Lib Function

inductive Reg where
  | r0 | r1 | r2 | r3 | r4 | r5 | r6 | r7 | r8 | r9 | r10 | r11
  | ip | sp | lr | pc
deriving DecidableEq, Repr

/-- The constants `PREG_R0` to `PREG_PC` of `arm.h`. -/
def PREG : Reg → Ulong
  | .r0 => 0 | .r1 => 1 | .r2 => 2 | .r3 => 3 | .r4 => 4 | .r5 => 5 | .r6 => 6 | .r7 => 7
  | .r8 => 8 | .r9 => 9 | .r10 => 10 | .r11 => 11 | .ip => 12 | .sp => 13 | .lr => 14 | .pc => 15

/-- The address of a saved register. -/
def slot (area : Ulong) (r : Reg) : Ulong := area + PREG r * 4

open Reg

/-- `ctxsw` up to the block of stores: `r0` is saved, and the two
arguments are moved. -/
def ctxswBase : List (Instr Reg Ulong) :=
  [.mov ip r0, .store r0 ip (PREG r0 * 4), .mov r0 ip, .mov ip r1]

/-- What `ctxsw` stores, with base `r0`. -/
def ctxswStores : List (Reg × Ulong) :=
  [(r1, PREG r1 * 4), (r2, PREG r2 * 4), (r3, PREG r3 * 4), (r4, PREG r4 * 4), (r5, PREG r5 * 4),
    (r6, PREG r6 * 4), (r7, PREG r7 * 4), (r8, PREG r8 * 4), (r9, PREG r9 * 4),
    (r10, PREG r10 * 4), (r11, PREG r11 * 4), (lr, PREG lr * 4), (lr, PREG pc * 4),
    (sp, PREG sp * 4)]

/-- What `ctxsw` loads, with base `ip`. -/
def ctxswLoads : List (Reg × Ulong) :=
  [r0, r1, r2, r3, r4, r5, r6, r7, r8, r9, r10, r11, sp, lr, pc].map fun r => (r, PREG r * 4)

/-- `ctxsw(&oldregs, &newregs)`. -/
def ctxsw : List (Instr Reg Ulong) :=
  ctxswBase ++ Cpu.stores r0 ctxswStores ++ Cpu.loads ip ctxswLoads

/-! ### The first context of a process -/

/-- The arguments of `create` that its context depends on, with the stack
and the process id that it has got. -/
structure Setup where
  funcaddr : Ulong
  args : List Ulong
  stkbase : Ulong
  ssize : Ulong
  pid : Ulong

namespace Setup
variable (c : Setup)

/-- The last word of the stack. -/
def top : Ulong := c.stkbase + c.ssize - 4

/-- The number of words reserved for arguments. -/
def pads : Nat := if c.args.length = 0 then 0 else (c.args.length - 1) / 4 * 4

/-- `saddr` after the accounting block and the padding. -/
def saddr : Ulong := c.top - 12 - BitVec.ofNat 32 (4 * c.pads)

/-- The accounting block. -/
def accounting : List (Ulong × Ulong) :=
  [(c.top, STACKMAGIC), (c.top - 4, c.pid), (c.top - 8, c.ssize), (c.top - 12, c.stkbase)]

/-- The padding. -/
def padding : List (Ulong × Ulong) :=
  (List.range c.pads).map fun i => (c.top - 12 - BitVec.ofNat 32 (4 * (i + 1)), 0)

/-- The first four arguments go to the saved registers. -/
def regArgs (area : Ulong) : List (Ulong × Ulong) :=
  (c.args.take 4).mapIdx fun i arg => (area + BitVec.ofNat 32 (4 * i), arg)

/-- The others go to the stack. -/
def stackArgs : List (Ulong × Ulong) :=
  (c.args.drop 4).mapIdx fun i arg => (c.saddr + BitVec.ofNat 32 (4 * i), arg)

/-- The other saved registers that are set. -/
def entry (userret area : Ulong) : List (Ulong × Ulong) :=
  [(slot area pc, c.funcaddr), (slot area lr, userret), (slot area sp, c.saddr)]

/-- The writes of `create` to the stack and to the saved registers. -/
def writes (userret area : Ulong) : List (Ulong × Ulong) :=
  c.accounting ++ c.padding ++ c.regArgs area ++ c.stackArgs ++ c.entry userret area

end Setup

/-! ### Runs -/

/-- What a process that does not run is going to find. -/
inductive Context where
  /-- It has called `ctxsw` with these registers. -/
  | called (regs : Reg → Ulong)
  /-- It was created and has not run. -/
  | created (c : Setup)

/-- The processor, the current process and what the others wait with. -/
structure Threads (P : Type) where
  cpu : Cpu Reg Ulong
  current : P
  saved : P → Option Context

/-- What the current process does. -/
inductive Event (P : Type) where
  /-- It computes, with this result. -/
  | compute (cpu : Cpu Reg Ulong)
  | create (p : P) (c : Setup)
  | ctxsw (new : P)

namespace Threads
variable {P : Type} [DecidableEq P] (area : P → Ulong) (userret : Ulong)

/-- The processor after the current process has called
`ctxsw(&area(current), &area(new))`. -/
def switched (s : Threads P) (new : P) : Cpu Reg Ulong :=
  let regs := update (update s.cpu.regs r0 (area s.current)) r1 (area new)
  Cpu.run ctxsw { s.cpu with regs := regs }

/-- One event. -/
def exec (s : Threads P) : Event P → Except Fault (Threads P)
  | .compute cpu => .ok { s with cpu := cpu }
  | .create p c => .ok { s with
      cpu := { s.cpu with mem := writeAll (c.writes userret (area p)) s.cpu.mem }
      saved := update s.saved p (some (.created c)) }
  | .ctxsw new => .ok {
      cpu := s.switched area new
      current := new
      saved := update
        (update s.saved s.current (some (.called s.cpu.regs))) new none }

/-- The address is of an argument on the stack of a process that has not
run. -/
def Reserved (s : Threads P) (a : Ulong) : Prop :=
  ∃ p c, s.saved p = some (.created c) ∧ a ∈ c.stackArgs.map Prod.fst

/-- Processes do not compute on save areas or on the stacks of others.
The stack that a new process gets is apart from both, and its arguments
do not fill the memory. A process that is switched to waits or runs. -/
def Permitted (s : Threads P) : Event P → Prop
  | .compute cpu =>
    (∀ p r, cpu.mem (slot (area p) r) = s.cpu.mem (slot (area p) r)) ∧
    ∀ a, s.Reserved a → cpu.mem a = s.cpu.mem a
  | .create p c => p ≠ s.current ∧ c.args.length < 2 ^ 30 ∧
    ∀ a ∈ (c.accounting ++ c.padding ++ c.stackArgs).map Prod.fst,
      (∀ q r, a ≠ slot (area q) r) ∧ ∀ q d, q ≠ p → s.saved q = some (.created d) →
        a ∉ d.stackArgs.map Prod.fst
  | .ctxsw new => new = s.current ∨ (s.saved new).isSome

/-- At the start no process waits. -/
def Started (s : Threads P) : Prop := ∀ p, s.saved p = none

/-- The states of the runs. -/
def Reachable (s : Threads P) : Prop := Reaches Started (Permitted area) (exec area userret) s

end Threads

end Xinu.Arm
