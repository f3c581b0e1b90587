import Xinu.System.Context

/-!
# `Xinu.System.Create`: the first registers of a process

`Vars.create` enters a process into the table and prepares its stack.
The other half of `create` is here: what it writes into the array `regs`
of the process, from which `ctxsw` loads the registers when the process
runs for the first time.
-/

namespace Xinu

open Function

/-- The places of three registers in `regs`, `arm.h`. -/
def PREG_SP : Nat := (Arm.PREG .sp).toNat

@[inherit_doc PREG_SP] def PREG_LR : Nat := (Arm.PREG .lr).toNat

@[inherit_doc PREG_SP] def PREG_PC : Nat := (Arm.PREG .pc).toNat

/-- The kernel's variables with the saved registers,
`proctab[pid].regs[i]`. -/
structure Procs extends Vars where
  regs : Int → Nat → Ulong

namespace Procs

open Vars

/-- The registers of a new process: up to four arguments, the function,
the return address and the stack pointer. The others keep what the slot
held before. -/
def initRegs (regs : Nat → Ulong) (a : CreateArgs) (userret saddr : Ulong) : Nat → Ulong :=
  let first := (List.range a.nargs.toNat).take 4
  let regs := first.foldl (fun regs i => update regs i (a.args i)) regs
  let regs := update regs PREG_PC a.funcaddr
  let regs := update regs PREG_LR userret
  update regs PREG_SP saddr

/-- The stack pointer `saddr` at the end of `create`, for a stack at
`stkbase`. -/
def stackPointer (v : Vars) (a : CreateArgs) (pid : Int) : Ulong :=
  let p := v.proctab pid
  (initStack v.heap a p.stkbase p.stklen (BitVec.ofInt 32 pid)).2

/-- `create(funcaddr, ssize, priority, name, nargs, ...)` on core
`cpuid`, with the registers. -/
def create (s : Procs) (userret : Ulong) (cpuid : Core) (a : CreateArgs) :
    Except Fault (Option Int × Procs) := do
  let (pid, v) ← s.toVars.create cpuid a
  match pid with
  | none => return (none, { s with toVars := v })
  | some pid =>
    let regs := initRegs (s.regs pid) a userret (stackPointer v a pid)
    return (some pid, ⟨v, update s.regs pid regs⟩)

end Procs

end Xinu
