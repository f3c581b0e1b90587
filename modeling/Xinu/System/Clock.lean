import Xinu.System.Process

/-!
# `Xinu.System.Clock`: the clock interrupt

`clkhandler` and `clkinit`, with the clocks of the cores next to the
kernel's variables. The timer is set again at each tick, which is left out,
and so are the message of `clkinit` and its registration of the handler.

`ClockCall` has the calls that count something. Whatever else the cores do
leaves the counters alone. It may change everything else, and is the call
`other` with the variables that it leaves.
-/

namespace Xinu

open Function

/-- `clock.h`. -/
def CLKTICKS_PER_SEC : Ulong := 1000

/-- The kernel's variables with the clocks of the cores. -/
structure Clocked extends Kernel where
  clkticks : Core → Ulong
  clktime : Core → Ulong

namespace Clocked

/-- `clkinit()`. -/
def clkinit (s : Clocked) : Clocked :=
  { s with
    preempt := fun _ => QUANTUM
    promoteMedium := fun _ => QUANTUM
    promoteLow := fun _ => QUANTUM
    clkticks := fun _ => 0
    clktime := fun _ => 0 }

/-- Another clock tick passes. -/
def tick (s : Clocked) (cpuid : Core) : Clocked :=
  let s := { s with clkticks := update s.clkticks cpuid (s.clkticks cpuid + 1) }
  if CLKTICKS_PER_SEC = s.clkticks cpuid then
    { s with
      clktime := update s.clktime cpuid (s.clktime cpuid + 1)
      clkticks := update s.clkticks cpuid 0 }
  else s

/-- `resched()` on core `cpuid`. -/
def resched (s : Clocked) (cpuid : Core) : Except Fault Clocked := do
  let k ← s.toKernel.resched cpuid
  return { s with toKernel := k }

/-- `--preempt[cpuid]`. -/
def spend (s : Clocked) (cpuid : Core) : Clocked :=
  { s with preempt := update s.preempt cpuid (s.preempt cpuid - 1) }

/-- `clkhandler()` on core `cpuid`. -/
def clkhandler (s : Clocked) (cpuid : Core) : Except Fault Clocked :=
  let s := (s.tick cpuid).spend cpuid
  if s.preempt cpuid ≤ 0 then s.resched cpuid else .ok s

end Clocked

/-- What happens on the cores. -/
inductive ClockCall where
  | clkhandler (cpuid : Core)
  | resched (cpuid : Core)
  /-- Anything that does not count. -/
  | other (k : Kernel)

/-- The counters stay as they are. -/
def ClockCall.Keeps (s : Clocked) : ClockCall → Prop
  | other k => k.preempt = s.preempt ∧ k.promoteMedium = s.promoteMedium ∧
      k.promoteLow = s.promoteLow
  | _ => True

def Clocked.exec (s : Clocked) : ClockCall → Except Fault Clocked
  | .clkhandler cpuid => s.clkhandler cpuid
  | .resched cpuid => s.resched cpuid
  | .other k => .ok { s with toKernel := k }

/-- A call of `clkhandler` on core `c`. -/
def ClockCall.ticksOn (c : Core) : Clocked × ClockCall → Bool
  | (_, clkhandler cpuid) => cpuid = c
  | _ => false

end Xinu
