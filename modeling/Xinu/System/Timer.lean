import Xinu.System.Types

/-!
# `Xinu.System.Timer`: busy waiting

`udelay` of `timer.c`. The free-running counter of the system timer has the
value `counter i` when it is read for the `i`-th time, and `clkcount` gives
the low-order 32 bits of it. The body of each loop is empty, so a loop is
its condition and the number of the next reading.
-/

namespace Xinu.Timer

variable (counter : Nat → Nat)

/-- `clkcount()`, at the reading `i`. -/
def clkcount (i : Nat) : Ulong := BitVec.ofNat 32 (counter i)

/-- `while (cond(count = clkcount()));` from the reading `i` on, for at
most `fuel` readings. The result is the number of the next reading. -/
def spin (cond : Ulong → Bool) : Nat → Nat → Except Fault Nat
  | 0, _ => .error .nontermination
  | fuel + 1, i => if cond (clkcount counter i) then spin cond fuel (i + 1) else .ok (i + 1)

/-- `udelay(us)`, with the number of readings that it took. -/
def udelay (fuel : Nat) (clkfreq us : Ulong) : Except Fault Nat :=
  let delay := clkfreq / 1000 * us
  let start := clkcount counter 0
  let target := start + delay
  if target ≥ start then
    spin counter (fun count => count < target && count ≥ start) fuel 1
  else do
    let i ← spin counter (fun count => count > start) fuel 1
    spin counter (fun count => count < target) fuel i

end Xinu.Timer
