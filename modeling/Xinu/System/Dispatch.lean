import Mathlib.Logic.Function.Basic
import Xinu.System.Ctype
import Xinu.System.Types

/-!
# `Xinu.System.Dispatch`: interrupt lines and their handlers

`dispatch.c`. The lines are enabled and disabled one by one, and `dispatch`
calls the handlers of the enabled lines that are pending. The handlers
themselves are left out. The model of `dispatch` gives the lines whose
handlers it calls, in this order, and the pending registers have the same
values during the run.

The loop over the bits of a word takes a bound for the number of its
rounds as `fuel`.
-/

namespace Xinu.Irq

/-- The registers of the interrupt controller that are read. -/
structure Pending where
  IRQ_basic_pending : Uint
  IRQ_pending_1 : Uint
  IRQ_pending_2 : Uint

/-- The registers of the interrupt controller that are written. -/
inductive Control where
  | Enable_IRQs_1
  | Enable_IRQs_2
  | Enable_Basic_IRQs
  | Disable_IRQs_1
  | Disable_IRQs_2
  | Disable_Basic_IRQs
deriving DecidableEq

/-- The table of the enabled lines, and what was written to the registers,
the last write first. -/
structure Enabled where
  armEnabledIrqs : Fin 3 → Uint
  written : List (Control × Uint)

/-- Static storage is zero. -/
def Enabled.boot : Enabled := ⟨fun _ => 0, []⟩

/-- `BCM2835_NUM_IRQS`: the size of `interruptVector`. -/
def BCM2835_NUM_IRQS : Nat := 72

/-- How `dispatch` may fail to return. -/
inductive Stop where
  | outOfBounds
  /-- There is no handler, and the processor is halted. -/
  | noHandler (irqNum : Byte)
  | nontermination
deriving DecidableEq

/-- `1 << n`. -/
def oneShl (n : Ulong) : Uint := (1 : Uint) <<< n.toNat

/-! ### `enable_irq` and `disable_irq` -/

namespace Enabled

/-- A write of `bit` to a register and to a word of the table. -/
def write (s : Enabled) (reg : Control) (i : Fin 3) (bit : Uint) (op : Uint → Uint → Uint) :
    Enabled where
  armEnabledIrqs := Function.update s.armEnabledIrqs i (op (s.armEnabledIrqs i) bit)
  written := (reg, bit) :: s.written

/-- `enable_irq(irq_num)`. -/
def enableIrq (s : Enabled) (irqNum : Ulong) : Enabled :=
  if irqNum < 32 then s.write .Enable_IRQs_1 0 (oneShl irqNum) (· ||| ·)
  else if irqNum < 64 then s.write .Enable_IRQs_2 1 (oneShl (irqNum - 32)) (· ||| ·)
  else s.write .Enable_Basic_IRQs 2 (oneShl (irqNum - 64)) (· ||| ·)

/-- `disable_irq(irq_num)`. -/
def disableIrq (s : Enabled) (irqNum : Ulong) : Enabled :=
  if irqNum < 32 then s.write .Disable_IRQs_1 0 (oneShl irqNum) (· &&& ~~~·)
  else if irqNum < 64 then s.write .Disable_IRQs_2 1 (oneShl (irqNum - 32)) (· &&& ~~~·)
  else s.write .Disable_Basic_IRQs 2 (oneShl (irqNum - 64)) (· &&& ~~~·)

end Enabled

/-- A call of one of the two. -/
inductive Op where
  | enable (irqNum : Ulong)
  | disable (irqNum : Ulong)
deriving DecidableEq

def Op.irqNum : Op → Ulong
  | enable irqNum => irqNum
  | disable irqNum => irqNum

def Enabled.call (s : Enabled) : Op → Enabled
  | .enable irqNum => s.enableIrq irqNum
  | .disable irqNum => s.disableIrq irqNum

/-! ### `dispatch` -/

section
variable (regs : Pending) (interruptVector : Nat → Bool)

/-- `handle_irq(irq_num)`, with the handler that it calls. -/
def handleIrq (irqNum : Byte) : Except Stop (List Nat) :=
  if irqNum.toNat < BCM2835_NUM_IRQS then
    if interruptVector irqNum.toNat then .ok [irqNum.toNat] else .error (.noHandler irqNum)
  else .error .outOfBounds

/-- `check_irq_pending(irq_num)`. -/
def checkIrqPending (irqNum : Byte) : Except Stop (List Nat) :=
  let handle : Bool :=
    if irqNum ≥ 64 then regs.IRQ_basic_pending &&& oneShl (irqNum.setWidth 32 - 64) ≠ 0
    else if irqNum ≥ 32 then regs.IRQ_pending_2 &&& oneShl (irqNum.setWidth 32 - 32) ≠ 0
    else regs.IRQ_pending_1 &&& oneShl (irqNum.setWidth 32) ≠ 0
  if handle then handleIrq interruptVector irqNum else .ok []

/-- `first_set_bit(word)`. -/
def firstSetBit (word : Ulong) : Ulong := 31 - word.clz

/-- The loop over the bits of the word `i` of the table. -/
def maskLoop (i : Uint) : Nat → Uint → Except Stop (List Nat)
  | 0, _ => .error .nontermination
  | fuel + 1, mask =>
    if mask ≠ 0 then do
      let bit := firstSetBit mask
      let mask := mask ^^^ oneShl bit
      let calls ← checkIrqPending regs interruptVector ((bit + i <<< 5).setWidth 8)
      let rest ← maskLoop i fuel mask
      return calls ++ rest
    else return []

/-- What `dispatch` does. -/
inductive Dispatched where
  /-- The timer of the core: the interrupt is cleared, `status` is written
  back, and `clkhandler` is called. -/
  | timer (status : Uint)
  /-- These handlers are called. -/
  | handlers (calls : List Nat)
deriving DecidableEq

/-- The loop over the words of the table. -/
def wordLoop (s : Enabled) (fuel : Nat) : List (Fin 3) → Except Stop (List Nat)
  | [] => return []
  | i :: words => do
    let calls ← maskLoop regs interruptVector (BitVec.ofNat 32 i.val) fuel (s.armEnabledIrqs i)
    let rest ← wordLoop s fuel words
    return calls ++ rest

/-- `dispatch()` on a core, where `status` is the interrupt source of the
cores other than core 0. -/
def dispatch (s : Enabled) (cpuid : Core) (status : Uint) (fuel : Nat) :
    Except Stop Dispatched := do
  if cpuid ≠ 0 ∧ status &&& 3 ≠ 0 then return .timer (status &&& ~~~3)
  else
    let calls ← wordLoop regs interruptVector s fuel [0, 1, 2]
    return .handlers calls

end

end Xinu.Irq
