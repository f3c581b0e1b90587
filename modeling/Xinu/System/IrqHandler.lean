import Xinu.System.Context

/-!
# `Xinu.System.IrqHandler`: the interrupt handler of the ARM port

`irq_handler.S`. The kernel runs in SYS mode, and an interrupt takes the
processor to IRQ mode, with a link register and a saved status of its
own. The handler stores these two on the stack of the interrupted
process, goes back to SYS mode and calls `dispatch` there.
-/

namespace Xinu.Arm

open Lib Reg Function

/-- The registers of SYS mode with the memory, the status register, and
the two registers that IRQ mode has for itself. -/
structure Processor where
  cpu : Cpu Reg Ulong
  cpsr : Ulong
  lrIrq : Ulong
  spsrIrq : Ulong

/-- The registers of the `push`, at their offsets. -/
def irqSaved : List (Reg × Ulong) :=
  [(r0, 0), (r1, 4), (r2, 8), (r3, 12), (r4, 16), (ip, 20), (lr, 24)]

namespace Processor

/-- An interrupt is taken before the instruction at `pc`. -/
def interrupt (p : Processor) : Processor :=
  { p with
    cpsr := (p.cpsr &&& ~~~0x1F) ||| 0x192
    lrIrq := p.cpu.regs pc + 4
    spsrIrq := p.cpsr }

/-- The handler up to the call of `dispatch`. -/
def enter (p : Processor) : Processor :=
  let lrIrq := p.lrIrq - 4
  -- `srsdb` writes to the stack of SYS mode
  let base := p.cpu.regs sp - 8
  let mem := update (update p.cpu.mem base lrIrq) (base + 4) p.spsrIrq
  let top := base - 28
  let c := Cpu.run (Cpu.stores sp irqSaved) ⟨update p.cpu.regs sp top, mem⟩
  let pad := top &&& 4
  { p with
    cpu := { c with regs := update (update c.regs r4 pad) sp (top - pad) }
    lrIrq := lrIrq
    cpsr := (p.cpsr &&& ~~~0x1F) ||| 0xDF }

/-- The handler after `dispatch` has returned. -/
def leave (p : Processor) : Processor :=
  let top := p.cpu.regs sp + p.cpu.regs r4
  let c := Cpu.run (Cpu.loads sp irqSaved) { p.cpu with regs := update p.cpu.regs sp top }
  let base := top + 28
  -- `rfeia`
  { p with
    cpu := { c with
      regs := update (update c.regs pc (c.mem base)) sp (base + 8) }
    cpsr := c.mem (base + 4) }

/-- `irq_handler`, with `dispatch` for what the call does. -/
def irqHandler (dispatch : Cpu Reg Ulong → Cpu Reg Ulong) (p : Processor) : Processor :=
  leave { p.enter with cpu := dispatch p.enter.cpu }

end Processor

end Xinu.Arm
