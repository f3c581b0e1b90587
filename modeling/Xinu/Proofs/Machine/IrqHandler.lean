import Mathlib.Data.Nat.Bitwise
import Xinu.Proofs.Machine.Context
import Xinu.System.IrqHandler

/-!
# `Xinu.Proofs.Machine.IrqHandler`: an interrupt is not noticed

If `dispatch` keeps the nine words that the handler stores (`mem_enter`),
and the registers that a call preserves, the interrupted process goes on
with all its registers and its status as they were
(`irqHandler_restores`).
-/

namespace Xinu.Arm.Processor

open Lib Reg Function List

/-- An address in the 36 bytes below the stack pointer. -/
def frame (p : Processor) (off : Ulong) : Ulong := p.cpu.regs sp - 36 + off

/-- What `dispatch` has to keep. -/
structure Kept (p : Processor) (c c' : Cpu Reg Ulong) : Prop where
  regs : ∀ r ∈ preserved, r ≠ lr → c'.regs r = c.regs r
  mem : ∀ off < 36, c'.mem (p.frame off) = c.mem (p.frame off)

/-- The words of the frame. -/
def saved (p : Processor) : List (Ulong × Ulong) :=
  (28, p.lrIrq - 4) :: (32, p.spsrIrq) :: irqSaved.map fun q => (q.2, p.cpu.regs q.1)

variable {p : Processor} {r : Reg} {off v a top : Ulong}

/-! ### Up to the call -/

theorem mem_enter (p : Processor) :
    p.enter.cpu.mem = writeAll (p.saved.map fun q => (p.frame q.1, q.2)) p.cpu.mem := by
  have htop : p.frame 28 - 28 = p.cpu.regs sp - 36 := by rw [frame]; bv_omega
  have hlr : p.cpu.regs sp - 8 = p.frame 28 := by rw [frame]; bv_omega
  have hspsr : p.frame 28 + 4 = p.frame 32 := by rw [frame, frame]; bv_omega
  simp only [enter, Cpu.mem_run_stores_eq, hlr, hspsr, htop]
  rfl

theorem regs_enter (p : Processor) : p.enter.cpu.regs =
    update (update p.cpu.regs r4 (p.frame 0 &&& 4)) sp
      (p.frame 0 - (p.frame 0 &&& 4)) := by
  have htop : p.cpu.regs sp - 8 - 28 = p.frame 0 := by rw [frame]; bv_omega
  simp only [enter, Cpu.regs_run_stores, htop]
  rw [update_comm (by decide), update_idem, update_comm (by decide)]

theorem mem_enter_frame (h : (off, v) ∈ p.saved) : p.enter.cpu.mem (p.frame off) = v := by
  rw [mem_enter]
  refine writeAll_of_mem ?_ (mem_map_of_mem (f := fun q => (p.frame q.1, q.2)) h)
  have hoffs : (p.saved.map Prod.fst).Nodup := by
    show ([28, 32, 0, 4, 8, 12, 16, 20, 24] : List Ulong).Nodup
    decide +kernel
  have haddr := hoffs.map (f := p.frame) (add_right_injective _)
  rwa [map_map] at haddr ⊢

theorem mem_enter_of_ne (ha : ∀ off < 36, a ≠ p.frame off) :
    p.enter.cpu.mem a = p.cpu.mem a := by
  rw [mem_enter, writeAll_of_notMem]
  simp [saved, irqSaved, ha]

theorem aligned_enter (h : (p.cpu.regs sp).toNat % 4 = 0) :
    (p.enter.cpu.regs sp).toNat % 8 = 0 := by
  have hpad : (p.frame 0 &&& 4).toNat = ((p.frame 0).toNat.testBit 2).toNat * 2 ^ 2 :=
    (BitVec.toNat_and _ _).trans (Nat.and_two_pow _ 2)
  have hbit := Nat.toNat_testBit (p.frame 0).toNat 2
  have hfour : (p.frame 0).toNat % 4 = 0 := by
    rw [frame]
    bv_omega
  rw [regs_enter, update_self]
  bv_omega

/-! ### The return -/

theorem regs_leave_saved (htop : p.cpu.regs sp + p.cpu.regs r4 = top) (h : (r, off) ∈ irqSaved) :
    p.leave.cpu.regs r = p.cpu.mem (top + off) := by
  have hne : r ≠ sp ∧ r ≠ pc := by
    constructor <;> rintro rfl <;> simp [irqSaved] at h
  simp only [leave, update_of_ne hne.1, update_of_ne hne.2]
  rw [Cpu.regs_run_loads (by decide) (by decide) h]
  simp only [update_self, htop]

theorem regs_leave_of_notMem (hr : r ∉ irqSaved.map Prod.fst) (hsp : r ≠ sp) (hpc : r ≠ pc) :
    p.leave.cpu.regs r = p.cpu.regs r := by
  simp only [leave, update_of_ne hsp, update_of_ne hpc]
  exact (Cpu.regs_run_loads_of_notMem hr).trans (update_of_ne hsp _ _)

/-- `rfeia` takes the two words above, and the stack pointer is back. -/
theorem leave_return (htop : p.cpu.regs sp + p.cpu.regs r4 = top) :
    p.leave.cpu.regs pc = p.cpu.mem (top + 28) ∧ p.leave.cpu.regs sp = top + 36 ∧
    p.leave.cpsr = p.cpu.mem (top + 32) := by
  have hcpsr : top + 28 + 4 = top + 32 := by bv_omega
  have hsp : top + 28 + 8 = top + 36 := by bv_omega
  simp only [leave, htop, Cpu.mem_run_loads, hcpsr, hsp, update_self,
    update_of_ne (show pc ≠ sp by decide), and_self]

/-- The interrupted process goes on with its registers and its status;
`dispatch` is called in SYS mode, with interrupts off and with a stack
pointer that is aligned to eight bytes; and outside the frame only
`dispatch` has written. -/
theorem irqHandler_restores (dispatch : Cpu Reg Ulong → Cpu Reg Ulong) (p : Processor)
    (hkept : p.Kept p.interrupt.enter.cpu (dispatch p.interrupt.enter.cpu))
    (hsp : (p.cpu.regs sp).toNat % 4 = 0) :
    (irqHandler dispatch p.interrupt).cpu.regs = p.cpu.regs ∧
    (irqHandler dispatch p.interrupt).cpsr = p.cpsr ∧
    (irqHandler dispatch p.interrupt).cpu.mem = (dispatch p.interrupt.enter.cpu).mem ∧
    (p.interrupt.enter.cpu.regs sp).toNat % 8 = 0 ∧ p.interrupt.enter.cpsr &&& 0xDF = 0xDF ∧
    ∀ a, (∀ off < 36, a ≠ p.frame off) → p.interrupt.enter.cpu.mem a = p.cpu.mem a := by
  set c := dispatch p.interrupt.enter.cpu
  have htop : c.regs sp + c.regs r4 = p.frame 0 := by
    rw [hkept.regs sp (by decide) (by decide), hkept.regs r4 (by decide) (by decide), regs_enter,
      update_self, update_of_ne (by decide), update_self]
    exact BitVec.sub_add_cancel _ _
  have hzero (off : Ulong) : p.frame 0 + off = p.frame off := by simp [frame]
  have hmem {off v : Ulong} (hoff : off < 36) (h : (off, v) ∈ p.interrupt.saved) :
      c.mem (p.frame off) = v := (hkept.mem off hoff).trans (mem_enter_frame h)
  obtain ⟨hpc, hback, hcpsr⟩ := leave_return (p := { p.interrupt.enter with cpu := c }) htop
  refine ⟨funext fun r => ?_, ?_, Cpu.mem_run_loads _ _ _, aligned_enter hsp, ?_,
    fun a ha => mem_enter_of_ne ha⟩
  · -- A register comes from the frame, or the call has kept it.
    by_cases hr : r ∈ irqSaved.map Prod.fst
    · obtain ⟨⟨r, off⟩, h, rfl⟩ := mem_map.mp hr
      refine (regs_leave_saved htop h).trans ?_
      rw [hzero]
      have hoff : ∀ q ∈ irqSaved, q.2 < 36 := by decide +kernel
      exact hmem (hoff _ h) (.tail _ (.tail _ (mem_map.mpr ⟨_, h, rfl⟩)))
    by_cases hrsp : r = sp
    · subst hrsp
      refine hback.trans ?_
      rw [frame]
      bv_omega
    by_cases hrpc : r = pc
    · subst hrpc
      rw [hzero] at hpc
      exact hpc.trans ((hmem (by decide) (.head _)).trans (BitVec.add_sub_cancel _ _))
    · have hpres : r ∈ preserved ∧ r ≠ lr ∧ r ≠ r4 := by
        revert hr hrsp hrpc
        cases r <;> decide
      refine (regs_leave_of_notMem hr hrsp hrpc).trans
        ((hkept.regs r hpres.1 hpres.2.1).trans ?_)
      rw [regs_enter, update_of_ne hrsp, update_of_ne hpres.2.2]
      rfl
  · rw [hzero] at hcpsr
    exact hcpsr.trans (hmem (by decide) (.tail _ (.head _)))
  · ext i hi
    rw [enter, BitVec.getElem_and, BitVec.getElem_or]
    cases (0xDF : Ulong)[i] <;> simp

/-- A process whose stack pointer has to be padded. -/
def unpadded : Processor := ⟨⟨fun r => 0x8004 + PREG r * 4, fun _ => 0⟩, 0x1F, 0, 0⟩

/-- A call that leaves 7 wherever it may. -/
def clobber (c : Cpu Reg Ulong) : Cpu Reg Ulong :=
  { c with regs := fun r => if r ∈ preserved ∧ r ≠ lr then c.regs r else 7 }

theorem irqHandler_restores_clobbered :
    (irqHandler clobber unpadded.interrupt).cpu.regs = unpadded.cpu.regs ∧
    (irqHandler clobber unpadded.interrupt).cpsr = 0x1F := by
  obtain ⟨hregs, hcpsr, -⟩ := irqHandler_restores clobber unpadded
    ⟨fun r hr hlr => if_pos ⟨hr, hlr⟩, fun _ _ => rfl⟩ (by decide)
  exact ⟨hregs, hcpsr⟩

end Xinu.Arm.Processor
