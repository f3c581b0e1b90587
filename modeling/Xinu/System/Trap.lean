import Mathlib.Data.BitVec
import Xinu.Lib.Registers
import Xinu.System.Paging

/-!
# `Xinu.System.Trap`: entering and leaving the kernel

`kernenter` and `kernexit` of `interrupt.S`, the RISC-V code that saves
the registers of an interrupted process in its swap area and restores
them. The swap area is at the same virtual address in the page tables of
the process and of the kernel, and is taken to be the same memory in
both. `sfence.vma` has no effect on what is modelled and is left out.

A write to `satp` is a move to that register, and `jr` and `sret` are
moves to the program counter.
-/

namespace Xinu.Riscv

open Lib

/-- The general registers. The register `zero` is not among them. -/
inductive Gpr where
  | ra | sp | gp | tp
  | t0 | t1 | t2 | t3 | t4 | t5 | t6
  | s0 | s1 | s2 | s3 | s4 | s5 | s6 | s7 | s8 | s9 | s10 | s11
  | a0 | a1 | a2 | a3 | a4 | a5 | a6 | a7
deriving DecidableEq, Repr

/-- The control registers that the code uses. -/
inductive Csr where
  | sscratch | satp | scause | stval | sepc
deriving DecidableEq, Repr

/-- All registers. -/
inductive Reg where
  | gpr (r : Gpr)
  | csr (r : Csr)
  | pc
deriving DecidableEq, Repr

instance : Coe Gpr Reg := ⟨.gpr⟩
instance : Coe Csr Reg := ⟨.csr⟩

/-- The constants `PREG_A0` to `PREG_T6` of `riscv.h`. -/
def PREG : Gpr → Ulong64
  | .a0 => 0 | .a1 => 1 | .a2 => 2 | .a3 => 3 | .a4 => 4 | .a5 => 5 | .a6 => 6 | .a7 => 7
  | .s0 => 8 | .s1 => 9 | .s2 => 10 | .s3 => 11 | .s4 => 12 | .s5 => 13 | .s6 => 14 | .s7 => 15
  | .s8 => 16 | .s9 => 17 | .s10 => 18 | .s11 => 19
  | .ra => 20 | .sp => 21 | .gp => 23 | .tp => 24
  | .t0 => 25 | .t1 => 26 | .t2 => 27 | .t3 => 28 | .t4 => 29 | .t5 => 30 | .t6 => 31

def PREG_KERNSATP : Ulong64 := 32
def PREG_KERNSP : Ulong64 := 33
def PREG_DISPATCH_ADDR : Ulong64 := 34

def SWAPAREAADDR : Ulong64 := 0x3FFFFFE000

/-- The registers that are saved and restored with base `t0`, in the order
of the code. -/
def savedRegs : List Gpr :=
  [.ra, .sp, .gp, .tp, .t1, .t2, .s0, .s1, .a0, .a1, .a2, .a3, .a4, .a5, .a6, .a7, .s2, .s3, .s4,
    .s5, .s6, .s7, .s8, .s9, .s10, .s11, .t3, .t4, .t5, .t6]

/-- Each of them with its offset `PREG_x*8`. -/
def savedSlots : List (Reg × Ulong64) := savedRegs.map fun r => (.gpr r, PREG r * 8)

open Gpr Csr

/-- `kernenter` up to the block of stores: `t0` is saved and becomes the
base. -/
def kernenterBase : List (Instr Reg Ulong64) :=
  [.mov sscratch a0, .li a0 SWAPAREAADDR, .store t0 a0 (PREG t0 * 8), .mov t0 a0, .mov a0 sscratch]

/-- `kernenter` after the block of stores: it goes to the kernel. -/
def kernenterJump : List (Instr Reg Ulong64) :=
  [.load a1 t0 (PREG_KERNSATP * 8), .load sp t0 (PREG_KERNSP * 8),
    .load t1 t0 (PREG_DISPATCH_ADDR * 8), .mov satp a1, .mov a0 scause, .mov a1 stval,
    .mov a2 sepc, .mov .pc t1]

/-- `kernenter`. -/
def kernenter : List (Instr Reg Ulong64) :=
  kernenterBase ++ Cpu.stores (.gpr t0) savedSlots ++ kernenterJump

/-- `kernexit` up to the block of loads: the value of `t0` waits in
`sscratch`. -/
def kernexitBase : List (Instr Reg Ulong64) :=
  [.mov a1 a0, .mov satp a1, .li a0 SWAPAREAADDR, .load t0 a0 (PREG t0 * 8), .mov sscratch t0,
    .mov t0 a0]

/-- `kernexit` after the block of loads. -/
def kernexitReturn : List (Instr Reg Ulong64) := [.mov t0 sscratch, .mov .pc sepc]

/-- `kernexit(satp)`. -/
def kernexit : List (Instr Reg Ulong64) :=
  kernexitBase ++ Cpu.loads (.gpr t0) savedSlots ++ kernexitReturn

end Xinu.Riscv
