import Xinu.System.Trap

/-!
# `Xinu.Proofs.Machine.Trap`: a trap leaves no trace in the registers

Whatever the kernel does between `kernenter` and `kernexit`, the process
gets all of its 31 general registers back, as long as their slots in the
swap area are not written (`registers_restored`). `kernenter` saves each
register in its own slot (`saved_kernenter`), and `kernexit` loads each
of them from there (`regs_kernexit`).

Both have to give up one register as the base of the others. `t0` is
saved before it becomes the base, and waits in `sscratch` while the
others are restored.
-/

namespace Xinu.Riscv

open Lib Gpr Csr Function List

/-- Every register but the base is in the list. -/
theorem mem_savedSlots {r : Gpr} (hr : r ≠ t0) : (Reg.gpr r, PREG r * 8) ∈ savedSlots := by
  have hmem : r ∈ savedRegs := by
    cases r <;> first | exact absurd rfl hr | decide
  exact mem_map_of_mem hmem

theorem nodup_savedSlots :
    (savedSlots.map Prod.snd).Nodup ∧ (savedSlots.map Prod.fst).Nodup := by
  decide +kernel

/-- The slots of the kernel's own values. -/
def kernelSlots : List Ulong64 := [PREG_KERNSATP * 8, PREG_KERNSP * 8, PREG_DISPATCH_ADDR * 8]

/-- They and the slot of `t0` are not used for the others. -/
theorem nodup_slots : (PREG t0 * 8 :: kernelSlots ++ savedSlots.map Prod.snd).Nodup := by
  decide +kernel

theorem notMem_savedSlots {off : Ulong64} (hoff : off ∈ PREG t0 * 8 :: kernelSlots) :
    off ∉ savedSlots.map Prod.snd :=
  (nodup_append'.mp nodup_slots).2.2 hoff

theorem ne_of_mem_kernelSlots {off : Ulong64} (hoff : off ∈ kernelSlots) : off ≠ PREG t0 * 8 := by
  rintro rfl
  exact (nodup_cons.mp (nodup_append'.mp nodup_slots).1).1 hoff

/-! ### Saving -/

/-- The first instructions put the address of the swap area into `t0`,
and the old value of `t0` into its slot. All other general registers have
their old values. -/
theorem run_kernenterBase (s : Cpu Reg Ulong64) :
    (Cpu.run kernenterBase s).regs t0 = SWAPAREAADDR ∧
    (∀ r : Gpr, r ≠ t0 → (Cpu.run kernenterBase s).regs r = s.regs r) ∧
    (Cpu.run kernenterBase s).mem =
      update s.mem (SWAPAREAADDR + PREG t0 * 8) (s.regs t0) := by
  refine ⟨?_, ?_, ?_⟩
  · simp [kernenterBase, Cpu.run, Cpu.step]
  · intro r hr
    by_cases ha0 : r = a0
    · subst ha0
      simp [kernenterBase, Cpu.run, Cpu.step]
    · simp [kernenterBase, Cpu.run, Cpu.step, hr, ha0]
  · simp [kernenterBase, Cpu.run, Cpu.step]

/-- The last instructions read three slots of the swap area, and write no
memory. -/
theorem run_kernenterJump (s : Cpu Reg Ulong64) :
    (Cpu.run kernenterJump s).mem = s.mem ∧
    (Cpu.run kernenterJump s).regs satp = s.mem (s.regs t0 + PREG_KERNSATP * 8) ∧
    (Cpu.run kernenterJump s).regs sp = s.mem (s.regs t0 + PREG_KERNSP * 8) ∧
    (Cpu.run kernenterJump s).regs .pc = s.mem (s.regs t0 + PREG_DISPATCH_ADDR * 8) := by
  refine ⟨?_, ?_, ?_, ?_⟩ <;> simp [kernenterJump, Cpu.run, Cpu.step]

/-- The memory after `kernenter`: every register is in its slot, and the
other slots are as they were. -/
theorem saved_kernenter (s : Cpu Reg Ulong64) :
    (∀ r : Gpr, (Cpu.run kernenter s).mem (SWAPAREAADDR + PREG r * 8) = s.regs r) ∧
    ∀ off ∈ kernelSlots,
      (Cpu.run (kernenterBase ++ Cpu.stores (.gpr t0) savedSlots) s).mem (SWAPAREAADDR + off) =
        s.mem (SWAPAREAADDR + off) := by
  obtain ⟨hbase, hregs, hmem⟩ := run_kernenterBase s
  have hsame : ∀ off, off ∉ savedSlots.map Prod.snd →
      (Cpu.run (kernenterBase ++ Cpu.stores (.gpr t0) savedSlots) s).mem (SWAPAREAADDR + off) =
        (Cpu.run kernenterBase s).mem (SWAPAREAADDR + off) := by
    intro off hoff
    rw [Cpu.run_append]
    refine Cpu.mem_run_stores_of_ne fun off' hoff' heq => hoff ?_
    rw [hbase] at heq
    rw [add_left_cancel heq]
    exact hoff'
  refine ⟨?_, ?_⟩
  · intro r
    rw [kernenter, Cpu.run_append, (run_kernenterJump _).1]
    by_cases hr : r = t0
    · -- Its slot was written before the others, and is not among them.
      subst hr
      rw [hsame _ (notMem_savedSlots mem_cons_self), hmem, update_self]
    · rw [Cpu.run_append, ← hbase, Cpu.mem_run_stores nodup_savedSlots.1 (mem_savedSlots hr),
        hregs r hr]
  · intro off hoff
    rw [hsame off (notMem_savedSlots (mem_cons_of_mem _ hoff)), hmem, update_of_ne]
    intro heq
    exact ne_of_mem_kernelSlots hoff (add_left_cancel heq)

/-! ### Restoring -/

theorem run_kernexitBase (s : Cpu Reg Ulong64) :
    (Cpu.run kernexitBase s).regs t0 = SWAPAREAADDR ∧
    (Cpu.run kernexitBase s).regs sscratch = s.mem (SWAPAREAADDR + PREG t0 * 8) ∧
    (Cpu.run kernexitBase s).mem = s.mem := by
  refine ⟨?_, ?_, ?_⟩ <;> simp [kernexitBase, Cpu.run, Cpu.step]

/-- After `kernexit` every general register has the value of its slot. -/
theorem regs_kernexit (s : Cpu Reg Ulong64) (r : Gpr) :
    (Cpu.run kernexit s).regs r = s.mem (SWAPAREAADDR + PREG r * 8) := by
  obtain ⟨hbase, hscratch, hmem⟩ := run_kernexitBase s
  have hfst : savedSlots.map Prod.fst = savedRegs.map Reg.gpr := by
    rw [savedSlots, map_map]
    rfl
  rw [kernexit, Cpu.run_append, Cpu.run_append]
  by_cases hr : r = t0
  · subst hr
    have hnot : Reg.csr sscratch ∉ savedSlots.map Prod.fst := by
      rw [hfst]
      simp
    show (Cpu.run (Cpu.loads (.gpr t0) savedSlots) (Cpu.run kernexitBase s)).regs sscratch = _
    rw [Cpu.regs_run_loads_of_notMem hnot, hscratch]
  · have hbaseNot : Reg.gpr t0 ∉ savedSlots.map Prod.fst := by
      rw [hfst]
      decide
    have hreturn : ∀ c : Cpu Reg Ulong64, (Cpu.run kernexitReturn c).regs r = c.regs r := by
      intro c
      simp [kernexitReturn, Cpu.run, Cpu.step, hr]
    rw [hreturn, Cpu.regs_run_loads nodup_savedSlots.2 hbaseNot (mem_savedSlots hr), hbase, hmem]

/-- The registers of a process survive a trap, whatever the kernel does in
between, if it does not write their slots. `kernenter` finds the kernel's
page table, stack and entry point where the kernel has left them. -/
theorem registers_restored (s kernel : Cpu Reg Ulong64)
    (hslots : ∀ r : Gpr, kernel.mem (SWAPAREAADDR + PREG r * 8) =
      (Cpu.run kernenter s).mem (SWAPAREAADDR + PREG r * 8)) :
    (∀ r : Gpr, (Cpu.run kernexit kernel).regs r = s.regs r) ∧
    (∀ off ∈ kernelSlots,
      (Cpu.run kernenter s).mem (SWAPAREAADDR + off) = s.mem (SWAPAREAADDR + off)) ∧
    (Cpu.run kernenter s).regs satp = s.mem (SWAPAREAADDR + PREG_KERNSATP * 8) ∧
    (Cpu.run kernenter s).regs sp = s.mem (SWAPAREAADDR + PREG_KERNSP * 8) ∧
    (Cpu.run kernenter s).regs .pc = s.mem (SWAPAREAADDR + PREG_DISPATCH_ADDR * 8) := by
  obtain ⟨hsaved, hkept⟩ := saved_kernenter s
  refine ⟨?_, ?_⟩
  · intro r
    rw [regs_kernexit, hslots, hsaved]
  · obtain ⟨hmem, hsatp, hsp, hpc⟩ :=
      run_kernenterJump (Cpu.run (kernenterBase ++ Cpu.stores (.gpr t0) savedSlots) s)
    have hbase : (Cpu.run (kernenterBase ++ Cpu.stores (.gpr t0) savedSlots) s).regs t0 =
        SWAPAREAADDR := by
      rw [Cpu.run_append, Cpu.regs_run_stores, (run_kernenterBase s).1]
    rw [hbase] at hsatp hsp hpc
    rw [kernenter, Cpu.run_append, hmem, hsatp, hsp, hpc]
    exact ⟨hkept, hkept _ (by simp [kernelSlots]), hkept _ (by simp [kernelSlots]),
      hkept _ (by simp [kernelSlots])⟩

/-- A process with 42 in `s7`. -/
def trapped : Cpu Reg Ulong64 := ⟨fun r => if r = s7 then 42 else 5, fun a => a⟩

/-- A kernel that clears all registers and writes no memory. -/
def cleared (c : Cpu Reg Ulong64) : Cpu Reg Ulong64 := ⟨fun _ => 0, c.mem⟩

theorem cleared_mem (c : Cpu Reg Ulong64) : (cleared c).mem = c.mem := rfl

theorem registers_restored_s7 :
    (Cpu.run kernexit (cleared (Cpu.run kernenter trapped))).regs s7 = 42 := by
  have hregs := (registers_restored trapped (cleared (Cpu.run kernenter trapped))
    fun r => by rw [cleared_mem]).1 s7
  rw [hregs]
  rfl

end Xinu.Riscv
