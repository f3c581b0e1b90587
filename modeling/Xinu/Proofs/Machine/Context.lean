import Xinu.Proofs.Kernel.Create

/-!
# `Xinu.Proofs.Machine.Context`: processes resume where they stopped

`ctxsw` stores the registers of the old process in its save area and
loads those of the new one (`ctxsw_spec`). As the areas of two processes
do not overlap, everything in the area of a process that waits stays as
it was left, through any sequence of switches. So every process finds
the registers with which it called `ctxsw`, and a new one finds the
context that `create` has prepared (`resumed_of_reachable`). That is the
same in the kernel's model of `create` (`writes_eq_create`).

A process may switch to itself: then the registers are loaded from the
area that they were just stored in.
-/

namespace Xinu.Arm

open Lib Reg Function List

/-! ### Slots -/

def allRegs : List Reg :=
  [r0, r1, r2, r3, r4, r5, r6, r7, r8, r9, r10, r11, ip, sp, lr, pc]

theorem mem_allRegs (r : Reg) : r ∈ allRegs := by
  cases r <;> decide

/-- The slots of one area are different. -/
theorem slot_inj {a : Ulong} {r r' : Reg} (h : slot a r = slot a r') : r = r' := by
  have hnodup : (allRegs.map fun r => PREG r * 4).Nodup := by decide +kernel
  exact inj_on_of_nodup_map hnodup (mem_allRegs r) (mem_allRegs r') (add_left_cancel h)

/-! ### The routine -/

/-- The first instructions save `r0` and put the second argument into
`ip`. -/
theorem run_ctxswBase (c : Cpu Reg Ulong) :
    (Cpu.run ctxswBase c).regs ip = c.regs r1 ∧
    (∀ r, r ≠ ip → (Cpu.run ctxswBase c).regs r = c.regs r) ∧
    (Cpu.run ctxswBase c).mem = update c.mem (slot (c.regs r0) r0) (c.regs r0) := by
  refine ⟨?_, ?_, ?_⟩
  · simp [ctxswBase, Cpu.run, Cpu.step]
  · intro r hr
    by_cases hr0 : r = r0
    · subst hr0
      simp [ctxswBase, Cpu.run, Cpu.step]
    · simp [ctxswBase, Cpu.run, Cpu.step, hr, hr0]
  · simp [ctxswBase, Cpu.run, Cpu.step, slot]

/-- The registers that a call has to preserve. -/
def preserved : List Reg := [r4, r5, r6, r7, r8, r9, r10, r11, sp, lr]

theorem ctxswStores_snd : (ctxswStores.map Prod.snd).Nodup := by decide +kernel

theorem mem_ctxswStores {r : Reg} (hr : r ∈ preserved) : (r, PREG r * 4) ∈ ctxswStores := by
  cases r <;> first | exact absurd hr (by decide) | simp [ctxswStores]

theorem mem_ctxswLoads {r : Reg} (hr : r ≠ ip) : (r, PREG r * 4) ∈ ctxswLoads := by
  refine mem_map_of_mem (f := fun r => (r, PREG r * 4)) ?_
  cases r <;> first | exact absurd rfl hr | decide

/-- What `ctxsw` does to the memory and to the registers. -/
theorem ctxsw_spec (c : Cpu Reg Ulong) :
    (∀ r ∈ preserved, (Cpu.run ctxsw c).mem (slot (c.regs r0) r) = c.regs r) ∧
    (Cpu.run ctxsw c).mem (slot (c.regs r0) pc) = c.regs lr ∧
    (∀ a, (∀ r, a ≠ slot (c.regs r0) r) → (Cpu.run ctxsw c).mem a = c.mem a) ∧
    ∀ r, r ≠ ip → (Cpu.run ctxsw c).regs r = (Cpu.run ctxsw c).mem (slot (c.regs r1) r) := by
  obtain ⟨hip, hregs, hmem⟩ := run_ctxswBase c
  have hr0 : (Cpu.run ctxswBase c).regs r0 = c.regs r0 := hregs r0 (by decide)
  have hrun : Cpu.run ctxsw c =
      Cpu.run (Cpu.loads ip ctxswLoads) (Cpu.run (Cpu.stores r0 ctxswStores)
        (Cpu.run ctxswBase c)) := by
    rw [ctxsw, Cpu.run_append, Cpu.run_append]
  have hstored : ∀ r off, (r, off) ∈ ctxswStores → r ≠ ip →
      (Cpu.run ctxsw c).mem (c.regs r0 + off) = c.regs r := by
    intro r off hmem hr
    rw [hrun, Cpu.mem_run_loads, ← hr0, Cpu.mem_run_stores ctxswStores_snd hmem, hregs r hr]
  refine ⟨?_, ?_, ?_, ?_⟩
  · intro r hr
    refine hstored r (PREG r * 4) (mem_ctxswStores hr) ?_
    rintro rfl
    exact absurd hr (by decide)
  · exact hstored lr (PREG pc * 4) (by simp [ctxswStores]) (by decide)
  · intro a ha
    rw [hrun, Cpu.mem_run_loads, Cpu.mem_run_stores_of_ne, hmem, update_of_ne (ha r0)]
    -- Every offset is that of a slot.
    intro off hoff heq
    rw [hr0] at heq
    have hslot : ∀ off ∈ ctxswStores.map Prod.snd, ∃ r, off = PREG r * 4 := by
      simp only [ctxswStores, map_cons, map_nil, forall_mem_cons]
      iterate 14 refine ⟨⟨_, rfl⟩, ?_⟩
      exact fun _ h => absurd h not_mem_nil
    obtain ⟨r, rfl⟩ := hslot off hoff
    exact ha r heq
  · intro r hr
    have hfst : (ctxswLoads.map Prod.fst).Nodup ∧ ip ∉ ctxswLoads.map Prod.fst := by decide +kernel
    rw [hrun, Cpu.mem_run_loads, Cpu.regs_run_loads hfst.1 hfst.2 (mem_ctxswLoads hr),
      Cpu.regs_run_stores, hip]
    rfl

/-! ### The context that `create` prepares -/

namespace Setup
variable {c : Setup} {a userret : Ulong} {mem : Ulong → Ulong}

theorem regArgs_eq : c.regArgs a =
    ([r0, r1, r2, r3].zip c.args).map fun p => (slot a p.1, p.2) := by
  rw [regArgs]
  rcases c.args with _ | ⟨x, _ | ⟨y, _ | ⟨z, _ | ⟨w, l⟩⟩⟩⟩ <;> simp [slot, PREG]

theorem stackArgs_fst : c.stackArgs.map Prod.fst =
    (List.range' 0 (c.args.length - 4)).map fun i => c.saddr + BitVec.ofNat 32 (4 * i) := by
  rw [stackArgs, mapIdx_eq_zipIdx_map, map_map, ← length_drop,
    ← zipIdx_map_snd, map_map]
  rfl

/-- Fewer than `2 ^ 30` words have different addresses. -/
theorem stackArgs_nodup (hlen : c.args.length < 2 ^ 30) : (c.stackArgs.map Prod.fst).Nodup := by
  rw [stackArgs_fst]
  refine List.Nodup.map_on ?_ nodup_range'
  intro i hi j hj heq
  have hnat := congrArg BitVec.toNat (add_left_cancel heq)
  simp only [BitVec.toNat_ofNat] at hnat
  rw [mem_range'_1] at hi hj
  omega

theorem mem_stackArgs {j : Nat} {x : Ulong} (hx : (c.args.drop 4)[j]? = some x) :
    (c.saddr + BitVec.ofNat 32 (4 * j), x) ∈ c.stackArgs := by
  obtain ⟨hj, rfl⟩ := List.getElem?_eq_some_iff.mp hx
  exact mem_mapIdx.mpr ⟨j, hj, rfl⟩

/-- The words on the stack are not in any of the slots. -/
def Clear (c : Setup) (a : Ulong) : Prop :=
  ∀ x ∈ (c.accounting ++ c.padding ++ c.stackArgs).map Prod.fst, ∀ r, x ≠ slot a r

theorem Clear.stackArgs (h : c.Clear a) {x : Ulong} (hx : x ∈ c.stackArgs.map Prod.fst) (r : Reg) :
    x ≠ slot a r := by
  refine h x ?_ r
  rw [map_append]
  exact mem_append_right _ hx

/-- The saved registers that are set, with their values. -/
def saved (c : Setup) (userret : Ulong) : List (Reg × Ulong) :=
  [r0, r1, r2, r3].zip c.args ++ [(pc, c.funcaddr), (lr, userret), (sp, c.saddr)]

/-- What the writes leave in the save area: the stack is elsewhere. -/
theorem writes_slot (hclear : c.Clear a) (r : Reg) :
    writeAll (c.writes userret a) mem (slot a r) =
      writeAll (c.saved userret) (fun r => mem (slot a r)) r := by
  have hinj : Injective (slot a) := fun _ _ => slot_inj
  have hentry : c.entry userret a = [(pc, c.funcaddr), (lr, userret), (sp, c.saddr)].map
      fun p => (slot a p.1, p.2) := rfl
  have hbefore : ∀ r, slot a r ∉ (c.accounting ++ c.padding).map Prod.fst := by
    intro r hr
    refine hclear _ ?_ r rfl
    rw [map_append]
    exact mem_append_left _ hr
  rw [writes, writeAll_append, writeAll_append, writeAll_append, hentry, writeAll_map hinj]
  refine (writeAll_congr ?_).trans (congrFun writeAll_append.symm r)
  rw [writeAll_of_notMem fun hr => hclear.stackArgs hr r rfl, regArgs_eq, writeAll_map hinj]
  simp only [writeAll_of_notMem (hbefore _)]

/-- What they leave elsewhere. -/
theorem writes_of_ne_slot {x : Ulong} (hx : ∀ r, x ≠ slot a r) :
    writeAll (c.writes userret a) mem x =
      writeAll c.stackArgs (writeAll (c.accounting ++ c.padding) mem) x := by
  rw [writes, writeAll_append, writeAll_append, writeAll_append, writeAll_of_notMem]
  · refine writeAll_congr (writeAll_of_notMem ?_)
    rw [regArgs_eq, map_map]
    intro h
    obtain ⟨p, -, hp⟩ := mem_map.mp h
    exact hx p.1 hp.symm
  · simp [entry, hx]

theorem writes_spec (userret : Ulong) (mem : Ulong → Ulong) (hclear : c.Clear a)
    (hlen : c.args.length < 2 ^ 30) :
    (∀ p ∈ c.entry userret a, writeAll (c.writes userret a) mem p.1 = p.2) ∧
    (∀ p ∈ [r0, r1, r2, r3].zip c.args, writeAll (c.writes userret a) mem (slot a p.1) = p.2) ∧
    (∀ p ∈ c.stackArgs, writeAll (c.writes userret a) mem p.1 = p.2) ∧
    ∀ x, (∀ r, x ≠ slot a r) → x ∉ (c.accounting ++ c.padding ++ c.stackArgs).map Prod.fst →
      writeAll (c.writes userret a) mem x = mem x := by
  refine ⟨?_, ?_, ?_, ?_⟩
  · simp only [entry, forall_mem_cons, writes_slot hclear, saved, writeAll_append]
    exact ⟨rfl, rfl, rfl, fun _ h => absurd h not_mem_nil⟩
  · intro p hp
    have hr : ∀ r ∈ [r0, r1, r2, r3], r ∉ [pc, lr, sp] := by decide
    have hnodup : (([r0, r1, r2, r3].zip c.args).map Prod.fst).Nodup := by
      rcases c.args with _ | ⟨x, _ | ⟨y, _ | ⟨z, _ | ⟨w, l⟩⟩⟩⟩ <;> simp
    rw [writes_slot hclear, saved, writeAll_append, writeAll_of_notMem (hr _ (of_mem_zip hp).1)]
    exact writeAll_of_mem hnodup hp
  · intro p hp
    rw [writes_of_ne_slot (hclear.stackArgs (mem_map_of_mem hp)),
      writeAll_of_mem (stackArgs_nodup hlen) hp]
  · intro x hx hstack
    rw [map_append, mem_append, not_or] at hstack
    rw [writes_of_ne_slot hx, writeAll_of_notMem hstack.2, writeAll_of_notMem hstack.1]

/-! ### `create` of the kernel's model -/

/-- The call of `create` with these arguments, once it has the stack. -/
def ofArgs (x : Vars.CreateArgs) (stkbase ssize pid : Ulong) : Setup :=
  ⟨x.funcaddr, (range x.nargs.toNat).map x.args, stkbase, ssize, pid⟩

section OfArgs
variable (h : Heap) (x : Vars.CreateArgs) (stkbase ssize pid : Ulong)

theorem pads_ofArgs : (ofArgs x stkbase ssize pid).pads = (Vars.pads x.nargs).toNat := by
  rw [Vars.toNat_pads, pads, ofArgs, length_map, length_range]
  split <;> omega

/-- Zeroes pushed on the stack. -/
theorem foldl_push_replicate (n : Nat) (s : Heap × Ulong) :
    ((replicate n 0).foldl Vars.push s).1.mem =
        writeAll ((range n).map fun i => (s.2 - BitVec.ofNat 32 (4 * (i + 1)), 0)) s.1.mem ∧
      ((replicate n 0).foldl Vars.push s).2 = s.2 - BitVec.ofNat 32 (4 * n) := by
  induction n with
  | zero => exact ⟨rfl, (BitVec.sub_zero _).symm⟩
  | succ n ih =>
    have hnext : s.2 - BitVec.ofNat 32 (4 * n) - 4 = s.2 - BitVec.ofNat 32 (4 * (n + 1)) := by
      rw [BitVec.sub_sub, Nat.mul_add, BitVec.ofNat_add]
      rfl
    rw [replicate_succ', foldl_append, range_succ, map_append, writeAll_append, ← ih.1]
    simp only [foldl_cons, foldl_nil, Vars.push, ih.2, hnext]
    exact ⟨rfl, trivial⟩

theorem stackArgs_ofArgs : (ofArgs x stkbase ssize pid).stackArgs = (Vars.extra x).map fun i =>
    ((ofArgs x stkbase ssize pid).saddr + BitVec.ofNat 32 (4 * (i - 4)), x.args i) := by
  refine ext_getElem ?_ fun i _ _ => ?_
  · simp [stackArgs, Vars.extra, ofArgs]
  · simp [stackArgs, Vars.extra, ofArgs]

/-- `initStack` stores the accounting block, the padding and the
arguments. -/
theorem initStack_eq_writeAll :
    let c := ofArgs x stkbase ssize pid
    (Vars.initStack h x stkbase ssize pid).1.mem =
        writeAll c.stackArgs (writeAll (c.accounting ++ c.padding) h.mem) ∧
      (Vars.initStack h x stkbase ssize pid).2 = c.saddr := by
  intro c
  have h8 : c.top - 4 - 4 = c.top - 8 := BitVec.sub_sub ..
  have h12 : c.top - 8 - 4 = c.top - 12 := BitVec.sub_sub ..
  have hacc : Vars.accounting h stkbase ssize pid =
      ((((h.store c.top STACKMAGIC).store (c.top - 4) pid).store (c.top - 8) ssize).store
        (c.top - 12) stkbase, c.top - 12) := by
    rw [← h12, ← h8]
    rfl
  rw [Vars.initStack_eq, Vars.padded, hacc, ← pads_ofArgs x stkbase ssize pid, stackArgs_ofArgs]
  simp only [Vars.mem_foldl_store, foldl_push_replicate, writeAll_append]
  exact ⟨rfl, rfl⟩

/-- The registers that `initRegs` sets. -/
theorem initRegs_eq_writeAll (regs : Nat → Ulong) (userret saddr : Ulong) (r : Reg) :
    Procs.initRegs regs x userret saddr (PREG r).toNat =
      writeAll ([r0, r1, r2, r3].zip ((range x.nargs.toNat).map x.args) ++
        [(pc, x.funcaddr), (lr, userret), (sp, saddr)]) (fun r => regs (PREG r).toNat) r := by
  have hinj : Injective fun r : Reg => (PREG r).toNat := fun r r' =>
    inj_on_of_nodup_map (by decide +kernel : (allRegs.map fun r => (PREG r).toNat).Nodup)
      (mem_allRegs r) (mem_allRegs r')
  have hargs : ((range x.nargs.toNat).take 4).map (fun i => (i, x.args i)) =
      ([r0, r1, r2, r3].zip ((range x.nargs.toNat).map x.args)).map
        fun p => ((PREG p.1).toNat, p.2) := by
    refine ext_getElem (by simp) fun i hi _ => ?_
    have hlt : i < 4 := by
      rw [length_map, length_take] at hi
      omega
    simp only [getElem_map, getElem_take, getElem_range, getElem_zip]
    match i, hlt with
    | 0, _ | 1, _ | 2, _ | 3, _ => rfl
  have hfirst : ((range x.nargs.toNat).take 4).foldl (fun regs i => update regs i (x.args i)) regs =
      writeAll (((range x.nargs.toNat).take 4).map fun i => (i, x.args i)) regs := by
    rw [writeAll, foldl_map]
  rw [← writeAll_map hinj, map_append, ← hargs, writeAll_append, ← hfirst]
  rfl

/-- The writes leave in the save area the registers, and elsewhere the
memory, that `create` leaves in the model of the kernel. -/
theorem writes_eq_create (userret : Ulong) (regs : Nat → Ulong)
    (hclear : (ofArgs x stkbase ssize pid).Clear a)
    (hregs : ∀ r, h.mem (slot a r) = regs (PREG r).toNat) :
    let mem := writeAll ((ofArgs x stkbase ssize pid).writes userret a) h.mem
    let stack := Vars.initStack h x stkbase ssize pid
    (∀ r, mem (slot a r) = Procs.initRegs regs x userret stack.2 (PREG r).toNat) ∧
      ∀ y, (∀ r, y ≠ slot a r) → mem y = stack.1.mem y := by
  obtain ⟨hmem, hsp⟩ := initStack_eq_writeAll h x stkbase ssize pid
  refine ⟨fun r => ?_, fun y hy => ?_⟩
  · rw [writes_slot hclear, initRegs_eq_writeAll, hsp]
    simp only [hregs]
    rfl
  · rw [writes_of_ne_slot hy, hmem]

end OfArgs

end Setup

/-! ### What a process finds -/

namespace Context

/-- The processor is as the process that waits with this context expects
it. A process that has called `ctxsw` returns with its registers. A new
one starts at its function, with its arguments. -/
def Resumes (userret : Ulong) : Context → Cpu Reg Ulong → Prop
  | .called regs, cpu => (∀ r ∈ preserved, cpu.regs r = regs r) ∧ cpu.regs pc = regs lr
  | .created c, cpu =>
    cpu.regs pc = c.funcaddr ∧ cpu.regs lr = userret ∧ cpu.regs sp = c.saddr ∧
    (∀ p ∈ [r0, r1, r2, r3].zip c.args, cpu.regs p.1 = p.2) ∧
    ∀ j x, (c.args.drop 4)[j]? = some x → cpu.mem (cpu.regs sp + BitVec.ofNat 32 (4 * j)) = x

/-- The same in the save area at `a`. -/
def Holds (userret a : Ulong) (mem : Ulong → Ulong) : Context → Prop
  | .called regs => (∀ r ∈ preserved, mem (slot a r) = regs r) ∧ mem (slot a pc) = regs lr
  | .created c =>
    (∀ p ∈ c.entry userret a, mem p.1 = p.2) ∧
    (∀ p ∈ [r0, r1, r2, r3].zip c.args, mem (slot a p.1) = p.2) ∧
    ∀ p ∈ c.stackArgs, mem p.1 = p.2

variable {userret a : Ulong} {mem mem' : Ulong → Ulong} {ctx : Context}

/-- The context is in the save area and, for a new process, in the
arguments on its stack. -/
theorem Holds.congr (h : ctx.Holds userret a mem) (hslots : ∀ r, mem' (slot a r) = mem (slot a r))
    (hstack : ∀ c, ctx = .created c → ∀ x ∈ c.stackArgs.map Prod.fst, mem' x = mem x) :
    ctx.Holds userret a mem' := by
  cases ctx with
  | called regs =>
    refine ⟨fun r hr => ?_, ?_⟩
    · rw [hslots, h.1 r hr]
    · rw [hslots, h.2]
  | created c =>
    obtain ⟨hentry, hregs, hargs⟩ := h
    refine ⟨?_, fun p hp => ?_, fun p hp => ?_⟩
    · simp only [Setup.entry, forall_mem_cons, hslots] at hentry ⊢
      exact ⟨hentry.1, hentry.2.1, hentry.2.2.1, fun _ h => absurd h not_mem_nil⟩
    · rw [hslots, hregs p hp]
    · rw [hstack c rfl p.1 (mem_map_of_mem hp), hargs p hp]

/-- Loading the area gives the context. -/
theorem Holds.resumes {cpu : Cpu Reg Ulong} (h : ctx.Holds userret a cpu.mem)
    (hload : ∀ r, r ≠ ip → cpu.regs r = cpu.mem (slot a r)) : ctx.Resumes userret cpu := by
  cases ctx with
  | called regs =>
    refine ⟨fun r hr => ?_, ?_⟩
    · rw [hload r (by rintro rfl; exact absurd hr (by decide)), h.1 r hr]
    · rw [hload pc (by decide), h.2]
  | created c =>
    obtain ⟨hentry, hregs, hargs⟩ := h
    simp only [Setup.entry, forall_mem_cons] at hentry
    obtain ⟨hpc, hlr, hsp, -⟩ := hentry
    have hsp' : cpu.regs sp = c.saddr := (hload sp (by decide)).trans hsp
    refine ⟨(hload pc (by decide)).trans hpc, (hload lr (by decide)).trans hlr, hsp', ?_, ?_⟩
    · intro p hp
      have hr : p.1 ∈ [r0, r1, r2, r3] := (of_mem_zip hp).1
      rw [hload p.1 (by rintro h; rw [h] at hr; exact absurd hr (by decide)), hregs p hp]
    · intro j x hx
      rw [hsp']
      exact hargs _ (Setup.mem_stackArgs hx)

end Context

/-! ### Runs -/

namespace Threads
variable {P : Type} [DecidableEq P] {area : P → Ulong} {userret : Ulong}

/-- The save areas of two processes do not overlap. -/
def Apart (area : P → Ulong) : Prop :=
  ∀ p q r r', slot (area p) r = slot (area q) r' → p = q

/-- Every process that waits has its context in memory. -/
structure Inv (area : P → Ulong) (userret : Ulong) (s : Threads P) : Prop where
  current : s.saved s.current = none
  holds : ∀ p ctx, s.saved p = some ctx → ctx.Holds userret (area p) s.cpu.mem
  clear : ∀ p c, s.saved p = some (.created c) → ∀ q, c.Clear (area q)

variable {s s' : Threads P} {new p : P}

/-- What a process waits with: for the current one, what it would wait
with if it called `ctxsw` now. -/
def context (s : Threads P) (p : P) : Option Context :=
  if p = s.current then some (.called s.cpu.regs) else s.saved p

omit [DecidableEq P] in
/-- The memory after a switch: the area of the old process has its
registers, and the rest is as it was. -/
theorem mem_switched (area : P → Ulong) (userret : Ulong) (s : Threads P) (new : P) :
    (Context.called s.cpu.regs).Holds userret (area s.current) (s.switched area new).mem ∧
    (∀ a, (∀ r, a ≠ slot (area s.current) r) → (s.switched area new).mem a = s.cpu.mem a) ∧
    ∀ r, r ≠ ip → (s.switched area new).regs r = (s.switched area new).mem (slot (area new) r) := by
  obtain ⟨hstored, hpc, hframe, hload⟩ := ctxsw_spec { s.cpu with
    regs := update (update s.cpu.regs r0 (area s.current)) r1 (area new) }
  have hr : ∀ r, r ≠ r0 → r ≠ r1 → update (update s.cpu.regs r0 (area s.current))
      r1 (area new) r = s.cpu.regs r := by
    intro r h0 h1
    rw [update_of_ne h1, update_of_ne h0]
  have hr0 : update (update s.cpu.regs r0 (area s.current)) r1 (area new) r0 =
      area s.current := by
    rw [update_of_ne (by decide), update_self]
  simp only [hr0, update_self] at hstored hpc hframe hload
  refine ⟨⟨fun r hmem => ?_, ?_⟩, hframe, hload⟩
  · have hne : ∀ r ∈ preserved, r ≠ r0 ∧ r ≠ r1 := by decide
    rw [show (s.switched area new).mem (slot (area s.current) r) = _ from hstored r hmem,
      hr r (hne r hmem).1 (hne r hmem).2]
  · rw [show (s.switched area new).mem (slot (area s.current) pc) = _ from hpc,
      hr lr (by decide) (by decide)]

/-- After a switch all contexts are in memory, that of the old process
too. -/
theorem Inv.holds_switched (h : Inv area userret s) (hapart : Apart area) (new : P) {p : P}
    {ctx : Context} (hp : s.context p = some ctx) :
    ctx.Holds userret (area p) (s.switched area new).mem := by
  obtain ⟨hold, hframe, -⟩ := mem_switched area userret s new
  rw [context] at hp
  split at hp
  · rename_i hcurrent
    cases hp
    rw [hcurrent]
    exact hold
  · rename_i hne
    refine (h.holds p ctx hp).congr (fun r => hframe _ fun r' heq => ?_) ?_
    · exact hne (hapart _ _ _ _ heq)
    · rintro c rfl x hx
      exact hframe x fun r => (h.clear p c hp s.current).stackArgs hx r

/-- Every event keeps the invariant. -/
theorem Inv.exec {e : Event P} (h : Inv area userret s) (hapart : Apart area)
    (hok : s.Permitted area e) (hexec : s.exec area userret e = .ok s') :
    Inv area userret s' := by
  cases e with
  | compute cpu =>
    cases hexec
    obtain ⟨hslots, hreserved⟩ := hok
    refine ⟨h.current, fun p ctx hp => ?_, h.clear⟩
    refine (h.holds p ctx hp).congr (hslots p) ?_
    rintro c rfl x hx
    exact hreserved x ⟨p, c, hp, hx⟩
  | create p c =>
    cases hexec
    obtain ⟨hp, hlen, hclear⟩ := hok
    have hc : ∀ q, c.Clear (area q) := fun q x hx r => (hclear x hx).1 q r
    obtain ⟨hentry, hregs, hargs, hframe⟩ :=
      Setup.writes_spec userret s.cpu.mem (hc p) hlen
    refine ⟨?_, fun q ctx hq => ?_, fun q d hq => ?_⟩
    · show update s.saved p _ s.current = none
      rw [update_of_ne hp.symm]
      exact h.current
    · by_cases hqp : q = p
      · subst hqp
        obtain rfl : Context.created c = ctx := Option.some.inj
          ((update_self q _ s.saved).symm.trans hq)
        exact ⟨hentry, hregs, hargs⟩
      · -- The new context is written outside of every area and every other stack.
        have hq : s.saved q = some ctx := (update_of_ne hqp _ _).symm.trans hq
        refine (h.holds q ctx hq).congr (fun r => hframe _ ?_ ?_) ?_
        · intro r' heq
          exact hqp (hapart _ _ _ _ heq)
        · intro hmem
          exact (hclear _ hmem).1 q r rfl
        · rintro d rfl x hx
          refine hframe x (fun r => (h.clear q d hq p).stackArgs hx r) fun hmem => ?_
          exact (hclear x hmem).2 q d hqp hq hx
    · by_cases hqp : q = p
      · subst hqp
        obtain rfl : c = d := by
          have := (update_self q (some (Context.created c)) s.saved).symm.trans hq
          cases this
          rfl
        exact hc
      · exact h.clear q d ((update_of_ne hqp _ _).symm.trans hq)
  | ctxsw new =>
    cases hexec
    -- What is saved afterwards are the contexts before, except that of `new`.
    have hsaved : ∀ p ctx, update (update s.saved s.current
        (some (.called s.cpu.regs))) new none p = some ctx → s.context p = some ctx := by
      intro p ctx hp
      rw [context]
      by_cases hnew : p = new
      · rw [hnew, update_self] at hp
        cases hp
      · rw [update_of_ne hnew] at hp
        split
        · rename_i hcurrent
          rw [hcurrent, update_self] at hp
          exact hp
        · rename_i hne
          rw [update_of_ne hne] at hp
          exact hp
    refine ⟨update_self _ _ _, fun p ctx hp => ?_, fun p c hp => ?_⟩
    · exact h.holds_switched hapart new (hsaved p ctx hp)
    · have hp := hsaved p _ hp
      rw [context] at hp
      split at hp
      · cases hp
      · exact h.clear p c hp

theorem inv_of_reachable (hapart : Apart area) (h : s.Reachable area userret) :
    Inv area userret s := by
  refine Reaches.induction h ?_ fun s e s' hs hok hexec => hs.exec hapart hok hexec
  intro s hs
  refine ⟨hs s.current, fun p ctx hp => ?_, fun p c hp => ?_⟩
  · rw [hs p] at hp
    cases hp
  · rw [hs p] at hp
    cases hp

end Threads

/-- In every run, a process that is switched to finds what it waits for:
its own registers if it has called `ctxsw`, and the context of `create`
if it starts. -/
theorem resumed_of_reachable {P : Type} [DecidableEq P] {area : P → Ulong} {userret : Ulong}
    (hapart : Threads.Apart area) {s : Threads P} (h : s.Reachable area userret) {new : P}
    {ctx : Context} (hnew : s.context new = some ctx) :
    ctx.Resumes userret (s.switched area new) := by
  have hinv := Threads.inv_of_reachable hapart h
  obtain ⟨-, -, hload⟩ := Threads.mem_switched area userret s new
  exact (hinv.holds_switched hapart new hnew).resumes hload

/-- Two processes with save areas in two pages. -/
def twoAreas : Bool → Ulong
  | false => 0x1000
  | true => 0x2000

theorem slot_twoAreas (p : Bool) (r : Reg) :
    (slot (twoAreas p) r).toNat / 4096 = bif p then 2 else 1 := by
  cases p <;> cases r <;> decide

theorem twoAreas_apart : Threads.Apart twoAreas := by
  intro p q r r' heq
  have hp := slot_twoAreas p r
  rw [heq, slot_twoAreas q r'] at hp
  revert hp
  cases p <;> cases q <;> decide

/-- A process with five arguments and a stack of one page. -/
def fiveArgs : Setup := ⟨0x8000, [11, 12, 13, 14, 15], 0x40000, 0x1000, 7⟩

/-- It is created by the process that runs. -/
def fiveArgsCreated : Threads Bool where
  cpu := ⟨fun _ => 0, writeAll (fiveArgs.writes 0x9000 (twoAreas true)) fun _ => 0⟩
  current := false
  saved := update (fun _ => none) true (some (.created fiveArgs))

theorem fiveArgsCreated_reachable : fiveArgsCreated.Reachable twoAreas 0x9000 := by
  have hstart : Threads.Reachable twoAreas 0x9000
      (⟨⟨fun _ => 0, fun _ => 0⟩, false, fun _ => none⟩ : Threads Bool) :=
    ⟨_, fun _ => rfl, .refl⟩
  refine hstart.step (a := .create true fiveArgs) ⟨by decide, by decide, fun a ha => ⟨?_, ?_⟩⟩ rfl
  · rintro q r rfl
    have hle : ∀ b ∈ (fiveArgs.accounting ++ fiveArgs.padding ++ fiveArgs.stackArgs).map Prod.fst,
        0x40000 ≤ b.toNat := by
      simp [fiveArgs, Setup.accounting, Setup.padding, Setup.stackArgs, Setup.top, Setup.saddr,
        Setup.pads, range_succ]
    have hslot := slot_twoAreas q r
    have hstack := hle _ ha
    cases q <;> simp only [cond_true, cond_false] at hslot <;> omega
  · intro q d _ hq
    cases hq

/-- It starts at its function, with four arguments in registers and the
fifth on its stack. -/
theorem resumed_fiveArgs :
    (fiveArgsCreated.switched twoAreas true).regs pc = 0x8000 ∧
    (fiveArgsCreated.switched twoAreas true).regs r3 = 14 ∧
    (fiveArgsCreated.switched twoAreas true).mem
      ((fiveArgsCreated.switched twoAreas true).regs sp) = 15 := by
  have hresumes : (Context.created fiveArgs).Resumes 0x9000
    (fiveArgsCreated.switched twoAreas true) :=
    resumed_of_reachable twoAreas_apart fiveArgsCreated_reachable rfl
  obtain ⟨hpc, -, -, hregs, hargs⟩ := hresumes
  refine ⟨hpc, hregs (r3, 14) (by decide), ?_⟩
  have := hargs 0 15 rfl
  rwa [show BitVec.ofNat 32 (4 * 0) = 0 from rfl, add_zero] at this

end Xinu.Arm
