import Xinu.Proofs.Kernel.Boot
import Xinu.Proofs.Memory.Calls
import Xinu.System.Create

/-!
# `Xinu.Proofs.Kernel.Create`: the first stack of a process

`create` writes a stack from the top: four words of accounting, the
padding, and then the arguments from the fifth on over the padding, from
the stack pointer upwards. The number of words it reserves is computed
from `nargs` by one formula and the number of words it stores by
another. `le_toNat_pads` says that the first is enough for the second.

`initStack_rule` is the rule for everything that a store into the stack
keeps. The accounting block is not overwritten because all later stores
are below it (`initStack_rule_below`).

* `create_layout_iff`: `create` leaves the arguments and the accounting
  block where they belong exactly when `getmem` could round the size of
  the stack. A size of `0xFFFFFFFC` is rounded to zero, and the stack is
  written below its base (`create_writes_below`).
* `create_stack_aligned`: the stack pointer is a multiple of eight
  exactly when the stack size is. `create` rounds the size to a multiple
  of four only (`create_misaligned`).
-/

namespace Xinu.Vars

open Function Lib List

variable {P : Heap → Prop}

/-! ### The words of the stack -/

/-- The number of words reserved for arguments. -/
def pads (nargs : Ulong) : Ulong := if nargs = 0 then 0 else (nargs - 1) / 4 * 4

theorem toNat_pads (nargs : Ulong) : (pads nargs).toNat = (nargs.toNat - 1) / 4 * 4 := by
  unfold pads
  split
  · rename_i h0
    simp [h0]
  · rename_i h0
    have hpos : 0 < nargs.toNat := Nat.pos_of_ne_zero fun hz => h0 (BitVec.eq_of_toNat_eq hz)
    have hlt := nargs.isLt
    have hsub : (nargs - 1).toNat = nargs.toNat - 1 :=
      BitVec.toNat_sub_of_le (BitVec.le_def.mpr hpos)
    rw [BitVec.toNat_mul, BitVec.toNat_udiv, hsub]
    exact Nat.mod_eq_of_lt (by simp; omega)

/-- There is room for the arguments that do not fit into registers. -/
theorem le_toNat_pads (nargs : Ulong) : nargs.toNat - 4 ≤ (pads nargs).toNat := by
  rw [toNat_pads]
  omega

theorem toNat_pads_le (nargs : Ulong) : (pads nargs).toNat ≤ nargs.toNat := by
  rw [toNat_pads]
  omega

section Writes
variable {P : Heap → Prop} {lo hi : Nat}
  (hP : ∀ h (x v : Ulong), P h → lo ≤ x.toNat → x.toNat + 4 ≤ hi → P (h.store x v))
include hP

/-- What a store of a word between `lo` and `hi` keeps, a row of pushes
that stays above `lo` keeps. -/
theorem foldl_push_rule (vs : List Ulong) : ∀ s : Heap × Ulong, P s.1 → s.2.toNat ≤ hi →
    lo + 4 * vs.length ≤ s.2.toNat →
    P (vs.foldl push s).1 ∧ (vs.foldl push s).2.toNat = s.2.toNat - 4 * vs.length := by
  induction vs with
  | nil => exact fun s hs _ _ => ⟨hs, rfl⟩
  | cons v vs ih =>
    intro s hs htop hroom
    rw [length_cons] at hroom
    have hsp : (s.2 - 4).toNat = s.2.toNat - 4 := by
      have h4 : (4 : Ulong) ≤ s.2 := BitVec.le_def.mpr (by simp; omega)
      rw [BitVec.toNat_sub_of_le h4]
      rfl
    have hfirst : P (push s v).1 := hP _ _ _ hs (by omega) (by omega)
    obtain ⟨hrest, hend⟩ := ih (push s v) hfirst (by simp only [push]; omega)
      (by simp only [push]; omega)
    refine ⟨hrest, hend.trans ?_⟩
    simp only [push, length_cons]
    omega

/-- What a store of a word between `lo` and `hi` keeps, stores of the
arguments from `sp` on keep. -/
theorem foldl_args_rule {sp : Ulong} (args : Nat → Ulong) (room : Nat) (hlo : lo ≤ sp.toNat)
    (hhi : sp.toNat + 4 * room ≤ hi) (hword : hi < 2 ^ 32) (is : List Nat)
    (his : ∀ i ∈ is, i - 4 < room) : ∀ h, P h →
    P (is.foldl (fun h i => h.store (sp + BitVec.ofNat 32 (4 * (i - 4))) (args i)) h) := by
  induction is with
  | nil => exact fun h hh => hh
  | cons i is ih =>
    intro h hh
    obtain ⟨hi', his⟩ := forall_mem_cons.mp his
    have hx : (sp + BitVec.ofNat 32 (4 * (i - 4))).toNat = sp.toNat + 4 * (i - 4) := by
      rw [BitVec.toNat_add, BitVec.toNat_ofNat, Nat.mod_eq_of_lt (a := 4 * (i - 4)) (by omega),
        Nat.mod_eq_of_lt (by omega)]
    exact ih his _ (hP _ _ _ hh (by omega) (by omega))

end Writes

/-- The stack with its accounting block, and the stack pointer below
it. -/
def accounting (h : Heap) (saddr ssize pid : Ulong) : Heap × Ulong :=
  [pid, ssize, saddr].foldl push (h.store (saddr + ssize - 4) STACKMAGIC, saddr + ssize - 4)

/-- The stack with its padding. -/
def padded (h : Heap) (a : CreateArgs) (saddr ssize pid : Ulong) : Heap × Ulong :=
  (replicate (pads a.nargs).toNat 0).foldl push (accounting h saddr ssize pid)

/-- The arguments that go to the stack. -/
def extra (a : CreateArgs) : List Nat := (range a.nargs.toNat).drop 4

theorem initStack_eq (h : Heap) (a : CreateArgs) (saddr ssize pid : Ulong) :
    initStack h a saddr ssize pid =
      let s := padded h a saddr ssize pid
      ((extra a).foldl (fun h i => h.store (s.2 + BitVec.ofNat 32 (4 * (i - 4))) (a.args i)) s.1,
        s.2) := rfl

theorem mem_extra {a : CreateArgs} {i : Nat} : i ∈ extra a ↔ 4 ≤ i ∧ i < a.nargs.toNat := by
  rw [extra, range_eq_range', drop_range', mem_range'_1]
  omega

/-- The stack pointer does not depend on what is in memory. -/
theorem foldl_push_snd (vs : List Ulong) : ∀ s s' : Heap × Ulong, s.2 = s'.2 →
    (vs.foldl push s).2 = (vs.foldl push s').2 := by
  induction vs with
  | nil => exact fun s s' heq => heq
  | cons v vs ih => exact fun s s' heq => ih _ _ (congrArg (· - 4) heq)

theorem initStack_snd (h h' : Heap) (a : CreateArgs) (saddr ssize pid : Ulong) :
    (initStack h a saddr ssize pid).2 = (initStack h' a saddr ssize pid).2 :=
  foldl_push_snd _ _ _ (foldl_push_snd _ _ _ rfl)

/-- Stores one after the other are a list of writes. -/
theorem mem_foldl_store (addr val : Nat → Ulong) (is : List Nat) (h : Heap) :
    (is.foldl (fun h i => h.store (addr i) (val i)) h).mem =
      writeAll (is.map fun i => (addr i, val i)) h.mem := by
  rw [writeAll, foldl_map]
  exact (foldl_hom Heap.mem fun _ _ => rfl).symm

section Image
variable {h : Heap} {a : CreateArgs} {saddr ssize pid : Ulong}

/-- The accounting block as a whole: the mark, the process, the length
and the base of its stack. -/
def Accounting (h : Heap) (saddr ssize pid : Ulong) : Prop :=
  h.mem (saddr + ssize - 4) = STACKMAGIC ∧ h.mem (saddr + ssize - 8) = pid ∧
    h.mem (saddr + ssize - 12) = ssize ∧ h.mem (saddr + ssize - 16) = saddr

theorem accounting_accounting : Accounting (accounting h saddr ssize pid).1 saddr ssize pid := by
  unfold Accounting accounting
  generalize saddr + ssize = x
  have h4 : x - 4 - 4 = x - 8 := sub_sub x 4 4
  have h8 : x - 8 - 4 = x - 12 := sub_sub x 8 4
  have h12 : x - 12 - 4 = x - 16 := sub_sub x 12 4
  have hne : ∀ j k : Ulong, j ≠ k → x - j ≠ x - k := fun j k hjk heq =>
    hjk (sub_right_injective heq)
  simp only [foldl_cons, foldl_nil, push, h4, h8, h12, Heap.store]
  refine ⟨?_, ?_, ?_, update_self ..⟩
  · rw [update_of_ne (hne _ _ (by decide)), update_of_ne (hne _ _ (by decide)),
      update_of_ne (hne _ _ (by decide)), update_self]
  · rw [update_of_ne (hne _ _ (by decide)), update_of_ne (hne _ _ (by decide)),
      update_self]
  · rw [update_of_ne (hne _ _ (by decide)), update_self]

variable (hword : saddr.toNat + ssize.toNat < 2 ^ 32)
include hword

/-- Words counted from the top of the stack. -/
theorem toNat_top_sub {k : Ulong} (hk : k.toNat ≤ saddr.toNat + ssize.toNat) :
    (saddr + ssize - k).toNat = saddr.toNat + ssize.toNat - k.toNat := by
  have hsum : (saddr + ssize).toNat = saddr.toNat + ssize.toNat := by
    rw [BitVec.toNat_add, Nat.mod_eq_of_lt hword]
  rw [BitVec.toNat_sub_of_le (BitVec.le_def.mpr (by rw [hsum]; exact hk)), hsum]

/-- The accounting block takes the top four words. -/
theorem accounting_rule (hP : ∀ h (x v : Ulong), P h → saddr.toNat ≤ x.toNat →
      x.toNat + 4 ≤ saddr.toNat + ssize.toNat → P (h.store x v))
    (hfits : 16 ≤ ssize.toNat) (hh : P h) :
    P (accounting h saddr ssize pid).1 ∧
      (accounting h saddr ssize pid).2.toNat = saddr.toNat + ssize.toNat - 16 := by
  have h4 : (4 : Ulong).toNat = 4 := rfl
  have htop := toNat_top_sub (k := 4) hword (by omega)
  obtain ⟨hblock, hsp⟩ := foldl_push_rule hP [pid, ssize, saddr]
    (h.store (saddr + ssize - 4) STACKMAGIC, saddr + ssize - 4)
    (hP _ _ _ hh (by omega) (by omega)) (by simp only [htop]; omega)
    (by simp only [length_cons, length_nil]; omega)
  simp only [length_cons, length_nil] at hsp
  exact ⟨hblock, by rw [accounting, hsp]; omega⟩

/-- What a store below the accounting block keeps holds of the finished
stack when it holds of the accounting block. -/
theorem initStack_rule_below (hP : ∀ h (x v : Ulong), P h → saddr.toNat ≤ x.toNat →
      x.toNat + 4 ≤ saddr.toNat + ssize.toNat - 16 → P (h.store x v))
    (hfits : 16 + 4 * (pads a.nargs).toNat ≤ ssize.toNat)
    (hh : P (accounting h saddr ssize pid).1) :
    P (initStack h a saddr ssize pid).1 ∧ P (padded h a saddr ssize pid).1 ∧
      (padded h a saddr ssize pid).2.toNat =
        saddr.toNat + ssize.toNat - 16 - 4 * (pads a.nargs).toNat := by
  have hsp : (accounting h saddr ssize pid).2.toNat = saddr.toNat + ssize.toNat - 16 :=
    (accounting_rule hword (P := fun _ => True) (fun _ _ _ _ _ _ => trivial) (by omega)
      trivial).2
  obtain ⟨hpad, hend⟩ := foldl_push_rule hP (replicate (pads a.nargs).toNat 0) _ hh
    (by omega) (by rw [length_replicate]; omega)
  rw [length_replicate, hsp] at hend
  -- The arguments go into the room that was padded for them.
  have hextra := le_toNat_pads a.nargs
  refine ⟨?_, hpad, hend⟩
  rw [initStack_eq]
  refine foldl_args_rule hP a.args (pads a.nargs).toNat ?_ ?_ ?_ _ (fun i hi => ?_) _ hpad
  · show saddr.toNat ≤ (padded h a saddr ssize pid).2.toNat
    rw [padded, hend]
    omega
  · show (padded h a saddr ssize pid).2.toNat + _ ≤ _
    rw [padded, hend]
    omega
  · omega
  · have := mem_extra.mp hi
    omega

/-- What every store into the stack keeps, the whole stack image
keeps. -/
theorem initStack_rule (hP : ∀ h (x v : Ulong), P h → saddr.toNat ≤ x.toNat →
      x.toNat + 4 ≤ saddr.toNat + ssize.toNat → P (h.store x v))
    (hfits : 16 + 4 * (pads a.nargs).toNat ≤ ssize.toNat) (hh : P h) :
    P (initStack h a saddr ssize pid).1 :=
  (initStack_rule_below hword (fun h x v hh hlo hhi => hP h x v hh hlo (by omega)) hfits
    (accounting_rule hword hP (by omega) hh).1).1

variable (hfits : 16 + 4 * (pads a.nargs).toNat ≤ ssize.toNat)
include hfits

/-- The accounting block is in the top four words at the end, too. -/
theorem accounting_initStack :
    Accounting (initStack h a saddr ssize pid).1 saddr ssize pid := by
  refine (initStack_rule_below (P := fun h => Accounting h saddr ssize pid) hword
    (fun h x v hh hlo hhi => ?_) hfits ?_).1
  · -- The store is below all four words.
    have hne : ∀ k : Ulong, 0 < k.toNat → k.toNat ≤ 16 → saddr + ssize - k ≠ x := by
      rintro k hpos hk rfl
      rw [toNat_top_sub hword (by omega)] at hhi
      omega
    have hkeep : ∀ k : Ulong, 0 < k.toNat → k.toNat ≤ 16 →
        (h.store x v).mem (saddr + ssize - k) = h.mem (saddr + ssize - k) := fun k hpos hk =>
      update_of_ne (hne k hpos hk) _ _
    unfold Accounting
    rw [hkeep 4 (by decide) (by decide), hkeep 8 (by decide) (by decide),
      hkeep 12 (by decide) (by decide), hkeep 16 (by decide) (by decide)]
    exact hh
  · exact accounting_accounting

/-- Where the arguments from the fifth on are. -/
theorem toNat_arg {i : Nat} (hi : 4 ≤ i) (hn : i < a.nargs.toNat) :
    ((initStack h a saddr ssize pid).2 + BitVec.ofNat 32 (4 * (i - 4))).toNat =
      saddr.toNat + ssize.toNat - 16 - 4 * (pads a.nargs).toNat + 4 * (i - 4) := by
  have hsp : (initStack h a saddr ssize pid).2.toNat =
      saddr.toNat + ssize.toNat - 16 - 4 * (pads a.nargs).toNat :=
    (initStack_rule_below hword (P := fun _ => True) (fun _ _ _ _ _ _ => trivial) hfits
      trivial).2.2
  have hroom := le_toNat_pads a.nargs
  rw [BitVec.toNat_add, BitVec.toNat_ofNat, Nat.mod_eq_of_lt (a := 4 * (i - 4)) (by omega), hsp,
    Nat.mod_eq_of_lt (by omega)]

/-- The arguments from the fifth on are on the stack, from the stack
pointer upwards. -/
theorem args_initStack {i : Nat} (hi : 4 ≤ i) (hn : i < a.nargs.toNat) :
    (initStack h a saddr ssize pid).1.mem
      ((initStack h a saddr ssize pid).2 + BitVec.ofNat 32 (4 * (i - 4))) = a.args i := by
  have haddr : ∀ j ∈ extra a,
      ((initStack h a saddr ssize pid).2 + BitVec.ofNat 32 (4 * (j - 4))).toNat = _ := fun j hj =>
    toNat_arg hword hfits (mem_extra.mp hj).1 (mem_extra.mp hj).2
  rw [initStack_eq] at haddr ⊢
  simp only at haddr ⊢
  generalize padded h a saddr ssize pid = s at haddr ⊢
  -- The stores are a list of writes at different addresses.
  rw [mem_foldl_store]
  refine writeAll_of_mem ?_ (mem_map_of_mem (f := fun i =>
    (s.2 + BitVec.ofNat 32 (4 * (i - 4)), a.args i)) (mem_extra.mpr ⟨hi, hn⟩))
  rw [map_map]
  refine List.Nodup.map_on (fun j hj k hk heq => ?_) (nodup_range.sublist (drop_sublist ..))
  have hnat := congrArg BitVec.toNat heq
  simp only [comp_apply, haddr j hj, haddr k hk] at hnat
  have := mem_extra.mp hj
  have := mem_extra.mp hk
  omega

end Image

/-! ### The stack and the registers after `create` -/

/-- `create` rounds the size up to a multiple of four, in 32 bits. -/
theorem toNat_stackSize_mod (ssize : Ulong) :
    (stackSize ssize).toNat = (max ssize.toNat 4096 + 3) % 2 ^ 32 / 4 * 4 := by
  have hmask : ∀ x : Ulong, (x &&& 0xFFFFFFFC).toNat = x.toNat / 4 * 4 :=
    Lib.toNat_and_not_lowMask 2 (by omega)
  have hmax : (if ssize < MINSTK then MINSTK else ssize).toNat = max ssize.toNat 4096 := by
    have hmin : MINSTK.toNat = 4096 := rfl
    split
    · rename_i hlt
      have := BitVec.lt_def.mp hlt
      omega
    · rename_i hge
      rw [BitVec.lt_def] at hge
      omega
  rw [stackSize, hmask, BitVec.toNat_add, hmax]
  rfl

/-- Up to this size `getmem` can round it up to whole blocks. -/
theorem toNat_stackSize {ssize : Ulong} (hsize : ssize.toNat ≤ 0xFFFFFFF8) :
    (stackSize ssize).toNat = (max ssize.toNat 4096 + 3) / 4 * 4 := by
  rw [toNat_stackSize_mod, Nat.mod_eq_of_lt (by omega)]

/-- Beyond it there is one size that is not rounded to zero. -/
theorem stackSize_of_gt {ssize : Ulong} (hsize : 0xFFFFFFF8 < ssize.toNat)
    (hpos : 0 < (stackSize ssize).toNat) : stackSize ssize = 0xFFFFFFFC := by
  have hround := toNat_stackSize_mod ssize
  refine BitVec.eq_of_toNat_eq ?_
  show _ = 4294967292
  omega

end Xinu.Vars

namespace Xinu.Procs

open Function Lib List Vars

section Registers
variable {regs : Nat → Ulong} {a : CreateArgs} {userret saddr : Ulong}

@[simp] theorem initRegs_sp : initRegs regs a userret saddr PREG_SP = saddr := by
  simp [initRegs]

/-- The first four arguments are in the first four registers. -/
theorem initRegs_arg {i : Nat} (hi : i < 4) (hn : i < a.nargs.toNat) :
    initRegs regs a userret saddr i = a.args i := by
  have hother : ∀ j ∈ [PREG_SP, PREG_LR, PREG_PC], i ≠ j := by
    simp [PREG_SP, PREG_LR, PREG_PC, Arm.PREG]
    omega
  have hwrites : ∀ is : List Nat, is.foldl (fun regs i => update regs i (a.args i)) regs =
      writeAll (is.map fun i => (i, a.args i)) regs := fun is => by
    rw [writeAll, foldl_map]
  have hmem : i ∈ (range a.nargs.toNat).take 4 := by
    rw [take_range, mem_range]
    omega
  simp only [initRegs]
  rw [update_of_ne (hother _ (by simp)), update_of_ne (hother _ (by simp)),
    update_of_ne (hother _ (by simp)), hwrites]
  refine writeAll_of_mem ?_ (mem_map_of_mem (f := fun i => (i, a.args i)) hmem)
  rw [map_map]
  exact (nodup_range.sublist (take_sublist ..)).map fun _ _ heq => heq

end Registers

/-- What a successful `create` has done: it got a stack from `getmem`,
and the table, the stack and the registers are those of the new
process. -/
theorem create_eq_ok {s s' : Procs} {userret : Ulong} {cpuid : Core} {a : CreateArgs} {pid : Int}
    (hrun : s.create userret cpuid a = .ok (some pid, s')) :
    ∃ saddr h, s.heap.getmem cpuid (stackSize a.ssize) = .ok (saddr, h) ∧ saddr ≠ SYSERR ∧
      (s'.proctab pid).stkbase = saddr ∧ (s'.proctab pid).stklen = stackSize a.ssize ∧
      s'.heap = (initStack h a saddr (stackSize a.ssize) (BitVec.ofInt 32 pid)).1 ∧
      s'.regs pid = initRegs (s.regs pid) a userret
        (initStack h a saddr (stackSize a.ssize) (BitVec.ofInt 32 pid)).2 := by
  obtain ⟨⟨r, v⟩, hcreate, hrun⟩ := bind_eq_ok hrun
  obtain ⟨⟨saddr, h⟩, hget, hcreate⟩ := bind_eq_ok hcreate
  obtain ⟨⟨found, nextpid⟩, hnew, hcreate⟩ := bind_eq_ok hcreate
  -- Without a slot or a stack the result is no process id.
  cases found with
  | none =>
    cases hcreate
    obtain ⟨hnone, -⟩ := ok_pair hrun
    cases hnone
  | some found =>
    simp only at hcreate
    split at hcreate
    · cases hcreate
      obtain ⟨hnone, -⟩ := ok_pair hrun
      cases hnone
    · rename_i hne
      cases hcreate
      obtain ⟨hpid, rfl⟩ := ok_pair hrun
      cases hpid
      refine ⟨saddr, h, hget, hne, ?_, ?_, rfl, ?_⟩
      · simp [enter, setPcb, newPcb]
      · simp [enter, setPcb, newPcb]
      · simp only [update_self, stackPointer, enter, setPcb, newPcb]
        rw [initStack_snd]

/-- The stack that `getmem` returns is aligned, and its addresses do not
wrap. -/
theorem stack_noWrap {h h' : Heap} (hw : h.WellFormed) {cpuid : Core} {ssize saddr : Ulong}
    (hsize : ssize.toNat ≤ 0xFFFFFFF8)
    (hget : h.getmem cpuid (stackSize ssize) = .ok (saddr, h')) (hne : saddr ≠ SYSERR) :
    Aligned saddr ∧ saddr.toNat + (stackSize ssize).toNat < 2 ^ 32 := by
  obtain ⟨free, hf⟩ := Heap.wellFormed_iff.mp hw
  have hround := toNat_stackSize hsize
  have hwrap : (stackSize ssize).toNat + 7 < 2 ^ 32 := by omega
  have h0 : stackSize ssize ≠ 0 := fun hz => by
    rw [hz] at hround
    simp at hround
    omega
  have hblock := toNat_roundmb hwrap
  rcases hf.getmem cpuid h0 hwrap with
    ⟨-, hrun⟩ | ⟨p, l', h1, hfit, halign, -, hrun, -, -, -, -⟩
  · exact absurd (ok_pair (hget.symm.trans hrun)).1 hne
  · obtain rfl := (ok_pair (hget.symm.trans hrun)).1
    have hin : (Span.mk saddr.toNat (roundmb (stackSize ssize)).toNat).Within
        (h.regionSpan cpuid).start (h.regionSpan cpuid).stop :=
      Span.within_of_contains (toNat_roundmb_pos h0 hwrap) fun a ha =>
        hf.inside cpuid a (covers_of_firstFit hfit ha)
    have hstop := Nat.lt_of_le_of_lt hin.2 (hf.layout.stop_lt cpuid)
    simp only [Span.stop] at hstop
    exact ⟨halign, by omega⟩

section Main
variable {s s' : Procs} {userret : Ulong} {cpuid : Core} {a : CreateArgs} {pid : Int}

/-- The word at `x` is a word of the stack of `p`. -/
def OnStack (p : Pcb) (x : Ulong) : Prop :=
  p.stkbase.toNat ≤ x.toNat ∧ x.toNat + 4 ≤ p.stkbase.toNat + p.stklen.toNat

/-- The initial stack of `pid` as it should be after `create`. -/
structure LaidOut (s s' : Procs) (cpuid : Core) (a : CreateArgs) (pid : Int) : Prop where
  /-- The first four arguments are in the saved registers. -/
  regs : ∀ i, i < 4 → i < a.nargs.toNat → s'.regs pid i = a.args i
  /-- The others are on the stack, from the stack pointer upwards. -/
  args : ∀ i, 4 ≤ i → i < a.nargs.toNat →
    let x := s'.regs pid PREG_SP + BitVec.ofNat 32 (4 * (i - 4))
    s'.heap.mem x = a.args i ∧ OnStack (s'.proctab pid) x
  /-- The accounting block is in the top four words. -/
  accounting : Accounting s'.heap (s'.proctab pid).stkbase (s'.proctab pid).stklen
    (BitVec.ofInt 32 pid)
  top : ∀ k ∈ [4, 8, 12, 16],
    OnStack (s'.proctab pid) ((s'.proctab pid).stkbase + (s'.proctab pid).stklen - k)
  stklen : (s'.proctab pid).stklen = stackSize a.ssize
  /-- Every other word is as `getmem` left it. -/
  frame : ∃ h, s.heap.getmem cpuid (stackSize a.ssize) = .ok ((s'.proctab pid).stkbase, h) ∧
    ∀ x, ¬ OnStack (s'.proctab pid) x → s'.heap.mem x = h.mem x

theorem laidOut_of_le (hw : s.heap.WellFormed) (hsize : a.ssize.toNat ≤ 0xFFFFFFF8)
    (hfits : 16 + 4 * (pads a.nargs).toNat ≤ (stackSize a.ssize).toNat)
    (hrun : s.create userret cpuid a = .ok (some pid, s')) : LaidOut s s' cpuid a pid := by
  obtain ⟨saddr, h, hget, hne, hbase, hlen, hheap, hregs⟩ := create_eq_ok hrun
  obtain ⟨-, hword⟩ := stack_noWrap hw hsize hget hne
  have hon : ∀ x, OnStack (s'.proctab pid) x ↔
      saddr.toNat ≤ x.toNat ∧ x.toNat + 4 ≤ saddr.toNat + (stackSize a.ssize).toNat := fun x => by
    rw [OnStack, hbase, hlen]
  refine ⟨fun i hi hn => ?_, fun i hi hn => ?_, ?_, fun k hk => ?_, hlen, h, hbase ▸ hget,
    fun x hx => ?_⟩
  · rw [hregs]
    exact initRegs_arg hi hn
  · simp only [hon, hheap, hregs, initRegs_sp]
    refine ⟨args_initStack hword hfits hi hn, ?_⟩
    rw [toNat_arg (h := h) hword hfits hi hn]
    have := le_toNat_pads a.nargs
    omega
  · rw [hbase, hlen, hheap]
    exact accounting_initStack hword hfits
  · have hk16 : 4 ≤ k.toNat ∧ k.toNat ≤ 16 := by
      simp only [mem_cons, not_mem_nil, or_false] at hk
      rcases hk with rfl | rfl | rfl | rfl <;> decide
    rw [hon, hbase, hlen, toNat_top_sub hword (by omega)]
    omega
  · rw [hheap]
    refine initStack_rule (P := fun h' => h'.mem x = h.mem x) hword (fun h' y v hh hlo hhi => ?_)
      hfits rfl
    refine (update_of_ne ?_ _ _).trans hh
    rintro rfl
    exact hx ((hon _).mpr ⟨hlo, hhi⟩)

/-- **The initial stack.** After a `create` whose stack has room for the
accounting block and the padding, the stack is laid out as it should be
exactly when `getmem` could round its size up. Beyond that size the top
word is eight bytes below the base of the stack. -/
theorem create_layout_iff (hw : s.heap.WellFormed)
    (hfits : 16 + 4 * (pads a.nargs).toNat ≤ (stackSize a.ssize).toNat)
    (hrun : s.create userret cpuid a = .ok (some pid, s')) :
    LaidOut s s' cpuid a pid ↔ a.ssize.toNat ≤ 0xFFFFFFF8 := by
  refine ⟨fun hlaid => ?_, fun hsize => laidOut_of_le hw hsize hfits hrun⟩
  by_contra hlarge
  obtain ⟨saddr, h, hget, hne, hbase, hlen, -, -⟩ := create_eq_ok hrun
  have hsize : stackSize a.ssize = 0xFFFFFFFC := stackSize_of_gt (by omega) (by omega)
  -- The base is a block of the free list, so there are eight bytes below it.
  obtain ⟨ps, hps⟩ := hw.lists cpuid
  have hmem := (Heap.getmem_mem hw hps hget).resolve_left hne
  have halign := hps.aligned saddr hmem
  have hpos : 0 < saddr.toNat := Nat.pos_of_ne_zero fun hz =>
    hps.nonnull (BitVec.eq_of_toNat_eq (y := NULL) hz ▸ hmem)
  have htop := (hlaid.top 4 (by simp)).1
  rw [hbase, hlen, hsize] at htop
  have hwrapped : (saddr + 0xFFFFFFFC - 4).toNat = saddr.toNat - 8 := by bv_omega
  omega

/-- **The alignment of the initial stack pointer.** It is a multiple of
eight exactly when the size of the stack is. -/
theorem create_stack_aligned (hw : s.heap.WellFormed) (hsize : a.ssize.toNat < 2 ^ 31)
    (hfits : 16 + 4 * (pads a.nargs).toNat ≤ (stackSize a.ssize).toNat)
    (hrun : s.create userret cpuid a = .ok (some pid, s')) :
    8 ∣ (s'.regs pid PREG_SP).toNat ↔ 8 ∣ (stackSize a.ssize).toNat := by
  obtain ⟨saddr, h, hget, hne, -, -, -, hregs⟩ := create_eq_ok hrun
  obtain ⟨halign, hword⟩ := stack_noWrap hw (by omega) hget hne
  obtain ⟨-, -, hsp⟩ := initStack_rule_below (h := h) (P := fun _ => True) hword
    (fun _ _ _ _ _ _ => trivial) hfits trivial
  have hsp' : (s'.regs pid PREG_SP).toNat =
      saddr.toNat + (stackSize a.ssize).toNat - 16 - 4 * (pads a.nargs).toNat := by
    rw [hregs, initRegs_sp]
    exact hsp
  -- The accounting block has 16 bytes, and the padding is a multiple of 16.
  have hpads := toNat_pads a.nargs
  unfold Aligned at halign
  omega

end Main

/-! ### On the board -/

/-- `create` on core 0 of the board, right after `sysinit`. -/
def boardCreate (a : CreateArgs) : Except Fault (Option Int × Procs) := do
  let k ← Kernel.sysinit 0x48000 0x3EFFFFFC 0x8000 fun _ => 0
  Procs.create ⟨k.toVars, fun _ _ => 0⟩ 0x8000 0 a

/-- A `create` on the board that passes a test is one from the heap of
boot. -/
theorem exists_boardCreate (a : CreateArgs) (test : Int × Procs → Bool)
    (htest : ((boardCreate a).toOption.any fun r => r.1.any fun pid => test (pid, r.2)) = true) :
    ∃ (s s' : Procs) (pid : Int), s.heap = Heap.board ∧
      s.create 0x8000 0 a = .ok (some pid, s') ∧ test (pid, s') = true := by
  obtain ⟨⟨r, s'⟩, hrun, htest⟩ := (Option.any_eq_true ..).mp htest
  obtain ⟨pid, rfl, htest⟩ := (Option.any_eq_true ..).mp htest
  have hrun : boardCreate a = .ok (some pid, s') := by
    cases hcases : boardCreate a with
    | error e => rw [hcases] at hrun; cases hrun
    | ok r => rw [hcases] at hrun; exact congrArg _ (Option.some.inj hrun)
  obtain ⟨k, hboot, hcreate⟩ := bind_eq_ok hrun
  obtain ⟨k', -, hboot', -, hheap, -⟩ := Kernel.sysinit_spec 0x48000 0x3EFFFFFC 0x8000 fun _ => 0
  obtain rfl : k = k' := Except.ok.inj (hboot.symm.trans hboot')
  exact ⟨⟨k.toVars, fun _ _ => 0⟩, s', pid, hheap, hcreate, htest⟩

/-- Six arguments, and a stack of the given size. -/
def sixArgs (ssize : Ulong) : CreateArgs :=
  ⟨0x8100, ssize, 1, 6, fun i => BitVec.ofNat 32 (100 + i)⟩

/-- The sixth argument of a new process is the second word above its
stack pointer. -/
theorem create_layout_sixArgs : ∃ (s' : Procs) (pid : Int), s'.regs pid 3 = 103 ∧
    s'.heap.mem (s'.regs pid PREG_SP + 4) = 105 := by
  obtain ⟨s, s', pid, hheap, hrun, -⟩ := exists_boardCreate (sixArgs 4096) (fun _ => true)
    (by decide +kernel)
  have hlaid := (create_layout_iff (hheap ▸ Heap.board_wellFormed) (by decide) hrun).mpr
    (by decide)
  exact ⟨s', pid, hlaid.regs 3 (by decide) (by decide), (hlaid.args 5 (by decide) (by decide)).1⟩

/-- A stack of `0xFFFFFFFC` bytes: `getmem` rounds the size to zero, and
the accounting block is written below the base of the stack. -/
theorem create_writes_below : ∃ (s s' : Procs) (pid : Int), s.heap.WellFormed ∧
    16 + 4 * (pads 6).toNat ≤ (stackSize 0xFFFFFFFC).toNat ∧
    s.create 0x8000 0 (sixArgs 0xFFFFFFFC) = .ok (some pid, s') ∧
    (s'.proctab pid).stkbase = 0x48000 ∧ (s'.proctab pid).stklen = 0xFFFFFFFC ∧
    s'.heap.mem 0x47FF8 = STACKMAGIC ∧ s.heap.mem 0x47FF8 = 0 := by
  obtain ⟨s, s', pid, hheap, hrun, htest⟩ := exists_boardCreate (sixArgs 0xFFFFFFFC)
    (fun r => (r.2.proctab r.1).stkbase = 0x48000 && (r.2.proctab r.1).stklen = 0xFFFFFFFC &&
      r.2.heap.mem 0x47FF8 = STACKMAGIC) (by decide +kernel)
  simp only [Bool.and_eq_true, decide_eq_true_eq] at htest
  refine ⟨s, s', pid, hheap ▸ Heap.board_wellFormed, by decide, hrun, htest.1.1, htest.1.2,
    htest.2, ?_⟩
  rw [hheap]
  decide +kernel

theorem create_aligned_sixArgs : ∃ (s' : Procs) (pid : Int), 8 ∣ (s'.regs pid PREG_SP).toNat := by
  obtain ⟨s, s', pid, hheap, hrun, -⟩ := exists_boardCreate (sixArgs 4096) (fun _ => true)
    (by decide +kernel)
  exact ⟨s', pid, (create_stack_aligned (hheap ▸ Heap.board_wellFormed) (by decide) (by decide)
    hrun).mpr (by decide)⟩

/-- A stack of 4100 bytes starts with its pointer four bytes off the
grid. -/
theorem create_misaligned : ∃ (s s' : Procs) (pid : Int), s.heap.WellFormed ∧
    s.create 0x8000 0 (sixArgs 4100) = .ok (some pid, s') ∧
    (s'.regs pid PREG_SP).toNat % 8 = 4 := by
  obtain ⟨s, s', pid, hheap, hrun, htest⟩ := exists_boardCreate (sixArgs 4100)
    (fun r => (r.2.regs r.1 PREG_SP).toNat % 8 = 4) (by decide +kernel)
  exact ⟨s, s', pid, hheap ▸ Heap.board_wellFormed, hrun, of_decide_eq_true htest⟩

end Xinu.Procs
