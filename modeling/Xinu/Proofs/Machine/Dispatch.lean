import Xinu.Lib.Bits
import Xinu.System.Dispatch

/-!
# `Xinu.Proofs.Machine.Dispatch`: the enabled pending lines are served

The table `arm_enabled_irqs` has a bit for each line, in three words. After
any calls of `enable_irq` and `disable_irq` the set bits are the lines that
were enabled last (`enabledBit_calls`). The loop of `dispatch` over a word
goes through its set bits, each of them once (`maskLoop_eq`), so the
handlers that are called are those of the enabled lines that are pending
(`dispatch_serves`).
-/

namespace Xinu.Irq

open Function List

open Lib (setBits mem_setBits nodup_setBits length_setBits_le setBits_zero setBits_eq_cons)

/-- The line was enabled and not disabled after that. -/
def LastEnabled (ops : List Op) (irqNum : Ulong) : Prop :=
  ∃ before after, ops = before ++ .enable irqNum :: after ∧ .disable irqNum ∉ after

/-- The pending bit of a line. -/
def pendingBit (regs : Pending) (n : Nat) : Bool :=
  if 64 ≤ n then regs.IRQ_basic_pending.getLsbD (n - 64)
  else if 32 ≤ n then regs.IRQ_pending_2.getLsbD (n - 32)
  else regs.IRQ_pending_1.getLsbD n

theorem word_lt (n : Nat) : min (n / 32) 2 < 3 := Nat.lt_succ_of_le (Nat.min_le_right ..)

/-- The word of a line in the table. The last word has all lines from 64 on. -/
def lineWord (n : Nat) : Fin 3 := ⟨min (n / 32) 2, word_lt n⟩

/-- Its bit there. -/
def lineBit (n : Nat) : Nat := n - 32 * lineWord n

/-- A line is in the table. -/
def enabledBit (s : Enabled) (n : Nat) : Bool := (s.armEnabledIrqs (lineWord n)).getLsbD (lineBit n)

/-! ### The table -/

section Table
variable {s : Enabled} {irqNum : Ulong} {k n : Nat} {ops : List Op}

theorem lineWord_eq_iff {i : Fin 3} : lineWord n = i ↔ min (n / 32) 2 = i.val := Fin.ext_iff

/-- A line is given by its word and its bit. -/
theorem eq_of_word_bit (n : Nat) : n = 32 * lineWord n + lineBit n := by
  show n = 32 * min (n / 32) 2 + (n - 32 * min (n / 32) 2)
  omega

theorem word_bit_of_eq {b : Nat} (i : Fin 3) (hb : b < 32) :
    lineWord (32 * i.val + b) = i ∧ lineBit (32 * i.val + b) = b := by
  have hi := i.isLt
  have hword : lineWord (32 * i.val + b) = i := lineWord_eq_iff.mpr (by omega)
  refine ⟨hword, ?_⟩
  rw [lineBit, hword, Nat.add_sub_cancel_left]

theorem lineBit_lt (h : n < 96) : lineBit n < 32 := by
  show n - 32 * min (n / 32) 2 < 32
  omega

theorem lineBit_inj (h : lineWord k = lineWord n) : lineBit k = lineBit n ↔ k = n := by
  have hk := eq_of_word_bit k
  have hn := eq_of_word_bit n
  rw [h] at hk
  omega

theorem toNat_sub_ofNat {k : Nat} (hk : k < 2 ^ 32) (h : k ≤ irqNum.toNat) :
    (irqNum - BitVec.ofNat 32 k).toNat = irqNum.toNat - k := by
  have hle : BitVec.ofNat 32 k ≤ irqNum := by
    rw [BitVec.le_def, BitVec.toNat_ofNat, Nat.mod_eq_of_lt hk]
    exact h
  rw [BitVec.toNat_sub_of_le hle, BitVec.toNat_ofNat, Nat.mod_eq_of_lt hk]

/-- The three branches of `enable_irq` and `disable_irq` write the bit of
the line to its word. -/
theorem branches_eq (s : Enabled) (irqNum : Ulong) (op : Uint → Uint → Uint) (r0 r1 r2 : Control) :
    ∃ reg, (if irqNum < 32 then s.write r0 0 (oneShl irqNum) op
      else if irqNum < 64 then s.write r1 1 (oneShl (irqNum - 32)) op
      else s.write r2 2 (oneShl (irqNum - 64)) op) =
        s.write reg (lineWord irqNum.toNat) (BitVec.twoPow 32 (lineBit irqNum.toNat)) op := by
  have hlow : irqNum < 32 ↔ irqNum.toNat < 32 := BitVec.lt_def
  have hhigh : irqNum < 64 ↔ irqNum.toNat < 64 := BitVec.lt_def
  by_cases h1 : irqNum.toNat < 32
  · have hword : lineWord irqNum.toNat = 0 := lineWord_eq_iff.mpr (by omega)
    rw [if_pos (hlow.mpr h1), lineBit, hword]
    exact ⟨r0, rfl⟩
  · rw [if_neg (fun h => h1 (hlow.mp h))]
    by_cases h2 : irqNum.toNat < 64
    · have hword : lineWord irqNum.toNat = 1 := lineWord_eq_iff.mpr (by omega)
      have hsub : (irqNum - 32).toNat = irqNum.toNat - 32 :=
        toNat_sub_ofNat (by decide) (Nat.le_of_not_lt h1)
      rw [if_pos (hhigh.mpr h2), oneShl, hsub, lineBit, hword]
      exact ⟨r1, rfl⟩
    · have hword : lineWord irqNum.toNat = 2 := lineWord_eq_iff.mpr (by omega)
      have hsub : (irqNum - 64).toNat = irqNum.toNat - 64 :=
        toNat_sub_ofNat (by decide) (Nat.le_of_not_lt h2)
      rw [if_neg (fun h => h2 (hhigh.mp h)), oneShl, hsub, lineBit, hword]
      exact ⟨r2, rfl⟩

/-- A write changes the bits of one word. -/
theorem enabledBit_write {reg : Control} {i : Fin 3} {bit : Uint} {op : Uint → Uint → Uint} :
    enabledBit (s.write reg i bit op) n =
      if lineWord n = i then (op (s.armEnabledIrqs i) bit).getLsbD (lineBit n)
      else enabledBit s n := by
  show (update s.armEnabledIrqs i (op (s.armEnabledIrqs i) bit) (lineWord n)).getLsbD _ = _
  by_cases h : lineWord n = i
  · rw [if_pos h, h, update_self]
  · rw [if_neg h, update_of_ne h]
    rfl

/-- The lines of a word in the table are its bits. -/
theorem enabledBit_word {b : Nat} (i : Fin 3) (hb : b < 32) :
    enabledBit s (32 * i.val + b) = (s.armEnabledIrqs i).getLsbD b := by
  obtain ⟨hword, hbit⟩ := word_bit_of_eq i hb
  rw [enabledBit, hword, hbit]

theorem enabledBit_enableIrq (h : irqNum.toNat < 96) :
    enabledBit (s.enableIrq irqNum) n = (enabledBit s n || decide (irqNum.toNat = n)) := by
  obtain ⟨reg, hreg⟩ := branches_eq s irqNum (· ||| ·) .Enable_IRQs_1 .Enable_IRQs_2
    .Enable_Basic_IRQs
  rw [Enabled.enableIrq, hreg, enabledBit_write]
  by_cases hw : lineWord n = lineWord irqNum.toNat
  · rw [if_pos hw, BitVec.getLsbD_or, BitVec.getLsbD_twoPow, decide_eq_true (lineBit_lt h),
      Bool.true_and, enabledBit, hw, decide_eq_decide.mpr (lineBit_inj hw.symm)]
  · have hne : irqNum.toNat ≠ n := fun heq => hw (congrArg lineWord heq.symm)
    rw [if_neg hw, decide_eq_false hne, Bool.or_false]

theorem enabledBit_disableIrq (h : irqNum.toNat < 96) :
    enabledBit (s.disableIrq irqNum) n = (enabledBit s n && !decide (irqNum.toNat = n)) := by
  obtain ⟨reg, hreg⟩ := branches_eq s irqNum (· &&& ~~~·) .Disable_IRQs_1 .Disable_IRQs_2
    .Disable_Basic_IRQs
  rw [Enabled.disableIrq, hreg, enabledBit_write]
  by_cases hw : lineWord n = lineWord irqNum.toNat
  · -- The complement of the bit has no bits past the word, where the table has none either.
    rw [if_pos hw, BitVec.getLsbD_and, BitVec.getLsbD_not, BitVec.getLsbD_twoPow,
      decide_eq_true (lineBit_lt h), Bool.true_and, enabledBit, hw,
      decide_eq_decide.mpr (lineBit_inj hw.symm)]
    cases hbit : (s.armEnabledIrqs (lineWord irqNum.toNat)).getLsbD (lineBit n) with
    | false => rfl
    | true => rw [decide_eq_true (BitVec.lt_of_getLsbD hbit), Bool.true_and]
  · have hne : irqNum.toNat ≠ n := fun heq => hw (congrArg lineWord heq.symm)
    rw [if_neg hw, decide_eq_false hne, Bool.not_false, Bool.and_true]

/-- The last call decides about its own line. -/
theorem lastEnabled_append {op : Op} :
    LastEnabled (ops ++ [op]) irqNum ↔
      op = .enable irqNum ∨ op ≠ .disable irqNum ∧ LastEnabled ops irqNum := by
  constructor
  · rintro ⟨before, after, hsplit, hnot⟩
    rcases eq_nil_or_concat' after with rfl | ⟨after, last, rfl⟩
    · left
      exact (append_inj_right' hsplit rfl |> List.cons.inj).1
    · right
      have hsplit' : ops ++ [op] = (before ++ .enable irqNum :: after) ++ [last] := by
        rw [hsplit, List.append_assoc, List.cons_append]
      obtain ⟨hops, hlast⟩ := append_inj' hsplit' rfl
      obtain rfl := (List.cons.inj hlast).1
      rw [mem_append, not_or, mem_singleton] at hnot
      exact ⟨Ne.symm hnot.2, before, after, hops, hnot.1⟩
  · rintro (rfl | ⟨hne, before, after, rfl, hnot⟩)
    · exact ⟨ops, [], rfl, not_mem_nil⟩
    · refine ⟨before, after ++ [op], ?_, ?_⟩
      · rw [List.append_assoc, List.cons_append]
      · rw [mem_append, not_or, mem_singleton]
        exact ⟨hnot, Ne.symm hne⟩

/-- The table has the lines that were enabled last. -/
theorem enabledBit_calls (hops : ∀ op ∈ ops, op.irqNum.toNat < 96) :
    enabledBit (ops.foldl Enabled.call Enabled.boot) irqNum.toNat = true ↔
      LastEnabled ops irqNum := by
  -- From the end of the list, since its last call is the one that counts.
  induction ops using List.reverseRecOn with
  | nil =>
    constructor
    · intro h
      have hzero : enabledBit Enabled.boot irqNum.toNat = false := BitVec.getLsbD_zero
      rw [foldl_nil, hzero] at h
      cases h
    · rintro ⟨before, after, h, -⟩
      exact absurd h.symm (append_ne_nil_of_right_ne_nil _ (cons_ne_nil _ _))
  | append_singleton ops op ih =>
    have hop := hops op (mem_append_right ops (mem_singleton.mpr rfl))
    have ih := ih fun op' hop' => hops op' (mem_append_left [op] hop')
    rw [foldl_append, foldl_cons, foldl_nil, lastEnabled_append, ← ih]
    cases op with
    | enable k =>
      have hk : k.toNat < 96 := hop
      rw [Enabled.call, enabledBit_enableIrq hk, Bool.or_eq_true, decide_eq_true_iff,
        BitVec.toNat_inj, or_comm, Op.enable.injEq]
      exact or_congr_right ⟨fun h => ⟨Op.noConfusion, h⟩, And.right⟩
    | disable k =>
      have hk : k.toNat < 96 := hop
      rw [Enabled.call, enabledBit_disableIrq hk, Bool.and_eq_true, Bool.not_eq_true',
        decide_eq_false_iff_not, BitVec.toNat_inj, and_comm, Ne, Op.disable.injEq]
      exact ⟨Or.inr, fun h => h.resolve_left Op.noConfusion⟩

/-- Only numbers that were given to `enable_irq` are in the table, and no
bit of a word stands for another. -/
theorem lt_of_mem_setBits (hops : ∀ op ∈ ops, op.irqNum.toNat < BCM2835_NUM_IRQS) {i : Fin 3}
    {b : Nat} (hb : b ∈ setBits ((ops.foldl Enabled.call Enabled.boot).armEnabledIrqs i)) :
    32 * i.val + b < BCM2835_NUM_IRQS := by
  have hset := mem_setBits.mp hb
  have hlt := BitVec.lt_of_getLsbD hset
  have hi := i.isLt
  have hnat : (BitVec.ofNat 32 (32 * i.val + b)).toNat = 32 * i.val + b := by
    rw [BitVec.toNat_ofNat, Nat.mod_eq_of_lt (by omega)]
  have hbit : enabledBit (ops.foldl Enabled.call Enabled.boot)
      (BitVec.ofNat 32 (32 * i.val + b)).toNat = true := by
    rw [hnat, enabledBit_word i hlt, hset]
  obtain ⟨before, after, hsplit, -⟩ :=
    (enabledBit_calls fun op hop => Nat.lt_trans (hops op hop) (by decide)).mp hbit
  have hcall := hops (.enable (BitVec.ofNat 32 (32 * i.val + b)))
    (hsplit ▸ mem_append_right before mem_cons_self)
  rwa [Op.irqNum, hnat] at hcall

end Table

/-! ### The loops -/

section Loops
variable {regs : Pending} {interruptVector : Nat → Bool} {s : Enabled} {mask x : Uint} {k : Ulong}
  {fuel n : Nat}

theorem oneShl_eq (k : Ulong) : oneShl k = BitVec.twoPow 32 k.toNat := rfl

theorem and_oneShl_ne_zero (hk : k.toNat < 32) :
    decide (x &&& oneShl k ≠ 0) = x.getLsbD k.toNat := by
  have hbit : BitVec.twoPow 32 k.toNat ≠ 0 := by
    intro h
    have hset := congrArg (fun y : Uint => y.getLsbD k.toNat) h
    simp [hk] at hset
  rw [oneShl_eq, BitVec.and_twoPow]
  cases x.getLsbD k.toNat with
  | false => rfl
  | true => exact decide_eq_true hbit

/-- A line with a handler is checked. -/
theorem checkIrqPending_eq (hn : n < BCM2835_NUM_IRQS) (hreg : interruptVector n = true) :
    checkIrqPending regs interruptVector (BitVec.ofNat 8 n) =
      .ok (if pendingBit regs n then [n] else []) := by
  have hlt : n < 72 := hn
  have hnat : (BitVec.ofNat 8 n).toNat = n := by
    rw [BitVec.toNat_ofNat, Nat.mod_eq_of_lt (by omega)]
  have hwide : ((BitVec.ofNat 8 n).setWidth 32).toNat = n := by
    rw [BitVec.toNat_setWidth, hnat, Nat.mod_eq_of_lt (by omega)]
  have hhigh : BitVec.ofNat 8 n ≥ 64 ↔ 64 ≤ n := by
    rw [ge_iff_le, BitVec.le_def, hnat]
    rfl
  have hmid : BitVec.ofNat 8 n ≥ 32 ↔ 32 ≤ n := by
    rw [ge_iff_le, BitVec.le_def, hnat]
    rfl
  have hsub : ∀ k, k < 2 ^ 32 → k ≤ n →
      ((BitVec.ofNat 8 n).setWidth 32 - BitVec.ofNat 32 k).toNat = n - k := by
    intro k hk hle
    rw [toNat_sub_ofNat hk (by rwa [hwide]), hwide]
  -- The register and the bit are those of the line.
  have hhandle : (if BitVec.ofNat 8 n ≥ 64 then
        decide (regs.IRQ_basic_pending &&& oneShl ((BitVec.ofNat 8 n).setWidth 32 - 64) ≠ 0)
      else if BitVec.ofNat 8 n ≥ 32 then
        decide (regs.IRQ_pending_2 &&& oneShl ((BitVec.ofNat 8 n).setWidth 32 - 32) ≠ 0)
      else decide (regs.IRQ_pending_1 &&& oneShl ((BitVec.ofNat 8 n).setWidth 32) ≠ 0)) =
      pendingBit regs n := by
    rw [pendingBit]
    by_cases h1 : 64 ≤ n
    · have h64 : ((BitVec.ofNat 8 n).setWidth 32 - 64).toNat = n - 64 := hsub 64 (by decide) h1
      rw [if_pos (hhigh.mpr h1), if_pos h1, and_oneShl_ne_zero (by omega), h64]
    · rw [if_neg (fun h => h1 (hhigh.mp h)), if_neg h1]
      by_cases h2 : 32 ≤ n
      · have h32 : ((BitVec.ofNat 8 n).setWidth 32 - 32).toNat = n - 32 := hsub 32 (by decide) h2
        rw [if_pos (hmid.mpr h2), if_pos h2, and_oneShl_ne_zero (by omega), h32]
      · rw [if_neg (fun h => h2 (hmid.mp h)), if_neg h2, and_oneShl_ne_zero (by omega), hwide]
  have hcall : handleIrq interruptVector (BitVec.ofNat 8 n) = .ok [n] := by
    rw [handleIrq, hnat, if_pos hn, hreg]
    rfl
  rw [checkIrqPending, hhandle, hcall]
  cases pendingBit regs n <;> rfl

theorem toNat_firstSetBit (h : mask ≠ 0) : (firstSetBit mask).toNat = 32 - 1 - mask.clz.toNat := by
  have hlt : mask.clz < 32 := BitVec.clz_lt_iff_ne_zero.mpr h
  have hle : mask.clz ≤ 31 := by
    rw [BitVec.le_def]
    exact Nat.le_of_lt_succ (BitVec.lt_def.mp hlt)
  rw [firstSetBit, BitVec.toNat_sub_of_le hle]
  rfl

/-- The loop goes through the set bits of the word. -/
theorem maskLoop_eq (i : Fin 3) (hreg : ∀ n < BCM2835_NUM_IRQS, interruptVector n = true) :
    ∀ {fuel : Nat} {mask : Uint}, (setBits mask).length < fuel →
      (∀ b ∈ setBits mask, 32 * i + b < BCM2835_NUM_IRQS) →
      maskLoop regs interruptVector (BitVec.ofNat 32 i.val) fuel mask =
        .ok (((setBits mask).map (32 * i.val + ·)).filter (pendingBit regs)) := by
  intro fuel
  induction fuel with
  | zero =>
    intro mask hfuel
    exact absurd hfuel (Nat.not_lt_zero _)
  | succ fuel ih =>
    intro mask hfuel hbits
    by_cases hmask : mask = 0
    · rw [maskLoop, if_neg (not_not_intro hmask), hmask, setBits_zero]
      rfl
    · have hcons := setBits_eq_cons hmask
      have hfirst := toNat_firstSetBit hmask
      rw [hcons, length_cons] at hfuel
      rw [hcons] at hbits
      obtain ⟨hb, hbits⟩ := forall_mem_cons.mp hbits
      rw [hcons, map_cons, filter_cons]
      rw [← hfirst] at hb hbits hfuel ⊢
      -- The number of the line is an `uchar`, and all 72 of them fit.
      have hnum : (firstSetBit mask + BitVec.ofNat 32 i.val <<< 5).setWidth 8 =
          BitVec.ofNat 8 (32 * i.val + (firstSetBit mask).toNat) := by
        have hsum : (firstSetBit mask + BitVec.ofNat 32 i.val <<< 5).toNat =
            32 * i.val + (firstSetBit mask).toNat := by
          have hi := i.isLt
          rw [BitVec.toNat_add, BitVec.toNat_shiftLeft, BitVec.toNat_ofNat, Nat.shiftLeft_eq]
          omega
        rw [← hsum, BitVec.ofNat_toNat]
      have hloop := ih (Nat.lt_of_succ_lt_succ hfuel) hbits
      rw [maskLoop, if_pos hmask]
      simp only [hnum, checkIrqPending_eq hb (hreg _ hb), ok_bind, oneShl_eq, hloop]
      cases pendingBit regs (32 * i.val + (firstSetBit mask).toNat) <;> rfl

/-- The lines of a word that are served. -/
def served (regs : Pending) (s : Enabled) (i : Fin 3) : List Nat :=
  ((setBits (s.armEnabledIrqs i)).map (32 * i.val + ·)).filter (pendingBit regs)

theorem wordLoop_eq (hreg : ∀ n < BCM2835_NUM_IRQS, interruptVector n = true) (hfuel : 32 < fuel)
    (hbits : ∀ i : Fin 3, ∀ b ∈ setBits (s.armEnabledIrqs i), 32 * i.val + b < BCM2835_NUM_IRQS)
    (words : List (Fin 3)) :
    wordLoop regs interruptVector s fuel words = .ok (words.flatMap (served regs s)) := by
  induction words with
  | nil => rfl
  | cons i words ih =>
    rw [wordLoop, maskLoop_eq i hreg (Nat.lt_of_le_of_lt length_setBits_le hfuel)
      (hbits i), ok_bind,
      ih, ok_bind, flatMap_cons]
    rfl

/-- A line is in its word only. -/
theorem mem_served {i : Fin 3} :
    n ∈ served regs s i ↔ lineWord n = i ∧ enabledBit s n = true ∧ pendingBit regs n = true := by
  rw [served, mem_filter, mem_map, ← and_assoc, and_congr_left_iff]
  intro _
  constructor
  · rintro ⟨b, hb, rfl⟩
    have hset := mem_setBits.mp hb
    have hlt := BitVec.lt_of_getLsbD hset
    exact ⟨(word_bit_of_eq i hlt).1, (enabledBit_word i hlt).trans hset⟩
  · rintro ⟨rfl, hbit⟩
    exact ⟨lineBit n, mem_setBits.mpr hbit, (eq_of_word_bit n).symm⟩

/-- Every line is in one of the three words. -/
theorem mem_flatMap_served :
    n ∈ [0, 1, 2].flatMap (served regs s) ↔ enabledBit s n = true ∧ pendingBit regs n = true := by
  rw [mem_flatMap]
  constructor
  · rintro ⟨i, -, hi⟩
    exact (mem_served.mp hi).2
  · intro h
    have hall : ∀ i : Fin 3, i ∈ [0, 1, 2] := by decide
    exact ⟨lineWord n, hall _, mem_served.mpr ⟨rfl, h⟩⟩

theorem nodup_served (words : List (Fin 3)) (h : words.Nodup) :
    (words.flatMap (served regs s)).Nodup := by
  refine nodup_flatMap.mpr ⟨fun i _ => ?_, ?_⟩
  · exact (nodup_setBits.map fun b c hbc => Nat.add_left_cancel hbc).filter _
  · refine h.imp fun {i j} hij => ?_
    intro n hi hj
    exact hij ((mem_served.mp hi).1.symm.trans (mem_served.mp hj).1)

end Loops

/-! ### `dispatch` -/

/-- On core 0 the handlers of the enabled lines that are pending are
called, each of them once, and no others. -/
theorem dispatch_serves (ops : List Op) (hops : ∀ op ∈ ops, op.irqNum < 72)
    (interruptVector : Nat → Bool) (hreg : ∀ n < BCM2835_NUM_IRQS, interruptVector n = true)
    (regs : Pending) (status : Uint) (fuel : Nat) (hfuel : 32 < fuel) :
    ∃ calls, dispatch regs interruptVector (ops.foldl Enabled.call Enabled.boot) 0 status fuel =
        .ok (.handlers calls) ∧
      calls.Nodup ∧ (∀ n ∈ calls, n < BCM2835_NUM_IRQS) ∧
      ∀ irqNum : Ulong, irqNum.toNat ∈ calls ↔
        LastEnabled ops irqNum ∧ pendingBit regs irqNum.toNat = true := by
  have hnum : ∀ op ∈ ops, op.irqNum.toNat < BCM2835_NUM_IRQS :=
    fun op hop => BitVec.lt_def.mp (hops op hop)
  have htable : ∀ irqNum : Ulong,
      enabledBit (ops.foldl Enabled.call Enabled.boot) irqNum.toNat = true ↔
        LastEnabled ops irqNum :=
    fun irqNum => enabledBit_calls fun op hop => Nat.lt_trans (hnum op hop) (by decide)
  have hbits := fun i b => @lt_of_mem_setBits ops hnum i b
  generalize ops.foldl Enabled.call Enabled.boot = s at htable hbits
  refine ⟨[0, 1, 2].flatMap (served regs s), ?_, nodup_served _ (by decide), ?_, ?_⟩
  · -- Core 0 always gets past the test at the top of `dispatch`.
    rw [dispatch, if_neg (fun h => h.1 rfl), wordLoop_eq hreg hfuel hbits]
    rfl
  · intro n hn
    obtain ⟨i, -, hi⟩ := mem_flatMap.mp hn
    obtain ⟨b, hb, rfl⟩ := mem_map.mp (mem_of_mem_filter hi)
    exact hbits i b hb
  · intro irqNum
    rw [mem_flatMap_served, htable]

/-- Two lines in different words, one of them disabled again, all pending. -/
theorem dispatch_serves_two : ∃ calls,
    dispatch ⟨0xFF, 0xFFFFFFFF, 0xFFFFFFFF⟩ (fun _ => true)
      ([Op.enable 3, Op.enable 64, Op.disable 3].foldl Enabled.call Enabled.boot) 0 0 33 =
        .ok (.handlers calls) ∧ calls.Nodup ∧ 64 ∈ calls ∧ 3 ∉ calls := by
  obtain ⟨calls, hcalls, hnodup, -, hmem⟩ := dispatch_serves [.enable 3, .enable 64, .disable 3]
    (by decide) (fun _ => true) (fun _ _ => rfl) ⟨0xFF, 0xFFFFFFFF, 0xFFFFFFFF⟩ 0 33 (by decide)
  refine ⟨calls, hcalls, hnodup,
    (hmem 64).mpr ⟨⟨[.enable 3], [.disable 3], rfl, by decide⟩, rfl⟩, ?_⟩
  intro h
  have hlast : LastEnabled ([.enable 3, .enable 64] ++ [.disable 3]) 3 := ((hmem 3).mp h).1
  rcases lastEnabled_append.mp hlast with heq | ⟨hne, -⟩
  · cases heq
  · exact hne rfl

end Xinu.Irq
