import Mathlib.Data.Nat.Digits.Lemmas
import Xinu.System.Print

/-!
# `Xinu.Proofs.Print.Numeral`: `ulong_to_string` writes the numeral

`figures` are the digits of a number in a base, from the last one on, with
the one digit of zero. Both loops of `ulong_to_string` go through them: the
loop with `%` and `/`, and the loop with a mask and a shift
(`tempLoop_eq`). So the string is the numeral, and the buffer `temp` is
never too small (`ulongToString_eq`).
-/

namespace Xinu

open List BitVec

variable {digits : List Byte} {base : Nat}

/-! ### Numerals -/

/-- The digits of a number, from the last one on. Zero has one digit. -/
def figures (base n : Nat) : List Nat := if n = 0 then [0] else Nat.digits base n

/-- The characters of a number. -/
def numeral (digits : List Byte) (base n : Nat) : List Byte :=
  ((figures base n).map (digits.getD · 0)).reverse

section Figures
variable {base n : Nat}

theorem figures_of_lt (h : n < base) : figures base n = [n] := by
  by_cases hn : n = 0
  · rw [figures, if_pos hn, hn]
  · rw [figures, if_neg hn, Nat.digits_of_lt base n hn h]

theorem figures_of_le (hbase : 1 < base) (h : base ≤ n) :
    figures base n = n % base :: figures base (n / base) := by
  have hrest : n / base ≠ 0 := Nat.div_ne_zero_iff.mpr ⟨by omega, h⟩
  rw [figures, if_neg (by omega), Nat.digits_def' hbase (by omega), figures, if_neg hrest]

theorem figures_ne_nil (hbase : 1 < base) : figures base n ≠ [] := by
  by_cases h : n < base
  · simp [figures_of_lt h]
  · simp [figures_of_le hbase (Nat.le_of_not_lt h)]

theorem lt_of_mem_figures (hbase : 1 < base) {d : Nat} (h : d ∈ figures base n) : d < base := by
  by_cases hn : n = 0
  · rw [figures, if_pos hn, mem_singleton] at h
    omega
  · rw [figures, if_neg hn] at h
    exact Nat.digits_lt_base hbase h

theorem ofDigits_figures : Nat.ofDigits base (figures base n) = n := by
  by_cases hn : n = 0
  · rw [figures, if_pos hn, Nat.ofDigits_singleton, hn]
  · rw [figures, if_neg hn, Nat.ofDigits_digits]

theorem length_figures_le (hbase : 1 < base) {k : Nat} (hk : 0 < k) (h : n < base ^ k) :
    (figures base n).length ≤ k := by
  by_cases hn : n = 0
  · rw [figures, if_pos hn]
    exact hk
  · rw [figures, if_neg hn]
    exact (Nat.digits_length_le_iff hbase n).mpr h

theorem length_numeral :
    (numeral digits base n).length = (figures base n).length := by
  rw [numeral, length_reverse, length_map]

theorem numeral_ne_nil (hbase : 1 < base) : numeral digits base n ≠ [] := by
  rw [numeral, Ne, reverse_eq_nil_iff, map_eq_nil_iff]
  exact figures_ne_nil hbase

end Figures

/-! ### The loops -/

section
variable {abi : Abi}

theorem bits_pos : 0 < abi.bits := by
  cases abi <;> decide

/-- A loop whose steps divide by the base goes through the figures. It
needs as many entries as there are. -/
theorem tempLoop_eq {digit rest : abi.Ulong → abi.Ulong}
    (hbase : 1 < base) (hdigit : ∀ v, (digit v).toNat = v.toNat % base)
    (hrest : ∀ v, (rest v).toNat = v.toNat / base) :
    ∀ (room : Nat) (num : abi.Ulong), 0 < room → num.toNat < base ^ room →
      tempLoop digits digit rest room num =
        .ok ((figures base num.toNat).map (digits.getD · 0)) := by
  intro room
  induction room with
  | zero =>
    intro num h
    exact absurd h (Nat.lt_irrefl 0)
  | succ room ih =>
    intro num _ hnum
    have hzero : rest num = 0 ↔ num.toNat < base := by
      rw [← toNat_inj, hrest]
      show num.toNat / base = (BitVec.ofNat abi.bits 0).toNat ↔ _
      rw [toNat_zero, Nat.div_eq_zero_iff]
      omega
    by_cases hlt : num.toNat < base
    · rw [tempLoop, if_pos (hzero.mpr hlt), hdigit, figures_of_lt hlt, Nat.mod_eq_of_lt hlt]
      rfl
    · have hle : base ≤ num.toNat := Nat.le_of_not_lt hlt
      have hless : (rest num).toNat < base ^ room := by
        rw [hrest]
        refine Nat.div_lt_of_lt_mul ?_
        rw [← Nat.pow_succ']
        exact hnum
      -- A number of more than one digit needs a second entry.
      have hroom : 0 < room := by
        rcases Nat.eq_zero_or_pos room with rfl | hroom
        · rw [Nat.zero_add, Nat.pow_one] at hnum
          exact absurd hnum hlt
        · exact hroom
      rw [tempLoop, if_neg (fun h => hlt (hzero.mp h)), ih _ hroom hless, ok_bind, hdigit, hrest,
        figures_of_le hbase hle]
      rfl

/-- `temp` has an entry for each bit of the number, and no base has more
digits. -/
theorem toNat_lt_pow (hbase : 1 < base) (num : abi.Ulong) :
    num.toNat < base ^ abi.bits :=
  calc num.toNat < 2 ^ abi.bits := num.isLt
    _ ≤ base ^ abi.bits := Nat.pow_le_pow_left hbase _

theorem toNat_ofNat_base (h : base < 32) :
    (BitVec.ofNat abi.bits base).toNat = base := by
  have hbits : 32 < 2 ^ abi.bits := by cases abi <;> decide
  rw [toNat_ofNat, Nat.mod_eq_of_lt (by omega)]

theorem toNat_mask {shift : Nat} (h : shift < 5) (v : abi.Ulong) :
    (v &&& ((1 <<< shift) - 1)).toNat = v.toNat % 2 ^ shift := by
  have hmask : ((1 <<< shift) - 1 : abi.Ulong).toNat = 2 ^ shift - 1 := by
    revert shift
    cases abi <;> decide
  rw [toNat_and, hmask, Nat.and_two_pow_sub_one_eq_mod]

/-- The steps of the loop with `%` and `/`. -/
theorem toNat_umod_base (h : base < 32) (v : abi.Ulong) :
    (v % BitVec.ofNat abi.bits base).toNat = v.toNat % base := by
  rw [toNat_umod, toNat_ofNat_base h]

theorem tempLoop_div (h : 1 < base ∧ base < 32) (num : abi.Ulong) :
    tempLoop digits (· % BitVec.ofNat _ base) (· / BitVec.ofNat _ base) abi.bits num =
      .ok ((figures base num.toNat).map (digits.getD · 0)) :=
  tempLoop_eq h.1 (toNat_umod_base h.2)
    (fun v => by rw [toNat_udiv, toNat_ofNat_base h.2]) _ _ bits_pos (toNat_lt_pow h.1 num)

theorem tempLoop_shift {shift : Nat} (h : 0 < shift ∧ shift < 5) (num : abi.Ulong) :
    tempLoop digits (· &&& ((1 <<< shift) - 1)) (· >>> shift) abi.bits num =
      .ok ((figures (2 ^ shift) num.toNat).map (digits.getD · 0)) := by
  have hbase : 1 < 2 ^ shift := Nat.one_lt_two_pow (Nat.ne_of_gt h.1)
  exact tempLoop_eq hbase (toNat_mask h.2)
    (fun v => by rw [toNat_ushiftRight, Nat.shiftRight_eq_div_pow]) _ _ bits_pos
    (toNat_lt_pow hbase num)

/-- The bases that `_doprnt` asks for. Those that are powers of two are
known to `base_to_nbits`. -/
theorem base_cases (h : base ∈ [2, 8, 10, 16]) :
    (1 < base ∧ base ≤ 16) ∧ (baseToNbits base ≠ 0 →
      (0 < baseToNbits base ∧ baseToNbits base < 5) ∧ 2 ^ baseToNbits base = base) := by
  revert base
  decide

/-- `ulong_to_string` writes the numeral, for the bases that `_doprnt`
asks for. -/
theorem ulongToString_eq (h : base ∈ [2, 8, 10, 16]) (num : abi.Ulong) (altDigits : Bool) :
    ulongToString num base altDigits =
      .ok (numeral (if altDigits then digitsUc else digitsLc) base num.toNat) := by
  obtain ⟨hbase, hpow⟩ := base_cases h
  -- Base 10 divides, the others mask and shift.
  by_cases hshift : baseToNbits base = 0
  · rw [ulongToString, if_pos hshift, tempLoop_div ⟨hbase.1, by omega⟩]
    rfl
  · obtain ⟨hbits, hpow⟩ := hpow hshift
    rw [ulongToString, if_neg hshift, tempLoop_shift hbits, hpow]
    rfl

/-- A numeral fits into the buffer. -/
theorem length_numeral_le (hbase : 1 < base)
    (num : abi.Ulong) : (numeral digits base num.toNat).length ≤ abi.bits := by
  rw [length_numeral]
  exact length_figures_le hbase bits_pos (toNat_lt_pow hbase num)

end

end Xinu
