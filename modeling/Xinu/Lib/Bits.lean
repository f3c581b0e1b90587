import Mathlib.Data.List.Nodup
import Mathlib.Data.List.Range

/-!
# `Xinu.Lib.Bits`: the set bits of a word

`setBits x` lists the set bits of a word from the highest one on. A loop
that takes the highest set bit, with a count of the leading zeros, and
removes it goes through this list (`setBits_eq_cons`).
-/

namespace Xinu.Lib

open List BitVec

variable {w : Nat} {x : BitVec w} {b : Nat}

/-- The set bits, from the highest one on. -/
def setBits (x : BitVec w) : List Nat := (List.range w).reverse.filter fun b => x.getLsbD b

theorem mem_setBits : b ∈ setBits x ↔ x.getLsbD b = true := by
  rw [setBits, mem_filter, mem_reverse, mem_range, and_iff_right_iff_imp]
  exact lt_of_getLsbD

theorem nodup_setBits : (setBits x).Nodup :=
  (nodup_reverse.mpr nodup_range).filter _

theorem length_setBits_le : (setBits x).length ≤ w :=
  calc (setBits x).length ≤ (List.range w).reverse.length := length_filter_le ..
    _ = w := by rw [length_reverse, length_range]

theorem setBits_zero : setBits (0 : BitVec w) = [] := by
  refine filter_eq_nil_iff.mpr fun b _ => ?_
  simp

/-- Where there are no set bits, they need not be looked for. -/
theorem setBits_below (hb : b ≤ w) (h : ∀ i, b ≤ i → x.getLsbD i = false) :
    setBits x = (List.range b).reverse.filter fun i => x.getLsbD i := by
  obtain ⟨k, rfl⟩ := Nat.exists_eq_add_of_le hb
  have hnone : ((List.range k).map (b + ·)).reverse.filter (fun i => x.getLsbD i) = [] := by
    refine filter_eq_nil_iff.mpr fun i hi => ?_
    obtain ⟨j, -, rfl⟩ := mem_map.mp (mem_reverse.mp hi)
    rw [h _ (Nat.le_add_right b j)]
    exact Bool.false_ne_true
  rw [setBits, range_add, List.reverse_append, filter_append, hnone, nil_append]

/-- The highest set bit, from the number of leading zeros. -/
theorem highest_of_clz (hx : x ≠ 0) :
    x.getLsbD (w - 1 - x.clz.toNat) = true ∧
      ∀ i, w - 1 - x.clz.toNat < i → x.getLsbD i = false := by
  have hw : 0 < w := by
    rcases Nat.eq_zero_or_pos w with rfl | hw
    · exact absurd (Subsingleton.elim x 0) hx
    · exact hw
  refine ⟨getLsbD_true_clz_of_ne_zero hw hx, fun i hi => ?_⟩
  have hlt : x.toNat < 2 ^ i :=
    Nat.lt_of_lt_of_le toNat_lt_two_pow_sub_clz (Nat.pow_le_pow_right (by decide) (by omega))
  exact Nat.testBit_lt_two_pow hlt

/-- The rest of the set bits are those of the word without the highest
one. -/
theorem setBits_eq_cons (hx : x ≠ 0) :
    setBits x = (w - 1 - x.clz.toNat) ::
      setBits (x ^^^ BitVec.twoPow w (w - 1 - x.clz.toNat)) := by
  obtain ⟨hb, habove⟩ := highest_of_clz hx
  generalize w - 1 - x.clz.toNat = b at hb habove
  have hlt : b < w := lt_of_getLsbD hb
  have hrest : ∀ i, (x ^^^ BitVec.twoPow w b).getLsbD i = (x.getLsbD i ^^ decide (b = i)) := by
    intro i
    rw [getLsbD_xor, getLsbD_twoPow, decide_eq_true hlt, Bool.true_and]
  have hcleared : ∀ i, b ≤ i → (x ^^^ BitVec.twoPow w b).getLsbD i = false := by
    intro i hi
    rw [hrest]
    rcases Nat.eq_or_lt_of_le hi with rfl | hi
    · rw [hb, decide_eq_true rfl]
      rfl
    · rw [habove i hi, decide_eq_false (Nat.ne_of_lt hi)]
      rfl
  have hsame : ∀ i ∈ (List.range b).reverse,
      (x ^^^ BitVec.twoPow w b).getLsbD i = x.getLsbD i := by
    intro i hi
    have hi' : i < b := mem_range.mp (mem_reverse.mp hi)
    rw [hrest, decide_eq_false (Nat.ne_of_gt hi'), Bool.xor_false]
  rw [setBits_below hlt habove, setBits_below (Nat.le_of_lt hlt) hcleared, range_succ,
    List.reverse_append, reverse_singleton, singleton_append, filter_cons,
    if_pos hb, filter_congr hsame]

end Xinu.Lib
