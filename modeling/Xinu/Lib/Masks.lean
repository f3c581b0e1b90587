import Mathlib.Algebra.Order.Ring.Nat
import Mathlib.Tactic.Common

/-!
# `Xinu.Lib.Masks`: low-bit masks as arithmetic

Alignment code clears or keeps the low `k` bits of a word. These lemmas
read both as division and remainder by `2 ^ k`, for any width.
-/

namespace Xinu.Lib

open BitVec

variable {w : Nat}

/-- Keeping the low `k` bits is the remainder by `2 ^ k`. -/
theorem toNat_and_lowMask (k : Nat) (hk : k ≤ w) (x : BitVec w) :
    (x &&& BitVec.ofNat w (2 ^ k - 1)).toNat = x.toNat % 2 ^ k := by
  have hlt : 2 ^ k - 1 < 2 ^ w := by
    have := Nat.pow_le_pow_right (n := 2) (by omega) hk
    have := Nat.two_pow_pos k
    omega
  rw [toNat_and, toNat_ofNat, Nat.mod_eq_of_lt hlt,
    Nat.and_two_pow_sub_one_eq_mod]

/-- Clearing the low `k` bits rounds down to a multiple of `2 ^ k`. -/
theorem toNat_and_not_lowMask (k : Nat) (hk : k ≤ w) (x : BitVec w) :
    (x &&& ~~~BitVec.ofNat w (2 ^ k - 1)).toNat = x.toNat / 2 ^ k * 2 ^ k := by
  -- The two halves of the word add up to the word, since they share no bit.
  have hsplit : (x &&& ~~~BitVec.ofNat w (2 ^ k - 1)).toNat
      + (x &&& BitVec.ofNat w (2 ^ k - 1)).toNat = x.toNat := by
    have hdisj : (x &&& ~~~BitVec.ofNat w (2 ^ k - 1))
        &&& (x &&& BitVec.ofNat w (2 ^ k - 1)) = 0#w := by
      ext i hi
      simp only [getElem_and, getElem_not, BitVec.getElem_zero]
      cases (BitVec.ofNat w (2 ^ k - 1))[i] <;> simp
    have hor : (x &&& ~~~BitVec.ofNat w (2 ^ k - 1))
        ||| (x &&& BitVec.ofNat w (2 ^ k - 1)) = x := by
      ext i hi
      simp only [getElem_or, getElem_and, getElem_not]
      cases (BitVec.ofNat w (2 ^ k - 1))[i] <;> simp
    rw [← toNat_add_of_and_eq_zero hdisj, add_eq_or_of_and_eq_zero _ _ hdisj, hor]
  rw [toNat_and_lowMask k hk] at hsplit
  have := Nat.div_add_mod x.toNat (2 ^ k)
  rw [Nat.mul_comm] at this
  omega

end Xinu.Lib
