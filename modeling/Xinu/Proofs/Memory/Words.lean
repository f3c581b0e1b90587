import Xinu.Lib.Masks
import Xinu.System.Memory

/-!
# `Xinu.Proofs.Memory.Words`: the arithmetic of block addresses

`roundmb` and `truncmb` mask the low three bits. The allocator's proofs
read them as arithmetic on natural numbers (`toNat_truncmb`,
`toNat_roundmb`). The rest separates the two words of a block: the `next` word of one aligned block
is never the `length` word of another.
-/

namespace Xinu

open BitVec

/-- Clearing the low three bits rounds down to a multiple of eight. -/
theorem toNat_truncmb (x : Ulong) : (truncmb x).toNat = x.toNat / 8 * 8 :=
  Lib.toNat_and_not_lowMask 3 (by omega) x

theorem roundmb_eq_truncmb (x : Ulong) : roundmb x = truncmb (7 + x) := rfl

/-- `roundmb` rounds up to a multiple of eight, as long as adding seven
does not wrap. -/
theorem toNat_roundmb_mod (x : Ulong) : (roundmb x).toNat = (x.toNat + 7) % 2 ^ 32 / 8 * 8 := by
  rw [roundmb_eq_truncmb, toNat_truncmb, toNat_add, Nat.add_comm]
  rfl

theorem toNat_roundmb {x : Ulong} (h : x.toNat + 7 < 2 ^ 32) :
    (roundmb x).toNat = (x.toNat + 7) / 8 * 8 := by
  rw [toNat_roundmb_mod, Nat.mod_eq_of_lt h]

/-- The last seven sizes are rounded to zero. -/
theorem toNat_roundmb_of_wrap {x : Ulong} (h : 2 ^ 32 ≤ x.toNat + 7) : (roundmb x).toNat = 0 := by
  have := toNat_roundmb_mod x
  omega

/-- A nonzero request rounds up to at least one block. -/
theorem toNat_roundmb_pos {x : Ulong} (h0 : x ≠ 0) (h : x.toNat + 7 < 2 ^ 32) :
    0 < (roundmb x).toNat := by
  have hx : x.toNat ≠ 0 := fun hz => h0 (eq_of_toNat_eq hz)
  rw [toNat_roundmb h]
  omega

@[simp] theorem toNat_NULL : NULL.toNat = 0 := rfl

/-- The address lies on the eight-byte grid of memory blocks. -/
def Aligned (p : Ulong) : Prop := 8 ∣ p.toNat

instance (p : Ulong) : Decidable (Aligned p) := inferInstanceAs (Decidable (_ ∣ _))

theorem aligned_truncmb (x : Ulong) : Aligned (truncmb x) := by
  unfold Aligned
  rw [toNat_truncmb]
  exact Nat.dvd_mul_left _ _

theorem aligned_roundmb (x : Ulong) : Aligned (roundmb x) := aligned_truncmb _

theorem roundmb_of_aligned {x : Ulong} (hx : Aligned x) : roundmb x = x := by
  have := x.isLt
  unfold Aligned at hx
  refine eq_of_toNat_eq ?_
  rw [toNat_roundmb (by omega)]
  omega

/-- The second word of an aligned block does not wrap around. -/
theorem Aligned.toNat_add_four {p : Ulong} (hp : Aligned p) : (p + 4).toNat = p.toNat + 4 := by
  unfold Aligned at hp
  rw [toNat_add]
  have := p.isLt
  show (p.toNat + 4) % 2 ^ 32 = _
  omega

/-- The `next` word of a block is not the `length` word of another. -/
theorem Aligned.ne_add_four {p q : Ulong} (hp : Aligned p) (hq : Aligned q) : p ≠ q + 4 := by
  intro heq
  have h := hq.toNat_add_four
  rw [← heq] at h
  unfold Aligned at hp hq
  omega

theorem add_four_injective {p q : Ulong} (h : p + 4 = q + 4) : p = q := by
  bv_omega

end Xinu
