import Mathlib.Algebra.Order.Ring.Nat
import Mathlib.Data.Finset.Card
import Mathlib.Data.Finset.Range
import Mathlib.Logic.Function.Iterate

/-!
# `Xinu.Lib.Cursor`: a cursor that goes round a table

A table has `n` slots. The cursor is advanced before each look at a slot
and goes back to zero at the end of the table. From any slot, `n` steps
visit every slot (`exists_iterate_bump`), so a search that has made them
all without success has seen the whole table.
-/

namespace Xinu.Lib

open List

variable {n i x : Nat}

/-- The next slot. -/
def bump (n i : Nat) : Nat := if n ≤ i + 1 then 0 else i + 1

theorem bump_eq_mod (hi : i < n) : bump n i = (i + 1) % n := by
  unfold bump
  split
  · rw [show i + 1 = n by omega, Nat.mod_self]
  · rw [Nat.mod_eq_of_lt (by omega)]

theorem bump_lt (hi : i < n) : bump n i < n := by
  rw [bump_eq_mod hi]
  exact Nat.mod_lt _ (by omega)

/-- Where the cursor is after `k` steps. -/
theorem iterate_bump (hi : i < n) (k : Nat) : (bump n)^[k] i = (i + k) % n := by
  induction k with
  | zero => exact (Nat.mod_eq_of_lt hi).symm
  | succ k ih =>
    rw [Function.iterate_succ_apply', ih, bump_eq_mod (Nat.mod_lt _ (by omega)),
      Nat.mod_add_mod, Nat.add_assoc]

/-- One lap visits every slot. -/
theorem exists_iterate_bump (hi : i < n) (hx : x < n) : ∃ k < n, (bump n)^[k + 1] i = x := by
  -- The slot is ahead of the cursor, or a lap takes it there.
  by_cases h : i < x
  · refine ⟨x - i - 1, by omega, ?_⟩
    rw [iterate_bump hi, show i + (x - i - 1 + 1) = x by omega, Nat.mod_eq_of_lt hx]
  · refine ⟨n - 1 - i + x, by omega, ?_⟩
    rw [iterate_bump hi, show i + (n - 1 - i + x + 1) = x + n by omega, Nat.add_mod_right,
      Nat.mod_eq_of_lt hx]

/-- Different slots of the table are all the slots exactly when there are
`n` of them. -/
theorem length_eq_iff_forall_mem {l : List Nat} (hnd : l.Nodup) (hl : ∀ x ∈ l, x < n) :
    l.length = n ↔ ∀ x < n, x ∈ l := by
  have hcard : l.toFinset.card = l.length := toFinset_card_of_nodup hnd
  have hsub : l.toFinset ⊆ Finset.range n := fun x hx =>
    Finset.mem_range.mpr (hl x (mem_toFinset.mp hx))
  constructor
  · intro hlen x hx
    have heq := Finset.eq_of_subset_of_card_le hsub (by rw [Finset.card_range, hcard, hlen])
    exact mem_toFinset.mp (heq ▸ Finset.mem_range.mpr hx)
  · intro hall
    have heq : l.toFinset = Finset.range n := hsub.antisymm fun x hx =>
      mem_toFinset.mpr (hall x (Finset.mem_range.mp hx))
    rw [← hcard, heq, Finset.card_range]

end Xinu.Lib
