import Mathlib.Data.Nat.Bitwise
import Xinu.System.Paging

/-!
# `Xinu.Proofs.Paging.Words`: addresses and entries

What the macros of `safemem.h` compute. Page addresses and entries
determine each other (`PTE2PA_entry`), the flags are the low bits of an
entry (`entry_and`), the entries of two pages are at different addresses
(`pteAddr_inj`), and the three indices of an address determine its page
up to `2 ^ 39` (`samePage_iff`).

`Page` is the type of page-aligned addresses. Tables are found at these
only, since `PTE2PA` gives no others.
-/

namespace Xinu

open BitVec

/-- A page-aligned address. -/
abbrev Page := { a : Ulong64 // a.toNat % 4096 = 0 }

variable {t u : Ulong64} {p q : Page} {i j : Nat}

/-- A page passes the check of `pgfree`. -/
theorem mod_page (p : Page) : p.1 % PAGE_SIZE = 0 := by
  have hsize : PAGE_SIZE.toNat = 4096 := rfl
  apply eq_of_toNat_eq
  rw [toNat_umod, hsize]
  exact p.2

/-! ### The entries of a page -/

theorem toNat_pteAddr (ht : t.toNat % 4096 = 0) (hi : i < 512) :
    (pteAddr t (BitVec.ofNat 64 i)).toNat = t.toNat + 8 * i := by
  have := t.isLt
  simp only [pteAddr, toNat_add, toNat_mul, ofNat_eq_ofNat,
    toNat_ofNat]
  omega

theorem pteAddr_inj (ht : t.toNat % 4096 = 0) (hu : u.toNat % 4096 = 0) (hi : i < 512)
    (hj : j < 512)
    (h : pteAddr t (BitVec.ofNat 64 i) = pteAddr u (BitVec.ofNat 64 j)) : t = u ∧ i = j := by
  have hnat := congrArg BitVec.toNat h
  rw [toNat_pteAddr ht hi, toNat_pteAddr hu hj] at hnat
  exact ⟨eq_of_toNat_eq (by omega), by omega⟩

/-- The link of a free page is its first entry. -/
theorem pteAddr_zero : pteAddr t (BitVec.ofNat 64 0) = t := by
  simp [pteAddr]

/-- `bzero` of a page clears its entries and no others. -/
theorem bzero_pteAddr (mem : Ulong64 → Ulong64) (ht : t.toNat % 4096 = 0)
    (hu : u.toNat % 4096 = 0) (hi : i < 512) :
    Pages.bzero mem u (pteAddr t (BitVec.ofNat 64 i)) =
      if t = u then 0 else mem (pteAddr t (BitVec.ofNat 64 i)) := by
  have hlt : pteAddr t (BitVec.ofNat 64 i) - u < PAGE_SIZE ↔ t = u := by
    have hsize : PAGE_SIZE.toNat = 4096 := rfl
    have := t.isLt
    have := u.isLt
    rw [lt_def, toNat_sub, toNat_pteAddr ht hi, hsize]
    constructor
    · intro h
      exact eq_of_toNat_eq (by omega)
    · rintro rfl
      omega
  simp only [Pages.bzero, hlt]

/-! ### Entries -/

theorem PTE2PA_aligned (pte : Ulong64) : (PTE2PA pte).toNat % 4096 = 0 := by
  have hsize : PAGE_SIZE.toNat = 4096 := rfl
  rw [PTE2PA, toNat_mul, hsize]
  omega

/-- The page that an entry names. -/
def pageOf (pte : Ulong64) : Page := ⟨PTE2PA pte, PTE2PA_aligned pte⟩

theorem toNat_PA2PTE (pa : Ulong64) : (PA2PTE pa).toNat = 1024 * (pa.toNat / 4096) := by
  have hsize : PAGE_SIZE.toNat = 4096 := rfl
  have := pa.isLt
  rw [PA2PTE, toNat_shiftLeft, toNat_udiv, hsize, Nat.shiftLeft_eq]
  omega

/-- The flags of an entry and its page do not overlap. -/
theorem toNat_entry (pa : Ulong64) {flags : Ulong64} (hf : flags.toNat < 1024) :
    (PA2PTE pa ||| flags).toNat = 1024 * (pa.toNat / 4096) + flags.toNat := by
  rw [toNat_or, toNat_PA2PTE]
  exact (Nat.two_pow_add_eq_or_of_lt (i := 10) hf _).symm

theorem PTE2PA_entry (p : Page) {flags : Ulong64} (hf : flags.toNat < 1024) :
    PTE2PA (PA2PTE p ||| flags) = p := by
  have hsize : PAGE_SIZE.toNat = 4096 := rfl
  have hp := p.2
  have := p.1.isLt
  apply eq_of_toNat_eq
  rw [PTE2PA, toNat_mul, toNat_ushiftRight, toNat_entry _ hf, hsize,
    Nat.shiftRight_eq_div_pow]
  omega

/-- A mask of the low bits sees the flags of an entry only. -/
theorem entry_and (pa flags : Ulong64) {mask : Ulong64} (hmask : mask.toNat < 1024) :
    (PA2PTE pa ||| flags) &&& mask = flags &&& mask := by
  apply eq_of_getLsbD_eq
  intro k hk
  by_cases hlow : k < 10
  · simp [PA2PTE, hlow]
  · have hbit : mask.getLsbD k = false :=
      Nat.testBit_lt_two_pow
        (hmask.trans_le (Nat.pow_le_pow_right (n := 2) (i := 10) (by omega) (by omega)))
    simp [hbit]

namespace Pages

theorem valid_entry (pa flags : Ulong64) : valid (PA2PTE pa ||| flags) = valid flags := by
  rw [valid, valid, entry_and pa flags (by decide)]

theorem leaf_entry (pa flags : Ulong64) : leaf (PA2PTE pa ||| flags) = leaf flags := by
  rw [leaf, leaf, entry_and pa flags (by decide)]

theorem valid_zero : valid 0 = false := by decide

end Pages

/-! ### Addresses -/

theorem toNat_PX (level : Nat) (va : Ulong64) :
    (PX level va).toNat = va.toNat / 2 ^ PXSHIFT level % 512 := by
  rw [PX, toNat_and, toNat_ushiftRight, Nat.shiftRight_eq_div_pow]
  exact Nat.and_two_pow_sub_one_eq_mod _ 9

/-- `PX(level, addr)` as an index into a table. -/
def index (level : Nat) (va : Ulong64) : Fin 512 :=
  ⟨(PX level va).toNat, by rw [toNat_PX]; exact Nat.mod_lt _ (by decide)⟩

theorem PX_eq_index (level : Nat) (va : Ulong64) :
    PX level va = BitVec.ofNat 64 (index level va) := by
  rw [index, ofNat_toNat, setWidth_eq]

/-- The two addresses have the same three indices. -/
def SamePage (v w : Ulong64) : Prop :=
  index 2 v = index 2 w ∧ index 1 v = index 1 w ∧ index 0 v = index 0 w

instance (v w : Ulong64) : Decidable (SamePage v w) :=
  inferInstanceAs (Decidable (_ ∧ _ ∧ _))

theorem samePage_iff {v w : Ulong64} :
    SamePage v w ↔ v.toNat / 4096 % 2 ^ 27 = w.toNat / 4096 % 2 ^ 27 := by
  simp only [SamePage, index, Fin.mk.injEq, toNat_PX, PXSHIFT]
  have hsplit : ∀ n : Nat, n / 2 ^ (12 + 9 * 2) = n / 4096 / 262144 ∧
      n / 2 ^ (12 + 9 * 1) = n / 4096 / 512 ∧ n / 2 ^ (12 + 9 * 0) = n / 4096 := by
    intro n
    simp only [Nat.div_div_eq_div_mul]
    exact ⟨rfl, rfl, rfl⟩
  simp only [hsplit]
  omega

/-- Clearing the low twelve bits. -/
theorem toNat_clear (x : Ulong64) : (x &&& ~~~(0xFFF : Ulong64)).toNat = x.toNat / 4096 * 4096 := by
  have hhigh : x &&& ~~~(0xFFF : Ulong64) = x >>> 12 <<< 12 := by
    apply eq_of_getLsbD_eq
    intro k hk
    have hmask : (~~~(0xFFF : Ulong64)).getLsbD k = (decide (k < 64) && !decide (k < 12)) := by
      rw [getLsbD_not]
      congr 2
      show Nat.testBit (2 ^ 12 - 1) k = _
      exact Nat.testBit_two_pow_sub_one 12 k
    rw [getLsbD_and, hmask, getLsbD_shiftLeft, getLsbD_ushiftRight]
    by_cases hlow : k < 12
    · simp [hlow]
    · have hsub : 12 + (k - 12) = k := by omega
      simp [hlow, hsub, hk]
  have := x.isLt
  rw [hhigh, toNat_shiftLeft, toNat_ushiftRight, Nat.shiftRight_eq_div_pow,
    Nat.shiftLeft_eq]
  omega

theorem toNat_truncpage (x : Ulong64) : (truncpage x).toNat = x.toNat / 4096 * 4096 :=
  toNat_clear x

theorem toNat_roundpage (x : Ulong64) :
    (roundpage x).toNat = (x.toNat + 4095) % 2 ^ 64 / 4096 * 4096 := by
  rw [roundpage, toNat_clear, toNat_add, Nat.add_comm]
  rfl

end Xinu
