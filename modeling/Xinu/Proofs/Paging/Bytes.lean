import Xinu.Proofs.Paging.Isolation

/-!
# `Xinu.Proofs.Paging.Bytes`: the bytes of an unaligned range

`mapAddress` is given a range of bytes. It rounds the start down and the
length up, each for itself, and maps the pages from the one on to as many
as the other has. So with a start that is `o` bytes into its page, the
bytes `d` of the range with `o + d < roundpage(length)` are covered. When
`o + length` is more than that, the last page of the range is left out.

`mapAddress_bytes_iff` says what becomes of each byte, for any range,
aligned or not. A byte that is covered goes where the entry written for
it says, and one that is not keeps the translation that it had.
-/

namespace Xinu

open Lib Lib.Radix Pages BitVec

/-! ### Addresses and entries -/

theorem toNat_offset (x : Ulong64) : (x &&& 0xFFF).toNat = x.toNat % 4096 := by
  rw [toNat_and]
  exact Nat.and_two_pow_sub_one_eq_mod _ 12

/-- A page and the offset of an address in it. -/
theorem truncpage_add_offset {x y : Ulong64} (h : x.toNat % 4096 = y.toNat % 4096) :
    truncpage x + (y &&& 0xFFF) = x := by
  apply eq_of_toNat_eq
  have := x.isLt
  rw [toNat_add, toNat_truncpage, toNat_offset]
  omega

/-- Whole pages up to a byte and the byte itself are in the same page, and
stay there when the address wraps around. -/
theorem page_of_byte (x o d : Nat) (h : x % 4096 = o) :
    (x + (o + d) / 4096 * 4096) % 2 ^ 64 / 4096 = (x + d) % 2 ^ 64 / 4096 := by
  have hmod : ∀ y, y % 2 ^ 64 / 4096 = y / 4096 % 2 ^ 52 := by
    intro y
    omega
  have hpage : (x + (o + d) / 4096 * 4096) / 4096 = (x + d) / 4096 := by omega
  rw [hmod, hmod, hpage]

namespace Pages

variable {attr : BitVec 32} {pa pa' : Ulong64}

theorem mapEntry_congr (h : pa.toNat / 4096 = pa'.toNat / 4096) :
    mapEntry pa attr = mapEntry pa' attr := by
  have hpage : PA2PTE pa = PA2PTE pa' := by
    apply eq_of_toNat_eq
    rw [toNat_PA2PTE, toNat_PA2PTE, h]
  rw [mapEntry, mapEntry, hpage]

theorem valid_mapEntry (pa : Ulong64) (attr : BitVec 32) : valid (mapEntry pa attr) = true := by
  have hbit : mapEntry pa attr &&& PTE_V = PTE_V := by
    apply eq_of_getLsbD_eq
    intro k hk
    simp only [mapEntry, getLsbD_and, getLsbD_or]
    cases PTE_V.getLsbD k <;> simp
  rw [valid, hbit]
  decide

/-- The entry maps the page of the physical address `pa`. -/
def Names (pte pa : Ulong64) : Prop :=
  leaf pte = true ∧ pte >>> 54 = 0 ∧ PTE2PA pte = truncpage pa

/-- So does an entry with flags in the bits for flags, for an address of
56 bits. -/
theorem names_mapEntry (hattr : FlagBits attr) (hpa : pa.toNat < 2 ^ 56) :
    Names (mapEntry pa attr) pa := by
  have htrunc := toNat_truncpage pa
  have hpage : (truncpage pa).toNat % 4096 = 0 := by omega
  have hentry : mapEntry pa attr = mapEntry (truncpage pa) attr := mapEntry_congr (by omega)
  obtain ⟨hext, hlt, -, hleaf⟩ := flagBits_spec hattr
  obtain ⟨hspec, -, hpte, -⟩ := mapEntry_spec hattr ⟨truncpage pa, hpage⟩
  refine ⟨?_, ?_, by rw [hentry, hpte]⟩
  · rw [mapEntry, hext, BitVec.or_assoc, leaf_entry, hleaf]
  · apply eq_of_toNat_eq
    rw [mapEntry, hext, BitVec.or_assoc, toNat_ushiftRight, toNat_entry _ hlt,
      Nat.shiftRight_eq_div_pow]
    have hzero : (1024 * (pa.toNat / 4096) + (attr.setWidth 64 ||| PTE_V).toNat) / 2 ^ 54 = 0 :=
      Nat.div_eq_of_lt (by omega)
    rw [hzero]
    rfl

/-! ### One byte -/

/-- What a translation makes of an entry of the last level. -/
theorem bind_leafEntry (pte va : Ulong64) (hvalid : valid pte = true) :
    ((leafEntry pte).bind fun e => if e.2 >>> 54 ≠ 0 then none
      else some (PTE2PA e.2 + (va &&& ((1 : Ulong64) <<< PXSHIFT e.1 - 1)))) =
    if leaf pte = true ∧ pte >>> 54 = 0 then some (PTE2PA pte + (va &&& 0xFFF)) else none := by
  rw [leafEntry, hvalid, Bool.true_and]
  by_cases hleaf : leaf pte = true
  · rw [if_pos hleaf, Option.bind_some]
    by_cases hhigh : pte >>> 54 = 0
    · have hmask : (1 : Ulong64) <<< PXSHIFT 0 - 1 = 0xFFF := by decide
      rw [if_neg (not_not_intro hhigh), if_pos ⟨hleaf, hhigh⟩, hmask]
    · rw [if_pos hhigh, if_neg fun h => hhigh h.2]
  · rw [if_neg hleaf, if_neg fun h => hleaf h.1]
    rfl

/-- A byte of a page that is mapped goes to the right address exactly when
its entry names the page of that address. -/
theorem bind_leafEntry_eq_iff {pte va : Ulong64} (hvalid : valid pte = true)
    (hoff : pa.toNat % 4096 = va.toNat % 4096) :
    ((leafEntry pte).bind fun e => if e.2 >>> 54 ≠ 0 then none
      else some (PTE2PA e.2 + (va &&& ((1 : Ulong64) <<< PXSHIFT e.1 - 1)))) =
        some pa ↔ Names pte pa := by
  rw [bind_leafEntry pte va hvalid]
  constructor
  · intro h
    split at h
    · rename_i hcond
      have hsum := (Option.some.inj h).trans (truncpage_add_offset hoff).symm
      exact ⟨hcond.1, hcond.2, (BitVec.add_left_inj _).mp hsum⟩
    · cases h
  · rintro ⟨hleaf, hhigh, hpage⟩
    rw [if_pos ⟨hleaf, hhigh⟩, hpage, truncpage_add_offset hoff]

end Pages

/-! ### The range -/

/-- `mapAddress` returned `OK` for `length` bytes from `va` on, to be
mapped to those from `pa` on. Then every byte is translated to the address
asked for exactly when the entries that `mapAddress` writes for the
covered bytes name their pages, and the other bytes were translated so
before. -/
theorem mapAddress_bytes_iff {s : PageSys} (h : s.Reachable) {root : Ulong64}
    (hroot : root ∈ s.held) {va pa length : Ulong64} {attr : BitVec 32}
    (hcong : va.toNat % 4096 = pa.toNat % 4096) (hlength : length ≠ 0)
    (hrange : va.toNat + length.toNat < 2 ^ 39)
    (hok : (s.pages.mapAddress root va pa length attr).1 = .ok) :
    (∀ d < length, (s.pages.mapAddress root va pa length attr).2.translate root (va + d) =
      some (pa + d)) ↔
    ∀ d < length, if va.toNat % 4096 + d.toNat < (roundpage length).toNat
      then Names (mapEntry (pa + d) attr) (pa + d)
      else s.pages.translate root (va + d) = some (pa + d) := by
  obtain ⟨free, held, hs⟩ := PageSys.owned_of_reachable h
  obtain ⟨r, hr, rfl⟩ := hs.mem_held hroot
  have htrunc := toNat_truncpage va
  have hround := toNat_roundpage length
  have hpos : 0 < length.toNat := Nat.pos_of_ne_zero fun h0 => hlength (eq_of_toNat_eq h0)
  obtain ⟨j, hj, hwalk⟩ := mapAddress_spec va pa length attr (hs.table hr) hlength (by omega)
  have hj : j = (roundpage length).toNat / 4096 := by
    rcases hj with ⟨-, hj⟩ | ⟨herr, -⟩
    · exact hj
    · cases hok.symm.trans herr
  refine forall₂_congr fun d hd => ?_
  have hdlt : d.toNat < length.toNat := hd
  have hsum : (va + d).toNat = va.toNat + d.toNat := by
    rw [toNat_add]
    omega
  have hpsum : (pa + d).toNat = (pa.toNat + d.toNat) % 2 ^ 64 := toNat_add ..
  rw [Pages.translate, hwalk, mapped, hsum,
    Nat.mod_eq_of_lt (by omega : va.toNat + d.toNat < 2 ^ 39)]
  by_cases hcov : va.toNat % 4096 + d.toNat < (roundpage length).toNat
  · rw [if_pos (by omega), if_pos hcov]
    -- The loop adds whole pages to `pa`, which stays in the page of the byte.
    have hentry : mapEntry (pa + BitVec.ofNat 64
        ((va.toNat + d.toNat - (truncpage va).toNat) / 4096 * 4096)) attr =
        mapEntry (pa + d) attr := by
      have hoff : va.toNat + d.toNat - (truncpage va).toNat = va.toNat % 4096 + d.toNat := by omega
      refine mapEntry_congr ?_
      rw [hpsum, toNat_add, toNat_ofNat, hoff, Nat.add_mod_mod]
      exact page_of_byte pa.toNat (va.toNat % 4096) d.toNat hcong.symm
    rw [hentry]
    exact bind_leafEntry_eq_iff (valid_mapEntry _ _) (by omega)
  · rw [if_neg (by omega), if_neg hcov]
    rfl

/-- With flags for `attr` and physical addresses of 56 bits, the whole
range is mapped when the page of its last byte is covered. -/
theorem bytes_covered {s : Pages} {root va pa length : Ulong64} {attr : BitVec 32}
    (hattr : FlagBits attr) (hpa : pa.toNat + length.toNat ≤ 2 ^ 56)
    (hcov : va.toNat % 4096 + length.toNat ≤ (roundpage length).toNat) :
    ∀ d < length, if va.toNat % 4096 + d.toNat < (roundpage length).toNat
      then Names (mapEntry (pa + d) attr) (pa + d)
      else s.translate root (va + d) = some (pa + d) := by
  intro d hd
  have hdlt : d.toNat < length.toNat := hd
  rw [if_pos (by omega)]
  refine names_mapEntry hattr ?_
  rw [toNat_add]
  omega

/-- A range that starts inside a page and ends inside the next one. -/
theorem mapAddress_bytes_twoPages : ∃ s : PageSys, s.Reachable ∧
    (s.pages.mapAddress 0x1000 0x5010 0x80000010 0x1800 6).1 = .ok ∧
    ∀ d < (0x1800 : Ulong64),
      (s.pages.mapAddress 0x1000 0x5010 0x80000010 0x1800 6).2.translate 0x1000 (0x5010 + d) =
        some (0x80000010 + d) := by
  obtain ⟨s, hs, htest⟩ := PageSys.exists_reachable [.pgalloc]
    (fun s => decide (s.held = [0x1000] ∧
      (s.pages.mapAddress 0x1000 0x5010 0x80000010 0x1800 6).1 = .ok)) (by decide +kernel)
  obtain ⟨hheld, hok⟩ := of_decide_eq_true htest
  have hroot : (0x1000 : Ulong64) ∈ s.held := by
    rw [hheld]
    decide
  exact ⟨s, hs, hok, (mapAddress_bytes_iff hs hroot (by decide) (by decide) (by decide) hok).mpr
    (bytes_covered (by decide) (by decide) (by decide))⟩

/-- Two bytes on two pages: `mapAddress` returns `OK`, and the second has
no translation. -/
theorem mapAddress_last_byte : ∃ s : PageSys, s.Reachable ∧ (0x1000 : Ulong64) ∈ s.held ∧
    (s.pages.mapAddress 0x1000 0x5FFF 0x80000FFF 2 6).1 = .ok ∧
    (s.pages.mapAddress 0x1000 0x5FFF 0x80000FFF 2 6).2.translate 0x1000 0x5FFF =
      some 0x80000FFF ∧
    (s.pages.mapAddress 0x1000 0x5FFF 0x80000FFF 2 6).2.translate 0x1000 0x6000 = none := by
  obtain ⟨s, hs, htest⟩ := PageSys.exists_reachable [.pgalloc]
    (fun s => decide (s.held = [0x1000] ∧
      (s.pages.mapAddress 0x1000 0x5FFF 0x80000FFF 2 6).1 = .ok ∧
      (s.pages.mapAddress 0x1000 0x5FFF 0x80000FFF 2 6).2.translate 0x1000 0x5FFF =
        some 0x80000FFF ∧
      (s.pages.mapAddress 0x1000 0x5FFF 0x80000FFF 2 6).2.translate 0x1000 0x6000 = none))
    (by decide +kernel)
  obtain ⟨hheld, hok, hfirst, hsecond⟩ := of_decide_eq_true htest
  refine ⟨s, hs, ?_, hok, hfirst, hsecond⟩
  rw [hheld]
  decide

end Xinu
