import Xinu.Proofs.Paging.Tables

/-!
# `Xinu.Proofs.Paging.Mapping`: what `mapPage` and `mapAddress` map

`Table s l t` is what the functions need: a free list `l` and a page
table under `t` that share no page, with pointers only in the upper two
levels. In such a table the walk of an address is the entry of the table
that its indices locate (`Table.walk_eq`). Creating tables changes no
walk (`Table.of_grown`) and writing an entry changes the walks of one
page (`Table.of_write`), so that `mapOne` maps one page
(`mapOne_spec`).

`mapLoop_updates` and `mapLoop_spec` are the two inductions over the loop
of `mapAddress`: it keeps the table, and in a range that does not wrap it
maps the pages one after the other.
-/

namespace Xinu.Pages

open Lib Lib.Radix BitVec

/-- A page table under `t`, next to the free pages `l`. -/
structure Table (s : Pages) (l : List Page) (t : Page) : Prop where
  free : FreeList s l
  nodup : (l ++ tree child s.heap 2 t).Nodup
  pointers : ∀ x ∈ dirs child s.heap 2 t, s.OnlyPointers x.1

/-- A table that has only taken pages from the free list. -/
structure Updates (t : Page) (s : Pages) (l : List Page) (s' : Pages) (l' : List Page) : Prop where
  table : Table s' l' t
  extends_ : ∃ new, l.Perm (new ++ l') ∧ Extends child 2 t s.heap s'.heap new

/-- What the walk makes of an entry of the last level. -/
def leafEntry (pte : Ulong64) : Option (Nat × Ulong64) :=
  if valid pte && leaf pte then some (0, pte) else none

variable {s s' : Pages} {l l' new : List Page} {t x : Page} {va addr physicaladdr endaddr : Ulong64}
  {attr : BitVec 32}

theorem leafEntry_of_child_eq_none {pte : Ulong64} (h : child pte = none) :
    leafEntry pte = none := by
  rw [leafEntry, valid_of_child_eq_none h]
  rfl

/-! ### The walk -/

/-- A walk follows the pointers to a table of the last level. -/
theorem walkFrom_eq (n : Nat) {t : Page} (h : ∀ x ∈ dirs child s.heap n t, s.OnlyPointers x.1) :
    walkFrom s.mem va n t =
      (locate child s.heap (path va n) t).bind fun x => leafEntry (s.heap x (index 0 va)) := by
  induction n generalizing t with
  | zero =>
    rw [walkFrom, PX_eq_index]
    rfl
  | succ n ih =>
    have hentry : s.mem (pteAddr t (PX (n + 1) va)) = s.heap t (index (n + 1) va) := by
      rw [heap, PX_eq_index]
    rw [walkFrom, hentry, path, locate]
    cases hvalid : valid (s.heap t (index (n + 1) va)) with
    | false => rw [child_of_not_valid hvalid]; rfl
    | true =>
      have hc := child_of_valid hvalid
      have hleaf : leaf (s.heap t (index (n + 1) va)) = false :=
        h t (mem_dirs_succ.mpr (Or.inl rfl)) (index (n + 1) va) hvalid
      rw [hc, hleaf]
      exact ih fun x hx => h x (mem_dirs_succ.mpr (Or.inr ⟨_, _, hc, hx⟩))

namespace Table

theorem walk_eq (ht : Table s l t) (va : Ulong64) : s.walk t va =
    (locate child s.heap (path va 2) t).bind fun x => leafEntry (s.heap x (index 0 va)) :=
  walkFrom_eq 2 ht.pointers

theorem nodup_tree (ht : Table s l t) : (tree child s.heap 2 t).Nodup :=
  (List.nodup_append'.mp ht.nodup).2.1

theorem notMem_tree (ht : Table s l t) (hx : x ∈ l) : x ∉ tree child s.heap 2 t :=
  (List.nodup_append'.mp ht.nodup).2.2 hx

/-- New tables are blank: they translate nothing. -/
theorem of_grown (ht : Table s l t) (hg : Grown 2 t s s' l new l') :
    Table s' l' t ∧ ∀ va, s'.walk t va = s.walk t va := by
  have ht' : Table s' l' t := by
    refine ⟨hg.free, hg.nodup ht.nodup, fun x hx => ?_⟩
    rcases hg.grows.dirs x hx with hold | hnew
    · exact hg.pointers x (ht.pointers x hold)
    · exact hg.newPointers x hnew
  refine ⟨ht', fun va => ?_⟩
  rw [ht'.walk_eq, ht.walk_eq]
  cases hold : locate child s.heap (path va 2) t with
  | some x =>
    obtain ⟨hloc, hx⟩ := hg.grows.locate_eq ht.nodup_tree
      (fun y hy => ht.notMem_tree (hg.new_mem hy)) (length_path va 2) hold
    rw [hloc, Option.bind_some, Option.bind_some, hx]
  | none =>
    cases hnew : locate child s'.heap (path va 2) t with
    | none => rfl
    | some x =>
      have hblank := (hg.grows.fresh (path va 2) x (length_path va 2) hnew hold).2
      exact leafEntry_of_child_eq_none (hblank _)

/-- An entry of the last level is written. -/
theorem of_write (ht : Table s l t) (hx : locate child s.heap (path addr 2) t = some x)
    (v : Ulong64) :
    Updates t s l (s.write (pteAddr x (PX 0 addr)) v) l ∧
    ∀ w, (s.write (pteAddr x (PX 0 addr)) v).walk t w =
      if SamePage w addr then leafEntry v else s.walk t w := by
  rw [PX_eq_index]
  have hxt : x ∈ tree child s.heap 2 t := mem_tree_of_locate (length_path addr 2) hx
  have hother : ∀ y, y ≠ x →
      (s.write (pteAddr x (BitVec.ofNat 64 (index 0 addr))) v).heap y = s.heap y :=
    fun y hy => heap_write_of_ne hy
  obtain ⟨htree, hdirs, hloc⟩ := tree_write ht.nodup_tree (length_path addr 2) hx hother
  have ht' : Table (s.write (pteAddr x (BitVec.ofNat 64 (index 0 addr))) v) l t := by
    refine ⟨ht.free.congr rfl fun p hp => hother p ?_, ?_, fun y hy => ?_⟩
    · rintro rfl
      exact ht.notMem_tree hp hxt
    · rw [htree]
      exact ht.nodup
    · rw [hdirs] at hy
      refine onlyPointers_congr (hother y ?_) (ht.pointers y hy)
      rintro rfl
      exact notMem_dirs_of_locate ht.nodup_tree (length_path addr 2) hx hy
  have hext : Extends child 2 t s.heap
      (s.write (pteAddr x (BitVec.ofNat 64 (index 0 addr))) v).heap [] := by
    refine ⟨by rw [htree]; exact List.Perm.refl _, fun y _ hy => hother y ?_⟩
    rintro rfl
    exact hy hxt
  refine ⟨⟨ht', [], List.Perm.refl _, hext⟩, fun w => ?_⟩
  rw [ht'.walk_eq, hloc _ (length_path w 2), ht.walk_eq]
  -- The entry is read by the addresses that locate `x` and have its index.
  by_cases hw : SamePage w addr
  · have hpath : path w 2 = path addr 2 := by
      simp only [path, hw.1, hw.2.1]
    rw [if_pos hw, hpath, hx, Option.bind_some, heap_write_self, hw.2.2, Function.update_self]
  · rw [if_neg hw]
    cases hy : locate child s.heap (path w 2) t with
    | none => rfl
    | some y =>
      rw [Option.bind_some, Option.bind_some]
      by_cases hyx : y = x
      · subst hyx
        have hpath : path w 2 = path addr 2 := locate_inj ht.nodup_tree (length_path addr 2)
          (length_path w 2) hx hy
        have hne : index 0 w ≠ index 0 addr := by
          intro h0
          simp only [path, List.cons.injEq, and_true] at hpath
          exact hw ⟨hpath.1, hpath.2, h0⟩
        rw [heap_write_self, Function.update_of_ne hne]
      · rw [hother y hyx]

end Table

/-! ### One page -/

namespace Updates

theorem refl (ht : Table s l t) : Updates t s l s l :=
  ⟨ht, [], List.Perm.refl _, .refl⟩

theorem trans {s1 : Pages} {l1 : List Page} (h1 : Updates t s l s1 l1)
    (h2 : Updates t s1 l1 s' l') : Updates t s l s' l' := by
  obtain ⟨new, hused, hext⟩ := h1.extends_
  obtain ⟨new', hused', hext'⟩ := h2.extends_
  refine ⟨h2.table, new' ++ new, ?_, hext.trans hext'⟩
  have hcat : (new' ++ new ++ l').Perm (new ++ (new' ++ l')) := by
    rw [← List.append_assoc]
    exact List.perm_append_comm.append_right _
  exact (hused.trans (hused'.append_left _)).trans hcat.symm

end Updates

/-- The entry that `mapPage` and `mapAddress` write. -/
def mapEntry (physicaladdr : Ulong64) (attr : BitVec 32) : Ulong64 :=
  PA2PTE physicaladdr ||| attr.signExtend 64 ||| PTE_V

/-- The flags that may be asked for: bits 1 to 7, with one of R, W and X. -/
def FlagBits (attr : BitVec 32) : Prop := attr &&& ~~~0xFE = 0 ∧ attr &&& 0xE ≠ 0

instance (attr : BitVec 32) : Decidable (FlagBits attr) := inferInstanceAs (Decidable (_ ∧ _))

/-- The flags of the entry are the ones asked for, and `PTE_V`. -/
theorem flagBits_spec (hattr : FlagBits attr) :
    attr.signExtend 64 = attr.setWidth 64 ∧ (attr.setWidth 64 ||| PTE_V).toNat < 1024 ∧
    valid (attr.setWidth 64 ||| PTE_V) = true ∧ leaf (attr.setWidth 64 ||| PTE_V) = true := by
  have hlt : attr.toNat < 256 := by
    have hmask : attr &&& 0xFE = attr := by
      calc attr &&& 0xFE = (attr &&& 0xFE) ||| (attr &&& ~~~0xFE) := by rw [hattr.1]; simp
        _ = attr &&& (0xFE ||| ~~~0xFE) := and_or_distrib_left.symm
        _ = attr &&& BitVec.allOnes 32 := rfl
        _ = attr := and_allOnes
    have hle : (attr &&& 0xFE).toNat ≤ 0xFE := Nat.and_le_right
    rw [hmask] at hle
    omega
  -- There are 256 values left.
  have hall : ∀ n : Fin 256, FlagBits (BitVec.ofNat 32 n) →
      (BitVec.ofNat 32 n).signExtend 64 = (BitVec.ofNat 32 n).setWidth 64 ∧
      ((BitVec.ofNat 32 n).setWidth 64 ||| PTE_V).toNat < 1024 ∧
      valid ((BitVec.ofNat 32 n).setWidth 64 ||| PTE_V) = true ∧
      leaf ((BitVec.ofNat 32 n).setWidth 64 ||| PTE_V) = true := by
    decide +kernel
  have hn : BitVec.ofNat 32 attr.toNat = attr := by
    rw [ofNat_toNat, setWidth_eq]
  have := hall ⟨attr.toNat, hlt⟩
  rw [hn] at this
  exact this hattr

/-- A mask of the flags sees the ones asked for. -/
theorem mapEntry_and (hattr : FlagBits attr) (physicaladdr : Ulong64) {mask : Ulong64}
    (hmask : mask.toNat < 1024) : mapEntry physicaladdr attr &&& mask =
      (attr.setWidth 64 ||| PTE_V) &&& mask := by
  rw [mapEntry, (flagBits_spec hattr).1, BitVec.or_assoc, entry_and _ _ hmask]

/-- The entry maps the page with the flags asked for. -/
theorem mapEntry_spec (hattr : FlagBits attr) (p : Page) :
    mapEntry p attr = PA2PTE p ||| attr.setWidth 64 ||| PTE_V ∧
    leafEntry (mapEntry p attr) = some (0, mapEntry p attr) ∧ PTE2PA (mapEntry p attr) = p ∧
    mapEntry p attr &&& 0x3FF = attr.setWidth 64 ||| PTE_V := by
  obtain ⟨hext, hlt, hvalid, hleaf⟩ := flagBits_spec hattr
  have hentry : mapEntry p attr = PA2PTE p ||| (attr.setWidth 64 ||| PTE_V) := by
    rw [mapEntry, hext, BitVec.or_assoc]
  refine ⟨by rw [hentry, BitVec.or_assoc], ?_, by rw [hentry, PTE2PA_entry p hlt], ?_⟩
  · rw [leafEntry, hentry, valid_entry, leaf_entry, hvalid, hleaf]
    rfl
  · rw [mapEntry_and hattr p (by decide)]
    apply eq_of_toNat_eq
    rw [toNat_and]
    exact (Nat.and_two_pow_sub_one_eq_mod _ 10).trans (Nat.mod_eq_of_lt hlt)

/-- One page is mapped, or the free list is used up. -/
theorem mapOne_spec (ht : Table s l t) (addr physicaladdr : Ulong64) (attr : BitVec 32) :
    ∃ l', Updates t s l (s.mapOne t addr physicaladdr attr).2 l' ∧
      (((s.mapOne t addr physicaladdr attr).1 = .syserr ∧ l' = [] ∧
          ∀ w, (s.mapOne t addr physicaladdr attr).2.walk t w = s.walk t w) ∨
        ((s.mapOne t addr physicaladdr attr).1 = .ok ∧
          ∀ w, (s.mapOne t addr physicaladdr attr).2.walk t w =
            if SamePage w addr then leafEntry (mapEntry physicaladdr attr) else s.walk t w)) := by
  obtain ⟨new, l', hg, hr⟩ := traverse_spec addr 2 ht.free ht.nodup
  obtain ⟨ht', hwalk⟩ := ht.of_grown hg
  have hup : Updates t s l (s.traverse t addr 2).2 l' := ⟨ht', new, hg.used, hg.grows.extends⟩
  refine ⟨l', ?_⟩
  rcases hr with ⟨hr, hl'⟩ | ⟨x, hr, hx⟩
  · -- The tables that were made before the pages ran out stay, but they
    -- translate nothing.
    have hone : s.mapOne t addr physicaladdr attr = (.syserr, (s.traverse t addr 2).2) := by
      rw [mapOne, pgTraverseAndCreate, show s.traverse t addr 2 = (none, _) from Prod.ext hr rfl]
    rw [hone]
    exact ⟨hup, Or.inl ⟨rfl, hl', hwalk⟩⟩
  · have hone : s.mapOne t addr physicaladdr attr = (.ok, (s.traverse t addr 2).2.write
        (pteAddr x (PX 0 addr)) (mapEntry physicaladdr attr)) := by
      rw [mapOne, pgTraverseAndCreate,
        show s.traverse t addr 2 = (some x.1, (s.traverse t addr 2).2) from Prod.ext hr rfl]
      rfl
    obtain ⟨hup', hwalk'⟩ := ht'.of_write hx (mapEntry physicaladdr attr)
    rw [hone]
    refine ⟨hup.trans hup', Or.inr ⟨rfl, fun w => ?_⟩⟩
    rw [hwalk', hwalk]

/-! ### The loop of `mapAddress` -/

/-- The loop keeps the table, whatever its range. -/
theorem mapLoop_updates (ht : Table s l t) (rounds : Nat) (addr physicaladdr endaddr : Ulong64)
    (attr : BitVec 32) :
    ∃ l', Updates t s l (mapLoop t endaddr attr rounds s addr physicaladdr).2 l' := by
  induction rounds generalizing s l addr physicaladdr with
  | zero => exact ⟨l, .refl ht⟩
  | succ rounds ih =>
    rw [mapLoop]
    split
    · obtain ⟨l1, hup, hr⟩ := mapOne_spec ht addr physicaladdr attr
      split
      · rename_i s1 hone
        rw [hone] at hup
        exact ⟨l1, hup⟩
      · rename_i s1 hone
        rw [hone] at hup
        obtain ⟨l', hup'⟩ := ih hup.table (addr + PAGE_SIZE) (physicaladdr + PAGE_SIZE)
        exact ⟨l', hup.trans hup'⟩
    · exact ⟨l, .refl ht⟩

/-- A translation, changed to map `j` pages from `addr` on to pages from
`physicaladdr` on. -/
def mapped (addr physicaladdr : Ulong64) (attr : BitVec 32) (j : Nat)
    (walk : Ulong64 → Option (Nat × Ulong64)) (w : Ulong64) : Option (Nat × Ulong64) :=
  if addr.toNat ≤ w.toNat % 2 ^ 39 ∧ w.toNat % 2 ^ 39 < addr.toNat + j * 4096 then
    leafEntry (mapEntry
      (physicaladdr + BitVec.ofNat 64 ((w.toNat % 2 ^ 39 - addr.toNat) / 4096 * 4096)) attr)
  else walk w

theorem mapped_zero (walk : Ulong64 → Option (Nat × Ulong64)) :
    mapped addr physicaladdr attr 0 walk = walk := by
  funext w
  rw [mapped, if_neg (by omega)]

theorem samePage_iff_of_lt (haddr : addr.toNat % 4096 = 0) (hlt : addr.toNat < 2 ^ 39)
    (w : Ulong64) : SamePage w addr ↔
      addr.toNat ≤ w.toNat % 2 ^ 39 ∧ w.toNat % 2 ^ 39 < addr.toNat + 4096 := by
  rw [samePage_iff]
  omega

/-- The page at `addr` first, and then the others. -/
theorem mapped_succ (haddr : addr.toNat % 4096 = 0) (hlt : addr.toNat + 4096 ≤ 2 ^ 39) (j : Nat)
    (walk : Ulong64 → Option (Nat × Ulong64)) :
    mapped (addr + PAGE_SIZE) (physicaladdr + PAGE_SIZE) attr j (fun w =>
        if SamePage w addr then leafEntry (mapEntry physicaladdr attr) else walk w) =
      mapped addr physicaladdr attr (j + 1) walk := by
  have hnext : (addr + PAGE_SIZE).toNat = addr.toNat + 4096 := by
    rw [toNat_add, show PAGE_SIZE.toNat = 4096 from rfl]
    omega
  funext w
  simp only [mapped, hnext, samePage_iff_of_lt haddr (by omega : addr.toNat < 2 ^ 39)]
  by_cases hfirst : w.toNat % 2 ^ 39 < addr.toNat + 4096
  · rw [if_neg (by omega)]
    by_cases hlow : addr.toNat ≤ w.toNat % 2 ^ 39
    · have hoff : (w.toNat % 2 ^ 39 - addr.toNat) / 4096 * 4096 = 0 := by omega
      rw [if_pos ⟨hlow, hfirst⟩, if_pos ⟨hlow, by omega⟩, hoff]
      simp
    · rw [if_neg (by omega), if_neg (by omega)]
  · by_cases hhigh : w.toNat % 2 ^ 39 < addr.toNat + (j + 1) * 4096
    · rw [if_pos (by omega), if_pos (by omega), BitVec.add_assoc]
      have hoff : (w.toNat % 2 ^ 39 - addr.toNat) / 4096 * 4096 =
          4096 + (w.toNat % 2 ^ 39 - (addr.toNat + 4096)) / 4096 * 4096 := by omega
      rw [hoff, ofNat_add]
      rfl
    · rw [if_neg (by omega), if_neg (by omega), if_neg (by omega)]

/-- In a range below `2 ^ 39` the loop maps its pages in order, up to the
end or until the free list is used up. -/
theorem mapLoop_spec (ht : Table s l t) (rounds : Nat) (addr physicaladdr : Ulong64)
    (haddr : addr.toNat % 4096 = 0) (hend : addr.toNat + rounds * 4096 = endaddr.toNat)
    (hrange : endaddr.toNat ≤ 2 ^ 39) :
    ∃ j, ((mapLoop t endaddr attr rounds s addr physicaladdr).1 = .ok ∧ j = rounds ∨
        (mapLoop t endaddr attr rounds s addr physicaladdr).1 = .syserr ∧ j < rounds) ∧
      (mapLoop t endaddr attr rounds s addr physicaladdr).2.walk t =
        mapped addr physicaladdr attr j (s.walk t) := by
  induction rounds generalizing s l addr physicaladdr with
  | zero => exact ⟨0, Or.inl ⟨rfl, rfl⟩, (mapped_zero _).symm⟩
  | succ rounds ih =>
    have hlt : addr < endaddr := by
      rw [lt_def]
      omega
    -- The address does not wrap below `2 ^ 39`, so the loop sees each page once.
    have hnext : (addr + PAGE_SIZE).toNat = addr.toNat + 4096 := by
      rw [toNat_add, show PAGE_SIZE.toNat = 4096 from rfl]
      omega
    obtain ⟨l1, hup, hr⟩ := mapOne_spec ht addr physicaladdr attr
    rw [mapLoop, if_pos hlt]
    rcases hone : s.mapOne t addr physicaladdr attr with ⟨r, s1⟩
    rw [hone] at hup hr
    rcases hr with ⟨rfl, -, hwalk⟩ | ⟨rfl, hwalk⟩
    · refine ⟨0, Or.inr ⟨rfl, by omega⟩, ?_⟩
      rw [mapped_zero]
      exact funext hwalk
    · obtain ⟨j, hj, hwalk'⟩ := ih hup.table (addr + PAGE_SIZE) (physicaladdr + PAGE_SIZE)
        (by omega) (by omega)
      refine ⟨j + 1, ?_, ?_⟩
      · exact hj.imp (fun h => ⟨h.1, by omega⟩) (fun h => ⟨h.1, by omega⟩)
      · rw [hwalk', show s1.walk t = _ from funext hwalk, mapped_succ haddr (by omega)]

/-- More rounds than the range has pages change nothing. -/
theorem mapLoop_add (rounds n : Nat) (s : Pages) (addr physicaladdr : Ulong64)
    (haddr : addr.toNat % 4096 = 0) (hend : endaddr.toNat % 4096 = 0)
    (h : addr < endaddr → endaddr.toNat ≤ addr.toNat + rounds * 4096) :
    mapLoop t endaddr attr (rounds + n) s addr physicaladdr =
      mapLoop t endaddr attr rounds s addr physicaladdr := by
  induction rounds generalizing s addr physicaladdr with
  | zero =>
    have hge : ¬addr < endaddr := by
      intro hlt
      have hle := h hlt
      rw [lt_def] at hlt
      omega
    cases n with
    | zero => rfl
    | succ n => simp only [mapLoop, if_neg hge]
  | succ rounds ih =>
    rw [Nat.succ_add, mapLoop, mapLoop]
    split
    · rename_i hlt
      have hle := h hlt
      have := endaddr.isLt
      rw [lt_def] at hlt
      -- Both are multiples of the page size, so that the sum does not wrap.
      have hnext : (addr + PAGE_SIZE).toNat = (addr.toNat + 4096) % 2 ^ 64 := rfl
      split
      · rfl
      · refine ih _ (addr + PAGE_SIZE) (physicaladdr + PAGE_SIZE) (by omega) fun hlt' => ?_
        rw [lt_def, hnext] at hlt'
        omega
    · rfl

section MapAddress
variable (va physicaladdr length : Ulong64) (attr : BitVec 32)

/-- The number of rounds of `mapAddress`. -/
theorem rounds_eq : ((truncpage va + roundpage length - truncpage va) / PAGE_SIZE).toNat =
    (roundpage length).toNat / 4096 := by
  rw [BitVec.add_comm, BitVec.add_sub_cancel, toNat_udiv]
  rfl

/-- The loop of `mapAddress` ends before its bound. -/
theorem mapAddress_eq (s : Pages) (t : Page) (hlength : length ≠ 0)
    (n : Nat) : s.mapAddress t va physicaladdr length attr =
    mapLoop t (truncpage va + roundpage length) attr ((roundpage length).toNat / 4096 + n) s
      (truncpage va) physicaladdr := by
  have htrunc := toNat_truncpage va
  have hround := toNat_roundpage length
  have hend : (truncpage va + roundpage length).toNat =
      ((truncpage va).toNat + (roundpage length).toNat) % 2 ^ 64 := rfl
  rw [mapLoop_add _ n s _ physicaladdr (by omega) (by omega) (fun _ => by omega), mapAddress,
    if_neg hlength, ← rounds_eq va length]

theorem mapAddress_updates (ht : Table s l t) :
    ∃ l', Updates t s l (s.mapAddress t va physicaladdr length attr).2 l' := by
  by_cases hlength : length = 0
  · rw [mapAddress, if_pos hlength]
    exact ⟨l, .refl ht⟩
  · rw [mapAddress_eq va physicaladdr length attr s t hlength 0]
    exact mapLoop_updates ht _ _ _ _ _

/-- `mapAddress` maps its range, or a first part of it when the free
list is used up. -/
theorem mapAddress_spec (ht : Table s l t) (hlength : length ≠ 0)
    (hrange : (truncpage va).toNat + (roundpage length).toNat ≤ 2 ^ 39) :
    ∃ j, ((s.mapAddress t va physicaladdr length attr).1 = .ok ∧
          j = (roundpage length).toNat / 4096 ∨
        (s.mapAddress t va physicaladdr length attr).1 = .syserr ∧
          j < (roundpage length).toNat / 4096) ∧
      (s.mapAddress t va physicaladdr length attr).2.walk t =
        mapped (truncpage va) physicaladdr attr j (s.walk t) := by
  have htrunc := toNat_truncpage va
  have hround := toNat_roundpage length
  have hend : (truncpage va + roundpage length).toNat =
      ((truncpage va).toNat + (roundpage length).toNat) % 2 ^ 64 := rfl
  rw [mapAddress_eq va physicaladdr length attr s t hlength 0]
  exact mapLoop_spec ht _ _ physicaladdr (by omega) (by omega) (by omega)

end MapAddress

end Xinu.Pages
