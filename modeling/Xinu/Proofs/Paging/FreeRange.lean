import Xinu.Proofs.Paging.Isolation

/-!
# `Xinu.Proofs.Paging.FreeRange`: the pages that `pgfreerange` frees

`pgfreerange` goes through the pages of a range from the first whole one
on and frees each. `pgfreeLoop_spec` says what the loop leaves: its pages
come before those of the old free list, cleared apart from their links.

The bound of the loop is `pgstart + PAGE_SIZE < end`, not `<=`, so a page
that ends where the range ends is not among them. `pgfreerange_iff` has
this as the condition under which exactly the whole pages of the range are
freed. `booted_safeInit` applies the loop to the memory after the kernel:
the page allocator starts in a state of the kind that its runs start in.
-/

namespace Xinu

open Lib Pages List

namespace Pages

variable {s s' : Pages} {l front front' : List Page} {p : Page} {P : Page → Prop}
  {memheap maxaddr start end_ : Ulong64}

/-! ### Lists of free pages -/

theorem freeList_nil (h : s.pgfreelist = 0) : FreeList s [] := by
  refine ⟨h, ?_⟩
  intro p hp
  cases hp

theorem FreeList.zero_notMem (hl : FreeList s l) : (0 : Ulong64) ∉ l.map Subtype.val := by
  intro h
  obtain ⟨p, hp, hzero⟩ := mem_map.mp h
  exact hl.ne_zero p hp hzero

theorem FreeList.nodup (hl : FreeList s l) : l.Nodup :=
  (Chain.nodup hl.chain hl.zero_notMem).of_map

theorem FreeList.unique {l' : List Page} (hl : FreeList s l) (hl' : FreeList s l') : l = l' :=
  map_injective_iff.mpr Subtype.val_injective
    (Chain.unique hl.chain hl'.chain hl.zero_notMem hl'.zero_notMem)

/-- The free list is the old one, with the pages that have `P` before it:
each once, and zero apart from its link. -/
structure Freed (P : Page → Prop) (l : List Page) (s' : Pages) (front : List Page) : Prop where
  free : FreeList s' (front ++ l)
  nodup : front.Nodup
  mem_iff : ∀ p, p ∈ front ↔ P p
  clear : ∀ p ∈ front, ∀ i, i ≠ 0 → s'.heap p i = 0

/-- Such pages are not null, and they were not free before. -/
theorem Freed.fresh (h : Freed P l s' front) (hp : P p) : p.1 ≠ 0 ∧ p ∉ l := by
  have hmem := (h.mem_iff p).mpr hp
  refine ⟨h.free.ne_zero p (mem_append_left _ hmem), fun hl => ?_⟩
  exact (nodup_append.mp h.free.nodup).2.2 p hmem p hl rfl

/-! ### The loop -/

theorem add_PAGE_SIZE_aligned (p : Page) : (p.1 + PAGE_SIZE).toNat % 4096 = 0 := by
  have hsize : PAGE_SIZE.toNat = 4096 := rfl
  have := p.2
  rw [BitVec.toNat_add, hsize]
  omega

/-- The page after `p`. -/
def nextPage (p : Page) : Page := ⟨p.1 + PAGE_SIZE, add_PAGE_SIZE_aligned p⟩

theorem toNat_nextPage (h : p.1.toNat + 4096 < 2 ^ 64) :
    (nextPage p).1.toNat = p.1.toNat + 4096 := by
  have hsize : PAGE_SIZE.toNat = 4096 := rfl
  rw [nextPage, BitVec.toNat_add, hsize, Nat.mod_eq_of_lt h]

/-- The page lies before `end`, and not up to it. -/
def Below (end_ : Ulong64) (p : Page) : Prop := p.1.toNat + 4096 < end_.toNat

/-- The loop frees the pages from `p` on that lie before `end`. The
induction is on the bound of the rounds, and each round puts its page
before the list that the rest of the loop then extends. -/
theorem pgfreeLoop_spec (hwrap : end_.toNat + 4096 ≤ 2 ^ 64) (rounds : Nat) :
    ∀ {s : Pages} {l : List Page} {p : Page}, FreeList s l → p.1.toNat + 4096 < 2 ^ 64 →
      0 < rounds → end_.toNat / 4096 < rounds + p.1.toNat / 4096 →
      (∀ q : Page, p.1.toNat ≤ q.1.toNat → Below end_ q → q.1 ≠ 0 ∧ q ∉ l) →
      ∃ s' front, pgfreeLoop end_ rounds s p.1 = .ok (.ok, s') ∧
        Freed (fun q => p.1.toNat ≤ q.1.toNat ∧ Below end_ q) l s' front ∧
        ∀ q ∉ front, s'.heap q = s.heap q := by
  induction rounds with
  | zero =>
    intro s l p hl hp hpos
    omega
  | succ rounds ih =>
    intro s l p hl hp _ hrounds hfresh
    have hnext := toNat_nextPage hp
    by_cases hcond : p.1 + PAGE_SIZE < end_
    · have hbelow : (nextPage p).1.toNat < end_.toNat := hcond
      rw [hnext] at hbelow
      obtain ⟨hnull, hnotMem⟩ := hfresh p le_rfl hbelow
      obtain ⟨s1, hfree, hl1, hclear, hother⟩ := pgfree_spec hl hnotMem hnull
      -- The page is on the list now, and the pages still to come are others.
      obtain ⟨s', front, hloop, hfreed, hkept⟩ := ih (p := nextPage p) hl1 (by omega) (by omega)
        (by omega) (by
          intro q hq hqb
          obtain ⟨hq0, hql⟩ := hfresh q (by omega) hqb
          refine ⟨hq0, not_mem_cons_of_ne_of_not_mem ?_ hql⟩
          rintro rfl
          omega)
      have hp' : p ∉ front := by
        intro h
        have := ((hfreed.mem_iff p).mp h).1
        omega
      refine ⟨s', front ++ [p], ?_, ?_, ?_⟩
      · rw [pgfreeLoop, if_pos hcond, hfree]
        exact hloop
      · have hlist : FreeList s' ((front ++ [p]) ++ l) := by
          rw [List.append_assoc]
          exact hfreed.free
        refine ⟨hlist, hlist.nodup.of_append_left, ?_, ?_⟩
        · intro q
          rw [mem_append, mem_singleton, hfreed.mem_iff q]
          constructor
          · rintro (⟨hq, hqb⟩ | rfl)
            · exact ⟨by omega, hqb⟩
            · exact ⟨le_rfl, hbelow⟩
          · rintro ⟨hq, hqb⟩
            by_cases heq : q = p
            · exact Or.inr heq
            · -- Another page from `p` on is one from the next page on.
              have hne : q.1.toNat ≠ p.1.toNat := fun h =>
                heq (Subtype.ext (BitVec.eq_of_toNat_eq h))
              have hqa := q.2
              have hpa := p.2
              exact Or.inl ⟨by omega, hqb⟩
        · intro q hq i hi
          rcases mem_append.mp hq with hq | hq
          · exact hfreed.clear q hq i hi
          · rw [mem_singleton.mp hq, hkept p hp', hclear i hi]
      · intro q hq
        rw [mem_append, mem_singleton, not_or] at hq
        rw [hkept q hq.1, hother q hq.2]
    · refine ⟨s, [], ?_, ⟨hl, nodup_nil, ?_, ?_⟩, fun q _ => rfl⟩
      · rw [pgfreeLoop, if_neg hcond]
      · intro q
        have hend : ¬(nextPage p).1.toNat < end_.toNat := hcond
        simp only [not_mem_nil, false_iff, not_and, Below]
        omega
      · intro q hq
        cases hq

/-! ### The range -/

/-- The page is a whole page of the range. -/
def InRange (start end_ : Ulong64) (p : Page) : Prop :=
  start ≤ p.1 ∧ p.1.toNat + PAGE_SIZE.toNat ≤ end_.toNat

/-- The pages that `pgfreerange` frees are those that lie in the range and
do not end where it ends. -/
theorem pgfreerange_spec (hl : FreeList s l) (hmem : memheap ≤ start) (hle : start ≤ end_)
    (hmax : end_ ≤ maxaddr) (hfirst : start.toNat + 2 * PAGE_SIZE.toNat ≤ 2 ^ 64)
    (hwrap : end_.toNat + PAGE_SIZE.toNat ≤ 2 ^ 64)
    (hfresh : ∀ p, InRange start end_ p → p.1 ≠ 0 ∧ p ∉ l) :
    ∃ s' front, s.pgfreerange memheap maxaddr start end_ = .ok (.ok, s') ∧
      Freed (fun p => InRange start end_ p ∧ p.1 + PAGE_SIZE ≠ end_) l s' front := by
  have hsize : PAGE_SIZE.toNat = 4096 := rfl
  rw [hsize] at hfirst hwrap
  have hstart : start.toNat ≤ end_.toNat := hle
  have hround := toNat_roundpage start
  -- The first page is the first one that is not before `start`.
  have hiff : ∀ p : Page, (roundpage start).toNat ≤ p.1.toNat ∧ Below end_ p ↔
      InRange start end_ p ∧ p.1 + PAGE_SIZE ≠ end_ := by
    intro p
    have hp := p.2
    have hend : p.1 + PAGE_SIZE = end_ ↔ (p.1.toNat + 4096) % 2 ^ 64 = end_.toNat := by
      rw [← BitVec.toNat_inj, BitVec.toNat_add, hsize]
    rw [Ne, hend, InRange, Below, BitVec.le_def, hsize]
    have := p.1.isLt
    omega
  obtain ⟨s', front, hloop, hfreed, -⟩ := pgfreeLoop_spec hwrap ((end_ / PAGE_SIZE).toNat + 1)
    (p := ⟨roundpage start, by omega⟩) hl (by show (roundpage start).toNat + _ < _; omega)
    (Nat.succ_pos _)
    (by
      show _ < _ + (roundpage start).toNat / 4096
      rw [BitVec.toNat_udiv, hsize]
      omega)
    (fun q hq hb => hfresh q ((hiff q).mp ⟨hq, hb⟩).1)
  refine ⟨s', front, ?_, hfreed.free, hfreed.nodup, ?_, hfreed.clear⟩
  · have hguard : ¬(end_ > maxaddr ∨ start < memheap ∨ end_ < start) := by
      rintro (h | h | h)
      · exact absurd hmax (BitVec.not_le.mpr h)
      · exact absurd hmem (BitVec.not_le.mpr h)
      · exact absurd hle (BitVec.not_le.mpr h)
    rw [pgfreerange, if_neg hguard]
    exact hloop
  · intro p
    rw [hfreed.mem_iff p]
    exact hiff p

end Pages

/-- `pgfreerange` returns `OK` with exactly the whole pages of the range
put before the old free list if and only if no whole page of the range
ends where the range ends, is the page at address 0, or is free already.
The last two hypotheses say that the addresses it compares with `end` do
not wrap around. -/
theorem pgfreerange_iff {s : Pages} {l : List Page} (hl : FreeList s l)
    {memheap maxaddr start end_ : Ulong64} (hmem : memheap ≤ start) (hle : start ≤ end_)
    (hmax : end_ ≤ maxaddr) (hfirst : start.toNat + 2 * PAGE_SIZE.toNat ≤ 2 ^ 64)
    (hwrap : end_.toNat + PAGE_SIZE.toNat ≤ 2 ^ 64) :
    (∃ s' front, s.pgfreerange memheap maxaddr start end_ = .ok (.ok, s') ∧
      Freed (InRange start end_) l s' front) ↔
    ∀ p, InRange start end_ p → p.1 + PAGE_SIZE ≠ end_ ∧ p.1 ≠ 0 ∧ p ∉ l := by
  constructor
  · rintro ⟨s', front, hrun, hfreed⟩ p hp
    -- The pages freed are known, and a list has only one reading.
    obtain ⟨s1, front1, hrun1, hfreed1⟩ := pgfreerange_spec hl hmem hle hmax hfirst hwrap
      fun q hq => hfreed.fresh hq
    -- Both runs are the same one, so both lists are the free list of one
    -- state.
    have hstate := (ok_pair (hrun.symm.trans hrun1)).2
    subst hstate
    have hfront : front = front1 := append_cancel_right (hfreed.free.unique hfreed1.free)
    have hmem := (hfreed.mem_iff p).mpr hp
    rw [hfront, hfreed1.mem_iff p] at hmem
    exact ⟨hmem.2, hfreed.fresh hp⟩
  · intro h
    obtain ⟨s', front, hrun, hfreed⟩ := pgfreerange_spec hl hmem hle hmax hfirst hwrap
      fun q hq => (h q hq).2
    refine ⟨s', front, hrun, hfreed.free, hfreed.nodup, ?_, hfreed.clear⟩
    intro p
    rw [hfreed.mem_iff p]
    exact ⟨And.left, fun hp => ⟨hp, (h p hp).1⟩⟩

/-- A range that ends inside a page. -/
theorem pgfreerange_unaligned : ∃ s' front,
    (⟨fun _ => 0, 0⟩ : Pages).pgfreerange 0x1000 0x9000 0x1800 0x3800 = .ok (.ok, s') ∧
    Freed (InRange 0x1800 0x3800) [] s' front := by
  refine (pgfreerange_iff (freeList_nil rfl) (by decide) (by decide) (by decide) (by decide)
    (by decide)).mpr ?_
  rintro p ⟨hstart, hend⟩
  have hsize : PAGE_SIZE.toNat = 4096 := rfl
  refine ⟨?_, ?_, not_mem_nil⟩
  · intro h
    have hnat := congrArg BitVec.toNat h
    have hp := p.2
    have hend' : p.1.toNat + 4096 ≤ 0x3800 := hend
    have hval : (0x3800 : Ulong64).toNat = 0x3800 := rfl
    rw [BitVec.toNat_add, hsize, hval] at hnat
    omega
  · intro h
    rw [h] at hstart
    exact absurd hstart (by decide)

/-- A range of one page: nothing is freed. -/
theorem pgfreerange_one_page :
    (⟨fun _ => 0, 0⟩ : Pages).pgfreerange 0x1000 0x9000 0x1000 0x2000 =
      .ok (.ok, ⟨fun _ => 0, 0⟩) ∧
    FreeList ⟨fun _ => 0, 0⟩ [] ∧ InRange 0x1000 0x2000 ⟨0x1000, by decide⟩ :=
  ⟨rfl, freeList_nil rfl, by decide, by decide⟩

/-! ### The start of the allocator -/

/-- `safeInit` makes the free list from the memory after the kernel: it has
the whole pages between `memheap` and `maxaddr`, but for one that ends at
`maxaddr`, each once. The runs of the page allocator start from here. -/
theorem booted_safeInit {s : Pages} {memheap maxaddr : Ulong64} (hnull : s.pgfreelist = 0)
    (hmem : memheap ≠ 0) (hfirst : memheap.toNat + 2 * PAGE_SIZE.toNat ≤ 2 ^ 64)
    (hwrap : maxaddr.toNat + PAGE_SIZE.toNat ≤ 2 ^ 64) :
    ∃ s' free, s.safeInit memheap maxaddr = .ok s' ∧ PageSys.Booted ⟨s', []⟩ ∧
      Freed (fun p => InRange memheap maxaddr p ∧ p.1 + PAGE_SIZE ≠ maxaddr) [] s' free := by
  by_cases hle : memheap ≤ maxaddr
  · have hzero : ∀ p, InRange memheap maxaddr p → p.1 ≠ 0 ∧ p ∉ ([] : List Page) := by
      intro p hp
      refine ⟨fun h => hmem ?_, not_mem_nil⟩
      have hle : memheap ≤ 0 := h ▸ hp.1
      exact BitVec.le_zero_iff.mp hle
    obtain ⟨s', free, hrun, hfreed⟩ := pgfreerange_spec (s := s) (l := []) (freeList_nil hnull)
      (BitVec.le_refl _) hle (BitVec.le_refl _) hfirst hwrap hzero
    have hlist : FreeList s' free := append_nil free ▸ hfreed.free
    refine ⟨s', free, by rw [safeInit, hrun]; rfl, ⟨rfl, free.map Subtype.val, hlist.chain,
      Chain.nodup hlist.chain hlist.zero_notMem, ?_⟩, hfreed⟩
    intro a ha
    obtain ⟨p, hp, rfl⟩ := mem_map.mp ha
    exact ⟨hlist.ne_zero p hp, mod_page p⟩
  · have hguard : s.pgfreerange memheap maxaddr memheap maxaddr = .ok (.syserr, s) := by
      rw [pgfreerange, if_pos (Or.inr (Or.inr (BitVec.not_le.mp hle)))]
    refine ⟨s, [], by rw [safeInit, hguard]; rfl, ⟨rfl, [], hnull, nodup_nil, nofun⟩,
      freeList_nil hnull, nodup_nil, fun p => ⟨nofun, fun ⟨hp, _⟩ => absurd ?_ hle⟩, nofun⟩
    -- A page between the two would order them.
    have hlow : memheap.toNat ≤ p.1.toNat := hp.1
    have hhigh := hp.2
    exact BitVec.le_def.mpr (by omega)

/-- On the board, with an end on a page boundary: the last page is not on
the list. -/
theorem booted_safeInit_board :
    ∃ s' free, (⟨fun _ => 0, 0⟩ : Pages).safeInit 0x80200000 0x88000000 = .ok s' ∧
      PageSys.Booted ⟨s', []⟩ ∧ ⟨0x80200000, by decide⟩ ∈ free ∧ ⟨0x87FFE000, by decide⟩ ∈ free ∧
      ⟨0x87FFF000, by decide⟩ ∉ free ∧ FreeList s' free := by
  obtain ⟨s', free, hrun, hboot, hfreed⟩ := @booted_safeInit ⟨fun _ => 0, 0⟩ 0x80200000 0x88000000
    rfl (by decide) (by decide) (by decide)
  refine ⟨s', free, hrun, hboot, (hfreed.mem_iff _).mpr ⟨⟨by decide, by decide⟩, by decide⟩,
    (hfreed.mem_iff _).mpr ⟨⟨by decide, by decide⟩, by decide⟩, fun h => ?_, ?_⟩
  · exact ((hfreed.mem_iff _).mp h).2 (by decide)
  · exact append_nil free ▸ hfreed.free

end Xinu
