import Xinu.Proofs.Memory.Boot
import Xinu.Proofs.Memory.Freemem
import Xinu.Proofs.Memory.Getmem

/-!
# `Xinu.Proofs.Memory.Invariant`: the free-list invariant of a heap

`FreeListInv` says of one core's free list, in terms of its words, that
it is sorted, aligned, inside its region and fully coalesced, and that
its total is right. `WellFormed` says it of every core, together with
the layout of the regions. It is the precondition under which a single
call of `getmem` or `freemem` is judged, whoever made the earlier calls.

The proofs work with `Lists`, which names the ranges that each list
spells (`wellFormed_iff`). A call changes one core's list and keeps
`Lists`: `Lists.getmem` replaces the list by `firstFit` of it,
`Lists.freemem` by `insertSpan` into it. Two heaps with the same ranges
have the same free lists, word for word (`Lists.same`).
-/

namespace Xinu.Heap

open Function Lib List BitVec

/-- A well-formed free list of core `c` with blocks at `ps`. -/
structure FreeListInv (h : Heap) (c : Core) (ps : List Ulong) : Prop where
  /-- The `next` words lead from the head through `ps` to `NULL`. -/
  chain : Chain h.next (h.freelist c).head ps NULL
  nonnull : NULL ∉ ps
  increasing : ps.Pairwise (· < ·)
  aligned : ∀ p ∈ ps, 8 ∣ p.toNat
  length_pos : ∀ p ∈ ps, 0 < (h.length p).toNat
  length_grid : ∀ p ∈ ps, 8 ∣ (h.length p).toNat
  /-- Blocks lie inside `[base, base + bound)`. -/
  inside : ∀ p ∈ ps, (h.freelist c).base.toNat ≤ p.toNat ∧
    p.toNat + (h.length p).toNat ≤ (h.freelist c).base.toNat + (h.freelist c).bound.toNat
  /-- A block ends strictly before the next one starts. -/
  apart : ps.Pairwise fun p q => p.toNat + (h.length p).toNat < q.toNat
  total : (h.freelist c).length.toNat = (ps.map fun p => (h.length p).toNat).sum

/-- The free-list invariant: the regions divide the heap, and each
core's free list is well formed. -/
structure WellFormed (h : Heap) : Prop where
  layout : h.Layout
  lists : ∀ c, ∃ ps, h.FreeListInv c ps

/-- The free lists of the heap spell the ranges `free`. -/
structure Lists (h : Heap) (free : Core → List Span) : Prop where
  layout : h.Layout
  rep : ∀ n, h.Rep n (free n)
  inside : ∀ n a, Covers (free n) a → (h.regionSpan n).Contains a
  total : ∀ n, (h.freelist n).length.toNat = Lib.total (free n)

section Lists
variable {h h' : Heap} {c n : Core} {ps : List Ulong} {free free' : Core → List Span}

/-! ### The two forms of the invariant -/

/-- The words of a well-formed list are the nodes of a free list. -/
theorem FreeListInv.nodes (hf : h.FreeListInv c ps) (hl : h.Layout) : h.Nodes c ps where
  chain := hf.chain
  blocks := by
    refine ⟨hf.aligned, hf.nonnull, hf.length_grid, fun p hp => ?_, ?_, ?_⟩
    · exact Nat.lt_of_le_of_lt (hf.inside p hp).2 (hl.stop_lt c)
    · exact forall_mem_map.mpr hf.length_pos
    · exact pairwise_map.mpr hf.apart

/-- The blocks of a free list in its region, with the right total, are a
well-formed list. -/
theorem Nodes.freeListInv (hn : h.Nodes c ps)
    (hin : ∀ a, Covers (ps.map h.span) a → (h.regionSpan c).Contains a)
    (htotal : (h.freelist c).length.toNat = Lib.total (ps.map h.span)) : h.FreeListInv c ps := by
  have hb := hn.blocks
  have hapart : ps.Pairwise fun p q => p.toNat + (h.length p).toNat < q.toNat :=
    pairwise_map.mp hb.sep.gap
  refine ⟨hn.chain, hb.nonnull, hapart.imp fun hlt => ?_, hb.aligned,
    fun p hp => hb.length_pos hp, hb.grid, fun p hp => ?_, hapart, ?_⟩
  · exact lt_def.mpr (by omega)
  · exact Span.within_of_contains (hb.length_pos hp) fun a ha =>
      hin a ⟨_, mem_map_of_mem hp, ha⟩
  · rw [htotal, Lib.total, map_map]
    rfl

/-- A single block is a well-formed list. -/
theorem freeListInv_singleton {p : Ulong} (hhead : (h.freelist c).head = p)
    (hnext : h.next p = NULL) (hnull : p ≠ NULL) (halign : 8 ∣ p.toNat)
    (hpos : 0 < (h.length p).toNat) (hgrid : 8 ∣ (h.length p).toNat)
    (hin : (h.freelist c).base.toNat ≤ p.toNat ∧
      p.toNat + (h.length p).toNat ≤ (h.freelist c).base.toNat + (h.freelist c).bound.toNat)
    (htotal : (h.freelist c).length = h.length p) : h.FreeListInv c [p] := by
  refine ⟨⟨hhead, hnext⟩, ?_, pairwise_singleton _ _, ?_, ?_, ?_, ?_,
    pairwise_singleton _ _, ?_⟩
  · simpa using hnull.symm
  · exact forall_mem_singleton.mpr halign
  · exact forall_mem_singleton.mpr hpos
  · exact forall_mem_singleton.mpr hgrid
  · exact forall_mem_singleton.mpr hin
  · rw [htotal]
    simp

/-- A heap has one list of blocks for each core. -/
theorem FreeListInv.unique {qs : List Ulong} (hp : h.FreeListInv c ps)
    (hq : h.FreeListInv c qs) : ps = qs :=
  hp.chain.unique hq.chain hp.nonnull hq.nonnull

theorem Lists.freeListInv (hf : h.Lists free) (c : Core) :
    ∃ ps, h.FreeListInv c ps ∧ ps.map h.span = free c := by
  obtain ⟨ps, hnodes, hps⟩ := hf.rep c
  refine ⟨ps, hnodes.freeListInv (fun a ha => ?_) ?_, hps⟩
  · exact hf.inside c a (hps ▸ ha)
  · rw [hps]
    exact hf.total c

/-- Whatever blocks a free list is made of, they spell its ranges. -/
theorem Lists.map_span (hf : h.Lists free) (hp : h.FreeListInv c ps) :
    ps.map h.span = free c := by
  obtain ⟨qs, hq, hspan⟩ := hf.freeListInv c
  rw [hp.unique hq, hspan]

theorem wellFormed_iff : h.WellFormed ↔ ∃ free, h.Lists free := by
  constructor
  · intro hw
    choose ps hps using hw.lists
    refine ⟨fun c => (ps c).map h.span, hw.layout, fun c => ⟨ps c, (hps c).nodes hw.layout, rfl⟩,
      fun c a ha => ?_, fun c => ?_⟩
    · obtain ⟨s, hs, hsa⟩ := ha
      obtain ⟨p, hp, rfl⟩ := mem_map.mp hs
      exact ⟨Nat.le_trans ((hps c).inside p hp).1 hsa.1,
        Nat.lt_of_lt_of_le hsa.2 ((hps c).inside p hp).2⟩
    · rw [(hps c).total, Lib.total, map_map]
      rfl
  · rintro ⟨free, hf⟩
    refine ⟨hf.layout, fun c => ?_⟩
    obtain ⟨ps, hps, -⟩ := hf.freeListInv c
    exact ⟨ps, hps⟩

theorem Lists.separated (hf : h.Lists free) (n : Core) : Separated (free n) := by
  obtain ⟨ps, hnodes, hps⟩ := hf.rep n
  exact hps ▸ hnodes.blocks.sep

theorem Lists.onGrid (hf : h.Lists free) (n : Core) : ∀ s ∈ free n, s.OnGrid 8 := by
  obtain ⟨ps, hnodes, hps⟩ := hf.rep n
  rw [← hps]
  exact forall_mem_map.mpr fun p hp => ⟨hnodes.blocks.aligned p hp, hnodes.blocks.grid p hp⟩

/-! ### Calls -/

/-- A call that touches only addresses of region `n` keeps the regions
and the free lists of all other cores. -/
theorem Lists.frame (hf : h.Lists free) {S : Nat → Prop} (ht : h.Touches h' n S)
    (hS : ∀ a, S a → (h.regionSpan n).Contains a) :
    h'.regionSpan = h.regionSpan ∧ h'.Layout ∧ ∀ m, m ≠ n → h'.Rep m (free m) := by
  have hspan : h'.regionSpan = h.regionSpan := by
    funext m
    by_cases hm : m = n
    · subst hm
      simp only [regionSpan, ht.base, ht.bound]
    · simp only [regionSpan, ht.others m hm]
  refine ⟨hspan, hf.layout.congr hspan ht.memheap ht.maxaddr, fun m hm => ?_⟩
  refine (hf.rep m).congr (by rw [ht.others m hm]) fun a ha => ht.mem a fun hSa => ?_
  exact hf.layout.disjoint m n hm _ (hf.inside m _ ha) (hS _ hSa)

/-- A call that touches only addresses of region `n` and leaves the
ranges `l` there. -/
theorem Lists.update (hf : h.Lists free) {S : Nat → Prop} (ht : h.Touches h' n S)
    (hS : ∀ a, S a → (h.regionSpan n).Contains a) {l : List Span} (hrep : h'.Rep n l)
    (hin : ∀ a, Covers l a → (h.regionSpan n).Contains a)
    (htotal : (h'.freelist n).length.toNat = Lib.total l) :
    h'.regionSpan = h.regionSpan ∧ h'.Lists (update free n l) := by
  obtain ⟨hspan, hlayout, hothers⟩ := hf.frame ht hS
  refine ⟨hspan, hlayout, fun m => ?_, fun m a ha => ?_, fun m => ?_⟩
  · by_cases hm : m = n
    · subst hm
      rwa [update_self]
    · rw [update_of_ne hm]
      exact hothers m hm
  · rw [hspan]
    by_cases hm : m = n
    · subst hm
      rw [update_self] at ha
      exact hin a ha
    · rw [update_of_ne hm] at ha
      exact hf.inside m a ha
  · by_cases hm : m = n
    · subst hm
      rwa [update_self]
    · rw [update_of_ne hm, ht.others m hm]
      exact hf.total m

/-- `getmem` returns. It finds that no block is long enough, or it takes
the front of the first block that is. -/
theorem Lists.getmem (hf : h.Lists free) (n : Core) {nbytes : Ulong} (h0 : nbytes ≠ 0)
    (hwrap : nbytes.toNat + 7 < 2 ^ 32) :
    (firstFit (roundmb nbytes).toNat (free n) = none ∧ h.getmem n nbytes = .ok (SYSERR, h)) ∨
    ∃ p l' h', firstFit (roundmb nbytes).toNat (free n) = some (p.toNat, l') ∧
      Aligned p ∧ p ≠ SYSERR ∧ h.getmem n nbytes = .ok (p, h') ∧
      h'.regionSpan = h.regionSpan ∧ h'.Lists (Function.update free n l') ∧
      (h'.freelist n).length = (h.freelist n).length - roundmb nbytes ∧
      h.Touches h' n (Covers (free n)) := by
  rcases getmem_spec (hf.rep n) h0 hwrap with
    hnone | ⟨p, l', h', hfit, hrun, hrep, hlen, ht⟩
  · exact Or.inl hnone
  · have hp : Aligned p := (onGrid_firstFit (hf.onGrid n) (aligned_roundmb nbytes) hfit).1
    -- `SYSERR` is not a multiple of eight, so no block is mistaken for it.
    have hne : p ≠ SYSERR := by
      rintro rfl
      exact absurd hp (by decide)
    have htotal : (h'.freelist n).length.toNat = Lib.total l' := by
      have htot := total_firstFit hfit
      have hle : roundmb nbytes ≤ (h.freelist n).length := by
        rw [le_def, hf.total n]
        omega
      rw [hlen, toNat_sub_of_le hle, hf.total n]
      omega
    obtain ⟨hspan, hlists⟩ := hf.update ht (hf.inside n) hrep
      (fun a ha => hf.inside n a ((covers_firstFit (hf.separated n) hfit).mp ha).1) htotal
    exact Or.inr ⟨p, l', h', hfit, hp, hne, hrun, hspan, hlists, hlen, ht⟩

/-- `freemem` of whole blocks of a region that are not free puts them
back on the list. -/
theorem Lists.freemem (hf : h.Lists free) {p nbytes : Ulong} (halign : Aligned p)
    (h0 : nbytes ≠ 0) (hwrap : nbytes.toNat + 7 < 2 ^ 32)
    (hin : (Span.mk p.toNat (roundmb nbytes).toNat).Within (h.regionSpan n).start
      (h.regionSpan n).stop)
    (hap : Apart ⟨p.toNat, (roundmb nbytes).toNat⟩ (free n)) :
    ∃ h', h.freemem p nbytes = .ok (.ok, h') ∧ h'.regionSpan = h.regionSpan ∧
      h'.Lists (Function.update free n
        (insertSpan ⟨p.toNat, (roundmb nbytes).toNat⟩ (free n))) ∧
      (h'.freelist n).length = (h.freelist n).length + roundmb nbytes ∧
      h.Touches h' n fun a => Covers (free n) a ∨
        (Span.mk p.toNat (roundmb nbytes).toNat).Contains a := by
  have hl := hf.layout
  have hpos : 0 < (Span.mk p.toNat (roundmb nbytes).toNat).len := toNat_roundmb_pos h0 hwrap
  have hfirst : (h.regionSpan n).Contains p.toNat := hin.contains (Span.contains_start hpos)
  have hlo := (hl.within n).1
  have hhi := (hl.within n).2
  have hcov : ∀ a, Covers (free n) a ∨ (Span.mk p.toNat (roundmb nbytes).toNat).Contains a →
      (h.regionSpan n).Contains a := fun a ha => ha.elim (hf.inside n a) hin.contains
  obtain ⟨h', hrun, hrep, hlen, ht⟩ := freemem_spec (hf.rep n) h0 hwrap (hl.region_eq hfirst)
    (le_def.mpr (Nat.le_trans hlo hfirst.1))
    (le_def.mpr (Nat.le_of_lt (Nat.lt_of_lt_of_le hfirst.2 hhi))) halign
    (by
      have hlow := hl.low
      have h1 := hfirst.1
      rintro rfl
      rw [toNat_NULL] at h1
      omega)
    (Nat.lt_of_le_of_lt hin.2 (hl.stop_lt n)) hap
  have hsep := separated_insertSpan (hf.separated n) hpos hap
  have hcov' : ∀ a, Covers (insertSpan ⟨p.toNat, (roundmb nbytes).toNat⟩ (free n)) a →
      (h.regionSpan n).Contains a := fun a ha => hcov a (covers_insertSpan.mp ha).symm
  -- The list stays inside the region, so its total does not wrap.
  have htotal : (h'.freelist n).length.toNat =
      Lib.total (insertSpan ⟨p.toNat, (roundmb nbytes).toNat⟩ (free n)) := by
    have hfits := hsep.total_le_len hcov'
    have hbound : (h.regionSpan n).len < 2 ^ 32 := (h.freelist n).bound.isLt
    rw [total_insertSpan] at hfits ⊢
    simp only at hfits ⊢
    rw [hlen, toNat_add, hf.total n, Nat.mod_eq_of_lt (by omega), Nat.add_comm]
  obtain ⟨hspan, hlists⟩ := hf.update ht hcov hrep hcov' htotal
  exact ⟨h', hrun, hspan, hlists, hlen, ht⟩

/-- A write outside the free blocks changes no free list. -/
theorem Lists.store (hf : h.Lists free) {a : Ulong} (ha : ∀ n, ¬ Covers (free n) a.toNat)
    (v : Ulong) : (h.store a v).Lists free :=
  { hf with
    layout := hf.layout.congr rfl rfl rfl
    rep := fun n => (hf.rep n).congr rfl fun x hx =>
      update_of_ne (by rintro rfl; exact ha n hx) _ _ }

/-- The address lies in a block of core `c`'s free list. -/
def FreeAt (h : Heap) (c : Core) (a : Nat) : Prop :=
  ∃ ps, h.FreeListInv c ps ∧ Covers (ps.map h.span) a

theorem Lists.freeAt_iff (hf : h.Lists free) {a : Nat} : h.FreeAt c a ↔ Covers (free c) a := by
  constructor
  · rintro ⟨ps, hps, ha⟩
    rwa [hf.map_span hps] at ha
  · intro ha
    obtain ⟨ps, hps, hspan⟩ := hf.freeListInv c
    exact ⟨ps, hps, hspan ▸ ha⟩

/-! ### Heaps with the same free lists -/

/-- Free lists that spell the same ranges have the same blocks. -/
theorem Rep.same {l : List Span} (hrep : h.Rep n l) (hrep' : h'.Rep n l) :
    ∃ ps, h.Nodes n ps ∧ h'.Nodes n ps ∧ ps.map h.span = l ∧ ps.map h'.span = l := by
  obtain ⟨ps, hnodes, hps⟩ := hrep
  obtain ⟨qs, hnodes', hqs⟩ := hrep'
  have hstarts : ps.map BitVec.toNat = qs.map BitVec.toNat := by
    have hmap := congrArg (List.map Span.start) (hps.trans hqs.symm)
    rw [map_map, map_map] at hmap
    exact hmap
  obtain rfl : ps = qs :=
    map_injective_iff.mpr (fun _ _ => eq_of_toNat_eq) hstarts
  exact ⟨ps, hnodes, hnodes', hps, hqs⟩

/-- The free lists of `h'` are those of `h`: the heads and totals, and
both words of every block. -/
def SameLists (h h' : Heap) : Prop :=
  h'.freelist = h.freelist ∧ ∀ c ps, h.FreeListInv c ps → h'.FreeListInv c ps ∧
    ∀ p ∈ ps, h'.next p = h.next p ∧ h'.length p = h.length p

/-- A heap is determined in its free lists by the regions and the ranges
that are free. -/
theorem Lists.same (hf : h.Lists free) (hf' : h'.Lists free)
    (hspan : h'.regionSpan = h.regionSpan) : h.SameLists h' := by
  refine ⟨funext fun n => ?_, fun c ps hps => ?_⟩
  · obtain ⟨ps, hnodes, hnodes', -, -⟩ := (hf.rep n).same (hf'.rep n)
    have hhead : (h'.freelist n).head = (h.freelist n).head := by
      cases ps with
      | nil => exact hnodes'.chain.trans hnodes.chain.symm
      | cons p ps => exact hnodes'.chain.1.trans hnodes.chain.1.symm
    have hlen : (h'.freelist n).length = (h.freelist n).length :=
      eq_of_toNat_eq ((hf'.total n).trans (hf.total n).symm)
    have hregion := congrFun hspan n
    simp only [regionSpan, Span.mk.injEq] at hregion
    generalize h.freelist n = m, h'.freelist n = m' at hhead hlen hregion
    cases m
    cases m'
    rw [Memhead.mk.injEq]
    exact ⟨hhead, hlen, eq_of_toNat_eq hregion.1, eq_of_toNat_eq hregion.2⟩
  · obtain ⟨qs, hnodes, hnodes', hspan1, hspan2⟩ := (hf.rep c).same (hf'.rep c)
    obtain rfl : ps = qs := hps.chain.unique hnodes.chain hps.nonnull hnodes.blocks.nonnull
    refine ⟨hnodes'.freeListInv (fun a ha => hf'.inside c a (hspan2 ▸ ha)) ?_, fun p hp => ⟨?_, ?_⟩⟩
    · rw [hspan2]
      exact hf'.total c
    · exact hnodes'.chain.next_eq hnodes.chain p hp
    · have heq := map_inj_left.mp (hspan2.trans hspan1.symm) p hp
      simp only [span, Span.mk.injEq] at heq
      exact eq_of_toNat_eq heq.2

end Lists

end Xinu.Heap
