import Xinu.Proofs.Memory.Run

/-!
# `Xinu.Proofs.Memory.Calls`: what one call does to a well-formed heap

`Proofs/Memory/Run.lean` follows runs in which every block is given back
as it was taken. Here the caller may be wrong, and the heap is any
well-formed one.

* `freemem_eq_syserr_of_overlap`: a range that meets a free block is
  refused. Only the two neighbours are tested, and by the order of the
  list that is enough.
* `freemem_safe_iff`: the calls after which the heap is as it should be,
  exactly. `freemem` tests neither the alignment of the address nor the
  end of the range, and an address between the last region and `maxaddr`
  leaves its region search without a result (`freemem_escapes`).
* `getmem_freemem`: `getmem` is first fit, and `freemem` undoes it.
* `freemem_comm_of_reachable`: the order of two frees does not matter.
-/

namespace Xinu.Heap

open Lib Function List

section Checks
variable {h : Heap} {n : Core} {p nbytes : Ulong}

/-- A range that meets a block of the free list is refused, and nothing
changes. -/
theorem freemem_eq_syserr_of_overlap (hw : h.WellFormed)
    (hp : (h.regionSpan n).Contains p.toNat)
    (hwrap : p.toNat + (roundmb nbytes).toNat < 2 ^ 32) {ps : List Ulong}
    (hps : h.FreeListInv n ps) {q : Ulong} (hq : q ∈ ps) {a : Nat}
    (ha : (Span.mk p.toNat (roundmb nbytes).toNat).Contains a) (hqa : (h.span q).Contains a) :
    h.freemem p nbytes = .ok (.syserr, h) :=
  freemem_overlap ⟨ps, hps.nodes hw.layout, rfl⟩ (hw.layout.region_eq hp) hwrap
    (mem_map_of_mem hq) (Nat.lt_of_le_of_lt ha.1 hqa.2) (Nat.lt_of_le_of_lt hqa.1 ha.2)

/-- An aligned range that lies in one region is refused, or it is put on
the free list of that region. -/
theorem freemem_inside (hw : h.WellFormed) (halign : Aligned p) (h0 : nbytes ≠ 0)
    (hwrap : nbytes.toNat + 7 < 2 ^ 32)
    (hin : (Span.mk p.toNat (roundmb nbytes).toNat).Within (h.regionSpan n).start
      (h.regionSpan n).stop) :
    h.freemem p nbytes = .ok (.syserr, h) ∨
    ∃ h', h.freemem p nbytes = .ok (.ok, h') ∧ h'.WellFormed := by
  obtain ⟨free, hf⟩ := wellFormed_iff.mp hw
  by_cases hap : Apart ⟨p.toNat, (roundmb nbytes).toNat⟩ (free n)
  · obtain ⟨h', hrun, -, hlists, -⟩ := hf.freemem halign h0 hwrap hin hap
    exact Or.inr ⟨h', hrun, wellFormed_iff.mpr ⟨_, hlists⟩⟩
  · -- Some free block reaches over an end of the range.
    left
    simp only [Apart, not_forall, not_or, Nat.not_le] at hap
    obtain ⟨s, hs, hlow, hhigh⟩ := hap
    exact freemem_overlap (hf.rep n) (hf.layout.region_eq (hin.contains
      (Span.contains_start (toNat_roundmb_pos h0 hwrap))))
      (Nat.lt_of_le_of_lt hin.2 (hf.layout.stop_lt n)) hs hlow hhigh

/-- A size that is rounded to zero changes nothing at the end of a free
block. -/
theorem freemem_of_wrap {ps : List Ulong} (hw : h.WellFormed) (hps : h.FreeListInv n ps)
    (hp : (h.regionSpan n).Contains p.toNat) (hwrap : 2 ^ 32 ≤ nbytes.toNat + 7) {q : Ulong}
    (hq : q ∈ ps) (htouch : q.toNat + (h.length q).toNat = p.toNat) :
    h.freemem p nbytes = .ok (.syserr, h) ∨ h.freemem p nbytes = .ok (.ok, h) := by
  by_cases hguard : nbytes = 0 ∨ p < h.memheap ∨ p > h.maxaddr
  · exact Or.inl (by rw [freemem, if_pos hguard])
  · have hnodes := hps.nodes hw.layout
    obtain ⟨ps, qs, rfl, hlo, hhi, hrun⟩ :=
      freemem_split hnodes hguard (hw.layout.region_eq hp)
    have hb := hnodes.blocks
    have hpos := hb.length_pos hq
    have hq : q ∈ ps := (mem_append.mp hq).resolve_right fun hm => by
      have := hhi q hm
      omega
    obtain ⟨ps, r, rfl⟩ := (eq_nil_or_concat ps).resolve_left (ne_nil_of_mem hq)
    rw [concat_eq_append] at hq hlo hrun hb
    -- Only the last block below the address can end there.
    obtain rfl : q = r := by
      refine (mem_append.mp hq).elim (fun hm => ?_) mem_singleton.mp
      rw [List.append_assoc] at hb
      have := hb.lt_of_append hm (q := r) (by simp)
      have := hlo r (by simp)
      omega
    have htop : q + h.length q = p := BitVec.eq_of_toNat_eq
      ((hb.block (p := q) (by simp)).toNat_add_length.trans htouch)
    have hround : roundmb nbytes = 0 := BitVec.eq_of_toNat_eq (toNat_roundmb_of_wrap hwrap)
    rw [hrun, prevPtr_concat, hround, freememInsert]
    split
    · exact Or.inl rfl
    · right
      have hgrow : (h.setTotal n ((h.freelist n).length + 0)).growBlock q 0 = h := by
        simp [growBlock, setTotal, setHead, store, Heap.length]
      -- The block after it starts further on.
      have hnext : q + h.length q ≠ qs.headD NULL := fun heq => by
        cases qs with
        | nil =>
          rw [heq] at htop
          have := hw.layout.low
          have := (hw.layout.within n).1
          have := hp.1
          simp [← htop] at this
          omega
        | cons r qs =>
          have hgap := hb.lt_of_append (p := q) (q := r) (by simp) (by simp)
          have := congrArg BitVec.toNat (htop.symm.trans heq)
          simp only [headD_cons] at this
          omega
      simp only [top, if_pos htop, hgrow, coalesce, if_neg hnext]

/-- What `freemem` promises: a range is refused and nothing changes, or
it lies in one region and the free lists stay well formed. -/
def FreememSafe (h : Heap) (p nbytes : Ulong) : Prop :=
  h.freemem p nbytes = .ok (.syserr, h) ∨
  ∃ h', h.freemem p nbytes = .ok (.ok, h') ∧ h'.WellFormed ∧
    ∃ n, (Span.mk p.toNat (roundmb nbytes).toNat).Within
      (h.freelist n).base.toNat ((h.freelist n).base.toNat + (h.freelist n).bound.toNat)

/-- **What `freemem` accepts.** It keeps its promise exactly for the
ranges that it refuses, which are those outside the heap and those that
meet a free block, and for aligned ranges in one region whose size is
not rounded to zero or that start at the end of a free block. -/
theorem freemem_safe_iff (hw : h.WellFormed) (p nbytes : Ulong) :
    h.FreememSafe p nbytes ↔ (nbytes = 0 ∨ p < h.memheap ∨ p > h.maxaddr) ∨
      ∃ n ps, (h.regionSpan n).Contains p.toNat ∧ h.FreeListInv n ps ∧
        (h.Meets ps p (roundmb nbytes) ∨
          Aligned p ∧ p.toNat + (roundmb nbytes).toNat ≤ (h.regionSpan n).stop ∧
            (nbytes.toNat + 7 < 2 ^ 32 ∨ ∃ q ∈ ps, q.toNat + (h.length q).toNat = p.toNat)) := by
  have hl := hw.layout
  constructor
  · intro hsafe
    by_cases hguard : nbytes = 0 ∨ p < h.memheap ∨ p > h.maxaddr
    · exact Or.inl hguard
    right
    cases hregion : h.region p with
    | none =>
      have hrun : h.freemem p nbytes = .error .outOfBounds := by
        rw [freemem, if_neg hguard, hregion]
      rcases hsafe with hret | ⟨h', hret, -⟩ <;> cases hrun.symm.trans hret
    | some n =>
      have hfound := find?_some hregion
      have hp := (hl.region_test n p).mp hfound
      obtain ⟨rs, hps⟩ := hw.lists n
      refine ⟨n, rs, hp, hps, or_iff_not_imp_left.mpr fun hmeets => ?_⟩
      have hnodes := hps.nodes hl
      obtain ⟨ps, qs, rfl, hlo, hhi, hrun⟩ := freemem_split hnodes hguard hregion
      have hb := hnodes.blocks
      rw [meets_iff hb hlo hhi] at hmeets
      rw [freememInsert, if_neg hmeets] at hrun
      obtain ⟨h', hret, hw', m, hin⟩ : ∃ h', h.freemem p nbytes = .ok (.ok, h') ∧ _ :=
        hsafe.resolve_left fun hret => by
          rw [hrun] at hret
          split at hret
          · split at hret <;> cases hret
          · cases hret
      have hstop : p.toNat + (roundmb nbytes).toNat ≤ (h.regionSpan n).stop := by
        by_cases hzero : (roundmb nbytes).toNat = 0
        · rw [hzero]
          exact Nat.le_of_lt hp.2
        · -- The range starts in one region only.
          have hm : m = n := by
            by_contra hne
            exact hl.disjoint m n hne _ (hin.contains
              (Span.contains_start (Nat.pos_of_ne_zero hzero))) hp
          exact hm ▸ hin.2
      rw [hrun] at hret
      split at hret
      · -- The block before grows, and it ends on the grid.
        rename_i htop
        rcases eq_nil_or_concat ps with rfl | ⟨ps, q, rfl⟩
        · cases hret
        · rw [concat_eq_append] at htop hb ⊢
          rw [prevPtr_concat] at htop
          have hq := hb.block (p := q) (by simp)
          have hend := (congrArg BitVec.toNat htop).symm.trans hq.toNat_add_length
          have halign : 8 ∣ p.toNat := hend ▸ Nat.dvd_add hq.aligned hq.grid
          exact ⟨halign, hstop, Or.inr ⟨q, by simp, hend.symm⟩⟩
      · -- The new list goes through `p`, so it is a block like the others.
        cases hret
        obtain ⟨z, hc, -⟩ := chain_append.mp hnodes.chain
        have hgrid := hl.grid n
        have hlt := hl.stop_lt n
        have hp' := hp
        have hnull : p ≠ NULL := by
          rintro rfl
          have := hl.low
          have := (hl.within n).1.trans hp.1
          rw [toNat_NULL] at this
          omega
        obtain ⟨hchain, hlen⟩ := chain_linkBlock (qs.headD NULL) (roundmb nbytes)
          (h := h.setTotal n ((h.freelist n).length + roundmb nbytes)) (n := n) (by simpa using hc)
          hb.of_append_left.nodup hlo
          (by simp only [Span.OnGrid, Span.Contains, Span.stop] at *; omega)
        obtain ⟨ps', hps'⟩ := hw'.lists n
        have hmem := hchain.mem_of_chain hnull hps'.chain hb.of_append_left.nonnull
        refine ⟨hps'.aligned p hmem, hstop, Or.inl (Nat.lt_of_not_le fun hwrap => ?_)⟩
        have hpos := hps'.length_pos p hmem
        rw [hlen (BitVec.eq_of_toNat_eq (toNat_roundmb_of_wrap hwrap))] at hpos
        exact absurd hpos (by decide)
  · rintro (hguard | ⟨n, ps, hp, hps, hmeets | ⟨halign, hstop, hsize⟩⟩)
    · exact Or.inl (by rw [freemem, if_pos hguard])
    · exact Or.inl (freemem_of_meets (hps.nodes hl) (hl.region_eq hp) hmeets)
    · have hin : (Span.mk p.toNat (roundmb nbytes).toNat).Within (h.regionSpan n).start
          (h.regionSpan n).stop := ⟨hp.1, hstop⟩
      by_cases h0 : nbytes = 0
      · exact Or.inl (by rw [freemem, if_pos (Or.inl h0)])
      by_cases hwrap : nbytes.toNat + 7 < 2 ^ 32
      · rcases freemem_inside hw halign h0 hwrap hin with hret | ⟨h', hrun, hw'⟩
        · exact Or.inl hret
        · exact Or.inr ⟨h', hrun, hw', n, hin⟩
      · obtain ⟨q, hq, htouch⟩ := hsize.resolve_left hwrap
        exact (freemem_of_wrap hw hps hp (Nat.not_lt.mp hwrap) hq htouch).imp_right
          fun hrun => ⟨h, hrun, hw, n, hin⟩

end Checks

/-! ### Wrong calls on the board's heap -/

/-- The heap of the board at boot. -/
def board : Heap := sysinit 0x48000 0x3EFFFFFC fun _ => 0

theorem board_wellFormed : board.WellFormed := by
  have hinv := heapInv_sysinit (by decide : BootHeap 0x48000 0x3EFFFFFC) fun _ => 0
  exact wellFormed_iff.mpr ⟨_, hinv.lists⟩

/-- The board's heap after core 0 has taken its whole region. -/
def boardTaken : Heap := board.takeWhole 0 .list 0x48000 0x0FBEDFF8

theorem boardTaken_wellFormed : boardTaken.WellFormed := by
  have hinv := heapInv_sysinit (by decide : BootHeap 0x48000 0x3EFFFFFC) fun _ => 0
  obtain ⟨p, h', free', hrun, hnew⟩ := hinv.getmem 0 ⟨0x0FBEDFF8, by decide, by decide⟩
  have htaken : board.getmem 0 0x0FBEDFF8 = .ok (0x48000, boardTaken) := rfl
  obtain ⟨rfl, rfl⟩ : p = 0x48000 ∧ h' = boardTaken := by
    simpa only [board, hrun, Except.ok.injEq, Prod.mk.injEq] using htaken
  exact wellFormed_iff.mpr ⟨_, hnew.lists⟩

theorem board_freeListInv : board.FreeListInv 0 [0x48000] :=
  freeListInv_singleton (by decide +kernel) (by decide +kernel) (by decide) (by decide)
    (by decide +kernel) (by decide +kernel) (by decide +kernel) (by decide +kernel)

/-- Freeing a part of a free block is refused. -/
theorem freemem_overlap_board :
    (board.regionSpan 0).Contains 0x48010 ∧ board.freemem 0x48010 8 = .ok (.syserr, board) :=
  ⟨by decide +kernel,
    freemem_eq_syserr_of_overlap board_wellFormed (by decide +kernel) (by decide)
      board_freeListInv (q := 0x48000) (by decide) (a := 0x48010) (by decide) (by decide +kernel)⟩

/-- Freeing a part of core 0's region is safe when all of it is taken.
With an address inside a free block even a size that wraps is safe. -/
theorem freemem_safe_board :
    boardTaken.FreememSafe 0x48000 100 ∧ board.FreememSafe 0x48011 0xFFFFFFFF := by
  obtain ⟨ps, hps⟩ := boardTaken_wellFormed.lists 0
  exact ⟨(freemem_safe_iff boardTaken_wellFormed _ _).mpr (Or.inr ⟨0, ps, by decide +kernel, hps,
      Or.inr ⟨by decide, by decide +kernel, Or.inl (by decide)⟩⟩),
    (freemem_safe_iff board_wellFormed _ _).mpr (Or.inr ⟨0, _, by decide +kernel,
      board_freeListInv, Or.inl ⟨0x48000, by decide, Or.inl (by decide +kernel)⟩⟩)⟩

/-- Three calls that no check of `freemem` stops. At `maxaddr` there is
no region, and `freelist[NCORES]` is used. A range that starts in the
last eight bytes of core 0's region runs on into core 1's. A size that
rounds to zero puts an empty block on the list, which then links to
itself. -/
theorem freemem_escapes :
    board.WellFormed ∧ board.freemem board.maxaddr 8 = .error .outOfBounds ∧
    boardTaken.WellFormed ∧
      (boardTaken.freemem 0x0FC35FF0 16).map Prod.fst = .ok .ok ∧
      (∀ n, ¬ (Span.mk 0x0FC35FF0 16).Within (boardTaken.regionSpan n).start
        (boardTaken.regionSpan n).stop) ∧
    (board.freemem 0x48000 0xFFFFFFFF).map
      (fun r => (r.1, (r.2.freelist 0).head, r.2.next 0x48000)) = .ok (.ok, 0x48000, 0x48000) := by
  refine ⟨board_wellFormed, rfl, boardTaken_wellFormed, by decide +kernel, ?_,
    by decide +kernel⟩
  decide +kernel

/-! ### Taking and giving back -/

section Inverse
variable {h : Heap} {c : Core} {nbytes : Ulong} {ps : List Ulong}

/-- **`getmem` is first fit and `freemem` undoes it.** When no block of
the core's list is long enough, `getmem` returns `SYSERR` and changes
nothing. Otherwise it returns the lowest block that is and touches only
that core's list, and `freemem` of what it returned puts every free list
back as it was. -/
theorem getmem_freemem (hw : h.WellFormed) (hps : h.FreeListInv c ps) (h0 : nbytes ≠ 0)
    (hwrap : nbytes.toNat + 7 < 2 ^ 32) :
    ((∀ q ∈ ps, (h.length q).toNat < (roundmb nbytes).toNat) ∧
      h.getmem c nbytes = .ok (SYSERR, h)) ∨
    ∃ p ∈ ps, (roundmb nbytes).toNat ≤ (h.length p).toNat ∧
      (∀ q ∈ ps, (roundmb nbytes).toNat ≤ (h.length q).toNat → p.toNat ≤ q.toNat) ∧
      ∃ h', h.getmem c nbytes = .ok (p, h') ∧ p ≠ SYSERR ∧ h'.WellFormed ∧
        h.Touches h' c (Covers (ps.map h.span)) ∧
        ∃ h'', h'.freemem p nbytes = .ok (.ok, h'') ∧ h.SameLists h'' := by
  obtain ⟨free, hf⟩ := wellFormed_iff.mp hw
  have hfree := hf.map_span hps
  have hsep := hf.separated c
  have hpos := toNat_roundmb_pos h0 hwrap
  rcases hf.getmem c h0 hwrap with
    ⟨hnone, hrun⟩ | ⟨p, l', h', hfit, hp, hne, hrun, hspan, hlists, -, ht⟩
  · refine Or.inl ⟨fun q hq => ?_, hrun⟩
    exact firstFit_eq_none.mp hnone (h.span q) (hfree ▸ mem_map_of_mem hq)
  · obtain ⟨pre, s, post, hsplit, hstart, hlen, hpre, -⟩ := firstFit_eq_some hfit
    have hmem : s ∈ ps.map h.span := by
      rw [hfree, hsplit]
      simp
    -- `getmem` cuts a block at its start, so the pointer is the block.
    obtain ⟨q, hq, rfl⟩ := mem_map.mp hmem
    obtain rfl : q = p := BitVec.eq_of_toNat_eq hstart
    refine Or.inr ⟨q, hq, hlen, fun r hr hlong => ?_, h', hrun, hne,
      wellFormed_iff.mpr ⟨_, hlists⟩, hfree ▸ ht, ?_⟩
    · -- Blocks before the chosen one are too short, those after it are higher.
      have hr' : h.span r ∈ pre ++ h.span q :: post := by
        rw [← hsplit, ← hfree]
        exact mem_map_of_mem hr
      have hgap := hsep.gap
      rw [hsplit, pairwise_append, pairwise_cons] at hgap
      rcases mem_append.mp hr' with hr' | hr'
      · exact absurd (hpre _ hr') (Nat.not_lt.mpr hlong)
      · rcases mem_cons.mp hr' with heq | hr'
        · exact Nat.le_of_eq (congrArg Span.start heq).symm
        · have hafter : q.toNat + (h.length q).toNat < r.toNat := hgap.2.1.1 _ hr'
          omega
    · -- The range taken stands apart, and inserting it rebuilds the list.
      have hin : (Span.mk q.toNat (roundmb nbytes).toNat).Within (h'.regionSpan c).start
          (h'.regionSpan c).stop := by
        rw [hspan]
        exact Span.within_of_contains hpos fun a ha => hf.inside c a (covers_of_firstFit hfit ha)
      have hap := apart_firstFit hsep hpos hfit
      have hback := hlists.freemem (n := c) hp h0 hwrap hin (by rwa [update_self])
      rw [update_self, insertSpan_firstFit hsep hpos hfit, update_idem,
        update_eq_self] at hback
      obtain ⟨h'', hrun', hspan', hlists', -⟩ := hback
      exact ⟨h'', hrun', hf.same hlists' (hspan'.trans hspan)⟩

/-- `getmem(100)` on core 0 of the board returns the start of its region,
and `freemem` puts it back. -/
theorem getmem_freemem_board :
    ∃ h', board.getmem 0 100 = .ok (0x48000, h') ∧
      ∃ h'', h'.freemem 0x48000 100 = .ok (.ok, h'') ∧ board.SameLists h'' := by
  rcases @getmem_freemem board 0 100 [0x48000] board_wellFormed board_freeListInv (by decide)
    (by decide) with ⟨hshort, -⟩ | ⟨p, hp, -, -, h', hrun, -, -, -, hback⟩
  · exact absurd (hshort 0x48000 (by decide)) (by decide +kernel)
  · obtain rfl := mem_singleton.mp hp
    exact ⟨h', hrun, hback⟩

theorem FreeListInv.ne_syserr (hps : h.FreeListInv c ps) {p : Ulong} (hp : p ∈ ps) :
    p ≠ SYSERR := by
  rintro rfl
  exact absurd (hps.aligned _ hp) (by decide)

/-- A size that is rounded to zero takes nothing from the first block. -/
theorem getmem_of_wrap {q : Ulong} (hps : h.FreeListInv c (q :: ps))
    (hwrap : 2 ^ 32 ≤ nbytes.toNat + 7) : h.getmem c nbytes = .ok (q, h) := by
  have h0 : nbytes ≠ 0 := by
    rintro rfl
    exact absurd hwrap (by decide)
  have hround : roundmb nbytes = 0 := BitVec.eq_of_toNat_eq (toNat_roundmb_of_wrap hwrap)
  have hhead : (h.freelist c).head = q := hps.chain.1
  have hnull : q ≠ NULL := fun heq => hps.nonnull (heq ▸ mem_cons_self)
  have hpos := hps.length_pos q mem_cons_self
  have htake : h.takeFront c .list q 0 = h := by
    simp [takeFront, setNext, setTotal, setHead, store, next, length, ← hhead]
  rw [getmem, if_neg h0, hround, hhead, show fuel = 2 ^ 32 - 1 + 1 from rfl, getmemLoop,
    if_neg hnull, if_neg fun heq => by simp [heq] at hpos,
    if_pos (show h.length q > 0 from BitVec.lt_def.mpr hpos), htake]

/-- What `getmem` returns, for every size. A size that wraps is taken
from any block and leaves the heap as it was. -/
theorem getmem_cases (hw : h.WellFormed) (hps : h.FreeListInv c ps) (nbytes : Ulong) :
    ((nbytes = 0 ∨ ∀ q ∈ ps, (h.length q).toNat < (roundmb nbytes).toNat) ∧
      h.getmem c nbytes = .ok (SYSERR, h)) ∨
    ∃ p ∈ ps, nbytes ≠ 0 ∧ (roundmb nbytes).toNat ≤ (h.length p).toNat ∧
      ∃ h', h.getmem c nbytes = .ok (p, h') ∧ (2 ^ 32 ≤ nbytes.toNat + 7 → h' = h) := by
  by_cases h0 : nbytes = 0
  · exact Or.inl ⟨Or.inl h0, by rw [getmem, if_pos h0]⟩
  · by_cases hwrap : nbytes.toNat + 7 < 2 ^ 32
    · rcases getmem_freemem hw hps h0 hwrap with
        ⟨hshort, hrun⟩ | ⟨p, hp, hlong, -, h', hrun, -⟩
      · exact Or.inl ⟨Or.inr hshort, hrun⟩
      · exact Or.inr ⟨p, hp, h0, hlong, h', hrun, fun hge => absurd hwrap (by omega)⟩
    · cases ps with
      | nil =>
        have hhead : (h.freelist c).head = NULL := hps.chain
        refine Or.inl ⟨Or.inr (by simp), ?_⟩
        rw [getmem, if_neg h0, show fuel = 2 ^ 32 - 1 + 1 from rfl, getmemLoop, if_pos hhead]
      | cons q ps =>
        refine Or.inr ⟨q, mem_cons_self, h0, ?_, h, getmem_of_wrap hps (by omega), fun _ => rfl⟩
        rw [toNat_roundmb_of_wrap (by omega)]
        exact Nat.zero_le _

theorem getmem_mem (hw : h.WellFormed) (hps : h.FreeListInv c ps) {p : Ulong} {h' : Heap}
    (hrun : h.getmem c nbytes = .ok (p, h')) : p = SYSERR ∨ p ∈ ps := by
  rcases getmem_cases hw hps nbytes with ⟨-, hret⟩ | ⟨q, hq, -, -, h1, hret, -⟩
  · exact Or.inl (ok_pair (hrun.symm.trans hret)).1
  · exact Or.inr ((ok_pair (hrun.symm.trans hret)).1 ▸ hq)

end Inverse

/-! ### The order of frees -/

/-- The allocated blocks determine the free lists. -/
theorem HeapInv.same {h₀ : Heap} {r r' : HeapRun} {free free' : Core → List Span}
    (hinv : HeapInv h₀ r free) (hinv' : HeapInv h₀ r' free') (hperm : r.live.Perm r'.live) :
    r.heap.SameLists r'.heap := by
  have hspan : r'.heap.regionSpan = r.heap.regionSpan := hinv'.fixed.trans hinv.fixed.symm
  have hfree : free' = free := funext fun n =>
    (hinv'.lists.separated n).ext (hinv.lists.separated n) fun a => by
      rw [hinv'.partition, hinv.partition, hspan]
      simp only [LiveAt, hperm.mem_iff]
  exact hinv.lists.same (hfree ▸ hinv'.lists) hspan

/-- In every state of every run, two allocated blocks can be freed in
either order, with the same free lists at the end. -/
theorem freemem_comm_of_reachable {memheap maxaddr : Ulong} {mem : Ulong → Ulong} {r : HeapRun}
    (hboot : BootHeap memheap maxaddr) (hr : HeapReachable memheap maxaddr mem r) {b c : Alloc}
    (hb : b ∈ r.live) (hc : c ∈ r.live) (hne : b ≠ c) :
    ∃ h1 h2 h1' h2', r.heap.freemem b.ptr b.request.nbytes = .ok (.ok, h1) ∧
      h1.freemem c.ptr c.request.nbytes = .ok (.ok, h2) ∧
      r.heap.freemem c.ptr c.request.nbytes = .ok (.ok, h1') ∧
      h1'.freemem b.ptr b.request.nbytes = .ok (.ok, h2') ∧ h2.SameLists h2' := by
  obtain ⟨free, hinv⟩ := heapInv_of_reachable hboot hr
  obtain ⟨h1, free1, hrun1, hinv1, -⟩ := hinv.freemem hb
  obtain ⟨h2, free2, hrun2, hinv2, -⟩ := hinv1.freemem ((mem_erase_of_ne hne.symm).mpr hc)
  obtain ⟨h1', free1', hrun1', hinv1', -⟩ := hinv.freemem hc
  obtain ⟨h2', free2', hrun2', hinv2', -⟩ := hinv1'.freemem ((mem_erase_of_ne hne).mpr hb)
  refine ⟨h1, h2, h1', h2', hrun1, hrun2, hrun1', hrun2', hinv2.same hinv2' ?_⟩
  show ((r.live.erase b).erase c).Perm ((r.live.erase c).erase b)
  rw [erase_comm]

/-- The board after two calls of `getmem` on core 0. -/
def boardTwo : HeapRun :=
  let h := board.takeFront 0 .list 0x48000 8
  ⟨h.takeFront 0 .list 0x48008 104,
    [⟨0x48008, 99, by decide, by decide⟩, ⟨0x48000, 8, by decide, by decide⟩]⟩

theorem boardTwo_reachable : HeapReachable 0x48000 0x3EFFFFFC (fun _ => 0) boardTwo := by
  refine Relation.ReflTransGen.tail (b := ⟨board.takeFront 0 .list 0x48000 8,
    [⟨0x48000, 8, by decide, by decide⟩]⟩) (Relation.ReflTransGen.single ?_) ?_
  · exact HeapStep.getmem (r := ⟨board, []⟩) 0 ⟨8, by decide, by decide⟩ rfl
  · exact HeapStep.getmem (r := ⟨board.takeFront 0 .list 0x48000 8,
      [⟨0x48000, 8, by decide, by decide⟩]⟩) 0 ⟨99, by decide, by decide⟩ rfl

theorem freemem_comm_boardTwo :
    ∃ h1 h2 h1' h2', boardTwo.heap.freemem 0x48000 8 = .ok (.ok, h1) ∧
      h1.freemem 0x48008 99 = .ok (.ok, h2) ∧
      boardTwo.heap.freemem 0x48008 99 = .ok (.ok, h1') ∧
      h1'.freemem 0x48000 8 = .ok (.ok, h2') ∧ h2.SameLists h2' :=
  freemem_comm_of_reachable (by decide) boardTwo_reachable
    (b := ⟨0x48000, 8, by decide, by decide⟩) (c := ⟨0x48008, 99, by decide, by decide⟩)
    (by decide) (by decide) (by decide)

/-- Two runs from boot that end with the same addresses allocated end with
the same free lists, whatever the blocks are and whatever happened
before. -/
theorem freelists_determined {memheap maxaddr : Ulong} {mem : Ulong → Ulong} {r r' : HeapRun}
    (hboot : BootHeap memheap maxaddr) (hr : HeapReachable memheap maxaddr mem r)
    (hr' : HeapReachable memheap maxaddr mem r')
    (hlive : ∀ a, LiveAt r.live a ↔ LiveAt r'.live a) : r.heap.SameLists r'.heap := by
  obtain ⟨free, hinv⟩ := heapInv_of_reachable hboot hr
  obtain ⟨free', hinv'⟩ := heapInv_of_reachable hboot hr'
  have hspan : r'.heap.regionSpan = r.heap.regionSpan := hinv'.fixed.trans hinv.fixed.symm
  obtain rfl : free' = free := funext fun n =>
    (hinv'.lists.separated n).ext (hinv.lists.separated n) fun a => by
      rw [hinv'.partition, hinv.partition, hspan, hlive]
  exact hinv.lists.same hinv'.lists hspan

/-- The board after one call of `getmem`. -/
def boardOne : HeapRun :=
  ⟨board.takeFront 0 .list 0x48000 112, [⟨0x48000, 112, by decide, by decide⟩]⟩

theorem boardOne_reachable : HeapReachable 0x48000 0x3EFFFFFC (fun _ => 0) boardOne := by
  refine .single ?_
  exact HeapStep.getmem (r := ⟨board, []⟩) 0 ⟨112, by decide, by decide⟩ rfl

/-- One block is as good as two that fill the same addresses. -/
theorem freelists_determined_boardOne : boardOne.heap.SameLists boardTwo.heap := by
  refine freelists_determined (by decide) boardOne_reachable boardTwo_reachable fun a => ?_
  have hone : LiveAt boardOne.live a ↔ 0x48000 ≤ a ∧ a < 0x48000 + 112 := by
    simp only [LiveAt, boardOne, mem_singleton, exists_eq_left]
    exact Iff.rfl
  have htwo : LiveAt boardTwo.live a ↔
      (0x48008 ≤ a ∧ a < 0x48008 + 104) ∨ (0x48000 ≤ a ∧ a < 0x48000 + 8) := by
    simp only [LiveAt, boardTwo, mem_cons, not_mem_nil, or_false, exists_eq_or_imp,
      exists_eq_left]
    exact Iff.rfl
  rw [hone, htwo]
  omega

/-- The results of freeing two blocks one after the other. -/
def freeBoth (h : Heap) (p m q n : Ulong) : Except Fault (Syscall × Syscall) := do
  let (first, h) ← h.freemem p m
  let (second, _) ← h.freemem q n
  return (first, second)

/-- A request of `0xFFFFFFFF` bytes is rounded to none. It gets the start
of a block that stays on the free list, so the order in which it and the
block before it are freed does matter. -/
theorem freemem_order_wraps :
    ∃ h h', board.getmem 0 8 = .ok (0x48000, h) ∧ h.getmem 0 0xFFFFFFFF = .ok (0x48008, h') ∧
      freeBoth h' 0x48008 0xFFFFFFFF 0x48000 8 = .ok (.ok, .ok) ∧
      freeBoth h' 0x48000 8 0x48008 0xFFFFFFFF = .ok (.ok, .syserr) :=
  ⟨_, _, rfl, rfl, rfl, rfl⟩

end Xinu.Heap
