import Mathlib.Data.List.FinRange
import Xinu.Proofs.Memory.FreeList

/-!
# `Xinu.Proofs.Memory.Boot`: the free lists after `sysinit`

`sysinit` cuts the heap into `NCORES` regions of equal length. `BootHeap`
collects what it needs from its environment: `start.S` sets `memheap`
above the kernel image and the null processes' stacks, so it is not
`NULL`, and `platforminit` puts `maxaddr` above it. The size of the heap
is a `ptrdiff_t`, a signed number, and has to be at least eight bytes
per core.

`Layout` is what stays true of the regions afterwards. They are aligned
and nonempty, lie inside the heap, and are pairwise disjoint, so the
region search of `freemem` finds the one region of an address
(`Layout.region_eq`). `sysinit_layout`, `sysinit_rep` and
`sysinit_total` say that `sysinit` builds such a layout with every
region one free block.
-/

namespace Xinu.Heap

open Lib List BitVec

/-- The addresses of core `n`'s region, `[base, base + bound)`. -/
def regionSpan (h : Heap) (n : Core) : Span :=
  ⟨(h.freelist n).base.toNat, (h.freelist n).bound.toNat⟩

/-- The regions of the cores divide the heap. -/
structure Layout (h : Heap) : Prop where
  /-- `NULL` lies below the heap. -/
  low : 0 < h.memheap.toNat
  grid : ∀ n, (h.regionSpan n).OnGrid 8
  pos : ∀ n, 0 < (h.regionSpan n).len
  within : ∀ n, (h.regionSpan n).Within h.memheap.toNat h.maxaddr.toNat
  disjoint : ∀ n m, n ≠ m → (h.regionSpan n).Disjoint (h.regionSpan m)

/-- Two heaps with the same regions and ends have the same layout. -/
theorem Layout.congr {h h' : Heap} (hl : h.Layout) (hspan : h'.regionSpan = h.regionSpan)
    (hlo : h'.memheap = h.memheap) (hhi : h'.maxaddr = h.maxaddr) : h'.Layout := by
  refine ⟨?_, ?_, ?_, ?_, ?_⟩
  · exact hlo ▸ hl.low
  · exact hspan ▸ hl.grid
  · exact hspan ▸ hl.pos
  · rw [hspan, hlo, hhi]
    exact hl.within
  · exact hspan ▸ hl.disjoint

/-- A region ends inside the address space. -/
theorem Layout.stop_lt {h : Heap} (hl : h.Layout) (n : Core) :
    (h.regionSpan n).stop < 2 ^ 32 :=
  Nat.lt_of_le_of_lt (hl.within n).2 h.maxaddr.isLt

/-- The test of the region search, read as arithmetic. -/
theorem Layout.region_test {h : Heap} (hl : h.Layout) (n : Core) (p : Ulong) :
    (decide ((h.freelist n).base ≤ p) &&
      decide (p < (h.freelist n).base + (h.freelist n).bound)) = true ↔
      (h.regionSpan n).Contains p.toNat := by
  have hstop := hl.stop_lt n
  simp only [regionSpan, Span.stop] at hstop
  simp only [Bool.and_eq_true, decide_eq_true_eq, le_def, lt_def, toNat_add,
    regionSpan, Span.Contains, Span.stop, Nat.mod_eq_of_lt hstop]

/-- `freemem` finds the region an address lies in. -/
theorem Layout.region_eq {h : Heap} (hl : h.Layout) {n : Core} {p : Ulong}
    (hp : (h.regionSpan n).Contains p.toNat) : h.region p = some n := by
  unfold region
  rcases hfind : (List.finRange NCORES).find? _ with _ | m
  · exact absurd ((hl.region_test n p).mpr hp)
      (find?_eq_none.mp hfind n (mem_finRange n))
  · -- Whatever region is found contains the address, and only one does.
    have hm := (hl.region_test m p).mp
      (find?_some (p := fun m => decide ((h.freelist m).base ≤ p) &&
        decide (p < (h.freelist m).base + (h.freelist m).bound)) hfind)
    by_contra hne
    exact hl.disjoint m n (fun heq => hne (congrArg some heq)) _ hm hp

/-! ### The environment of `sysinit` -/

/-- The heap ends that `start.S` and `platforminit` hand to `sysinit`. -/
structure BootHeap (memheap maxaddr : Ulong) : Prop where
  /-- The heap starts above the kernel, not at `NULL`. -/
  nonnull : roundmb memheap ≠ NULL
  /-- The heap ends where `platforminit` found memory, above its start. -/
  ordered : roundmb memheap ≤ truncmb maxaddr
  /-- The pointer difference, a signed `ptrdiff_t`, has room for one
  block per core. -/
  large : 8 * (NCORES : Int) ≤ (truncmb maxaddr - roundmb memheap).toInt

instance (memheap maxaddr : Ulong) : Decidable (BootHeap memheap maxaddr) :=
  decidable_of_iff (roundmb memheap ≠ NULL ∧ roundmb memheap ≤ truncmb maxaddr ∧
      8 * (NCORES : Int) ≤ (truncmb maxaddr - roundmb memheap).toInt)
    ⟨fun h => ⟨h.1, h.2.1, h.2.2⟩, fun h => ⟨h.nonnull, h.ordered, h.large⟩⟩

/-- `(uint)truncmb((platform.maxaddr - memheap) / NCORES)`. -/
def bootLength (lo hi : Ulong) : Ulong := truncmb ((hi - lo).sdiv (BitVec.ofNat 32 NCORES))

/-- `roundmb(memheap + freelist[i].length * i)`. -/
def bootBase (lo hi : Ulong) (i : Core) : Ulong :=
  roundmb (lo + bootLength lo hi * BitVec.ofNat 32 i)

/-- The head `sysinit` gives to core `i`. -/
def bootHead (lo hi : Ulong) (i : Core) : Memhead :=
  ⟨bootBase lo hi i, bootLength lo hi, bootBase lo hi i, bootLength lo hi⟩

theorem initFreelist_eq (h : Heap) (i : Core) : h.initFreelist i =
    ((h.setHead i (bootHead h.memheap h.maxaddr i)).store (bootBase h.memheap h.maxaddr i)
      NULL).store (bootBase h.memheap h.maxaddr i + 4) (bootLength h.memheap h.maxaddr) := rfl

/-- The size of one region: a fourth of the heap, rounded down, as long as
the pointer difference is not negative. -/
theorem toNat_bootLength {lo hi : Ulong} (hord : lo.toNat ≤ hi.toNat)
    (hsmall : hi.toNat < lo.toNat + 2 ^ 31) :
    (bootLength lo hi).toNat = (hi.toNat - lo.toNat) / NCORES / 8 * 8 := by
  have hsub := toNat_sub_of_le (le_def.mpr hord)
  have hmsb : (hi - lo).msb = false := by
    rw [msb_eq_decide, hsub]
    exact decide_eq_false (by omega)
  have hdiv : (hi - lo).sdiv (BitVec.ofNat 32 NCORES) =
    (hi - lo).udiv (BitVec.ofNat 32 NCORES) := by
    have h4 : (BitVec.ofNat 32 NCORES).msb = false := by decide
    rw [sdiv_eq, hmsb, h4]
  rw [bootLength, toNat_truncmb, hdiv]
  show (hi - lo).toNat / NCORES / 8 * 8 = _
  rw [hsub]

/-- The signed difference of the two ends, read as numbers. -/
theorem large_iff {lo hi : Ulong} (hord : lo.toNat ≤ hi.toNat) :
    8 * (NCORES : Int) ≤ (hi - lo).toInt ↔
      lo.toNat + 8 * NCORES ≤ hi.toNat ∧ hi.toNat < lo.toNat + 2 ^ 31 := by
  have := hi.isLt
  rw [toInt_eq_toNat_cond, toNat_sub_of_le (le_def.mpr hord)]
  unfold NCORES
  split <;> omega

theorem BootHeap.size {memheap maxaddr : Ulong} (hb : BootHeap memheap maxaddr) :
    (roundmb memheap).toNat + 8 * NCORES ≤ (truncmb maxaddr).toNat ∧
      (truncmb maxaddr).toNat < (roundmb memheap).toNat + 2 ^ 31 :=
  (large_iff (le_def.mp hb.ordered)).mp hb.large

section Boot
variable {lo hi : Ulong} (hsize : lo.toNat + 8 * NCORES ≤ hi.toNat ∧ hi.toNat < lo.toNat + 2 ^ 31)
include hsize

/-- A region is not empty, and the regions together fit into the
heap. -/
theorem bootLength_bounds : 8 ≤ (bootLength lo hi).toNat ∧
    lo.toNat + (bootLength lo hi).toNat * NCORES ≤ hi.toNat := by
  unfold NCORES at hsize
  have hlen := toNat_bootLength (by omega) hsize.2
  unfold NCORES at hlen ⊢
  omega

/-- The regions follow each other without gaps. -/
theorem toNat_bootBase (hlo : 8 ∣ lo.toNat) (i : Core) :
    (bootBase lo hi i).toNat = lo.toNat + (bootLength lo hi).toNat * i := by
  obtain ⟨hpos, hfit⟩ := bootLength_bounds hsize
  have hi' : i.val ≤ NCORES - 1 := by have := i.isLt; omega
  have hmul := Nat.mul_le_mul_left (bootLength lo hi).toNat hi'
  have hgrid : 8 ∣ (bootLength lo hi).toNat := aligned_truncmb _
  have hmax := hi.isLt
  unfold NCORES at hfit hi' hmul
  have hprod : (bootLength lo hi * BitVec.ofNat 32 i).toNat = (bootLength lo hi).toNat * i := by
    rw [toNat_mul, toNat_ofNat, Nat.mod_eq_of_lt (show i.val < 2 ^ 32 by omega),
      Nat.mod_eq_of_lt (by omega)]
  have hsum : (lo + bootLength lo hi * BitVec.ofNat 32 i).toNat =
      lo.toNat + (bootLength lo hi).toNat * i := by
    rw [toNat_add, hprod, Nat.mod_eq_of_lt (by omega)]
  have hdvd := Nat.dvd_add hlo (Nat.dvd_mul_right_of_dvd hgrid i)
  rw [bootBase, toNat_roundmb (by rw [hsum]; omega), hsum]
  omega

/-- Two cores' regions start at different addresses. -/
theorem bootBase_injective (hlo : 8 ∣ lo.toNat) : Function.Injective (bootBase lo hi) := by
  intro i j heq
  have hnat := congrArg BitVec.toNat heq
  obtain ⟨hpos, -⟩ := bootLength_bounds hsize
  rw [toNat_bootBase hsize hlo, toNat_bootBase hsize hlo] at hnat
  exact Fin.ext (Nat.eq_of_mul_eq_mul_left (by omega) (Nat.add_left_cancel hnat))

end Boot

/-! ### The loop -/

/-- Core `n` owns its region as one free block. -/
structure Booted (h : Heap) (lo hi : Ulong) (n : Core) : Prop where
  head : h.freelist n = bootHead lo hi n
  next : h.next (bootBase lo hi n) = NULL
  length : h.length (bootBase lo hi n) = bootLength lo hi

theorem aligned_bootBase (lo hi : Ulong) (n : Core) : Aligned (bootBase lo hi n) :=
  aligned_roundmb _

/-- One round of the loop boots its own core. -/
theorem booted_initFreelist_self (h : Heap) (i : Core) :
    (h.initFreelist i).Booted h.memheap h.maxaddr i := by
  rw [initFreelist_eq]
  have ha := aligned_bootBase h.memheap h.maxaddr i
  refine ⟨?_, ?_, ?_⟩
  · simp [setHead]
  · rw [next_store_add ha ha, next_store_self]
  · rw [length_store_add_self]

/-- One round of the loop leaves the cores with other regions alone. -/
theorem Booted.initFreelist {h : Heap} {i n : Core} (hbn : h.Booted h.memheap h.maxaddr n)
    (hne : bootBase h.memheap h.maxaddr n ≠ bootBase h.memheap h.maxaddr i) :
    (h.initFreelist i).Booted h.memheap h.maxaddr n := by
  rw [initFreelist_eq]
  have hn := aligned_bootBase h.memheap h.maxaddr n
  have hi := aligned_bootBase h.memheap h.maxaddr i
  have hin : n ≠ i := fun heq => hne (heq ▸ rfl)
  refine ⟨?_, ?_, ?_⟩
  · simpa [setHead, hin] using hbn.head
  · rw [next_store_add hi hn, next_store_of_ne hne]
    exact hbn.next
  · rw [length_store_add_of_ne hne, length_store hi hn]
    exact hbn.length

/-- The loop boots every core it visits and keeps those already
booted. -/
theorem booted_foldl {lo hi : Ulong} (hinj : Function.Injective (bootBase lo hi)) :
    ∀ (l : List Core) (h : Heap), h.memheap = lo → h.maxaddr = hi →
      ∀ n, n ∈ l ∨ h.Booted lo hi n → (l.foldl Heap.initFreelist h).Booted lo hi n
  | [], _, _, _, n, hn => by simpa using hn
  | i :: l, h, rfl, rfl, n, hn => by
    refine booted_foldl hinj l (h.initFreelist i) rfl rfl n ?_
    by_cases hni : n = i
    · subst hni
      exact Or.inr (booted_initFreelist_self h n)
    · refine hn.imp (fun hm => (mem_cons.mp hm).resolve_left hni) fun hbn => ?_
      exact hbn.initFreelist fun heq => hni (hinj heq)

/-- The loop does not move the ends of the heap. -/
theorem foldl_initFreelist_ends : ∀ (l : List Core) (h : Heap),
    (l.foldl Heap.initFreelist h).memheap = h.memheap ∧
      (l.foldl Heap.initFreelist h).maxaddr = h.maxaddr
  | [], _ => ⟨rfl, rfl⟩
  | i :: l, h => foldl_initFreelist_ends l (h.initFreelist i)

section Sysinit
variable {memheap maxaddr : Ulong} {mem : Ulong → Ulong}

@[simp] theorem sysinit_memheap : (sysinit memheap maxaddr mem).memheap = roundmb memheap :=
  (foldl_initFreelist_ends _ _).1

@[simp] theorem sysinit_maxaddr : (sysinit memheap maxaddr mem).maxaddr = truncmb maxaddr :=
  (foldl_initFreelist_ends _ _).2

variable (hb : BootHeap memheap maxaddr)
include hb

/-- `sysinit` boots every core. -/
theorem sysinit_booted (n : Core) :
    (sysinit memheap maxaddr mem).Booted (roundmb memheap) (truncmb maxaddr) n :=
  booted_foldl (bootBase_injective hb.size (aligned_roundmb _)) _ _ rfl rfl n
    (Or.inl (mem_finRange n))

theorem regionSpan_sysinit (n : Core) :
    (sysinit memheap maxaddr mem).regionSpan n =
      ⟨(roundmb memheap).toNat + (bootLength (roundmb memheap) (truncmb maxaddr)).toNat * n,
        (bootLength (roundmb memheap) (truncmb maxaddr)).toNat⟩ := by
  rw [regionSpan, (sysinit_booted hb n).head]
  simp only [bootHead, toNat_bootBase hb.size (aligned_roundmb _)]

/-- The regions of `sysinit` divide the heap. -/
theorem sysinit_layout : (sysinit memheap maxaddr mem).Layout := by
  obtain ⟨hpos, hfit⟩ := bootLength_bounds hb.size
  have hgrid : 8 ∣ (bootLength (roundmb memheap) (truncmb maxaddr)).toNat := aligned_truncmb _
  refine ⟨?_, fun n => ?_, fun n => ?_, fun n => ?_, fun n m hne a han ham => ?_⟩
  · rw [sysinit_memheap]
    exact Nat.pos_of_ne_zero fun h0 => hb.nonnull (eq_of_toNat_eq h0)
  · rw [regionSpan_sysinit hb]
    exact ⟨Nat.dvd_add (aligned_roundmb _) (Nat.dvd_mul_right_of_dvd hgrid n), hgrid⟩
  · rw [regionSpan_sysinit hb]
    exact Nat.lt_of_lt_of_le (by omega) hpos
  · rw [regionSpan_sysinit hb, sysinit_memheap, sysinit_maxaddr]
    have hstop := Nat.mul_le_mul_left (bootLength (roundmb memheap) (truncmb maxaddr)).toNat
      (Nat.succ_le_of_lt n.isLt)
    rw [Nat.mul_succ] at hstop
    exact ⟨Nat.le_add_right _ _, by simp only [Span.stop]; omega⟩
  · -- An address in region `n` has quotient `n` by the region length.
    rw [regionSpan_sysinit hb] at han ham
    generalize (bootLength (roundmb memheap) (truncmb maxaddr)).toNat = len at *
    have hquot : ∀ k : Core, (Span.mk ((roundmb memheap).toNat + len * k) len).Contains a →
        (a - (roundmb memheap).toNat) / len = k.val := by
      intro k hk
      have h1 := hk.1
      have h2 := hk.2
      simp only [Span.stop] at h1 h2
      rw [Nat.div_eq_of_lt_le]
      · rw [Nat.mul_comm]
        omega
      · rw [Nat.mul_comm, Nat.mul_succ]
        omega
    exact hne (Fin.ext ((hquot n han).symm.trans (hquot m ham)))

/-- After `sysinit` each region is one free block. -/
theorem sysinit_rep (n : Core) :
    (sysinit memheap maxaddr mem).Rep n [(sysinit memheap maxaddr mem).regionSpan n] := by
  have hl : (sysinit memheap maxaddr mem).Layout := sysinit_layout hb
  have hbn : (sysinit memheap maxaddr mem).Booted (roundmb memheap) (truncmb maxaddr) n :=
    sysinit_booted hb n
  have hspan : (sysinit memheap maxaddr mem).span (bootBase (roundmb memheap) (truncmb maxaddr) n)
      = (sysinit memheap maxaddr mem).regionSpan n := by
    rw [span, hbn.length, regionSpan, hbn.head]
    rfl
  refine ⟨[bootBase (roundmb memheap) (truncmb maxaddr) n], ⟨?_, ?_, ?_, ?_, ?_, ?_⟩, ?_⟩
  · rw [hbn.head]
    exact ⟨rfl, hbn.next⟩
  · simpa using aligned_bootBase _ _ n
  · have hlow := hl.low
    have hin := (hl.within n).1
    rw [← hspan] at hin
    simp only [mem_singleton]
    intro heq
    rw [← heq] at hin
    simp only [span, toNat_NULL] at hin
    omega
  · rw [forall_mem_singleton, hbn.length]
    exact aligned_truncmb _
  · have hstop := hl.stop_lt n
    rw [← hspan] at hstop
    simpa [span, Span.stop] using hstop
  · simp only [map_cons, map_nil, hspan]
    exact separated_cons.mpr ⟨hl.pos n, by simp, separated_nil⟩
  · simp only [map_cons, map_nil, hspan]

/-- After `sysinit` each core's total is the length of its one block. -/
theorem sysinit_total (n : Core) :
    ((sysinit memheap maxaddr mem).freelist n).length.toNat =
      total [(sysinit memheap maxaddr mem).regionSpan n] := by
  simp only [total_cons, total_nil, regionSpan, (sysinit_booted hb n).head, bootHead,
    Nat.add_zero]

end Sysinit

end Xinu.Heap
