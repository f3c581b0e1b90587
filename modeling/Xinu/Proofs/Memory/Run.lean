import Mathlib.Logic.Relation
import Xinu.Proofs.Memory.Invariant

/-!
# `Xinu.Proofs.Memory.Run`: the heap over whole runs

A run of the allocator starts at `sysinit`. Each step is a `getmem` on
some core, a `freemem` of a block that is currently allocated, or a
write by the owner of an allocated block to one of its words. The
allocated blocks are recorded in `HeapRun.live`, with the request each
one was allocated for. They are not part of the kernel's state.

The invariant `HeapInv` relates the three views of one region: the words
of its free list, the list of ranges they spell, and the allocated
blocks. Free and allocated addresses divide each region. One lemma per
kind of step keeps it (`HeapInv.getmem`, `HeapInv.freemem`,
`HeapInv.write`), and `heapInv_of_reachable` follows by induction on the
run. The two main results read it back:

* `freelist_invariant_iff`: every free list is sorted, aligned, inside its
  region and fully coalesced, its total is right, and every call of the
  next step returns.
* `heap_partition_iff`: free and allocated blocks divide each region, and
  a heap with no allocated block is the heap of boot.

Both hold exactly for the heaps that `sysinit` can divide. With two
gigabytes or more its division is one of a negative number, and the
regions overlap (`exists_overlap`).
-/

namespace Xinu.Heap

open Lib Function List

open BitVec hiding not_or

variable {free : Core → List Span} {h₀ : Heap} {r : HeapRun}

/-- A size `getmem` can round up: not zero, and adding seven does not
wrap. -/
structure Request where
  nbytes : Ulong
  pos : nbytes ≠ 0
  noWrap : nbytes.toNat + 7 < 2 ^ 32
deriving DecidableEq

/-- An allocated block: where it starts, and the request it serves. -/
structure Alloc where
  ptr : Ulong
  request : Request
deriving DecidableEq

/-- The addresses of an allocated block, `roundmb(nbytes)` of them. -/
def Alloc.span (b : Alloc) : Span := ⟨b.ptr.toNat, (roundmb b.request.nbytes).toNat⟩

theorem Alloc.span_pos (b : Alloc) : 0 < b.span.len :=
  toNat_roundmb_pos b.request.pos b.request.noWrap

/-- The heap and the blocks that its users hold. -/
structure HeapRun where
  heap : Heap
  live : List Alloc

/-- One call of the allocator, or one write of a user to their own
block. -/
inductive HeapStep : HeapRun → HeapRun → Prop
  | getmem {r : HeapRun} (cpuid : Core) (n : Request) {p : Ulong} {heap' : Heap}
      (hret : r.heap.getmem cpuid n.nbytes = .ok (p, heap')) :
      HeapStep r ⟨heap', if p = SYSERR then r.live else ⟨p, n⟩ :: r.live⟩
  | freemem {r : HeapRun} {b : Alloc} (hb : b ∈ r.live) {res : Syscall} {heap' : Heap}
      (hret : r.heap.freemem b.ptr b.request.nbytes = .ok (res, heap')) :
      HeapStep r ⟨heap', if res = .ok then r.live.erase b else r.live⟩
  | write {r : HeapRun} {b : Alloc} (hb : b ∈ r.live) {a : Ulong} (v : Ulong)
      (ha : b.span.Contains a.toNat) : HeapStep r ⟨r.heap.store a v, r.live⟩

/-- Some allocated block contains the address. -/
def LiveAt (live : List Alloc) (a : Nat) : Prop := ∃ b ∈ live, b.span.Contains a

/-- The invariant of a run from the boot heap `h₀`. The ranges of the
free lists are the list `free n` for each core. -/
structure HeapInv (h₀ : Heap) (r : HeapRun) (free : Core → List Span) : Prop where
  layout : r.heap.Layout
  /-- The regions never move. -/
  fixed : r.heap.regionSpan = h₀.regionSpan
  rep : ∀ n, r.heap.Rep n (free n)
  total : ∀ n, (r.heap.freelist n).length.toNat = Lib.total (free n)
  /-- An address of a region is free exactly when no block holds it. -/
  partition : ∀ n a, Covers (free n) a ↔
    (r.heap.regionSpan n).Contains a ∧ ¬ LiveAt r.live a
  disjoint : r.live.Pairwise fun b c => b.span.Disjoint c.span
  aligned : ∀ b ∈ r.live, Aligned b.ptr
  inRegion : ∀ b ∈ r.live, ∃ n, b.span.Within (r.heap.regionSpan n).start (r.heap.regionSpan n).stop

/-! ### Allocated blocks -/

instance : Std.Symm fun b c : Alloc => b.span.Disjoint c.span := ⟨fun _ _ h => h.symm⟩

/-- Blocks that are pairwise disjoint are pairwise different. -/
theorem nodup_of_disjoint {live : List Alloc}
    (h : live.Pairwise fun b c => b.span.Disjoint c.span) : live.Nodup :=
  h.imp fun {b c} hdis heq => by
    subst heq
    exact hdis _ (Span.contains_start b.span_pos) (Span.contains_start b.span_pos)

/-- Giving a block back frees exactly its own addresses. -/
theorem liveAt_erase {live : List Alloc} (h : live.Pairwise fun b c => b.span.Disjoint c.span)
    {b : Alloc} (hb : b ∈ live) {a : Nat} :
    LiveAt (live.erase b) a ↔ LiveAt live a ∧ ¬ b.span.Contains a := by
  have hnd := nodup_of_disjoint h
  constructor
  · rintro ⟨c, hc, hca⟩
    obtain ⟨hne, hc⟩ := (List.Nodup.mem_erase_iff hnd).mp hc
    have hdis := h.forall hc hb hne
    exact ⟨⟨c, hc, hca⟩, hdis a hca⟩
  · rintro ⟨⟨c, hc, hca⟩, hnot⟩
    refine ⟨c, (List.Nodup.mem_erase_iff hnd).mpr ⟨?_, hc⟩, hca⟩
    rintro rfl
    exact hnot hca

/-- The order in which blocks were allocated does not matter. -/
theorem HeapInv.perm {h₀ h : Heap} {live live' : List Alloc}
    (hinv : HeapInv h₀ ⟨h, live⟩ free) (hperm : live.Perm live') : HeapInv h₀ ⟨h, live'⟩ free :=
  { hinv with
    partition := fun n a => by
      rw [hinv.partition n a]
      simp only [LiveAt, hperm.mem_iff]
    disjoint := hinv.disjoint.perm hperm fun hdis => hdis.symm
    aligned := fun b hb => hinv.aligned b (hperm.mem_iff.mpr hb)
    inRegion := fun b hb => hinv.inRegion b (hperm.mem_iff.mpr hb) }

/-- The invariant describes the free lists. -/
theorem HeapInv.lists (hinv : HeapInv h₀ r free) : r.heap.Lists free where
  layout := hinv.layout
  rep := hinv.rep
  inside n a ha := ((hinv.partition n a).mp ha).1
  total := hinv.total

/-- What the free lists have and what is allocated add up to the
regions of boot. -/
theorem HeapInv.balance (hinv : HeapInv h₀ r free) :
    ∑ n, (r.heap.freelist n).length.toNat + (r.live.map fun b => b.span.len).sum =
      ∑ n, (h₀.regionSpan n).len := by
  have hsum := sum_total_add_total hinv.layout.pos hinv.layout.disjoint (r.live.map Alloc.span)
    hinv.lists.separated
    (forall_mem_map.mpr fun b _ => b.span_pos) (pairwise_map.mpr hinv.disjoint)
    (forall_mem_map.mpr hinv.inRegion) fun n a => by
      rw [hinv.partition n a]
      simp [LiveAt, Covers]
  rw [← hinv.fixed, ← hsum, Lib.total, map_map]
  simp only [hinv.total, comp_def]

/-! ### One step -/

section Step
variable {h₀ : Heap} {r : HeapRun} {free : Core → List Span}

/-- After `sysinit` nothing is allocated, and each region is one free
block. -/
theorem heapInv_sysinit {memheap maxaddr : Ulong} (hb : BootHeap memheap maxaddr)
    (mem : Ulong → Ulong) :
    HeapInv (sysinit memheap maxaddr mem) ⟨sysinit memheap maxaddr mem, []⟩
      fun n => [(sysinit memheap maxaddr mem).regionSpan n] where
  layout := sysinit_layout hb
  fixed := rfl
  rep := sysinit_rep hb
  total := sysinit_total hb
  partition n a := by simp [LiveAt]
  disjoint := List.Pairwise.nil
  aligned := by simp
  inRegion := by simp

variable (hinv : HeapInv h₀ r free)
include hinv

/-- The block `firstFit` takes was free: it lies in the region and meets
no allocated block. -/
theorem HeapInv.taken_free {n : Core} {k p : Nat} {l' : List Span}
    (hfit : firstFit k (free n) = some (p, l')) {a : Nat} (ha : (Span.mk p k).Contains a) :
    (r.heap.regionSpan n).Contains a ∧ ¬ LiveAt r.live a :=
  (hinv.partition n a).mp (covers_of_firstFit hfit ha)

/-- A `getmem` that finds a block keeps the invariant, with the block
added to the allocated ones. -/
theorem HeapInv.take {n : Core} {req : Request} {p : Ulong} {l' : List Span} {h' : Heap}
    (hfit : firstFit (roundmb req.nbytes).toNat (free n) = some (p.toNat, l')) (hp : Aligned p)
    (hspan : h'.regionSpan = r.heap.regionSpan) (hlists : h'.Lists (update free n l')) :
    HeapInv h₀ ⟨h', ⟨p, req⟩ :: r.live⟩ (update free n l') := by
  have hin : ∀ a, (Alloc.mk p req).span.Contains a → (r.heap.regionSpan n).Contains a :=
    fun a ha => (hinv.taken_free hfit ha).1
  refine ⟨hlists.layout, hspan.trans hinv.fixed, hlists.rep, hlists.total, fun m a => ?_, ?_,
    ?_, ?_⟩
  · have hlive : LiveAt (⟨p, req⟩ :: r.live) a ↔
        (Alloc.mk p req).span.Contains a ∨ LiveAt r.live a := by simp [LiveAt]
    rw [hspan, hlive]
    by_cases hm : m = n
    · subst hm
      rw [update_self, covers_firstFit (hinv.lists.separated m) hfit, hinv.partition,
        not_or]
      exact ⟨fun h => ⟨h.1.1, h.2, h.1.2⟩, fun h => ⟨⟨h.1, h.2.2⟩, h.2.1⟩⟩
    · -- The new block lies in region `n`, so region `m` does not see it.
      rw [update_of_ne hm, hinv.partition]
      refine and_congr_right fun ha => not_congr ⟨Or.inr, fun hor => hor.resolve_left fun hb => ?_⟩
      exact hinv.layout.disjoint m n hm a ha (hin a hb)
  · refine pairwise_cons.mpr ⟨fun c hc a ha hca => ?_, hinv.disjoint⟩
    exact (hinv.taken_free hfit ha).2 ⟨c, hc, hca⟩
  · exact forall_mem_cons.mpr ⟨hp, hinv.aligned⟩
  · rw [hspan]
    exact forall_mem_cons.mpr
      ⟨⟨n, Span.within_of_contains (Alloc.mk p req).span_pos hin⟩, hinv.inRegion⟩

/-- `getmem` returns. It reports that there is no memory and leaves the
heap as it was, or it keeps the invariant with one more block, and the
words of the blocks that were allocated before. -/
theorem HeapInv.getmem_cases (n : Core) (req : Request) :
    r.heap.getmem n req.nbytes = .ok (SYSERR, r.heap) ∨
    ∃ p h' free', p ≠ SYSERR ∧ r.heap.getmem n req.nbytes = .ok (p, h') ∧
      HeapInv h₀ ⟨h', ⟨p, req⟩ :: r.live⟩ free' ∧
      ∀ a : Ulong, LiveAt r.live a.toNat → h'.mem a = r.heap.mem a := by
  rcases hinv.lists.getmem n req.pos req.noWrap with
    ⟨-, hrun⟩ | ⟨p, l', h', hfit, hp, hne, hrun, hspan, hlists, -, ht⟩
  · exact Or.inl hrun
  · refine Or.inr ⟨p, h', _, hne, hrun, hinv.take hfit hp hspan hlists, fun a ha => ?_⟩
    exact ht.mem a fun hcov => ((hinv.partition n _).mp hcov).2 ha

/-- `getmem` returns and keeps the invariant. -/
theorem HeapInv.getmem (n : Core) (req : Request) :
    ∃ p h' free', r.heap.getmem n req.nbytes = .ok (p, h') ∧
      HeapInv h₀ ⟨h', if p = SYSERR then r.live else ⟨p, req⟩ :: r.live⟩ free' := by
  rcases hinv.getmem_cases n req with hrun | ⟨p, h', free', hne, hrun, hnew, -⟩
  · exact ⟨SYSERR, r.heap, free, hrun, by rwa [if_pos rfl]⟩
  · exact ⟨p, h', free', hrun, by rwa [if_neg hne]⟩

/-- `freemem` of an allocated block returns `OK` and keeps the
invariant, and the words of the other allocated blocks. -/
theorem HeapInv.freemem {b : Alloc} (hb : b ∈ r.live) :
    ∃ h' free', r.heap.freemem b.ptr b.request.nbytes = .ok (.ok, h') ∧
      HeapInv h₀ ⟨h', r.live.erase b⟩ free' ∧
      ∀ a : Ulong, LiveAt (r.live.erase b) a.toNat → h'.mem a = r.heap.mem a := by
  obtain ⟨n, hwithin⟩ := hinv.inRegion b hb
  have hin : ∀ a, b.span.Contains a → (r.heap.regionSpan n).Contains a :=
    fun a ha => hwithin.contains ha
  have hap : Apart b.span (free n) :=
    apart_of_not_covers (hinv.lists.separated n) b.span_pos fun a ha hcov =>
      ((hinv.partition n a).mp hcov).2 ⟨b, hb, ha⟩
  obtain ⟨h', hrun, hspan, hlists, -, ht⟩ := hinv.lists.freemem (hinv.aligned b hb)
    b.request.pos b.request.noWrap hwithin hap
  refine ⟨h', update free n (insertSpan b.span (free n)), hrun,
    ⟨hlists.layout, hspan.trans hinv.fixed, hlists.rep, hlists.total, fun m a => ?_, ?_, ?_, ?_⟩,
    fun a ha => ht.mem a ?_⟩
  · rw [hspan, liveAt_erase hinv.disjoint hb]
    by_cases hm : m = n
    · subst hm
      rw [update_self, covers_insertSpan, hinv.partition]
      have := hin a
      tauto
    · rw [update_of_ne hm, hinv.partition]
      refine and_congr_right fun ha => not_congr ⟨fun h => ⟨h, fun hba => ?_⟩, And.left⟩
      exact hinv.layout.disjoint m n hm a ha (hin a hba)
  · exact hinv.disjoint.sublist erase_sublist
  · exact fun c hc => hinv.aligned c (mem_of_mem_erase hc)
  · rw [hspan]
    exact fun c hc => hinv.inRegion c (mem_of_mem_erase hc)
  · obtain ⟨hlive, hnot⟩ := (liveAt_erase hinv.disjoint hb).mp ha
    exact not_or.mpr ⟨fun hcov => ((hinv.partition n _).mp hcov).2 hlive, hnot⟩

/-- A write to an allocated block keeps the invariant: no word of a free
block changes. -/
theorem HeapInv.write {b : Alloc} (hb : b ∈ r.live) {a v : Ulong}
    (ha : b.span.Contains a.toNat) : HeapInv h₀ ⟨r.heap.store a v, r.live⟩ free :=
  have hlists := hinv.lists.store (fun n hx => ((hinv.partition n _).mp hx).2 ⟨b, hb, ha⟩) v
  { hinv with
    layout := hlists.layout
    rep := hlists.rep }

/-- Every step keeps the invariant. -/
theorem HeapInv.step {r' : HeapRun} (hstep : HeapStep r r') :
    ∃ free', HeapInv h₀ r' free' := by
  cases hstep with
  | getmem cpuid n hret =>
    obtain ⟨p, h', free', hrun, hnew⟩ := hinv.getmem cpuid n
    obtain ⟨rfl, rfl⟩ : p = _ ∧ h' = _ := by simpa [hrun] using hret
    exact ⟨free', hnew⟩
  | freemem hb hret =>
    obtain ⟨h', free', hrun, hnew, -⟩ := hinv.freemem hb
    obtain ⟨rfl, rfl⟩ : Syscall.ok = _ ∧ h' = _ := by simpa [hrun] using hret
    exact ⟨free', by rwa [if_pos rfl]⟩
  | write hb v ha => exact ⟨free, hinv.write hb ha⟩

end Step

/-! ### Whole runs -/

/-- The states of a run that starts at `sysinit` with nothing
allocated. -/
def HeapReachable (memheap maxaddr : Ulong) (mem : Ulong → Ulong) (r : HeapRun) : Prop :=
  Relation.ReflTransGen HeapStep ⟨sysinit memheap maxaddr mem, []⟩ r

section Run
variable {memheap maxaddr : Ulong} {mem : Ulong → Ulong} {r : HeapRun}

theorem heapInv_of_reachable (hb : BootHeap memheap maxaddr)
    (hr : HeapReachable memheap maxaddr mem r) :
    ∃ free, HeapInv (sysinit memheap maxaddr mem) r free := by
  induction hr with
  | refl => exact ⟨_, heapInv_sysinit hb mem⟩
  | tail _ hstep ih =>
    obtain ⟨free, hinv⟩ := ih
    exact hinv.step hstep

end Run

/-- Free and allocated blocks together are exactly the region. -/
theorem HeapInv.region_iff (hinv : HeapInv h₀ r free) (n : Core) (a : Nat) :
    (r.heap.regionSpan n).Contains a ↔ Covers (free n) a ∨
      ∃ b ∈ r.live, b.span.Within (r.heap.regionSpan n).start (r.heap.regionSpan n).stop ∧
        b.span.Contains a := by
  rw [hinv.partition]
  constructor
  · intro ha
    by_cases hlive : LiveAt r.live a
    · -- The block that holds `a` lies in one region, which can only be `n`.
      obtain ⟨b, hb, hba⟩ := hlive
      obtain ⟨m, hwithin⟩ := hinv.inRegion b hb
      by_cases hm : m = n
      · exact Or.inr ⟨b, hb, hm ▸ hwithin, hba⟩
      · exact absurd ha (hinv.layout.disjoint m n hm a (hwithin.contains hba))
    · exact Or.inl ⟨ha, hlive⟩
  · rintro (⟨ha, -⟩ | ⟨b, -, hwithin, hba⟩)
    · exact ha
    · exact hwithin.contains hba

/-- With nothing allocated, the free list is one block, the whole
region. -/
theorem HeapInv.reclaimed (hinv : HeapInv h₀ r free) (hlive : r.live = []) (n : Core) :
    let head := r.heap.freelist n
    head.head = head.base ∧ head.length = head.bound ∧ r.heap.next head.head = NULL ∧
      r.heap.length head.head = head.bound := by
  intro head
  obtain ⟨ps, hps, hspans⟩ := hinv.lists.freeListInv n
  have hsep := hinv.lists.separated n
  -- A separated list is determined by what it covers, here the region.
  have hfree : free n = [r.heap.regionSpan n] := by
    refine hsep.ext (separated_cons.mpr ⟨hinv.layout.pos n, by simp, separated_nil⟩) fun a => ?_
    rw [hinv.partition, hlive]
    simp [LiveAt]
  obtain ⟨p, rfl, hp⟩ : ∃ p, ps = [p] ∧ r.heap.span p = r.heap.regionSpan n := by
    rw [hfree] at hspans
    exact map_eq_singleton_iff.mp hspans
  obtain ⟨hstart, hlen⟩ : p.toNat = head.base.toNat ∧
      (r.heap.length p).toNat = head.bound.toNat := by
    simpa only [span, regionSpan, Span.mk.injEq] using hp
  obtain ⟨hhead, hnext⟩ : head.head = p ∧ r.heap.next p = NULL := hps.chain
  have htotal := hinv.total n
  rw [hfree, total_cons, total_nil, Nat.add_zero] at htotal
  rw [hhead]
  exact ⟨eq_of_toNat_eq hstart, eq_of_toNat_eq htotal, hnext,
    eq_of_toNat_eq hlen⟩

section Main
variable {memheap maxaddr lo hi : Ulong} {mem : Ulong → Ulong} {r : HeapRun}

/-! ### Heaps of two gigabytes and more -/

theorem freelist_sysinit : ∀ n : Core, (sysinit memheap maxaddr mem).freelist n =
    bootHead (roundmb memheap) (truncmb maxaddr) n
  | 0 | 1 | 2 | 3 => rfl

/-- A core whose block starts at `NULL` has nothing on its list. -/
theorem FreeListInv.eq_nil {h : Heap} {c : Core} {ps : List Ulong} (hps : h.FreeListInv c ps)
    (hhead : (h.freelist c).head = NULL) : ps = [] := by
  cases ps with
  | nil => rfl
  | cons p ps => exact absurd (hhead.symm.trans hps.chain.1 ▸ mem_cons_self) hps.nonnull

/-- A block without a successor is alone on its list. -/
theorem FreeListInv.eq_singleton {h : Heap} {c : Core} {ps : List Ulong} {p : Ulong}
    (hps : h.FreeListInv c ps) (hhead : (h.freelist c).head = p) (hne : p ≠ NULL)
    (hnext : h.next p = NULL) : ps = [p] :=
  hps.chain.unique ⟨hhead, hnext⟩ hps.nonnull (by simpa using hne.symm)

/-- The pointer difference is negative, and so is the length of a
region. As a `ulong` it is almost the whole address space. -/
theorem bootLength_of_large (hlo : 8 ∣ lo.toNat) (hhi : 8 ∣ hi.toNat)
    (hlarge : lo.toNat + 2 ^ 31 ≤ hi.toNat) : 7 * 2 ^ 29 ≤ (bootLength lo hi).toNat := by
  have hsub : (hi - lo).toNat = hi.toNat - lo.toNat := toNat_sub_of_le (le_def.mpr (by omega))
  have hmsb : (hi - lo).msb = true := by
    rw [msb_eq_decide, hsub]
    exact decide_eq_true (by omega)
  have h4 : (BitVec.ofNat 32 NCORES).msb = false := by decide
  have hlt := hi.isLt
  rw [bootLength, toNat_truncmb, sdiv_eq, hmsb, h4]
  simp only [toNat_neg, udiv_eq, toNat_udiv, hsub]
  show _ ≤ (2 ^ 32 - (2 ^ 32 - (hi.toNat - lo.toNat)) % 2 ^ 32 / 4) % 2 ^ 32 / 8 * 8
  omega

theorem bootLength_pos (hlo : 8 ∣ lo.toNat) (hhi : 8 ∣ hi.toNat)
    (hsize : lo.toNat + 8 * NCORES ≤ hi.toNat) : 0 < (bootLength lo hi).toNat := by
  by_cases hsmall : hi.toNat < lo.toNat + 2 ^ 31
  · exact Nat.lt_of_lt_of_le (by decide) (bootLength_bounds ⟨hsize, hsmall⟩).1
  · have := bootLength_of_large hlo hhi (Nat.not_lt.mp hsmall)
    omega

/-- A base on the grid needs no rounding. -/
theorem bootBase_eq (hlo : 8 ∣ lo.toNat) (n : Core) :
    bootBase lo hi n = lo + bootLength lo hi * BitVec.ofNat 32 n := by
  have hgrid : 8 ∣ (bootLength lo hi).toNat := aligned_truncmb _
  have hprod := (Nat.dvd_mod_iff (by decide : 8 ∣ 2 ^ 32)).mpr
    (Nat.dvd_mul_right_of_dvd hgrid (BitVec.ofNat 32 n).toNat)
  refine roundmb_of_aligned ?_
  show 8 ∣ _
  rw [toNat_add, toNat_mul]
  exact (Nat.dvd_mod_iff (by decide)).mpr (Nat.dvd_add hlo hprod)

theorem bootBase_zero (hlo : 8 ∣ lo.toNat) : bootBase lo hi 0 = lo := by
  rw [bootBase_eq hlo]
  show lo + _ * 0#32 = _
  rw [BitVec.mul_zero, BitVec.add_zero]

/-- One `getmem` on the last core: what is left of its block starts where
the block of core 0 does. The length there is not the total of core 0
any more. -/
theorem exists_overlap {m : Ulong → Ulong} (hlo : roundmb memheap = lo) (hhi : truncmb maxaddr = hi)
    (hlarge : lo.toNat + 2 ^ 31 ≤ hi.toNat) (hnull : bootBase lo hi 3 ≠ NULL) :
    ∃ (r : HeapRun) (req : Request), HeapReachable memheap maxaddr m r ∧
      r.heap.freelist 0 = ⟨lo, bootLength lo hi, lo, bootLength lo hi⟩ ∧
      r.heap.next lo = NULL ∧ (r.heap.length lo).toNat < (bootLength lo hi).toNat ∧
      r.live = [⟨bootBase lo hi 3, req⟩] ∧ bootBase lo hi 3 + roundmb req.nbytes = lo := by
  have halo : Aligned lo := hlo ▸ aligned_roundmb _
  have hlen := bootLength_of_large halo (hhi ▸ aligned_truncmb _) hlarge
  have hgrid : 8 ∣ (bootLength lo hi).toNat := aligned_truncmb _
  have hlt := (bootLength lo hi).isLt
  -- Nothing is written over the block of the last core.
  obtain ⟨hhead, hnext, hlength⟩ : (sysinit memheap maxaddr m).Booted lo hi 3 :=
    hlo ▸ hhi ▸ booted_initFreelist_self _ 3
  have hstart := congrArg Memhead.head hhead
  have hfirst : (sysinit memheap maxaddr m).freelist 0 = _ := freelist_sysinit 0
  rw [hlo, hhi, bootHead, bootBase_zero halo] at hfirst
  have hbase : bootBase lo hi 3 = lo + bootLength lo hi * 3 := bootBase_eq halo 3
  have halign := aligned_bootBase lo hi 3
  change _ = bootBase lo hi 3 at hstart
  unfold HeapReachable
  generalize sysinit memheap maxaddr m = h₀ at *
  generalize bootLength lo hi = len at *
  generalize bootBase lo hi 3 = base at *
  -- Three lengths above the block of the last core is that of core 0.
  have hn : (-(len * 3)).toNat = 3 * (2 ^ 32 - len.toNat) := by
    rw [toNat_neg, toNat_mul]
    show (2 ^ 32 - len.toNat * 3 % 2 ^ 32) % 2 ^ 32 = _
    omega
  have hround : roundmb (-(len * 3)) = -(len * 3) :=
    roundmb_of_aligned (by unfold Aligned; omega)
  let req : Request := ⟨-(len * 3), fun h0 => by rw [h0] at hn; simp at hn; omega, by omega⟩
  have hrun : h₀.getmem 3 req.nbytes = .ok (base, h₀.takeFront 3 .list base (-(len * 3))) := by
    have hne : len ≠ -(len * 3) := fun heq => by
      rw [← heq] at hn
      omega
    rw [getmem, if_neg req.pos, hround, hstart, show fuel = 2 ^ 32 - 1 + 1 from rfl, getmemLoop,
      if_neg hnull, hlength, if_neg hne, if_pos (lt_def.mpr (by omega))]
  have hsys : base ≠ SYSERR := by
    rintro rfl
    exact absurd halign (by decide)
  have hleft : base + -(len * 3) = lo := by
    rw [hbase, ← sub_eq_add_neg, add_sub_cancel]
  have hother : base + 4 ≠ lo := (Aligned.ne_add_four halo halign).symm
  have hself : lo ≠ lo + 4 := Aligned.ne_add_four halo halo
  refine ⟨_, req, .single (HeapStep.getmem 3 req hrun), ?_, ?_, ?_, if_neg hsys, ?_⟩
  · simp [takeFront, setTotal, setHead, store, setNext, hfirst]
  · show (update (update h₀.mem (base + -(len * 3)) (h₀.next base)) _ _) lo = NULL
    rw [hleft, update_of_ne hself, update_self, hnext]
  · show ((update (update h₀.mem (base + -(len * 3)) (h₀.next base)) (base + -(len * 3) + 4)
      (update h₀.mem (base + -(len * 3)) (h₀.next base) (base + 4) - -(len * 3)))
        (lo + 4)).toNat < _
    rw [hleft, update_self, update_of_ne hother]
    change (h₀.length base - _).toNat < _
    rw [hlength, toNat_sub_of_le (le_def.mpr (by omega)), hn]
    omega
  · rw [hround, hleft]

/-- At boot the last core has a block, unless the heap starts at `NULL`. -/
theorem booted_pos (hnull : roundmb memheap ≠ NULL)
    (hps : ∃ ps, (sysinit memheap maxaddr mem).FreeListInv 3 ps) :
    bootBase (roundmb memheap) (truncmb maxaddr) 3 ≠ NULL ∧
      0 < (bootLength (roundmb memheap) (truncmb maxaddr)).toNat := by
  obtain ⟨ps, hps⟩ := hps
  have hboot : (sysinit memheap maxaddr mem).Booted (roundmb memheap) (truncmb maxaddr) 3 :=
    booted_initFreelist_self _ 3
  have htotal := hps.total
  have hhead := congrArg Memhead.head hboot.head
  have hbase : bootBase (roundmb memheap) (truncmb maxaddr) 3 ≠ NULL := by
    intro hzero
    obtain rfl := hps.eq_nil (hhead.trans hzero)
    rw [hboot.head] at htotal
    have hlen : bootLength (roundmb memheap) (truncmb maxaddr) = 0#32 := eq_of_toNat_eq htotal
    rw [bootBase_eq (aligned_roundmb _), hlen, BitVec.zero_mul, BitVec.add_zero] at hzero
    exact hnull hzero
  obtain rfl := hps.eq_singleton hhead hbase hboot.next
  exact ⟨hbase, hboot.length ▸ hps.length_pos _ mem_cons_self⟩

/-- A free list whose only block is shorter than its total. -/
theorem not_freeListInv_overlap {h : Heap} {len : Ulong}
    (hfirst : h.freelist 0 = ⟨lo, len, lo, len⟩)
    (hlo : lo ≠ NULL) (hnext : h.next lo = NULL) (hlt : (h.length lo).toNat < len.toNat) :
    ¬ ∃ ps, h.FreeListInv 0 ps := by
  rintro ⟨ps, hps⟩
  have htotal := hps.total
  obtain rfl := hps.eq_singleton (congrArg Memhead.head hfirst) hlo hnext
  rw [hfirst] at htotal
  exact absurd (htotal.trans (Nat.add_zero _)) (Nat.ne_of_gt hlt)

/-! ### The free lists in every run -/

/-- In every state of every run each core's free list is well formed,
every `getmem` returns, and every `freemem` of an allocated block returns
`OK`. -/
def FreelistsSound (memheap maxaddr : Ulong) (mem : Ulong → Ulong) : Prop :=
  ∀ r, HeapReachable memheap maxaddr mem r →
    (∀ c, ∃ ps, r.heap.FreeListInv c ps) ∧
    (∀ c (n : Request), ∃ p h', r.heap.getmem c n.nbytes = .ok (p, h')) ∧
    (∀ b ∈ r.live, ∃ h', r.heap.freemem b.ptr b.request.nbytes = .ok (.ok, h'))

/-- **The free-list invariant.** On a heap of at least one block per core
it holds in all runs exactly when the heap is one that `sysinit` can
divide: not at `NULL`, and with a pointer difference that is not
negative. -/
theorem freelist_invariant_iff (hsize : memheap.toNat + 8 * NCORES ≤ maxaddr.toNat) :
    FreelistsSound memheap maxaddr mem ↔ BootHeap memheap maxaddr := by
  unfold NCORES at hsize
  have hlo : (roundmb memheap).toNat = _ := toNat_roundmb (by have := maxaddr.isLt; omega)
  have hhi := toNat_truncmb maxaddr
  refine ⟨fun hsound => ?_, fun hb r hr => ?_⟩
  · obtain ⟨hlists, -, -⟩ := hsound _ .refl
    have hord : (roundmb memheap).toNat ≤ (truncmb maxaddr).toNat := by omega
    have hnull : roundmb memheap ≠ NULL := fun hzero => by
      obtain ⟨ps, hps⟩ := hlists 0
      have htotal := hps.total
      rw [freelist_sysinit] at htotal
      obtain rfl :=
        hps.eq_nil (by rw [freelist_sysinit]; exact (bootBase_zero (aligned_roundmb _)).trans hzero)
      refine absurd htotal (Nat.ne_of_gt (bootLength_pos (aligned_roundmb _)
        (aligned_truncmb _) ?_))
      rw [hzero] at hlo ⊢
      simp only [toNat_NULL] at hlo ⊢
      unfold NCORES
      omega
    obtain ⟨hbase, hpos⟩ := booted_pos hnull (hlists 3)
    refine ⟨hnull, le_def.mpr hord, (large_iff hord).mpr ⟨?_, ?_⟩⟩
    · by_contra hless
      unfold NCORES at hless
      rw [toNat_bootLength hord (by omega)] at hpos
      unfold NCORES at hpos
      omega
    · by_contra hlarge
      obtain ⟨r, req, hr, hfirst, hnext, hlt, -⟩ :=
        exists_overlap rfl rfl (Nat.not_lt.mp hlarge) hbase
      exact not_freeListInv_overlap hfirst hnull hnext hlt ((hsound r hr).1 0)
  · obtain ⟨free, hinv⟩ := heapInv_of_reachable hb hr
    refine ⟨fun c => ?_, fun c n => ?_, fun b hb => ?_⟩
    · obtain ⟨ps, hps, -⟩ := hinv.lists.freeListInv c
      exact ⟨ps, hps⟩
    · obtain ⟨p, h', -, hrun, -⟩ := hinv.getmem c n
      exact ⟨p, h', hrun⟩
    · obtain ⟨h', -, hrun, -, -⟩ := hinv.freemem hb
      exact ⟨h', hrun⟩

/-- The heap of the board after `getmem(100)` on core 1: the block is the
front of core 1's region. -/
def afterGetmem : HeapRun :=
  let boot := sysinit 0x48000 0x3EFFFFFC fun _ => 0
  ⟨boot.takeFront 1 .list (boot.freelist 1).head 104,
    [⟨(boot.freelist 1).head, 100, by decide, by decide⟩]⟩

theorem afterGetmem_reachable : HeapReachable 0x48000 0x3EFFFFFC (fun _ => 0) afterGetmem :=
  Relation.ReflTransGen.single
    (HeapStep.getmem (r := ⟨sysinit 0x48000 0x3EFFFFFC fun _ => 0, []⟩) 1
      ⟨100, by decide, by decide⟩ rfl)

theorem freelist_invariant_afterGetmem :
    (∀ c, ∃ ps, afterGetmem.heap.FreeListInv c ps) ∧
    ∃ h', afterGetmem.heap.freemem 0x0FC35FF8 100 = .ok (.ok, h') := by
  have hinv := (freelist_invariant_iff (by decide)).mpr (by decide) _ afterGetmem_reachable
  exact ⟨hinv.1, hinv.2.2 ⟨0x0FC35FF8, 100, by decide, by decide⟩ (by decide)⟩

/-- With a heap of almost four gigabytes, `getmem(0x0C00C000)` on core 3
writes into the block of core 0, whose total is then wrong. -/
theorem freelist_invariant_broken : ∃ r, HeapReachable 0x10000 0xF0000000 (fun _ => 0) r ∧
    ¬ ∃ ps, r.heap.FreeListInv 0 ps := by
  obtain ⟨r, req, hr, hfirst, hnext, hlt, -⟩ :=
    exists_overlap (m := fun _ => 0) (show roundmb 0x10000 = _ from rfl)
      (show truncmb 0xF0000000 = _ from rfl) (by decide) (by decide)
  exact ⟨r, hr, not_freeListInv_overlap hfirst (by decide) hnext hlt⟩

/-- The allocated blocks are pairwise disjoint and disjoint from the free
blocks, and the two together are exactly the region of each core. When
nothing is allocated, each free list is the single block it was at
boot. -/
def Partitioned (h₀ : Heap) (r : HeapRun) : Prop :=
  (r.live.Pairwise fun b c => b.span.Disjoint c.span) ∧
  (∀ b ∈ r.live, ∃ n, b.span.Within (r.heap.regionSpan n).start (r.heap.regionSpan n).stop) ∧
  (∀ n, ∃ ps, Chain r.heap.next (r.heap.freelist n).head ps NULL ∧ NULL ∉ ps ∧
    (∀ p ∈ ps, ∀ b ∈ r.live, (r.heap.span p).Disjoint b.span) ∧
    ∀ a, (r.heap.regionSpan n).Contains a ↔
      (∃ p ∈ ps, (r.heap.span p).Contains a) ∨
      ∃ b ∈ r.live, b.span.Within (r.heap.regionSpan n).start (r.heap.regionSpan n).stop ∧
        b.span.Contains a) ∧
  (∀ n, r.heap.regionSpan n = h₀.regionSpan n) ∧
  (r.live = [] → ∀ n, r.heap.freelist n = h₀.freelist n ∧
    r.heap.next (r.heap.freelist n).head = NULL ∧
    r.heap.length (r.heap.freelist n).head = (r.heap.freelist n).bound)

theorem partitioned_of_reachable (hb : BootHeap memheap maxaddr)
    (hr : HeapReachable memheap maxaddr mem r) :
    Partitioned (sysinit memheap maxaddr mem) r := by
  obtain ⟨free, hinv⟩ := heapInv_of_reachable hb hr
  refine ⟨hinv.disjoint, hinv.inRegion, fun n => ?_, fun n => congrFun hinv.fixed n,
    fun hlive n => ?_⟩
  · obtain ⟨ps, hps, hfree⟩ := hinv.lists.freeListInv n
    refine ⟨ps, hps.chain, hps.nonnull, fun p hp b hb a hpa hba => ?_, fun a => ?_⟩
    · have hcov : Covers (free n) a := ⟨_, hfree ▸ mem_map_of_mem hp, hpa⟩
      exact ((hinv.partition n a).mp hcov).2 ⟨b, hb, hba⟩
    · rw [hinv.region_iff, ← hfree]
      simp [Covers]
  · obtain ⟨hhead, hlen, hnext, hblock⟩ := hinv.reclaimed hlive n
    refine ⟨?_, hnext, hblock⟩
    have hregion := congrFun hinv.fixed n
    simp only [regionSpan, Span.mk.injEq] at hregion
    have hbase := eq_of_toNat_eq hregion.1
    have hbound := eq_of_toNat_eq hregion.2
    rw [freelist_sysinit] at hbase hbound ⊢
    rw [bootHead, Memhead.mk.injEq]
    exact ⟨hhead.trans hbase, hlen.trans hbound, hbase, hbound⟩

/-- At boot a core whose region starts at `NULL` has no free block. -/
theorem not_partitioned_boot {n : Core}
    (hsize : (roundmb memheap).toNat + 8 * NCORES ≤ (truncmb maxaddr).toNat)
    (hnull : bootBase (roundmb memheap) (truncmb maxaddr) n = NULL) :
    ¬ Partitioned (sysinit memheap maxaddr mem) ⟨sysinit memheap maxaddr mem, []⟩ := by
  rintro ⟨-, -, hparts, -⟩
  obtain ⟨ps, hchain, hnot, -, hregion⟩ := hparts n
  have hnil : [] = ps :=
    Chain.unique (by rw [freelist_sysinit]; exact hnull) hchain not_mem_nil hnot
  have hfirst := (hregion 0).mp (by
    simp only [regionSpan, freelist_sysinit, bootHead, hnull]
    exact ⟨Nat.le_refl _, by
      simpa [Span.stop] using bootLength_pos (aligned_roundmb _) (aligned_truncmb _) hsize⟩)
  simp [← hnil] at hfirst

/-- Of a block of the last core that ends where the region of core 0
starts, and a free block that is too short, neither covers the end of
that region. -/
theorem not_partitioned_overlap {req : Request} {base lo len : Ulong}
    (hfirst : r.heap.freelist 0 = ⟨lo, len, lo, len⟩) (hlo : lo ≠ NULL)
    (hnext : r.heap.next lo = NULL) (hlt : (r.heap.length lo).toNat < len.toNat)
    (hlive : r.live = [⟨base, req⟩]) (hend : base + roundmb req.nbytes = lo) :
    ¬ Partitioned h₀ r := by
  rintro ⟨-, -, hparts, -⟩
  obtain ⟨ps, hchain, hnot, -, hregion⟩ := hparts 0
  obtain rfl : ps = [lo] := hchain.unique ⟨by rw [hfirst], hnext⟩ hnot (by simpa using hlo.symm)
  have hpos := toNat_roundmb_pos req.pos req.noWrap
  have hsum := congrArg BitVec.toNat hend
  rw [toNat_add] at hsum
  have hlast := (hregion (lo.toNat + len.toNat - 1)).mp (by
    simp only [regionSpan, hfirst, Span.Contains, Span.stop]
    omega)
  simp only [hlive, mem_singleton, exists_eq_left, regionSpan, hfirst, span, Alloc.span,
    Span.Contains, Span.Within, Span.stop] at hlast
  omega

/-- **The heap is divided in every run** that starts with at least one
block per core, exactly when the heap is one that `sysinit` can
divide. -/
theorem heap_partition_iff
    (hsize : (roundmb memheap).toNat + 8 * NCORES ≤ (truncmb maxaddr).toNat) :
    (∀ r, HeapReachable memheap maxaddr mem r → Partitioned (sysinit memheap maxaddr mem) r) ↔
      BootHeap memheap maxaddr := by
  refine ⟨fun hparts => ?_, fun hb r => partitioned_of_reachable hb⟩
  have hboot : ∀ n, bootBase (roundmb memheap) (truncmb maxaddr) n ≠ NULL := fun n hzero =>
    not_partitioned_boot hsize hzero (hparts _ .refl)
  have hnull : roundmb memheap ≠ NULL := bootBase_zero (aligned_roundmb memheap) ▸ hboot 0
  have hord : (roundmb memheap).toNat ≤ (truncmb maxaddr).toNat := by omega
  refine ⟨hnull, le_def.mpr hord, (large_iff hord).mpr ⟨hsize, ?_⟩⟩
  by_contra hlarge
  obtain ⟨r, req, hr, hfirst, hnext, hlt, hlive, hend⟩ :=
    exists_overlap rfl rfl (Nat.not_lt.mp hlarge) (hboot 3)
  exact not_partitioned_overlap hfirst hnull hnext hlt hlive hend (hparts r hr)

theorem heap_partition_afterGetmem :
    afterGetmem.live ≠ [] ∧
    ∀ n, ∃ ps, Chain afterGetmem.heap.next (afterGetmem.heap.freelist n).head ps NULL ∧
      ∀ p ∈ ps, ∀ b ∈ afterGetmem.live, (afterGetmem.heap.span p).Disjoint b.span := by
  refine ⟨by decide, fun n => ?_⟩
  obtain ⟨ps, hchain, -, hdis, -⟩ :=
    ((heap_partition_iff (by decide)).mpr (by decide) _ afterGetmem_reachable).2.2.1 n
  exact ⟨ps, hchain, hdis⟩

/-- On the heap of almost four gigabytes, one `getmem` on core 3 leaves a
part of core 0's region neither free nor allocated. -/
theorem heap_partition_broken : ∃ r, HeapReachable 0x10000 0xF0000000 (fun _ => 0) r ∧
    ¬ Partitioned (sysinit 0x10000 0xF0000000 fun _ => 0) r := by
  obtain ⟨r, req, hr, hfirst, hnext, hlt, hlive, hend⟩ :=
    exists_overlap (m := fun _ => 0) (show roundmb 0x10000 = _ from rfl)
      (show truncmb 0xF0000000 = _ from rfl) (by decide) (by decide)
  exact ⟨r, hr, not_partitioned_overlap hfirst (by decide) hnext hlt hlive hend⟩

end Main

end Xinu.Heap
