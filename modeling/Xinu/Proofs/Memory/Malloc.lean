import Xinu.Lib.Runs
import Xinu.Proofs.Memory.Calls
import Xinu.System.Malloc

/-!
# `Xinu.Proofs.Memory.Malloc`: `malloc` and `free`

Two results, each under a condition that the code does not check.

* `alloc_removes_iff`: the memory that `getmem` and `malloc` hand out has
  left the free list exactly when the rounding of the size does not wrap
  or the call fails. The sizes just below `2 ^ 32` get too little
  (`malloc_wraps`).
* `free_reports_of_reachable`: `free` returns `OK` for the blocks that
  are in use and `SYSERR` for the others, as long as the accounting block
  of a freed pointer does not happen to survive. When a block is merged
  into its predecessor its words stay in memory, and `free` reports
  success for the second time (`freeTwice_board`).

The second is about runs. `MallocRun` records the blocks in use and the
pointers that `malloc` has returned. Its invariant adds to `HeapInv` that
the accounting blocks are intact: users write to their own part only.
-/

namespace Xinu.Heap

open Lib Function List BitVec

/-! ### Sizes -/

section Sizes
variable {h h' : Heap} {free : Core → List Span} {c : Core} {p size : Ulong}

theorem toNat_add_sizeofMemblock {x : Ulong} (hx : x.toNat + 12 < 2 ^ 32) :
    (x + sizeofMemblock).toNat = x.toNat + 12 := by
  rw [toNat_add]
  exact Nat.mod_eq_of_lt hx

theorem add_sizeofMemblock_ne_zero (hsize : size.toNat + 12 < 2 ^ 32) :
    size + sizeofMemblock ≠ 0 := fun hz => by
  have hsum := toNat_add_sizeofMemblock hsize
  rw [hz] at hsum
  exact absurd hsum (by simp)

/-- `malloc` without memory. -/
theorem malloc_of_getmem_syserr
    (hrun : h.getmem c (size + sizeofMemblock) = .ok (SYSERR, h)) :
    h.malloc c size = .ok (NULL, h) := by
  unfold malloc
  split
  · rfl
  · simp only [hrun, ok_bind, if_pos]
    rfl

/-- `malloc` with the block at `p`. -/
theorem malloc_of_getmem (h0 : size ≠ 0) (hp : p ≠ SYSERR)
    (hrun : h.getmem c (size + sizeofMemblock) = .ok (p, h')) :
    h.malloc c size = .ok (p + sizeofMemblock, h'.account p (size + sizeofMemblock)) := by
  simp only [malloc, if_neg h0, hrun, ok_bind, if_neg hp]
  rfl

/-- The range a successful `getmem` returns was free and is not free any
more. -/
theorem Lists.getmem_removes (hf : h.Lists free) (c : Core) {nbytes : Ulong} (h0 : nbytes ≠ 0)
    (hwrap : nbytes.toNat + 7 < 2 ^ 32) :
    h.getmem c nbytes = .ok (SYSERR, h) ∨
    ∃ p h' free', h.getmem c nbytes = .ok (p, h') ∧ p ≠ SYSERR ∧ h'.Lists free' ∧
      p.toNat + (roundmb nbytes).toNat < 2 ^ 32 ∧
      ∀ a, (Span.mk p.toNat (roundmb nbytes).toNat).Contains a →
        Covers (free c) a ∧ ∀ d, ¬ Covers (free' d) a := by
  rcases hf.getmem c h0 hwrap with
    ⟨-, hrun⟩ | ⟨p, l', h', hfit, -, hne, hrun, -, hlists, -, -⟩
  · exact Or.inl hrun
  · have hpos := toNat_roundmb_pos h0 hwrap
    have hcov : ∀ a, (Span.mk p.toNat (roundmb nbytes).toNat).Contains a →
        Covers (free c) a := fun a ha => covers_of_firstFit hfit ha
    have hin := Span.within_of_contains (t := h.regionSpan c) hpos fun a ha =>
      hf.inside c a (hcov a ha)
    refine Or.inr ⟨p, h', _, hrun, hne, hlists, Nat.lt_of_le_of_lt hin.2 (hf.layout.stop_lt c),
      fun a ha => ⟨hcov a ha, fun d => ?_⟩⟩
    by_cases hd : d = c
    · subst hd
      rw [update_self, covers_firstFit (hf.separated d) hfit]
      exact fun hno => hno.2 ha
    · -- Another core's list lies in another region.
      rw [update_of_ne hd]
      exact fun hother => hf.layout.disjoint d c hd a (hf.inside d a hother)
        (hf.inside c a (hcov a ha))

/-- Writing the accounting block of a range that is not free changes no
free list. -/
theorem Lists.account (hf : h.Lists free) {len : Nat}
    (hlen : 12 ≤ len) (hmem : p.toNat + len < 2 ^ 32)
    (hnot : ∀ a, (Span.mk p.toNat len).Contains a → ∀ d, ¬ Covers (free d) a) :
    (h.account p size).Lists free := by
  have hword : ∀ k : Ulong, k.toNat ≤ 8 → ∀ d, ¬ Covers (free d) (p + k).toNat := by
    intro k hk
    refine hnot _ ?_
    rw [toNat_add, Nat.mod_eq_of_lt (by omega)]
    simp only [Span.Contains, Span.stop]
    omega
  have hfirst : ∀ d, ¬ Covers (free d) p.toNat :=
    hnot _ ⟨Nat.le_refl _, by simp only [Span.stop]; omega⟩
  exact ((hf.store hfirst _).store (hword 8 (by decide)) _).store (hword 4 (by decide)) _

end Sizes

/-- What `getmem(size)` returns has left the free list, with at least the
bytes asked for. -/
def GetmemRemoves (h : Heap) (c : Core) (size : Ulong) : Prop :=
  ∃ p h', h.getmem c size = .ok (p, h') ∧
    (p ≠ SYSERR → h'.WellFormed ∧ ∀ a, (Span.mk p.toNat size.toNat).Contains a →
      h.FreeAt c a ∧ ∀ d, ¬ h'.FreeAt d a)

/-- The bytes `malloc(size)` hands out lie in the block that it got,
after the accounting block, and that block has left the free list. -/
def MallocRemoves (h : Heap) (c : Core) (size : Ulong) : Prop :=
  ∃ p h', h.malloc c size = .ok (p, h') ∧
    (p ≠ NULL → h'.WellFormed ∧ ∃ q h1, h.getmem c (size + sizeofMemblock) = .ok (q, h1) ∧
      p.toNat = q.toNat + 12 ∧
      p.toNat + size.toNat ≤ q.toNat + (roundmb (size + sizeofMemblock)).toNat ∧
      ∀ a, (Span.mk q.toNat (roundmb (size + sizeofMemblock)).toNat).Contains a →
        h.FreeAt c a ∧ ∀ d, ¬ h'.FreeAt d a)

section Removes
variable {h : Heap} {c : Core} {ps : List Ulong} {size : Ulong}

theorem getmemRemoves (hw : h.WellFormed) (hwrap : size.toNat + 7 < 2 ^ 32) :
    h.GetmemRemoves c size := by
  obtain ⟨free, hf⟩ := wellFormed_iff.mp hw
  by_cases h0 : size = 0
  · exact ⟨SYSERR, h, by rw [Heap.getmem, if_pos h0], fun hne => absurd rfl hne⟩
  · rcases hf.getmem_removes c h0 hwrap with hrun | ⟨p, h', free', hrun, -, hf', -, hrem⟩
    · exact ⟨SYSERR, h, hrun, fun hne => absurd rfl hne⟩
    · refine ⟨p, h', hrun, fun _ => ⟨wellFormed_iff.mpr ⟨_, hf'⟩, fun a ha => ?_⟩⟩
      -- The bytes asked for are the first of the rounded range.
      have hround := toNat_roundmb hwrap
      have hin := hrem a ⟨ha.1, Nat.lt_of_lt_of_le ha.2 (by simp only [Span.stop]; omega)⟩
      simp only [hf.freeAt_iff, hf'.freeAt_iff]
      exact hin

theorem mallocRemoves (hw : h.WellFormed) (hwrap : size.toNat + 19 < 2 ^ 32) :
    h.MallocRemoves c size := by
  obtain ⟨free, hf⟩ := wellFormed_iff.mp hw
  by_cases h0 : size = 0
  · exact ⟨NULL, h, by rw [malloc, if_pos h0], fun hne => absurd rfl hne⟩
  · have hsum : (size + sizeofMemblock).toNat = size.toNat + 12 :=
      toNat_add_sizeofMemblock (by omega)
    -- The sum with the accounting block does not wrap, so it is no smaller.
    have hne : size + sizeofMemblock ≠ 0 := add_sizeofMemblock_ne_zero (by omega)
    rcases hf.getmem_removes c hne (by omega) with
      hrun | ⟨q, h1, free', hrun, hq, hf', hmem, hrem⟩
    · exact ⟨NULL, h, malloc_of_getmem_syserr hrun, fun hn => absurd rfl hn⟩
    · have hround : (roundmb (size + sizeofMemblock)).toNat = _ := toNat_roundmb (by omega)
      have hp := toNat_add_sizeofMemblock (x := q) (by omega)
      have hacc : (h1.account q (size + sizeofMemblock)).Lists free' :=
        hf'.account (by omega) hmem fun a ha => (hrem a ha).2
      refine ⟨q + sizeofMemblock, _, malloc_of_getmem h0 hq hrun,
        fun _ => ⟨wellFormed_iff.mpr ⟨_, hacc⟩, q, h1, hrun, hp, by omega, fun a ha => ?_⟩⟩
      simp only [hf.freeAt_iff, hacc.freeAt_iff]
      exact hrem a ha

/-- **Sizes that are cut short.** What `getmem` and `malloc` return has
left the free list in full exactly when the size does not wrap or the
call fails: because the wrapped sum is zero, or because no block of the
list is as long as the rounded size. -/
theorem alloc_removes_iff (hw : h.WellFormed) (hps : h.FreeListInv c ps) (size : Ulong) :
    (h.GetmemRemoves c size ↔ size.toNat + 7 < 2 ^ 32 ∨ ps = []) ∧
    (h.MallocRemoves c size ↔ size.toNat + 19 < 2 ^ 32 ∨ size + sizeofMemblock = 0 ∨
      ∀ q ∈ ps, (h.length q).toNat < (roundmb (size + sizeofMemblock)).toNat) := by
  refine ⟨⟨fun hrem => ?_, ?_⟩, fun hrem => ?_, ?_⟩
  · by_contra hor
    obtain ⟨hwrap, hne⟩ := not_or.mp hor
    obtain ⟨q, qs, rfl⟩ := exists_cons_of_ne_nil hne
    obtain ⟨p, h', hrun, hrem⟩ := hrem
    -- The first block is returned and is still on the list.
    obtain ⟨rfl, rfl⟩ := ok_pair (hrun.symm.trans (getmem_of_wrap hps (Nat.not_lt.mp hwrap)))
    have hfirst := (hrem (hps.ne_syserr mem_cons_self)).2 p.toNat
      ⟨Nat.le_refl _, by simp only [Span.stop]; omega⟩
    exact hfirst.2 c hfirst.1
  · rintro (hwrap | rfl)
    · exact getmemRemoves hw hwrap
    · rcases getmem_cases hw hps size with ⟨-, hrun⟩ | ⟨p, hp, -⟩
      · exact ⟨SYSERR, h, hrun, fun hne => absurd rfl hne⟩
      · exact absurd hp not_mem_nil
  · rcases getmem_cases hw hps (size + sizeofMemblock) with
      ⟨hfail, -⟩ | ⟨q, hq, -, -, h1, hget, -⟩
    · exact Or.inr hfail
    · left
      by_contra hwrap
      obtain ⟨p, h', hrun, hrem⟩ := hrem
      have h0 : size ≠ 0 := by
        rintro rfl
        exact hwrap (by decide)
      cases hrun.symm.trans (malloc_of_getmem h0 (hps.ne_syserr hq) hget)
      have halign := hps.aligned q hq
      have hround := toNat_roundmb_mod (size + sizeofMemblock)
      -- Twelve bytes above the grid is not `NULL`, and no block has that many bytes.
      have hnull : q + sizeofMemblock ≠ NULL := fun heq => by
        have hzero := congrArg BitVec.toNat heq
        rw [toNat_add, toNat_NULL] at hzero
        change (q.toNat + 12) % 2 ^ 32 = 0 at hzero
        omega
      obtain ⟨-, r, h2, -, hp, hle, -⟩ := hrem hnull
      omega
  · rintro (hwrap | hfail)
    · exact mallocRemoves hw hwrap
    · rcases getmem_cases hw hps (size + sizeofMemblock) with ⟨-, hget⟩ | ⟨q, hq, hne, hlong, -⟩
      · exact ⟨NULL, h, malloc_of_getmem_syserr hget, fun hne => absurd rfl hne⟩
      · exact absurd (hfail.resolve_left hne q hq) (Nat.not_lt.mpr hlong)

end Removes

/-- On the board, `malloc(100)` gets its block. `malloc(0xFFFFFFFF)`
would get sixteen bytes, and `getmem(0xFFFFFFFF)` a block that stays
free. -/
theorem alloc_removes_board : board.MallocRemoves 0 100 ∧ ¬ board.MallocRemoves 0 0xFFFFFFFF ∧
    ¬ board.GetmemRemoves 0 0xFFFFFFFF := by
  have hiff := fun size => alloc_removes_iff board_wellFormed board_freeListInv size
  refine ⟨(hiff 100).2.mpr (Or.inl (by decide)), fun hrem => ?_, fun hrem => ?_⟩
  · rcases (hiff 0xFFFFFFFF).2.mp hrem with hwrap | hzero | hshort
    · exact absurd hwrap (by decide)
    · exact absurd hzero (by decide)
    · exact absurd (hshort 0x48000 mem_cons_self) (by decide +kernel)
  · exact absurd ((hiff 0xFFFFFFFF).1.mp hrem) (by decide)

/-- `getmem(0xFFFFFFFF)` rounds the size to zero: the address it returns
stays free. `malloc(0xFFFFFFF5)` asks `getmem` for one byte. The pointer
that it returns is past the end of the eight bytes that it gets. -/
theorem malloc_wraps :
    (∃ h', board.getmem 0 0xFFFFFFFF = .ok (0x48000, h') ∧ h'.FreeAt 0 0x48000) ∧
    (∃ h', board.malloc 0 0xFFFFFFF5 = .ok (0x4800C, h')) ∧
    (∃ h', board.getmem 0 (0xFFFFFFF5 + sizeofMemblock) = .ok (0x48000, h')) ∧
    roundmb (0xFFFFFFF5 + sizeofMemblock) = 8 := by
  refine ⟨⟨_, rfl, [0x48000], ?_, ?_⟩, ⟨_, rfl⟩, ⟨_, rfl⟩, by decide⟩
  · exact freeListInv_singleton (by decide +kernel) (by decide +kernel) (by decide) (by decide)
      (by decide +kernel) (by decide +kernel) (by decide +kernel) (by decide +kernel)
  · exact ⟨_, mem_singleton.mpr rfl, by decide +kernel⟩

/-! ### Runs of `malloc` and `free` -/

/-- Memory in use: the pointer `malloc` returned and the size it was
asked for. -/
structure Chunk where
  ptr : Ulong
  size : Ulong
deriving DecidableEq

/-- The block of a chunk, accounting block included. -/
def Chunk.block (c : Chunk) : Span :=
  ⟨(c.ptr - sizeofMemblock).toNat, (roundmb (c.size + sizeofMemblock)).toNat⟩

/-- The heap, the chunks in use, and every pointer that `malloc` has
returned so far. -/
structure MallocRun where
  heap : Heap
  live : List Chunk
  returned : List Ulong

/-- What a user of the heap does. -/
inductive MallocCall where
  | malloc (cpuid : Core) (size : Ulong)
  | free (ptr : Ulong)
  | write (a v : Ulong)

namespace MallocRun

/-- A chunk is in use from the `malloc` that returns it to the `free`
that returns `OK` for it. -/
def exec (r : MallocRun) : MallocCall → Except Fault MallocRun
  | .malloc cpuid size => do
    let (ptr, heap) ← r.heap.malloc cpuid size
    return if ptr = NULL then { r with heap := heap }
      else ⟨heap, ⟨ptr, size⟩ :: r.live, ptr :: r.returned⟩
  | .free ptr => do
    let (res, heap) ← r.heap.free ptr
    return { r with
      heap := heap
      live := if res = .ok then r.live.filter (fun c => c.ptr ≠ ptr) else r.live }
  | .write a v => .ok { r with heap := r.heap.store a v }

/-- Pointers that are freed came from `malloc`, perhaps long ago. Writes
go to a word of the user part of a chunk in use. -/
def Permitted (r : MallocRun) : MallocCall → Prop
  | .malloc _ _ => True
  | .free ptr => ptr ∈ r.returned
  | .write a _ => 4 ∣ a.toNat ∧ ∃ c ∈ r.live, c.ptr.toNat ≤ a.toNat ∧ a.toNat < c.block.stop

/-- The calls for which `free` keeps its promise: no size wraps, and a
pointer that is freed again does not lead to a word that still points to
itself. -/
def Careful (r : MallocRun) : MallocCall → Prop
  | .malloc _ size => size.toNat + 19 < 2 ^ 32
  | .free ptr => (∃ c ∈ r.live, c.ptr = ptr) ∨
    r.heap.next (ptr - sizeofMemblock) ≠ ptr - sizeofMemblock
  | .write _ _ => True

/-- The states of the careful runs that start after `sysinit`. -/
def Reachable (memheap maxaddr : Ulong) (mem : Ulong → Ulong) (r : MallocRun) : Prop :=
  Reaches (fun r => r = ⟨sysinit memheap maxaddr mem, [], []⟩)
    (fun r a => r.Permitted a ∧ r.Careful a) exec r

end MallocRun

/-- The chunk in an allocated block. -/
def Alloc.chunk (b : Alloc) : Chunk := ⟨b.ptr + sizeofMemblock, b.request.nbytes - sizeofMemblock⟩

theorem Alloc.block_chunk (b : Alloc) : b.chunk.block = b.span := by
  simp only [chunk, Chunk.block, span, add_sub_cancel, sub_add_cancel]

/-- The accounting block of `b` is intact. -/
structure Accounted (h : Heap) (b : Alloc) : Prop where
  large : 12 < b.request.nbytes.toNat
  next : h.next b.ptr = b.ptr
  length : h.length b.ptr = b.request.nbytes

/-- The invariant of the careful runs. -/
structure MallocInv (h₀ : Heap) (r : MallocRun) (blocks : List Alloc) (free : Core → List Span) :
    Prop where
  heap : HeapInv h₀ ⟨r.heap, blocks⟩ free
  live : r.live = blocks.map Alloc.chunk
  accounted : ∀ b ∈ blocks, r.heap.Accounted b

section Accounts
variable {h h' : Heap} {b : Alloc}

/-- An accounting block takes the first two words of its block. -/
theorem Accounted.contains_words (hacc : h.Accounted b) (halign : Aligned b.ptr) :
    b.span.Contains b.ptr.toNat ∧ b.span.Contains (b.ptr + 4).toNat := by
  have hround := toNat_roundmb b.request.noWrap
  have hlarge := hacc.large
  rw [halign.toNat_add_four]
  simp only [Alloc.span, Span.Contains, Span.stop]
  omega

theorem Accounted.congr (hacc : h.Accounted b) (hnext : h'.mem b.ptr = h.mem b.ptr)
    (hlen : h'.mem (b.ptr + 4) = h.mem (b.ptr + 4)) : h'.Accounted b :=
  ⟨hacc.large, hnext.trans hacc.next, hlen.trans hacc.length⟩

/-- An accounting block reads only words of its own block. -/
theorem Accounted.of_span (hacc : h.Accounted b) (halign : Aligned b.ptr)
    (hmem : ∀ a : Ulong, b.span.Contains a.toNat → h'.mem a = h.mem a) : h'.Accounted b :=
  hacc.congr (hmem _ (hacc.contains_words halign).1) (hmem _ (hacc.contains_words halign).2)

/-- `malloc` writes a good accounting block. -/
theorem accounted_account (halign : Aligned b.ptr) (hlarge : 12 < b.request.nbytes.toNat) :
    (h.account b.ptr b.request.nbytes).Accounted b := by
  have hne : b.ptr ≠ b.ptr + 8 := by bv_omega
  refine ⟨hlarge, ?_, length_store_add_self⟩
  rw [account, next_store_add halign halign, setMarked, next_store_of_ne hne, next_store_self]

end Accounts

section Steps
variable {h₀ h : Heap} {blocks : List Alloc} {free : Core → List Span}
  (hinv : HeapInv h₀ ⟨h, blocks⟩ free)
include hinv

/-- `malloc` returns. It reports that there is no memory and leaves the
heap as it was, or it returns the chunk of a new block, and keeps the
words of the others. -/
theorem HeapInv.malloc (c : Core) {size : Ulong} (hsize : size.toNat + 19 < 2 ^ 32) :
    h.malloc c size = .ok (NULL, h) ∨
    ∃ b h' free', b.chunk.size = size ∧ b.chunk.ptr ≠ NULL ∧
      h.malloc c size = .ok (b.chunk.ptr, h') ∧ HeapInv h₀ ⟨h', b :: blocks⟩ free' ∧
      h'.Accounted b ∧ ∀ a : Ulong, LiveAt blocks a.toNat → h'.mem a = h.mem a := by
  by_cases h0 : size = 0
  · exact Or.inl (by rw [Heap.malloc, if_pos h0])
  · have hsum : (size + sizeofMemblock).toNat = size.toNat + 12 :=
      toNat_add_sizeofMemblock (by omega)
    have hpos : 0 < size.toNat := Nat.pos_of_ne_zero fun hz => h0 (eq_of_toNat_eq hz)
    let req : Request := ⟨size + sizeofMemblock, add_sizeofMemblock_ne_zero (by omega), by omega⟩
    rcases hinv.getmem_cases c req with hrun | ⟨p, h', free', hp, hrun, hnew, hkeep⟩
    · exact Or.inl (malloc_of_getmem_syserr hrun)
    · have halign : Aligned p := hnew.aligned _ mem_cons_self
      have hround := toNat_roundmb req.noWrap
      -- The block lies in a region, so its addresses do not wrap.
      obtain ⟨n, hwithin⟩ := hnew.inRegion ⟨p, req⟩ mem_cons_self
      have hstop := Nat.lt_of_le_of_lt hwithin.2 (hnew.layout.stop_lt n)
      have hend : (Alloc.mk p req).span.stop = p.toNat + (roundmb req.nbytes).toNat := rfl
      have hreq : req.nbytes.toNat = size.toNat + 12 := hsum
      have hword : ∀ k : Ulong, k.toNat ≤ 8 → (Alloc.mk p req).span.Contains (p + k).toNat := by
        intro k hk
        rw [toNat_add, Nat.mod_eq_of_lt (by omega)]
        simp only [Alloc.span, Span.Contains, Span.stop]
        omega
      have hfirst : (Alloc.mk p req).span.Contains p.toNat :=
        Span.contains_start (Alloc.mk p req).span_pos
      have hptr := toNat_add_sizeofMemblock (x := p) (by omega)
      refine Or.inr ⟨⟨p, req⟩, _, free', add_sub_cancel .., fun hz => ?_,
        malloc_of_getmem h0 hp hrun, ?_, accounted_account halign ?_, fun a ha => ?_⟩
      · have hzero := congrArg BitVec.toNat hz
        rw [show ((Alloc.mk p req).chunk.ptr).toNat = p.toNat + 12 from hptr] at hzero
        simp at hzero
      · exact (((hnew.write mem_cons_self hfirst).write mem_cons_self
          (hword 8 (by decide))).write mem_cons_self (hword 4 (by decide)))
      · show 12 < req.nbytes.toNat
        omega
      · -- The accounting block is written in the new block, apart from the others.
        have hout : ∀ x : Ulong, (Alloc.mk p req).span.Contains x.toNat → a ≠ x := by
          rintro x hx rfl
          obtain ⟨b, hb, hba⟩ := ha
          exact (pairwise_cons.mp hnew.disjoint).1 b hb _ hx hba
        have hmem : (h'.account p (size + sizeofMemblock)).mem a = h'.mem a :=
          (update_of_ne (hout _ (hword 4 (by decide))) _ _).trans
            ((update_of_ne (hout _ (hword 8 (by decide))) _ _).trans
              (update_of_ne (hout _ hfirst) _ _))
        exact hmem.trans (hkeep a ha)

/-- `free` of a chunk in use returns `OK` and gives its block back. -/
theorem HeapInv.freeChunk {b : Alloc} (hb : b ∈ blocks) (hacc : h.Accounted b) :
    ∃ h' free', h.free b.chunk.ptr = .ok (.ok, h') ∧ HeapInv h₀ ⟨h', blocks.erase b⟩ free' ∧
      ∀ a : Ulong, LiveAt (blocks.erase b) a.toNat → h'.mem a = h.mem a := by
  obtain ⟨h', free', hrun, hnew, hkeep⟩ := hinv.freemem hb
  have hblock : b.chunk.ptr - sizeofMemblock = b.ptr := add_sub_cancel ..
  have hret : h.freemem b.ptr b.request.nbytes = .ok (.ok, h') := hrun
  refine ⟨h', free', ?_, hnew, hkeep⟩
  rw [Heap.free, hblock, if_neg (not_not.mpr hacc.next), hacc.length, hret]
  rfl

/-- Chunks in use have different pointers. -/
theorem HeapInv.chunk_ptr_iff {b c : Alloc}
    (hb : b ∈ blocks) (hc : c ∈ blocks) : c.chunk.ptr = b.chunk.ptr ↔ c = b := by
  refine ⟨fun heq => ?_, fun heq => heq ▸ rfl⟩
  by_contra hne
  have hptr : c.ptr = b.ptr := by
    have hsub := congrArg (· - sizeofMemblock) heq
    simpa only [Alloc.chunk, add_sub_cancel] using hsub
  -- Two blocks with one start would share that address.
  have hstart : b.span.Contains c.span.start := by
    show b.span.Contains c.ptr.toNat
    rw [hptr]
    exact Span.contains_start b.span_pos
  exact hinv.disjoint.forall hc hb hne _ (Span.contains_start c.span_pos) hstart

/-- The chunks that stay in use when one is freed. -/
theorem HeapInv.filter_chunk {b : Alloc} (hb : b ∈ blocks) :
    (blocks.map Alloc.chunk).filter (fun c => c.ptr ≠ b.chunk.ptr) =
      (blocks.erase b).map Alloc.chunk := by
  rw [(nodup_of_disjoint hinv.disjoint).erase_eq_filter, filter_map]
  congr 1
  refine filter_congr fun c hc => ?_
  by_cases heq : c = b <;> simp [hinv.chunk_ptr_iff hb hc, heq]

end Steps

section Run
variable {h₀ : Heap} {r r' : MallocRun} {blocks : List Alloc} {free : Core → List Span}

/-- Every careful call keeps the invariant. -/
theorem MallocInv.step (hinv : MallocInv h₀ r blocks free) {a : MallocCall}
    (hperm : r.Permitted a) (hcare : r.Careful a) (hexec : r.exec a = .ok r') :
    ∃ blocks' free', MallocInv h₀ r' blocks' free' := by
  cases a with
  | malloc c size =>
    rcases hinv.heap.malloc c hcare with
      hrun | ⟨b, h', free', hsize, hnull, hrun, hnew, hacc, hkeep⟩
    · obtain ⟨⟨p, h'⟩, hret, hexec⟩ := bind_eq_ok hexec
      cases hret.symm.trans hrun
      cases hexec
      exact ⟨blocks, free, hinv⟩
    · obtain ⟨⟨p, h''⟩, hret, hexec⟩ := bind_eq_ok hexec
      cases hret.symm.trans hrun
      cases hexec
      rw [if_neg hnull]
      refine ⟨b :: blocks, free', hnew, ?_, forall_mem_cons.mpr ⟨hacc, fun d hd => ?_⟩⟩
      · rw [map_cons, ← hinv.live, ← hsize]
      · exact (hinv.accounted d hd).of_span (hinv.heap.aligned d hd) fun a ha =>
          hkeep a ⟨d, hd, ha⟩
  | free ptr =>
    obtain ⟨⟨res, h'⟩, hret, hexec⟩ := bind_eq_ok hexec
    cases hexec
    by_cases hlive : ∃ c ∈ r.live, c.ptr = ptr
    · obtain ⟨c, hc, rfl⟩ := hlive
      rw [hinv.live] at hc
      obtain ⟨b, hb, rfl⟩ := mem_map.mp hc
      obtain ⟨h'', free', hrun, hnew, hkeep⟩ := hinv.heap.freeChunk hb (hinv.accounted b hb)
      cases hret.symm.trans hrun
      refine ⟨blocks.erase b, free', hnew, ?_, fun d hd => ?_⟩
      · rw [if_pos rfl, hinv.live]
        exact hinv.heap.filter_chunk hb
      · have hd' := mem_of_mem_erase hd
        exact (hinv.accounted d hd').of_span (hinv.heap.aligned d hd') fun a ha =>
          hkeep a ⟨d, hd, ha⟩
    · -- The pointer is not in use, and its word does not point to itself.
      have hword := hcare.resolve_left hlive
      rw [Heap.free, if_pos hword] at hret
      cases hret
      exact ⟨blocks, free, hinv⟩
  | write a v =>
    cases hexec
    obtain ⟨-, c, hc, hlo, hhi⟩ := hperm
    rw [hinv.live] at hc
    obtain ⟨b, hb, rfl⟩ := mem_map.mp hc
    rw [b.block_chunk] at hhi
    have halign := hinv.heap.aligned b hb
    obtain ⟨n, hwithin⟩ := hinv.heap.inRegion b hb
    have hstop := Nat.lt_of_le_of_lt hwithin.2 (hinv.heap.layout.stop_lt n)
    have hround := toNat_roundmb b.request.noWrap
    have hlarge := (hinv.accounted b hb).large
    have hend : b.span.stop = b.ptr.toNat + (roundmb b.request.nbytes).toNat := rfl
    have huser : b.chunk.ptr.toNat = b.ptr.toNat + 12 := toNat_add_sizeofMemblock (by omega)
    have hin : b.span.Contains a.toNat := ⟨by show b.ptr.toNat ≤ _; omega, hhi⟩
    refine ⟨blocks, free, hinv.heap.write hb hin, hinv.live, fun d hd => ?_⟩
    -- The word is behind the accounting block of `b` and in no other block.
    have hd' := hinv.accounted d hd
    by_cases hdb : d = b
    · subst hdb
      refine hd'.congr (update_of_ne ?_ _ _) (update_of_ne ?_ _ _)
      · rintro rfl
        omega
      · rintro rfl
        rw [halign.toNat_add_four] at hlo
        omega
    · refine hd'.of_span (hinv.heap.aligned d hd) fun x hx => update_of_ne ?_ _ _
      rintro rfl
      exact hinv.heap.disjoint.forall hd hb hdb _ hx hin

theorem mallocInv_of_reachable {memheap maxaddr : Ulong} {mem : Ulong → Ulong}
    (hboot : BootHeap memheap maxaddr) (hr : MallocRun.Reachable memheap maxaddr mem r) :
    ∃ blocks free, MallocInv (sysinit memheap maxaddr mem) r blocks free := by
  refine Reaches.induction (P := fun r => ∃ blocks free,
    MallocInv (sysinit memheap maxaddr mem) r blocks free) hr (fun r hr => ?_)
    fun r a r' hinv hguard hexec => ?_
  · subst hr
    exact ⟨[], _, heapInv_sysinit hboot mem, rfl, by simp⟩
  · obtain ⟨blocks, free, hinv⟩ := hinv
    exact hinv.step hguard.1 hguard.2 hexec

end Run

/-- **`free` reports what it did.** In every state of every careful run,
`free` of a pointer that `malloc` once returned gives `OK` when the
pointer is in use, and then exactly the addresses of its block become
free. Otherwise it gives `SYSERR` and changes nothing. -/
theorem free_reports_of_reachable {memheap maxaddr : Ulong} {mem : Ulong → Ulong} {r : MallocRun}
    (hboot : BootHeap memheap maxaddr) (hr : MallocRun.Reachable memheap maxaddr mem r)
    {ptr : Ulong} (hptr : ptr ∈ r.returned) (hcare : r.Careful (.free ptr)) :
    ∃ res h', r.heap.free ptr = .ok (res, h') ∧
      (res = .ok ↔ ∃ c ∈ r.live, c.ptr = ptr) ∧
      (res = .ok → h'.WellFormed ∧ ∀ c ∈ r.live, c.ptr = ptr → ∀ a,
        ((∃ n, h'.FreeAt n a) ↔ (∃ n, r.heap.FreeAt n a) ∨ c.block.Contains a)) ∧
      (res = .syserr → h' = r.heap) := by
  obtain ⟨blocks, free, hinv⟩ := mallocInv_of_reachable hboot hr
  by_cases hlive : ∃ c ∈ r.live, c.ptr = ptr
  · obtain ⟨c, hc, rfl⟩ := hlive
    rw [hinv.live] at hc
    obtain ⟨b, hb, rfl⟩ := mem_map.mp hc
    obtain ⟨h', free', hrun, hnew, -⟩ := hinv.heap.freeChunk hb (hinv.accounted b hb)
    refine ⟨.ok, h', hrun, ?_, fun _ => ⟨wellFormed_iff.mpr ⟨_, hnew.lists⟩, fun c hc heq a => ?_⟩,
      by simp⟩
    · exact iff_of_true rfl ⟨b.chunk, hinv.live ▸ hc, rfl⟩
    · rw [hinv.live] at hc
      obtain ⟨d, hd, rfl⟩ := mem_map.mp hc
      obtain rfl := (hinv.heap.chunk_ptr_iff hb hd).mp heq
      simp only [hnew.lists.freeAt_iff, hinv.heap.lists.freeAt_iff, hnew.partition,
        hinv.heap.partition, d.block_chunk, liveAt_erase hinv.heap.disjoint hd,
        show h'.regionSpan = r.heap.regionSpan from hnew.fixed.trans hinv.heap.fixed.symm]
      -- Free is what no block in use covers, before the call and after it.
      constructor
      · rintro ⟨n, hn, hnot⟩
        by_cases hda : d.span.Contains a
        · exact Or.inr hda
        · exact Or.inl ⟨n, hn, fun hlive => hnot ⟨hlive, hda⟩⟩
      · rintro (⟨n, hn, hnot⟩ | hda)
        · exact ⟨n, hn, fun hlive => hnot hlive.1⟩
        · obtain ⟨n, hwithin⟩ := hinv.heap.inRegion d hd
          exact ⟨n, hwithin.contains hda, fun hlive => hlive.2 hda⟩
  · -- The accounting block does not point to itself, and `free` stops there.
    have hword := hcare.resolve_left hlive
    exact ⟨.syserr, r.heap, by rw [Heap.free, if_pos hword], by simp [hlive], by simp, by simp⟩

/-- A run on the board: one `malloc(8)`. -/
theorem malloc_reachable_board : ∃ h, board.malloc 0 8 = .ok (0x4800C, h) ∧
    MallocRun.Reachable 0x48000 0x3EFFFFFC (fun _ => 0) ⟨h, [⟨0x4800C, 8⟩], [0x4800C]⟩ := by
  refine ⟨_, rfl, Reaches.step (s := ⟨board, [], []⟩) (a := .malloc 0 8) ⟨_, rfl, .refl⟩
    ⟨trivial, show (8 : Ulong).toNat + 19 < 2 ^ 32 by decide⟩ rfl⟩

theorem free_reports_board :
    ∃ h h', board.malloc 0 8 = .ok (0x4800C, h) ∧ h.free 0x4800C = .ok (.ok, h') := by
  obtain ⟨h, hmalloc, hr⟩ := malloc_reachable_board
  obtain ⟨res, h', hfree, hok, -⟩ := free_reports_of_reachable (by decide) hr
    (mem_singleton.mpr rfl) (Or.inl ⟨_, mem_singleton.mpr rfl, rfl⟩)
  obtain rfl := hok.mpr ⟨_, mem_singleton.mpr rfl, rfl⟩
  exact ⟨h, h', hmalloc, hfree⟩

/-- Two chunks are allocated and freed, the second one twice: what the
three calls of `free` return, whether the last one has changed the free
list of core 0, and what `freemem` says inside it. -/
def freeTwice (h : Heap) : Except Fault (List Syscall × Bool × Syscall) := do
  let (p, h) ← h.malloc 0 8
  let (q, h) ← h.malloc 0 8
  let (first, h) ← h.free p
  let (second, h) ← h.free q
  let (third, h') ← h.free q
  let (inner, _) ← h.freemem (q - sizeofMemblock) (h.length (q - sizeofMemblock))
  return ([first, second, third], decide (h'.freelist 0 ≠ h.freelist 0), inner)

/-- The second block is merged into the first one, so its accounting
block stays in memory as it was. The third call passes it to `freemem`,
which refuses the overlap, and returns `OK`. -/
theorem freeTwice_board : freeTwice board = .ok ([.ok, .ok, .ok], false, .syserr) := by
  decide +kernel

end Xinu.Heap
