import Mathlib.Data.List.Nodup
import Xinu.Lib.Chain
import Xinu.Lib.Spans
import Xinu.Proofs.Memory.Words

/-!
# `Xinu.Proofs.Memory.FreeList`: the intrusive list refines a list of spans

The abstract free list of a core is a list of address ranges
(`Lib.Span`). `Heap.Rep h n l` says that the words of memory, read from
`freelist[n].head` through the `next` words, spell the list `l`.

`Proofs/Memory/Getmem.lean` and `Proofs/Memory/Freemem.lean` say what
the two operations do to that list. Here are the facts both need: how
the words of two blocks interfere (they do not, blocks are aligned), how
a block joins and leaves a list, what `prev->next = v` does when `prev`
is the list head, and the frame condition `Touches`, which names what an
operation leaves alone: the other cores' heads and every word outside
the given addresses.
-/

namespace Xinu.Heap

open Lib Function List

variable {p : Ulong}

/-- The addresses of the block at `p`. -/
def span (h : Heap) (p : Ulong) : Span := ⟨p.toNat, (h.length p).toNat⟩

/-- The blocks at `ps` are aligned, end inside the address space, and
are separated in this order. -/
structure Blocks (h : Heap) (ps : List Ulong) : Prop where
  aligned : ∀ p ∈ ps, Aligned p
  nonnull : NULL ∉ ps
  grid : ∀ p ∈ ps, 8 ∣ (h.length p).toNat
  inMem : ∀ p ∈ ps, p.toNat + (h.length p).toNat < 2 ^ 32
  sep : Separated (ps.map h.span)

/-- The free list of core `n` is threaded through the blocks at `ps`. -/
structure Nodes (h : Heap) (n : Core) (ps : List Ulong) : Prop where
  chain : Chain h.next (h.freelist n).head ps NULL
  blocks : h.Blocks ps

/-- The free list of core `n` spells the list of ranges `l`. -/
def Rep (h : Heap) (n : Core) (l : List Span) : Prop :=
  ∃ ps, h.Nodes n ps ∧ ps.map h.span = l

/-- `h'` is `h` except for the head and the total of core `n` and the
words at addresses in `S`. -/
structure Touches (h h' : Heap) (n : Core) (S : Nat → Prop) : Prop where
  others : ∀ m, m ≠ n → h'.freelist m = h.freelist m
  base : (h'.freelist n).base = (h.freelist n).base
  bound : (h'.freelist n).bound = (h.freelist n).bound
  mem : ∀ a : Ulong, ¬ S a.toNat → h'.mem a = h.mem a
  memheap : h'.memheap = h.memheap
  maxaddr : h'.maxaddr = h.maxaddr

/-! ### Reading and writing words -/

section Words
variable {h : Heap} {n : Core} {p q v : Ulong}

@[simp] theorem store_freelist : (h.store p v).freelist = h.freelist := rfl

@[simp] theorem setHead_mem {m : Memhead} : (h.setHead n m).mem = h.mem := rfl

@[simp] theorem setHead_next {m : Memhead} : (h.setHead n m).next = h.next := rfl

@[simp] theorem setHead_length {m : Memhead} : (h.setHead n m).length = h.length := rfl

@[simp] theorem setTotal_mem : (h.setTotal n v).mem = h.mem := rfl

@[simp] theorem setTotal_next : (h.setTotal n v).next = h.next := rfl

@[simp] theorem setTotal_length : (h.setTotal n v).length = h.length := rfl

@[simp] theorem setTotal_span : (h.setTotal n v).span = h.span := rfl

@[simp] theorem setTotal_freelist_self :
    (h.setTotal n v).freelist n = { h.freelist n with length := v } := by
  simp [setTotal, setHead]

theorem next_store : (h.store p v).next = update h.next p v := rfl

@[simp] theorem next_store_self : (h.store p v).next p = v := by
  simp [next_store]

theorem next_store_of_ne (hne : q ≠ p) : (h.store p v).next q = h.next q := by
  simp [next_store, hne]

/-- Writing a `next` word leaves every length alone. -/
theorem length_store (hp : Aligned p) (hq : Aligned q) :
    (h.store p v).length q = h.length q :=
  update_of_ne (hp.ne_add_four hq).symm _ _

@[simp] theorem length_store_add_self : (h.store (p + 4) v).length p = v :=
  update_self _ _ _

/-- Writing the length of one block leaves the others' lengths alone. -/
theorem length_store_add_of_ne (hne : q ≠ p) :
    (h.store (p + 4) v).length q = h.length q :=
  update_of_ne (fun heq => hne (add_four_injective heq)) _ _

/-- Writing a length leaves every `next` word alone. -/
theorem next_store_add (hp : Aligned p) (hq : Aligned q) :
    (h.store (p + 4) v).next q = h.next q :=
  update_of_ne (hq.ne_add_four hp) _ _

end Words

/-! ### Blocks -/

section Blocks
variable {h h' : Heap} {ps qs : List Ulong}

/-- `Blocks` reads only the lengths of its own blocks. -/
theorem Blocks.congr (hb : h.Blocks ps) (hlen : ∀ p ∈ ps, h'.length p = h.length p) :
    h'.Blocks ps ∧ ps.map h'.span = ps.map h.span := by
  have hspan : ps.map h'.span = ps.map h.span :=
    map_congr_left fun p hp => by simp [span, hlen p hp]
  refine ⟨⟨hb.aligned, hb.nonnull, fun p hp => ?_, fun p hp => ?_, ?_⟩, hspan⟩
  · rw [hlen p hp]
    exact hb.grid p hp
  · rw [hlen p hp]
    exact hb.inMem p hp
  · rw [hspan]
    exact hb.sep

/-- Separated blocks are pairwise different. -/
theorem Blocks.nodup (hb : h.Blocks ps) : ps.Nodup := by
  have hgap := pairwise_map.mp hb.sep.gap
  refine hgap.imp_of_mem fun {p q} hp _ hlt heq => ?_
  subst heq
  simp only [span, Span.stop] at hlt
  omega

theorem Blocks.length_pos (hb : h.Blocks ps) (hp : p ∈ ps) :
    0 < (h.length p).toNat :=
  hb.sep.pos _ (mem_map_of_mem hp)

/-- A block holds both of its words. -/
theorem Blocks.contains_words (hb : h.Blocks ps) (hp : p ∈ ps) :
    (h.span p).Contains p.toNat ∧ (h.span p).Contains (p + 4).toNat := by
  have hlen := hb.length_pos hp
  have hgrid := hb.grid p hp
  rw [(hb.aligned p hp).toNat_add_four]
  simp only [span, Span.Contains, Span.stop]
  omega

/-- Blocks in memory increase along the list. -/
theorem Blocks.lt_of_append (hb : h.Blocks (ps ++ qs)) {p q : Ulong} (hp : p ∈ ps)
    (hq : q ∈ qs) : p.toNat + (h.length p).toNat < q.toNat := by
  have hgap := hb.sep.gap
  rw [map_append, pairwise_append] at hgap
  exact hgap.2.2 _ (mem_map_of_mem hp) _ (mem_map_of_mem hq)

theorem Blocks.of_append_left (hb : h.Blocks (ps ++ qs)) : h.Blocks ps where
  aligned p hp := hb.aligned p (mem_append_left _ hp)
  nonnull hp := hb.nonnull (mem_append_left _ hp)
  grid p hp := hb.grid p (mem_append_left _ hp)
  inMem p hp := hb.inMem p (mem_append_left _ hp)
  sep := ⟨fun s hs => hb.sep.pos s (by simp only [map_append, mem_append]; tauto),
    (pairwise_append.mp (map_append ▸ hb.sep.gap)).1⟩

/-- Dropping a block from the middle. -/
theorem Blocks.erase (hb : h.Blocks (ps ++ p :: qs)) : h.Blocks (ps ++ qs) := by
  have hsub : (ps ++ qs).Sublist (ps ++ p :: qs) :=
    (sublist_cons_self p qs).append_left ps
  refine ⟨fun q hq => hb.aligned q (hsub.subset hq), fun hq => hb.nonnull (hsub.subset hq),
    fun q hq => hb.grid q (hsub.subset hq), fun q hq => hb.inMem q (hsub.subset hq), ?_⟩
  have hsep := hb.sep
  rw [map_append, map_cons] at hsep
  rw [map_append]
  exact hsep.erase

/-- The block at `p` is fit for a free list. -/
structure Block (h : Heap) (p : Ulong) : Prop where
  aligned : Aligned p
  nonnull : p ≠ NULL
  grid : 8 ∣ (h.length p).toNat
  inMem : p.toNat + (h.length p).toNat < 2 ^ 32
  pos : 0 < (h.length p).toNat

theorem Blocks.block (hb : h.Blocks ps) (hp : p ∈ ps) : h.Block p :=
  ⟨hb.aligned p hp, fun heq => hb.nonnull (heq ▸ hp), hb.grid p hp, hb.inMem p hp,
    hb.length_pos hp⟩

/-- Adding a block with room on both sides. -/
theorem Blocks.add (hb : h.Blocks (ps ++ qs)) (hp : h.Block p)
    (hlo : ∀ q ∈ ps, q.toNat + (h.length q).toNat < p.toNat)
    (hhi : ∀ q ∈ qs, p.toNat + (h.length p).toNat < q.toNat) : h.Blocks (ps ++ p :: qs) := by
  have hall : ∀ q ∈ ps ++ p :: qs, q = p ∨ q ∈ ps ++ qs := fun q hq => by
    simp only [mem_append, mem_cons] at hq ⊢
    tauto
  refine ⟨fun q hq => ?_, fun hm => ?_, fun q hq => ?_, fun q hq => ?_, ?_⟩
  · rcases hall q hq with rfl | hq
    exacts [hp.aligned, hb.aligned q hq]
  · rcases hall _ hm with heq | hm
    exacts [hp.nonnull heq.symm, hb.nonnull hm]
  · rcases hall q hq with rfl | hq
    exacts [hp.grid, hb.grid q hq]
  · rcases hall q hq with rfl | hq
    exacts [hp.inMem, hb.inMem q hq]
  · have hsep := hb.sep
    rw [map_append] at hsep
    rw [map_append, map_cons]
    refine hsep.add_between hp.pos (fun s hs => ?_) fun s hs => ?_
    · obtain ⟨q, hq, rfl⟩ := mem_map.mp hs
      exact hlo q hq
    · obtain ⟨q, hq, rfl⟩ := mem_map.mp hs
      exact hhi q hq

end Blocks

/-- A list of separated blocks in a 32-bit address space is shorter than
the loops' bound. -/
theorem Blocks.length_lt_fuel {h : Heap} {qs : List Ulong} (hb : h.Blocks qs) :
    qs.length < fuel := by
  have hle : 0 + total _ ≤ 2 ^ 32 - 1 := hb.sep.total_le 0 (by omega) fun s hs => by
    obtain ⟨p, hp, rfl⟩ := mem_map.mp hs
    have := hb.inMem p hp
    exact ⟨Nat.zero_le _, by simp only [span, Span.stop]; omega⟩
  have hlen := hb.sep.length_le_total
  rw [length_map] at hlen
  unfold fuel
  omega

/-! ### The predecessor pointer -/

/-- The `prev` of the search loops after passing the blocks at `ps`: the
list head at first, then the last block passed. -/
def prevPtr (ps : List Ulong) : MemPtr :=
  match ps.getLast? with
  | none => .list
  | some p => .block p

@[simp] theorem prevPtr_nil : prevPtr [] = .list := rfl

@[simp] theorem prevPtr_concat (ps : List Ulong) (p : Ulong) :
    prevPtr (ps ++ [p]) = .block p := by
  simp [prevPtr]

section SetNext
variable {h : Heap} {n : Core} {ps : List Ulong} {v : Ulong}

/-- `prev->next = v` redirects the end of the part of the list already
passed, at the list head and at a block alike. -/
theorem chain_setNext {z : Ulong} (hc : Chain h.next (h.freelist n).head ps z)
    (hnd : ps.Nodup) :
    Chain (h.setNext n (prevPtr ps) v).next ((h.setNext n (prevPtr ps) v).freelist n).head
      ps v := by
  rcases eq_nil_or_concat ps with rfl | ⟨ps, p, rfl⟩
  · simp [setNext, setHead]
  · rw [concat_eq_append] at hc hnd ⊢
    have hp : p ∉ ps := by
      rw [nodup_append] at hnd
      exact fun hm => hnd.2.2 p hm p (by simp) rfl
    simp only [prevPtr_concat, setNext, store_freelist, next_store]
    exact hc.relink hp

/-- `prev->next = v` writes no word except a `next` word of `ps`. -/
theorem mem_setNext {a : Ulong} (ha : a ∉ ps) :
    (h.setNext n (prevPtr ps) v).mem a = h.mem a := by
  rcases eq_nil_or_concat ps with rfl | ⟨ps, p, rfl⟩
  · rfl
  · rw [concat_eq_append] at ha ⊢
    rw [prevPtr_concat]
    exact update_of_ne (fun heq => ha (by simp [heq])) _ _

theorem length_setNext {q : Ulong} (hps : ∀ p ∈ ps, Aligned p) (hq : Aligned q) :
    (h.setNext n (prevPtr ps) v).length q = h.length q :=
  mem_setNext fun hm => (hps _ hm).ne_add_four hq rfl

theorem next_setNext {q : Ulong} (hq : q ∉ ps) :
    (h.setNext n (prevPtr ps) v).next q = h.next q :=
  mem_setNext hq

/-- `prev->next = v` keeps every field of the heads but one. -/
theorem freelist_setNext (prev : MemPtr) (m : Core) :
    ((h.setNext n prev v).freelist m).length = (h.freelist m).length ∧
    ((h.setNext n prev v).freelist m).base = (h.freelist m).base ∧
    ((h.setNext n prev v).freelist m).bound = (h.freelist m).bound ∧
    (m ≠ n → (h.setNext n prev v).freelist m = h.freelist m) := by
  cases prev with
  | list =>
    by_cases hm : m = n
    · subst hm
      simp [setNext, setHead]
    · simp [setNext, setHead, hm]
  | block p => simp [setNext]

theorem setNext_memheap (prev : MemPtr) :
    (h.setNext n prev v).memheap = h.memheap ∧ (h.setNext n prev v).maxaddr = h.maxaddr := by
  cases prev <;> exact ⟨rfl, rfl⟩

end SetNext

/-! ### Frames -/

section Touches
variable {h h' h'' : Heap} {n : Core} {S : Nat → Prop}

theorem Touches.refl (h : Heap) (n : Core) (S : Nat → Prop) : h.Touches h n S :=
  ⟨fun _ _ => rfl, rfl, rfl, fun _ _ => rfl, rfl, rfl⟩

theorem Touches.trans (h1 : h.Touches h' n S) (h2 : h'.Touches h'' n S) : h.Touches h'' n S :=
  ⟨fun m hm => (h2.others m hm).trans (h1.others m hm), h2.base.trans h1.base,
    h2.bound.trans h1.bound, fun a ha => (h2.mem a ha).trans (h1.mem a ha),
    h2.memheap.trans h1.memheap, h2.maxaddr.trans h1.maxaddr⟩

theorem touches_store {p v : Ulong} (hp : S p.toNat) : h.Touches (h.store p v) n S :=
  ⟨fun _ _ => rfl, rfl, rfl, fun a ha => update_of_ne (by rintro rfl; exact ha hp) _ _,
    rfl, rfl⟩

theorem touches_setTotal {v : Ulong} : h.Touches (h.setTotal n v) n S :=
  ⟨fun m hm => by simp [setTotal, setHead, hm], by simp, by simp, fun _ _ => rfl, rfl, rfl⟩

theorem touches_setNext {ps : List Ulong} {v : Ulong} (hps : ∀ p ∈ ps, S p.toNat) :
    h.Touches (h.setNext n (prevPtr ps) v) n S :=
  ⟨fun m hm => (freelist_setNext _ m).2.2.2 hm, (freelist_setNext _ n).2.1,
    (freelist_setNext _ n).2.2.1, fun _ ha => mem_setNext fun hm => ha (hps _ hm),
    (setNext_memheap _).1, (setNext_memheap _).2⟩

/-- A free list whose head and blocks are untouched still spells the
same ranges. -/
theorem Rep.congr {l : List Span} (hrep : h.Rep n l)
    (hhead : (h'.freelist n).head = (h.freelist n).head)
    (hmem : ∀ a : Ulong, Covers l a.toNat → h'.mem a = h.mem a) : h'.Rep n l := by
  obtain ⟨ps, hn, rfl⟩ := hrep
  have hcov : ∀ p ∈ ps, Covers (ps.map h.span) p.toNat ∧ Covers (ps.map h.span) (p + 4).toNat :=
    fun p hp => ⟨⟨_, mem_map_of_mem hp, (hn.blocks.contains_words hp).1⟩,
      ⟨_, mem_map_of_mem hp, (hn.blocks.contains_words hp).2⟩⟩
  obtain ⟨hb, hspan⟩ := hn.blocks.congr fun p hp => hmem (p + 4) (hcov p hp).2
  refine ⟨ps, ⟨?_, hb⟩, hspan⟩
  rw [hhead]
  exact hn.chain.congr fun p hp => hmem p (hcov p hp).1

end Touches

/-- The running total is not part of the list. -/
theorem rep_setTotal {h : Heap} {n : Core} {v : Ulong} {l : List Span} (hrep : h.Rep n l) :
    (h.setTotal n v).Rep n l :=
  hrep.congr (by simp) fun _ _ => rfl

end Xinu.Heap
