import Xinu.Proofs.Memory.FreeList

/-!
# `Xinu.Proofs.Memory.Freemem`: `freemem` is coalescing insertion

After its search, `freemem` either grows the block before
(`growBlock_spec`) or links a new block in (`linkBlock_spec`). Both then
run the same last step, which joins the block with its right neighbour
when the two touch (`coalesce_spec`). The three lemmas share one form:
the list they leave is `Lib.insertSpan` of a range into the other
blocks' ranges.

`freemem_spec` is the result: a range that overlaps no free block is
inserted, whatever mixture of the merging cases it takes.
-/

namespace Xinu.Heap

open Function Lib List BitVec

variable {memptr : Ulong}

section Freemem
variable {h : Heap} {n : Core} {p nbytes : Ulong} {ps qs rs : List Ulong}

/-- The search of `freemem` stops between the blocks below `block` and
the rest. -/
theorem freememSearch_spec (block : Ulong) :
    ∀ (qs ps : List Ulong) (fuel : Nat) (next : Ulong), qs.length < fuel → NULL ∉ qs →
      Chain h.next next qs NULL →
      ∃ pre post, qs = pre ++ post ∧ (∀ p ∈ pre, p < block) ∧
        (∀ q, post.head? = some q → ¬ q < block) ∧
        h.freememSearch block fuel (prevPtr ps) next
          = .ok (prevPtr (ps ++ pre), post.headD NULL)
  | qs, ps, 0, next, hf, _, _ => by simp at hf
  | [], ps, fuel + 1, next, _, _, hq => by
    rw [chain_nil] at hq
    exact ⟨[], [], rfl, by simp, by simp, by simp [freememSearch, hq]⟩
  | q :: qs, ps, fuel + 1, next, hf, hnull, hq => by
    obtain ⟨rfl, hq⟩ := hq
    have hne : next ≠ NULL := fun heq => hnull (by simp [← heq])
    by_cases hlt : next < block
    · obtain ⟨pre, post, rfl, hpre, hpost, hrun⟩ := freememSearch_spec block qs (ps ++ [next])
        fuel (h.next next) (by simpa using hf) (fun hm => hnull (mem_cons_of_mem _ hm)) hq
      refine ⟨next :: pre, post, rfl, forall_mem_cons.mpr ⟨hlt, hpre⟩, hpost, ?_⟩
      rw [prevPtr_concat] at hrun
      rw [freememSearch, if_pos ⟨hne, hlt⟩, hrun]
      simp
    · refine ⟨[], next :: qs, rfl, by simp, by simpa using hlt, ?_⟩
      rw [freememSearch, if_neg (fun hc => hlt hc.2)]
      simp

/-- A block does not end past the last address. -/
theorem Block.toNat_add_length (hp : h.Block p) :
    (p + h.length p).toNat = p.toNat + (h.length p).toNat := by
  rw [toNat_add, Nat.mod_eq_of_lt hp.inMem]

/-- The blocks after `p` start past its end. -/
theorem Blocks.lt_of_cons {q : Ulong} (hb : h.Blocks (ps ++ p :: qs)) (hq : q ∈ qs) :
    p.toNat + (h.length p).toNat < q.toNat := by
  have hb' : h.Blocks ((ps ++ [p]) ++ qs) := by simpa using hb
  exact hb'.lt_of_append (mem_append_right _ mem_cons_self) hq

/-- The block at `p` and its right neighbour `q`, which it touches, become
one. -/
theorem coalesce_join {q : Ulong}
    (hc : Chain h.next (h.freelist n).head (ps ++ p :: q :: qs) NULL)
    (hb : h.Blocks (ps ++ q :: qs)) (hp : h.Block p)
    (hlo : ∀ r ∈ ps, r.toNat + (h.length r).toNat < p.toNat) (htouch : p + h.length p = q) :
    (h.coalesce p q).Rep n (ps.map h.span ++ absorb (h.span p) ((q :: qs).map h.span)) ∧
    ((h.coalesce p q).freelist n).length = (h.freelist n).length ∧
    h.Touches (h.coalesce p q) n (h.span p).Contains := by
  have hqb := hb.block (p := q) (by simp)
  have hgap : ∀ r ∈ qs, q.toNat + (h.length q).toNat < r.toNat := fun r hr => hb.lt_of_cons hr
  have hpq : p.toNat + (h.length p).toNat = q.toNat := by
    rw [← hp.toNat_add_length, htouch]
  have hpps : p ∉ ps := fun hm => by
    have := hlo p hm
    omega
  have hpqs : p ∉ qs := fun hm => by
    have := hgap p hm
    omega
  have hlensum : (h.length p + h.length q).toNat
      = (h.length p).toNat + (h.length q).toNat := by
    have := hqb.inMem
    rw [toNat_add, Nat.mod_eq_of_lt (by omega)]
  let h₁ := h.store (p + 4) (h.length p + h.length q)
  let h₂ := h₁.store p (h₁.next q)
  have hrun : h.coalesce p q = h₂ := by
    rw [coalesce, if_pos htouch]
  -- The joined heap: only the two words of `p` are new.
  have hlen_p : h₂.length p = h.length p + h.length q := by
    rw [length_store hp.aligned hp.aligned, length_store_add_self]
  have hother : ∀ r ∈ ps ++ qs, Aligned r ∧ r ≠ p := fun r hr => by
    refine ⟨hb.erase.aligned r hr, fun heq => ?_⟩
    subst heq
    exact (mem_append.mp hr).elim hpps hpqs
  have hlen : ∀ r ∈ ps ++ qs, h₂.length r = h.length r := fun r hr => by
    rw [length_store hp.aligned (hother r hr).1, length_store_add_of_ne (hother r hr).2]
  have hnext : ∀ r ∈ ps ++ qs, h₂.next r = h.next r := fun r hr => by
    rw [next_store_of_ne (hother r hr).2, next_store_add hp.aligned (hother r hr).1]
  have hnext_p : h₂.next p = h.next q := by
    rw [next_store_self]
    exact next_store_add hp.aligned hqb.aligned
  obtain ⟨b, hps, rfl, hcp⟩ := chain_append.mp hc
  obtain ⟨-, hcq⟩ := hcp
  obtain ⟨hb2, hspan⟩ := hb.erase.congr hlen
  have hp2 : h₂.Block b := by
    refine ⟨hp.aligned, hp.nonnull, ?_, ?_, ?_⟩ <;> rw [hlen_p, hlensum]
    · exact Nat.dvd_add hp.grid hqb.grid
    · have := hqb.inMem
      omega
    · have := hp.pos
      omega
  rw [hrun]
  refine ⟨⟨ps ++ b :: qs, ⟨?_, hb2.add hp2 ?_ ?_⟩, ?_⟩, rfl, ?_⟩
  · refine chain_append.mpr ⟨b, hps.congr fun r hr => hnext r (by simp [hr]), rfl, ?_⟩
    rw [hnext_p]
    exact hcq.congr fun r hr => hnext r (by simp [hr])
  · intro r hr
    rw [hlen r (by simp [hr])]
    exact hlo r hr
  · intro r hr
    have := hgap r hr
    rw [hlen_p, hlensum]
    omega
  · rw [map_append, map_append] at hspan
    obtain ⟨hs1, hs2⟩ := append_inj hspan (by simp)
    rw [map_append, map_cons, hs1, hs2, map_cons, absorb]
    rw [if_pos (show (h.span b).stop = (h.span q).start from hpq)]
    rw [span, hlen_p, hlensum]
    rfl
  · have hw := hp.pos
    have hg := hp.grid
    refine (touches_store ?_).trans (touches_store ?_)
    · rw [hp.aligned.toNat_add_four]
      simp only [span, Span.Contains, Span.stop]
      omega
    · simp only [span, Span.Contains, Span.stop]
      omega

/-- The last step of `freemem`. The block at `p` is on the list between
`ps` and `qs`, with room before it and perhaps none after it. Joining it
with its right neighbour gives the list with `p`'s range inserted. -/
theorem coalesce_spec (hc : Chain h.next (h.freelist n).head (ps ++ p :: qs) NULL)
    (hb : h.Blocks (ps ++ qs)) (hp : h.Block p)
    (hlo : ∀ q ∈ ps, q.toNat + (h.length q).toNat < p.toNat)
    (hhi : ∀ q ∈ qs, p.toNat + (h.length p).toNat ≤ q.toNat) :
    (h.coalesce p (qs.headD NULL)).Rep n (insertSpan (h.span p) ((ps ++ qs).map h.span)) ∧
    ((h.coalesce p (qs.headD NULL)).freelist n).length = (h.freelist n).length ∧
    h.Touches (h.coalesce p (qs.headD NULL)) n (h.span p).Contains := by
  have hinsert : insertSpan (h.span p) ((ps ++ qs).map h.span)
      = ps.map h.span ++ absorb (h.span p) (qs.map h.span) := by
    rw [map_append, insertSpan_append (fun s hs => ?_), insertSpan_of_lt fun s hs => ?_]
    · obtain ⟨q, hq, rfl⟩ := mem_map.mp hs
      exact Nat.le_trans (Nat.le_add_right _ _) (hhi q hq)
    · obtain ⟨q, hq, rfl⟩ := mem_map.mp hs
      exact hlo q hq
  have hsum := hp.toNat_add_length
  rw [hinsert]
  cases qs with
  | nil =>
    -- There is no right neighbour, and the block does not end at address zero.
    have hne : p + h.length p ≠ NULL := fun heq => by
      have := hp.pos
      rw [heq, toNat_NULL] at hsum
      omega
    have hrun : h.coalesce p NULL = h := by
      rw [coalesce, if_neg hne]
    simp only [headD_nil, hrun, map_nil, absorb]
    exact ⟨⟨ps ++ [p], ⟨hc, hb.add hp hlo (by simp)⟩, by simp⟩, trivial, Touches.refl _ _ _⟩
  | cons q qs =>
    by_cases htouch : p + h.length p = q
    · exact coalesce_join hc hb hp hlo htouch
    · -- The blocks do not touch: nothing is written.
      have hpq : p.toNat + (h.length p).toNat ≠ q.toNat := fun heq =>
        htouch (eq_of_toNat_eq (hsum.trans heq))
      have hq := hhi q mem_cons_self
      have hrun : h.coalesce p q = h := by
        rw [coalesce, if_neg htouch]
      simp only [headD_cons, hrun, map_cons, absorb]
      rw [if_neg (show ¬ (h.span p).stop = (h.span q).start from hpq)]
      refine ⟨⟨ps ++ p :: q :: qs, ⟨hc, hb.add hp hlo fun r hr => ?_⟩, by simp⟩, trivial,
        Touches.refl _ _ _⟩
      rcases mem_cons.mp hr with rfl | hr
      · omega
      · have := hb.lt_of_cons hr
        omega

/-- A block that starts where its left neighbour `p` ends makes `p`
longer. The rest of the list is the list without `p`. -/
theorem growBlock_spec (hc : Chain h.next (h.freelist n).head (ps ++ p :: qs) NULL)
    (hb : h.Blocks (ps ++ p :: qs)) (hn : 8 ∣ nbytes.toNat)
    (hhi : ∀ q ∈ qs, p.toNat + (h.length p).toNat + nbytes.toNat ≤ q.toNat)
    (hmem : p.toNat + (h.length p).toNat + nbytes.toNat < 2 ^ 32) :
    let h₁ := (h.growBlock p nbytes).coalesce p (qs.headD NULL)
    h₁.Rep n (insertSpan ⟨p.toNat + (h.length p).toNat, nbytes.toNat⟩
      ((ps ++ p :: qs).map h.span)) ∧
    (h₁.freelist n).length = (h.freelist n).length ∧
    h.Touches h₁ n fun a => Covers ((ps ++ p :: qs).map h.span) a ∨
      (Span.mk (p.toNat + (h.length p).toNat) nbytes.toNat).Contains a := by
  intro h₁
  have hp := hb.block (p := p) (by simp)
  have hnd := nodup_middle.mp hb.nodup
  have hsum : (h.length p + nbytes).toNat = (h.length p).toNat + nbytes.toNat := by
    rw [toNat_add, Nat.mod_eq_of_lt (by omega)]
  -- The grown heap: only the length of `p` is new.
  let hg := h.growBlock p nbytes
  have hlen_p : hg.length p = h.length p + nbytes := length_store_add_self
  have hlen : ∀ r ∈ ps ++ qs, hg.length r = h.length r := fun r hr =>
    length_store_add_of_ne fun heq => (nodup_cons.mp hnd).1 (heq ▸ hr)
  have hnext : ∀ r ∈ ps ++ p :: qs, hg.next r = h.next r := fun r hr =>
    next_store_add hp.aligned (hb.aligned r hr)
  have hlo : ∀ q ∈ ps, q.toNat + (h.length q).toNat < p.toNat := fun q hq =>
    hb.lt_of_append hq mem_cons_self
  obtain ⟨hbg, hspan⟩ := hb.erase.congr hlen
  have hpg : hg.Block p := by
    refine ⟨hp.aligned, hp.nonnull, ?_, ?_, ?_⟩ <;> rw [hlen_p, hsum]
    · exact Nat.dvd_add hp.grid hn
    · omega
    · have := hp.pos
      omega
  have hcg : Chain hg.next (hg.freelist n).head (ps ++ p :: qs) NULL := hc.congr hnext
  obtain ⟨hrep, htotal, htouch⟩ := coalesce_spec hcg hbg hpg
    (fun q hq => by rw [hlen q (by simp [hq])]; exact hlo q hq)
    (fun q hq => by rw [hlen_p, hsum, ← Nat.add_assoc]; exact hhi q hq)
  have hspan_p : hg.span p = ⟨p.toNat, (h.length p).toNat + nbytes.toNat⟩ := by
    rw [span, hlen_p, hsum]
  refine ⟨?_, htotal, ?_⟩
  · -- Both sides put the grown range between `ps` and `qs`.
    have hpre : ∀ s ∈ ps.map h.span, s.stop < p.toNat := fun s hs => by
      obtain ⟨q, hq, rfl⟩ := mem_map.mp hs
      exact hlo q hq
    rw [hspan, hspan_p, map_append, insertSpan_append hpre, insertSpan_of_lt] at hrep
    · rw [map_append, map_cons, insertSpan_touching (fun s hs => ?_) rfl hp.pos]
      · exact hrep
      · exact Nat.lt_of_lt_of_le (hpre s hs) (Nat.le_add_right _ _)
    · intro s hs
      obtain ⟨q, hq, rfl⟩ := mem_map.mp hs
      have := hhi q hq
      show p.toNat ≤ q.toNat
      omega
  · have hpos := hp.pos
    have hgrid := hp.grid
    have hcov : ∀ a, (h.span p).Contains a → Covers ((ps ++ p :: qs).map h.span) a :=
      fun a ha => ⟨h.span p, mem_map_of_mem (by simp), ha⟩
    refine (touches_store (Or.inl (hcov _ (hb.contains_words (by simp)).2))).trans
      ⟨htouch.others, htouch.base, htouch.bound, fun a ha => htouch.mem a fun hin => ha ?_,
        htouch.memheap, htouch.maxaddr⟩
    rw [hspan_p] at hin
    simp only [Span.Contains, Span.stop] at hin ⊢
    by_cases hlt : a.toNat < p.toNat + (h.length p).toNat
    · exact Or.inl (hcov _ ⟨hin.1, hlt⟩)
    · exact Or.inr (by omega)

/-- A block with room before it is linked in and then joined with its
right neighbour when the two touch. -/
theorem linkBlock_spec (hc : Chain h.next (h.freelist n).head (ps ++ qs) NULL)
    (hb : h.Blocks (ps ++ qs)) (hp : Aligned p) (hnull : p ≠ NULL) (hn : 8 ∣ nbytes.toNat)
    (hpos : 0 < nbytes.toNat) (hmem : p.toNat + nbytes.toNat < 2 ^ 32)
    (hlo : ∀ q ∈ ps, q.toNat + (h.length q).toNat < p.toNat)
    (hhi : ∀ q ∈ qs, p.toNat + nbytes.toNat ≤ q.toNat) :
    let h₁ := (h.linkBlock n (prevPtr ps) p (qs.headD NULL) nbytes).coalesce p (qs.headD NULL)
    h₁.Rep n (insertSpan ⟨p.toNat, nbytes.toNat⟩ ((ps ++ qs).map h.span)) ∧
    (h₁.freelist n).length = (h.freelist n).length ∧
    h.Touches h₁ n fun a => Covers ((ps ++ qs).map h.span) a ∨
      (Span.mk p.toNat nbytes.toNat).Contains a := by
  intro h₁
  obtain ⟨b, hcp, hcq⟩ := chain_append.mp hc
  have hbq : b = qs.headD NULL := by
    cases qs with
    | nil => exact hcq
    | cons q qs => exact hcq.1
  have hps := hb.of_append_left
  have hnew : p ∉ ps ++ qs := fun hm => by
    rcases mem_append.mp hm with hm | hm
    · have := hlo p hm
      omega
    · have := hhi p hm
      omega
  -- The linked heap, word by word.
  let ha := (h.store p (qs.headD NULL)).store (p + 4) nbytes
  let hl := h.linkBlock n (prevPtr ps) p (qs.headD NULL) nbytes
  have hlen_p : hl.length p = nbytes :=
    (length_setNext hps.aligned hp).trans length_store_add_self
  have hlen : ∀ r ∈ ps ++ qs, hl.length r = h.length r := fun r hr => by
    have hra := hb.aligned r hr
    show (ha.setNext n (prevPtr ps) p).length r = _
    rw [length_setNext hps.aligned hra, length_store_add_of_ne (ne_of_mem_of_not_mem hr hnew),
      length_store hp hra]
  have hnext_a : ∀ r ∈ ps ++ qs, ha.next r = h.next r := fun r hr => by
    rw [next_store_add hp (hb.aligned r hr), next_store_of_ne (ne_of_mem_of_not_mem hr hnew)]
  have hchain : Chain hl.next (hl.freelist n).head (ps ++ p :: qs) NULL := by
    refine chain_append.mpr ⟨p, chain_setNext (h := ha)
      (hcp.congr fun r hr => hnext_a r (by simp [hr])) hps.nodup, rfl, ?_⟩
    have hnext_p : hl.next p = qs.headD NULL := by
      show (ha.setNext n (prevPtr ps) p).next p = _
      rw [next_setNext fun hm => hnew (mem_append_left _ hm), next_store_add hp hp,
        next_store_self]
    rw [hnext_p, ← hbq]
    refine hcq.congr fun r hr => ?_
    show (ha.setNext n (prevPtr ps) p).next r = _
    rw [next_setNext fun hm => (nodup_append.mp hb.nodup).2.2 r hm r hr rfl,
      hnext_a r (by simp [hr])]
  obtain ⟨hbl, hspan⟩ := hb.congr hlen
  have hpl : hl.Block p :=
    ⟨hp, hnull, by rw [hlen_p]; exact hn, by rw [hlen_p]; exact hmem, by rw [hlen_p]; exact hpos⟩
  obtain ⟨hrep, htotal, htouch⟩ := coalesce_spec hchain hbl hpl
    (fun q hq => by rw [hlen q (by simp [hq])]; exact hlo q hq)
    (fun q hq => by rw [hlen_p]; exact hhi q hq)
  have hspan_p : hl.span p = ⟨p.toNat, nbytes.toNat⟩ := by
    rw [span, hlen_p]
  rw [hspan, hspan_p] at hrep
  rw [hspan_p] at htouch
  refine ⟨hrep, htotal.trans ((freelist_setNext _ n).1.trans rfl), ?_⟩
  have hgrid : 8 ∣ nbytes.toNat := hn
  refine (((touches_store (Or.inr ?_)).trans (touches_store (Or.inr ?_))).trans
    (touches_setNext fun q hq => Or.inl ?_)).trans
    ⟨htouch.others, htouch.base, htouch.bound, fun a ha => htouch.mem a fun hin => ha (Or.inr hin),
      htouch.memheap, htouch.maxaddr⟩
  · simp only [Span.Contains, Span.stop]
    omega
  · rw [hp.toNat_add_four]
    simp only [Span.Contains, Span.stop]
    omega
  · exact ⟨h.span q, mem_map_of_mem (by simp [hq]), (hb.contains_words (by simp [hq])).1⟩

/-- Whatever the size and the alignment of a block that is linked in, it
is the block after `ps`. A size of zero stays zero. -/
theorem chain_linkBlock {z : Ulong} (next nbytes : Ulong)
    (hc : Chain h.next (h.freelist n).head ps z)
    (hnd : ps.Nodup) (hps : ∀ q ∈ ps, q.toNat < p.toNat) (hp : p.toNat + 4 < 2 ^ 32) :
    let h₁ := (h.linkBlock n (prevPtr ps) p next nbytes).coalesce p next
    Chain h₁.next (h₁.freelist n).head ps p ∧ (nbytes = 0 → h₁.length p = 0) := by
  intro h₁
  have h4 : (p + 4).toNat = p.toNat + 4 := by
    rw [toNat_add]
    exact Nat.mod_eq_of_lt hp
  have hout : ∀ q ∈ ps, q ≠ p ∧ q ≠ p + 4 := fun q hq => by
    have := hps q hq
    refine ⟨?_, ?_⟩ <;> rintro rfl <;> omega
  let ha := (h.store p next).store (p + 4) nbytes
  have hkeep : ∀ q ∈ ps, ha.next q = h.next q := fun q hq =>
    (update_of_ne (hout q hq).2 _ _).trans (update_of_ne (hout q hq).1 _ _)
  have hchain : Chain (h.linkBlock n (prevPtr ps) p next nbytes).next _ ps p :=
    chain_setNext (h := ha) (hc.congr hkeep) hnd
  have hlen : (h.linkBlock n (prevPtr ps) p next nbytes).length p = nbytes :=
    (mem_setNext fun hm => (hout _ hm).2 rfl).trans (update_self ..)
  have hne : p + 4 ≠ p := fun heq => by
    rw [heq] at h4
    omega
  unfold h₁ coalesce
  change Chain _ ((h.linkBlock n (prevPtr ps) p next nbytes).freelist n).head ps p at hchain
  generalize h.linkBlock n (prevPtr ps) p next nbytes = hl at hchain hlen ⊢
  split
  · rename_i htouch
    refine ⟨hchain.congr fun q hq => ?_, ?_⟩
    · exact (update_of_ne (hout q hq).1 _ _).trans
        (update_of_ne (hout q hq).2 _ _)
    · rintro rfl
      -- With no length the block touches only itself.
      simp only [hlen, ofNat_eq_ofNat, BitVec.add_zero] at htouch
      refine (update_of_ne hne _ _).trans ((update_self ..).trans ?_)
      rw [← htouch, hlen]
      rfl
  · exact ⟨hchain, fun h0 => hlen.trans h0⟩

/-- Past its range check and its region search, `freemem` works between
the blocks below the address and the others. -/
theorem freemem_split (hnodes : h.Nodes n rs)
    (hguard : ¬ (nbytes = 0 ∨ memptr < h.memheap ∨ memptr > h.maxaddr))
    (hregion : h.region memptr = some n) :
    ∃ ps qs, rs = ps ++ qs ∧ (∀ q ∈ ps, q.toNat < memptr.toNat) ∧
      (∀ q ∈ qs, memptr.toNat ≤ q.toNat) ∧
      h.freemem memptr nbytes =
        h.freememInsert n memptr (roundmb nbytes) (prevPtr ps) (qs.headD NULL) := by
  have hb := hnodes.blocks
  obtain ⟨ps, qs, rfl, hps, hqs, hrun⟩ := freememSearch_spec (h := h) memptr rs [] fuel _
    hb.length_lt_fuel hb.nonnull hnodes.chain
  rw [prevPtr_nil, nil_append] at hrun
  refine ⟨ps, qs, rfl, fun q hq => lt_def.mp (hps q hq), fun q hq => ?_, ?_⟩
  · -- The search stops at the first block that is not below the address,
    -- and the later ones are above that block.
    cases qs with
    | nil => simp at hq
    | cons r qs =>
      have hr : memptr.toNat ≤ r.toNat := by
        have hstop := hqs r rfl
        rw [lt_def] at hstop
        omega
      rcases mem_cons.mp hq with rfl | hq
      · exact hr
      · have := hb.lt_of_cons hq
        omega
  · rw [freemem, if_neg hguard, hregion]
    simp only [hrun]
    rfl

/-- The test of `freemem`, taken over the whole list: some block reaches
over the address, or starts in the range. The sums are 32-bit words. -/
def Meets (h : Heap) (rs : List Ulong) (memptr size : Ulong) : Prop :=
  ∃ q ∈ rs, (q < memptr ∧ memptr < q + h.length q) ∨ (memptr ≤ q ∧ q < memptr + size)

/-- Only the two neighbours of the address are tested. The others are
further away. -/
theorem meets_iff {memptr size : Ulong} (hb : h.Blocks (ps ++ qs))
    (hps : ∀ q ∈ ps, q.toNat < memptr.toNat) (hqs : ∀ q ∈ qs, memptr.toNat ≤ q.toNat) :
    h.Meets (ps ++ qs) memptr size ↔ h.top (prevPtr ps) > memptr ∨
      (qs.headD NULL ≠ NULL ∧ memptr + size > qs.headD NULL) := by
  simp only [Meets, GT.gt, lt_def, le_def]
  constructor
  · rintro ⟨q, hq, ⟨hlt, hover⟩ | ⟨hge, hover⟩⟩
    · left
      have hq : q ∈ ps := (mem_append.mp hq).resolve_right fun hm => by
        have := hqs q hm
        omega
      obtain ⟨ps, p, rfl⟩ := (eq_nil_or_concat ps).resolve_left (ne_nil_of_mem hq)
      rw [concat_eq_append, List.append_assoc] at hb
      rw [concat_eq_append] at hq hps ⊢
      rw [prevPtr_concat, top, (hb.block (p := p) (by simp)).toNat_add_length]
      rw [(hb.block (p := q) (by simp at hq ⊢; tauto)).toNat_add_length] at hover
      rcases mem_append.mp hq with hq | hq
      · have := hb.lt_of_append hq (q := p) (by simp)
        have := hps p (by simp)
        omega
      · rw [mem_singleton.mp hq] at hover
        exact hover
    · right
      have hq : q ∈ qs := (mem_append.mp hq).resolve_left fun hm => by
        have := hps q hm
        omega
      cases qs with
      | nil => simp at hq
      | cons r qs =>
        refine ⟨(hb.block (p := r) (by simp)).nonnull, Nat.lt_of_le_of_lt ?_ hover⟩
        rcases mem_cons.mp hq with rfl | hq
        · exact Nat.le_refl _
        · exact Nat.le_of_lt (Nat.lt_of_le_of_lt (Nat.le_add_right ..) (hb.lt_of_cons hq))
  · rintro (hover | ⟨hne, hover⟩)
    · rcases eq_nil_or_concat ps with rfl | ⟨ps, p, rfl⟩
      · simp [top] at hover
      · rw [concat_eq_append] at hps hover ⊢
        rw [prevPtr_concat] at hover
        exact ⟨p, by simp, Or.inl ⟨hps p (by simp), hover⟩⟩
    · cases qs with
      | nil => exact absurd rfl hne
      | cons r qs => exact ⟨r, by simp, Or.inr ⟨hqs r mem_cons_self, hover⟩⟩

theorem freemem_of_meets (hnodes : h.Nodes n rs)
    (hregion : h.region memptr = some n) (hmeets : h.Meets rs memptr (roundmb nbytes)) :
    h.freemem memptr nbytes = .ok (.syserr, h) := by
  by_cases hguard : nbytes = 0 ∨ memptr < h.memheap ∨ memptr > h.maxaddr
  · rw [freemem, if_pos hguard]
  · obtain ⟨ps, qs, rfl, hps, hqs, hrun⟩ := freemem_split hnodes hguard hregion
    rw [hrun, freememInsert, if_pos ((meets_iff hnodes.blocks hps hqs).mp hmeets)]

/-- A range that shares an address with a free block is refused. -/
theorem freemem_overlap {l : List Span} (hrep : h.Rep n l)
    (hregion : h.region memptr = some n) (hmem : memptr.toNat + (roundmb nbytes).toNat < 2 ^ 32)
    {s : Span} (hs : s ∈ l) (hlow : memptr.toNat < s.stop)
    (hhigh : s.start < memptr.toNat + (roundmb nbytes).toNat) :
    h.freemem memptr nbytes = .ok (.syserr, h) := by
  obtain ⟨rs, hnodes, rfl⟩ := hrep
  obtain ⟨q, hq, rfl⟩ := mem_map.mp hs
  refine freemem_of_meets hnodes hregion ⟨q, hq, ?_⟩
  rw [lt_def, lt_def, (hnodes.blocks.block hq).toNat_add_length, le_def, lt_def, toNat_add,
    Nat.mod_eq_of_lt hmem]
  simp only [span, Span.stop] at hlow hhigh
  omega

/-- Past the search, the range is linked in between the blocks below and
above it, or added to the one that ends at it. -/
theorem freememInsert_spec {memptr size : Ulong} (hnodes : h.Nodes n (ps ++ qs))
    (halign : Aligned memptr) (hnull : memptr ≠ NULL) (hn : Aligned size) (hpos : 0 < size.toNat)
    (hmem : memptr.toNat + size.toNat < 2 ^ 32)
    (hlo : ∀ q ∈ ps, q.toNat + (h.length q).toNat ≤ memptr.toNat)
    (hhi : ∀ q ∈ qs, memptr.toNat + size.toNat ≤ q.toNat) :
    ∃ h', h.freememInsert n memptr size (prevPtr ps) (qs.headD NULL) = .ok (.ok, h') ∧
      h'.Rep n (insertSpan ⟨memptr.toNat, size.toNat⟩ ((ps ++ qs).map h.span)) ∧
      (h'.freelist n).length = (h.freelist n).length + size ∧
      h.Touches h' n fun a => Covers ((ps ++ qs).map h.span) a ∨
        (Span.mk memptr.toNat size.toNat).Contains a := by
  have hb := hnodes.blocks
  let ht := h.setTotal n ((h.freelist n).length + size)
  have hstart : h.Touches ht n (fun a => Covers ((ps ++ qs).map h.span) a ∨
      (Span.mk memptr.toNat size.toNat).Contains a) := touches_setTotal
  have hchain : Chain ht.next (ht.freelist n).head (ps ++ qs) NULL := by
    simpa [ht] using hnodes.chain
  have hbt : ht.Blocks (ps ++ qs) := And.left (hb.congr fun _ _ => rfl)
  have hapart : ¬ h.Meets (ps ++ qs) memptr size := by
    rintro ⟨q, hq, hmeet⟩
    rw [lt_def, lt_def, (hb.block hq).toNat_add_length, le_def, lt_def, toNat_add,
      Nat.mod_eq_of_lt hmem] at hmeet
    have hpos := hb.length_pos hq
    rcases mem_append.mp hq with hq | hq
    · have := hlo q hq
      omega
    · have := hhi q hq
      omega
  rw [meets_iff hb (fun q hq => ?_) fun q hq => Nat.le_of_add_right_le (hhi q hq)] at hapart
  swap
  · have := hlo q hq
    have := hb.length_pos (mem_append_left qs hq)
    omega
  rcases eq_nil_or_concat ps with rfl | ⟨ps, p, rfl⟩
  · -- No block before: `prev` is the list head and `top` is `NULL`.
    obtain ⟨hr, htot, htch⟩ := linkBlock_spec hchain hbt halign hnull hn hpos hmem
      (by simp) hhi
    refine ⟨_, ?_, hr, htot.trans (by simp [ht]), hstart.trans htch⟩
    exact (if_neg hapart).trans (if_neg (Ne.symm hnull))
  · rw [concat_eq_append] at *
    have hp := hb.block (p := p) (by simp)
    have hlop := hlo p (by simp)
    have hsump := hp.toNat_add_length
    rw [prevPtr_concat] at hapart
    by_cases htouch : p + h.length p = memptr
    · -- The block before ends where the range starts.
      have hpm : p.toNat + (h.length p).toNat = memptr.toNat := by rw [← hsump, htouch]
      rw [List.append_assoc, singleton_append] at *
      obtain ⟨hr, htot, htch⟩ := growBlock_spec hchain hbt hn
        (fun q hq => by
          have := hhi q hq
          show p.toNat + (h.length p).toNat + _ ≤ _
          omega)
        (by show p.toNat + (h.length p).toNat + _ < _; omega)
      simp only [show ht.length p = h.length p from rfl, hpm] at hr htot htch
      refine ⟨_, ?_, hr, htot.trans (by simp [ht]), hstart.trans htch⟩
      rw [prevPtr_concat]
      exact (if_neg hapart).trans (if_pos htouch)
    · -- All blocks before end with a gap to the range.
      have hne : p.toNat + (h.length p).toNat ≠ memptr.toNat := fun heq =>
        htouch (eq_of_toNat_eq (hsump.trans heq))
      have hlt : ∀ q ∈ ps ++ [p], q.toNat + (h.length q).toNat < memptr.toNat := fun q hq => by
        rcases mem_append.mp hq with hq | hq
        · have hb' : h.Blocks (ps ++ p :: qs) := by simpa using hb
          have := hb'.lt_of_append hq mem_cons_self
          have := hp.pos
          omega
        · rw [mem_singleton] at hq
          subst hq
          omega
      obtain ⟨hr, htot, htch⟩ := linkBlock_spec hchain hbt halign hnull hn hpos hmem hlt hhi
      refine ⟨_, ?_, hr, htot.trans (by simp [ht]), hstart.trans htch⟩
      rw [prevPtr_concat]
      exact (if_neg hapart).trans (if_neg htouch)

/-- **`freemem` is coalescing insertion.** A range of whole blocks in
core `n`'s region that overlaps no free block goes back on the list,
joined with the neighbours it touches, and its length is added to the
list's total. -/
theorem freemem_spec {l : List Span} (hrep : h.Rep n l) (h0 : nbytes ≠ 0)
    (hwrap : nbytes.toNat + 7 < 2 ^ 32) (hregion : h.region memptr = some n)
    (hlow : h.memheap ≤ memptr) (hhigh : memptr ≤ h.maxaddr) (halign : Aligned memptr)
    (hnull : memptr ≠ NULL) (hmem : memptr.toNat + (roundmb nbytes).toNat < 2 ^ 32)
    (hap : Apart ⟨memptr.toNat, (roundmb nbytes).toNat⟩ l) :
    ∃ h', h.freemem memptr nbytes = .ok (.ok, h') ∧
      h'.Rep n (insertSpan ⟨memptr.toNat, (roundmb nbytes).toNat⟩ l) ∧
      (h'.freelist n).length = (h.freelist n).length + roundmb nbytes ∧
      h.Touches h' n fun a => Covers l a ∨
        (Span.mk memptr.toNat (roundmb nbytes).toNat).Contains a := by
  obtain ⟨rs, hnodes, rfl⟩ := hrep
  have hb := hnodes.blocks
  have hguard : ¬ (nbytes = 0 ∨ memptr < h.memheap ∨ memptr > h.maxaddr) := by
    rw [le_def] at hlow hhigh
    rintro (hzero | hlt | hgt)
    · exact h0 hzero
    · exact absurd hlow (Nat.not_le.mpr (lt_def.mp hlt))
    · exact absurd hhigh (Nat.not_le.mpr (lt_def.mp hgt))
  obtain ⟨ps, qs, rfl, hps, hqs, hrun⟩ := freemem_split hnodes hguard hregion
  -- `Apart` places every earlier block below the range and every later one above it.
  have hlo : ∀ q ∈ ps, q.toNat + (h.length q).toNat ≤ memptr.toNat := fun q hq => by
    have h1 := hap (h.span q) (mem_map_of_mem (by simp [hq]))
    have h2 := hps q hq
    simp only [span, Span.stop] at h1
    omega
  have hhi : ∀ q ∈ qs, memptr.toNat + (roundmb nbytes).toNat ≤ q.toNat := fun q hq => by
    have h1 := hap (h.span q) (mem_map_of_mem (by simp [hq]))
    have hge := hqs q hq
    have := hb.length_pos (p := q) (by simp [hq])
    simp only [span, Span.stop] at h1
    omega
  rw [hrun]
  exact freememInsert_spec hnodes halign hnull (aligned_roundmb nbytes)
    (toNat_roundmb_pos h0 hwrap) hmem hlo hhi

end Freemem

end Xinu.Heap
