import Xinu.Proofs.Memory.FreeList

/-!
# `Xinu.Proofs.Memory.Getmem`: `getmem` is first fit

The loop of `getmem` walks the free list with a trailing pointer. The
induction of `getmemLoop_spec` is on the blocks that remain; the blocks
already passed are carried along as the prefix `ps`, because a hit
rewrites the last link of that prefix.

`getmem_spec` is the result: on the abstract list, `getmem` is
`Lib.firstFit` of the rounded size.
-/

namespace Xinu.Heap

open Lib List BitVec

/-- The blocks of a list with one of them shortened from the front.
`b` keeps the tail of `p`'s range. -/
theorem Blocks.split {h : Heap} {ps qs : List Ulong} {p nbytes : Ulong}
    (hb : h.Blocks (ps ++ p :: qs)) (hn : 8 ∣ nbytes.toNat) (hpos : 0 < nbytes.toNat)
    (hlt : nbytes.toNat < (h.length p).toNat) :
    (p + nbytes).toNat = p.toNat + nbytes.toNat ∧ Aligned (p + nbytes) ∧
      p + nbytes ≠ NULL ∧ p + nbytes ∉ ps ++ p :: qs := by
  have hmem := hb.inMem p (by simp)
  have halign := hb.aligned p (by simp)
  have hsum : (p + nbytes).toNat = p.toNat + nbytes.toNat := by
    rw [toNat_add, Nat.mod_eq_of_lt (by omega)]
  refine ⟨hsum, ?_, ?_, ?_⟩
  · unfold Aligned at halign ⊢
    omega
  · intro h0
    rw [h0, toNat_NULL] at hsum
    omega
  · -- The address lies strictly inside the block at `p`.
    intro hm
    rcases mem_append.mp hm with hm | hm
    · have := hb.lt_of_append hm (mem_cons_self (a := p))
      omega
    · rcases mem_cons.mp hm with heq | hm
      · have := congrArg BitVec.toNat heq
        omega
      · have hb' : h.Blocks ((ps ++ [p]) ++ qs) := by simpa using hb
        have := hb'.lt_of_append (mem_append_right _ mem_cons_self) hm
        omega

/-- What `getmem` achieves on core `n`, when the part `ps` of the free
list has been passed over and `qs` remains: it takes `firstFit` of the
rest. -/
def GetmemDone (h : Heap) (n : Core) (nbytes : Ulong) (ps qs : List Ulong)
    (r : Except Fault (Ulong × Heap)) : Prop :=
  (firstFit nbytes.toNat (qs.map h.span) = none ∧ r = .ok (SYSERR, h)) ∨
  ∃ p l' h', firstFit nbytes.toNat (qs.map h.span) = some (p.toNat, l') ∧
    r = .ok (p, h') ∧ h'.Rep n (ps.map h.span ++ l') ∧
    (h'.freelist n).length = (h.freelist n).length - nbytes ∧
    h.Touches h' n (Covers ((ps ++ qs).map h.span))

section Getmem
variable {h : Heap} {n : Core} {nbytes p : Ulong} {ps qs : List Ulong}

/-- The exact fit: the block leaves the list. -/
theorem takeWhole_spec (hc : Chain h.next (h.freelist n).head ps p)
    (hq : Chain h.next (h.next p) qs NULL) (hb : h.Blocks (ps ++ p :: qs)) :
    (h.takeWhole n (prevPtr ps) p nbytes).Rep n (ps.map h.span ++ qs.map h.span) ∧
    ((h.takeWhole n (prevPtr ps) p nbytes).freelist n).length
      = (h.freelist n).length - nbytes ∧
    h.Touches (h.takeWhole n (prevPtr ps) p nbytes) n (Covers ((ps ++ p :: qs).map h.span)) := by
  have hps := hb.of_append_left
  have hnd := nodup_append.mp hb.nodup
  have hb' := hb.erase
  obtain ⟨hb1, hspan⟩ := hb'.congr fun q hq =>
    length_setNext (n := n) (v := h.next p) hps.aligned (hb'.aligned q hq)
  refine ⟨rep_setTotal ⟨ps ++ qs, ⟨chain_append.mpr
    ⟨h.next p, chain_setNext hc hps.nodup, ?_⟩, hb1⟩, ?_⟩, ?_, ?_⟩
  · exact hq.congr fun q hq => next_setNext fun hm =>
      hnd.2.2 q hm q (mem_cons_of_mem _ hq) rfl
  · rw [hspan, map_append]
  · rw [takeWhole, setTotal_freelist_self, (freelist_setNext _ n).1]
  · exact (touches_setNext fun q hq => ⟨h.span q, mem_map_of_mem (by simp [hq]),
      (hb.contains_words (by simp [hq])).1⟩).trans touches_setTotal

/-- Every word that the split writes lies in a block of the list. -/
theorem touches_takeFront (hb : h.Blocks (ps ++ p :: qs)) (hn : 8 ∣ nbytes.toNat)
    (hpos : 0 < nbytes.toNat) (hlt : nbytes.toNat < (h.length p).toNat) :
    h.Touches (h.takeFront n (prevPtr ps) p nbytes) n (Covers ((ps ++ p :: qs).map h.span)) := by
  obtain ⟨hsum, halign, -, -⟩ := hb.split hn hpos hlt
  have hcov : ∀ a, (h.span p).Contains a → Covers ((ps ++ p :: qs).map h.span) a :=
    fun a ha => ⟨h.span p, mem_map_of_mem (by simp), ha⟩
  have hgrid := hb.grid p (by simp)
  refine (((touches_setNext fun q hq => ?_).trans (touches_store (hcov _ ?_))).trans
    (touches_store (hcov _ ?_))).trans touches_setTotal
  · exact ⟨h.span q, mem_map_of_mem (by simp [hq]),
      (hb.contains_words (by simp [hq])).1⟩
  · rw [hsum]
    simp only [span, Span.Contains, Span.stop]
    omega
  · rw [halign.toNat_add_four, hsum]
    simp only [span, Span.Contains, Span.stop]
    omega

/-- The split: the front of the block is taken, the rest stays on the
list in its place. -/
theorem takeFront_spec (hc : Chain h.next (h.freelist n).head ps p)
    (hq : Chain h.next (h.next p) qs NULL) (hb : h.Blocks (ps ++ p :: qs))
    (hn : 8 ∣ nbytes.toNat) (hpos : 0 < nbytes.toNat)
    (hlt : nbytes.toNat < (h.length p).toNat) :
    (h.takeFront n (prevPtr ps) p nbytes).Rep n (ps.map h.span ++
      ⟨p.toNat + nbytes.toNat, (h.length p).toNat - nbytes.toNat⟩ :: qs.map h.span) ∧
    ((h.takeFront n (prevPtr ps) p nbytes).freelist n).length
      = (h.freelist n).length - nbytes ∧
    h.Touches (h.takeFront n (prevPtr ps) p nbytes) n (Covers ((ps ++ p :: qs).map h.span)) := by
  let h1 := h.setNext n (prevPtr ps) (p + nbytes)
  let h2 := h1.store (p + nbytes) (h1.next p)
  let h3 := h2.store (p + nbytes + 4) (h2.length p - nbytes)
  obtain ⟨hsum, halign, hnull, hnew⟩ := hb.split hn hpos hlt
  have hps := hb.of_append_left
  have hnd := nodup_append.mp hb.nodup
  have hpp : p ∉ ps := fun hm => hnd.2.2 p hm p mem_cons_self rfl
  have hp : Aligned p := hb.aligned p (by simp)
  -- The words of `h3`, in terms of `h`.
  have hlen_p : h2.length p = h.length p :=
    (length_store halign hp).trans (length_setNext hps.aligned hp)
  have hlen : ∀ q ∈ ps ++ p :: qs, h3.length q = h.length q := fun q hq' => by
    have hne : q ≠ p + nbytes := fun heq => hnew (heq ▸ hq')
    have hqa := hb.aligned q hq'
    rw [length_store_add_of_ne hne, length_store halign hqa, length_setNext hps.aligned hqa]
  have hlen_new : h3.length (p + nbytes) = h.length p - nbytes := by
    rw [length_store_add_self, hlen_p]
  have hnext_new : h3.next (p + nbytes) = h.next p := by
    rw [next_store_add halign halign, next_store_self]
    exact next_setNext hpp
  have hsub : (h.length p - nbytes).toNat = (h.length p).toNat - nbytes.toNat :=
    toNat_sub_of_le (le_def.mpr (by omega))
  have hspan : (ps ++ (p + nbytes) :: qs).map h3.span = ps.map h.span ++
      ⟨p.toNat + nbytes.toNat, (h.length p).toNat - nbytes.toNat⟩ :: qs.map h.span := by
    rw [map_append, map_cons]
    congr 1
    · exact map_congr_left fun q hq => by simp [span, hlen q (by simp [hq])]
    · congr 1
      · rw [span, hlen_new, hsum, hsub]
      · exact map_congr_left fun q hq => by simp [span, hlen q (by simp [hq])]
  refine ⟨rep_setTotal (h := h3) ⟨ps ++ (p + nbytes) :: qs, ⟨?_, ?_⟩, hspan⟩, ?_, ?_⟩
  · refine chain_append.mpr ⟨p + nbytes, ?_, rfl, ?_⟩
    · refine (chain_setNext hc hps.nodup).congr fun q hq' => ?_
      rw [next_store_add halign (hps.aligned q hq'), next_store_of_ne]
      exact fun heq => hnew (by simp [← heq, hq'])
    · rw [hnext_new]
      refine hq.congr fun q hq' => ?_
      have hqa := hb.aligned q (by simp [hq'])
      have hne : q ≠ p + nbytes := fun heq => hnew (by simp [← heq, hq'])
      rw [next_store_add halign hqa, next_store_of_ne hne]
      exact next_setNext fun hm => hnd.2.2 q hm q (mem_cons_of_mem _ hq') rfl
  · -- The rest of `p` takes its place among the others.
    have hmem := hb.inMem p (by simp)
    have hgrid := hb.grid p (by simp)
    refine (hb.erase.congr fun q hq' => hlen q ?_).1.add ?_ (fun q hq' => ?_) fun q hq' => ?_
    · simp only [mem_append, mem_cons] at hq' ⊢
      tauto
    · refine ⟨halign, hnull, ?_, ?_, ?_⟩ <;> rw [hlen_new, hsub]
      · exact Nat.dvd_sub hgrid hn
      · rw [hsum]
        omega
      · omega
    · have := hb.lt_of_append hq' (mem_cons_self (a := p))
      rw [hlen q (by simp [hq']), hsum]
      omega
    · have hb' : h.Blocks ((ps ++ [p]) ++ qs) := by simpa using hb
      have := hb'.lt_of_append (mem_append_right _ mem_cons_self) hq'
      rw [hlen_new, hsub, hsum]
      omega
  · rw [takeFront, setTotal_freelist_self]
    simp only [store_freelist, (freelist_setNext _ n).1]
  · exact touches_takeFront hb hn hpos hlt

/-- The loop of `getmem`, by induction on the blocks that remain. -/
theorem getmemLoop_spec (hn : 8 ∣ nbytes.toNat) (hpos : 0 < nbytes.toNat) :
    ∀ (qs ps : List Ulong) (fuel : Nat) (curr : Ulong), qs.length < fuel →
      Chain h.next (h.freelist n).head ps curr → Chain h.next curr qs NULL →
      h.Blocks (ps ++ qs) →
      GetmemDone h n nbytes ps qs (h.getmemLoop n nbytes fuel (prevPtr ps) curr)
  | [], ps, 0, curr, hf, _, _, _ => by simp at hf
  | [], ps, fuel + 1, curr, _, _, hq, _ => by
    rw [chain_nil] at hq
    exact Or.inl ⟨rfl, by simp [getmemLoop, hq]⟩
  | p :: qs, ps, 0, curr, hf, _, _, _ => by simp at hf
  | p :: qs, ps, fuel + 1, curr, hf, hc, hq, hb => by
    obtain ⟨rfl, hq⟩ := hq
    have hne : curr ≠ NULL := fun heq => hb.nonnull (by simp [← heq])
    by_cases heq : h.length curr = nbytes
    · -- Exact fit.
      refine Or.inr ⟨curr, qs.map h.span, _, ?_, ?_, takeWhole_spec hc hq hb⟩
      · simp [firstFit, span, heq]
      · simp [getmemLoop, hne, heq]
    · have hne_nat : (h.length curr).toNat ≠ nbytes.toNat := fun hc =>
        heq (eq_of_toNat_eq hc)
      by_cases hlt : nbytes.toNat < (h.length curr).toNat
      · -- Split.
        refine Or.inr ⟨curr, _, _, ?_, ?_, takeFront_spec hc hq hb hn hpos hlt⟩
        · simp only [map_cons, firstFit, span, if_neg hne_nat, if_pos hlt]
        · simp only [getmemLoop, if_neg hne, if_neg heq]
          rw [if_pos (show h.length curr > nbytes from lt_def.mpr hlt)]
      · -- Too short: the block joins the part already passed.
        have hfit : firstFit nbytes.toNat ((curr :: qs).map h.span)
            = (firstFit nbytes.toNat (qs.map h.span)).map fun r => (r.1, h.span curr :: r.2) := by
          simp only [map_cons, firstFit]
          rw [if_neg (show ¬ (h.span curr).len = nbytes.toNat from hne_nat),
            if_neg (show ¬ nbytes.toNat < (h.span curr).len from hlt)]
        have hloop : h.getmemLoop n nbytes (fuel + 1) (prevPtr ps) curr
            = h.getmemLoop n nbytes fuel (prevPtr (ps ++ [curr])) (h.next curr) := by
          simp only [getmemLoop, if_neg hne, if_neg heq, prevPtr_concat]
          rw [if_neg (show ¬ h.length curr > nbytes from fun hgt => hlt (lt_def.mp hgt))]
        have hb' : h.Blocks ((ps ++ [curr]) ++ qs) := by simpa using hb
        have hrec := getmemLoop_spec hn hpos qs (ps ++ [curr]) fuel (h.next curr)
          (by simpa using hf) (chain_concat.mpr ⟨hc, rfl⟩) hq hb'
        rw [GetmemDone, hfit, hloop]
        rcases hrec with ⟨hnone, hr⟩ | ⟨p, l', h', hsome, hr, hrep, hlen, htouch⟩
        · exact Or.inl ⟨by rw [hnone]; rfl, hr⟩
        · refine Or.inr ⟨p, h.span curr :: l', h', by rw [hsome]; rfl, hr, ?_, hlen, ?_⟩
          · simpa using hrep
          · simpa using htouch

/-- **`getmem` is first fit.** On a core whose free list spells `l`, it
takes `roundmb(nbytes)` addresses from the first block that has them and
subtracts that many from the list's total. It returns `SYSERR` and
changes nothing when there is no such block. -/
theorem getmem_spec {l : List Span} (hrep : h.Rep n l) (h0 : nbytes ≠ 0)
    (hwrap : nbytes.toNat + 7 < 2 ^ 32) :
    (firstFit (roundmb nbytes).toNat l = none ∧ h.getmem n nbytes = .ok (SYSERR, h)) ∨
    ∃ p l' h', firstFit (roundmb nbytes).toNat l = some (p.toNat, l') ∧
      h.getmem n nbytes = .ok (p, h') ∧ h'.Rep n l' ∧
      (h'.freelist n).length = (h.freelist n).length - roundmb nbytes ∧
      h.Touches h' n (Covers l) := by
  obtain ⟨ps, hnodes, rfl⟩ := hrep
  have hpos := toNat_roundmb_pos h0 hwrap
  have hdone := getmemLoop_spec (h := h) (n := n) (aligned_roundmb nbytes) hpos ps [] fuel
    (h.freelist n).head hnodes.blocks.length_lt_fuel rfl hnodes.chain hnodes.blocks
  have hrun : h.getmem n nbytes
      = h.getmemLoop n (roundmb nbytes) fuel (prevPtr []) (h.freelist n).head := by
    rw [getmem, if_neg h0, prevPtr_nil]
  rw [hrun]
  exact hdone

end Getmem

end Xinu.Heap
