import Mathlib.Tactic.IntervalCases
import Xinu.Proofs.Memory.Malloc
import Xinu.System.Minijava

/-!
# `Xinu.Proofs.Memory.Minijava`: objects of the MiniJava runtime

`new_safe_iff`: `_new` returns a cleared object inside its block exactly
when the core's free list has a block of `4 * (n + 2)` bytes, as a
number and not as a 32-bit word. In all other cases it returns a pointer
like any other. Either the size has wrapped and the block is too short,
or `getmem` has returned `SYSERR` and the object is written around
address zero (`new_unsafe`).
-/

namespace Xinu.Heap

open Lib List BitVec

/-! ### Words from bytes -/

section Bytes
variable {h : Heap} {a p v : Ulong}

/-- All four bytes of a word make a new word. -/
theorem setByte_all (w v : Ulong) :
    setByte (setByte (setByte (setByte w 0 (v.extractLsb' 0 8)) 1 (v.extractLsb' 8 8)) 2
      (v.extractLsb' 16 8)) 3 (v.extractLsb' 24 8) = v := by
  apply eq_of_getLsbD_eq
  intro i hi
  simp only [setByte, getLsbD_or, getLsbD_and, getLsbD_shiftLeft,
    getLsbD_not, getLsbD_setWidth, getLsbD_extractLsb']
  interval_cases i <;> simp

/-- The word around an address, and the byte's place in it. -/
theorem word_around (ha : 4 ∣ a.toNat) {k : Ulong} (hk : k.toNat < 4) :
    (a + k) &&& ~~~3 = a ∧ ((a + k) &&& 3).toNat = k.toNat := by
  have hsum : (a + k).toNat = a.toNat + k.toNat := by
    have := a.isLt
    rw [toNat_add, Nat.mod_eq_of_lt (by omega)]
  have hword : ((a + k) &&& ~~~3).toNat = (a + k).toNat / 4 * 4 :=
    toNat_and_not_lowMask 2 (by decide) (a + k)
  have hbyte : ((a + k) &&& 3).toNat = (a + k).toNat % 4 :=
    toNat_and_lowMask 2 (by decide) (a + k)
  exact ⟨eq_of_toNat_eq (by omega), by omega⟩

theorem storeByte_of_aligned (ha : 4 ∣ a.toNat) {k : Ulong} (hk : k.toNat < 4) (b : Byte) :
    h.storeByte (a + k) b = h.store a (setByte (h.mem a) k.toNat b) := by
  obtain ⟨hword, hbyte⟩ := word_around ha hk
  rw [storeByte, hword, hbyte]

theorem store_store (w : Ulong) : (h.store a w).store a v = h.store a v := by
  simp only [store, Function.update_idem]

theorem mem_store (x : Ulong) : (h.store a v).mem x = if x = a then v else h.mem x :=
  Function.update_apply ..

/-- An `int` at an aligned address is a word. -/
theorem storeInt_of_aligned (ha : 4 ∣ a.toNat) : h.storeInt a v = h.store a v := by
  have hfirst : ∀ b, h.storeByte a b = h.store a (setByte (h.mem a) 0 b) := fun b => by
    simpa using @storeByte_of_aligned h a ha 0 (by decide) b
  rw [storeInt, hfirst, @storeByte_of_aligned _ a ha 1 (by decide),
    @storeByte_of_aligned _ a ha 2 (by decide), @storeByte_of_aligned _ a ha 3 (by decide)]
  simp only [mem_store, if_pos, store_store]
  exact congrArg (h.store a) (setByte_all (h.mem a) v)

/-- `memset` of four bytes more is one more word. -/
theorem memset_word (s : Ulong) (k : Nat) :
    h.memset s 0 (4 * (k + 1)) =
      (h.memset s 0 (4 * k)).storeInt (s + BitVec.ofNat 32 (4 * k)) 0 := by
  have hcast : ∀ j, s + BitVec.ofNat 32 (4 * k + j) =
      s + BitVec.ofNat 32 (4 * k) + BitVec.ofNat 32 j := fun j => by
    rw [ofNat_add, BitVec.add_assoc]
  show ((((h.memset s 0 (4 * k)).storeByte _ 0).storeByte
    (s + BitVec.ofNat 32 (4 * k + 1)) 0).storeByte
    (s + BitVec.ofNat 32 (4 * k + 2)) 0).storeByte (s + BitVec.ofNat 32 (4 * k + 3)) 0 = _
  rw [hcast, hcast, hcast]
  rfl

/-- The words of a cleared range. -/
theorem mem_memset (hp : 4 ∣ p.toNat) (k : Nat) :
    ∀ i < k, (h.memset p 0 (4 * k)).mem (p + BitVec.ofNat 32 (4 * i)) = 0 := by
  induction k with
  | zero => exact fun i hi => absurd hi (Nat.not_lt_zero i)
  | succ k ih =>
    intro i hi
    -- The last word may be any of them, where the range goes around the address space.
    have hword : 4 ∣ (p + BitVec.ofNat 32 (4 * k)).toNat := by
      rw [toNat_add, toNat_ofNat]
      omega
    rw [memset_word, storeInt_of_aligned hword, mem_store]
    split
    · rfl
    · rename_i hne
      refine ih i ?_
      have hik : i ≠ k := by
        rintro rfl
        exact hne rfl
      omega

end Bytes

/-! ### Sizes and blocks -/

section New
variable {h h' h1 : Heap} {c : Core} {p r n init nbytes : Ulong} {ps : List Ulong}

/-- The bytes of an object of `n` words at `r`, with the two words in
front of it. -/
def object (r n : Ulong) : Span := ⟨(r - 8).toNat, 4 * (n.toNat + 2)⟩

/-- What `_new` should do: return an object inside the block that
`getmem` took off the free list, with `init` in front of it and cleared,
or, without a block that is large enough, report failure and leave memory
as it is. -/
def NewSafe (h : Heap) (c : Core) (ps : List Ulong) (n init : Ulong) : Prop :=
  ∃ r h', h.new c n init = .ok (r, h') ∧
    ((∃ p h1, h.getmem c ((n + 2) * 4) = .ok (p, h1) ∧
        (∀ a, (object r n).Contains a → h.FreeAt c a ∧ ∀ d, ¬ h1.FreeAt d a) ∧
        h'.mem (r - 4) = init ∧ ∀ i < n.toNat, h'.mem (r + BitVec.ofNat 32 (4 * i)) = 0) ∨
      ((∀ p ∈ ps, (h.length p).toNat < 4 * (n.toNat + 2)) ∧ (r = NULL ∨ r = SYSERR) ∧ h' = h))

theorem toNat_size (hn : 4 * (n.toNat + 2) < 2 ^ 32) :
    ((n + 2) * 4).toNat = 4 * (n.toNat + 2) := by
  have hadd : (n + 2).toNat = n.toNat + 2 := by
    rw [toNat_add]
    exact Nat.mod_eq_of_lt (by show n.toNat + 2 < _; omega)
  rw [toNat_mul, hadd]
  show (n.toNat + 2) * 4 % 2 ^ 32 = _
  omega

theorem size_ne_zero (hn : 4 * (n.toNat + 2) < 2 ^ 32) : (n + 2) * 4 ≠ 0 := fun hzero => by
  have hsize := toNat_size hn
  rw [hzero] at hsize
  exact absurd hsize (by show 0 ≠ _; omega)

theorem new_of_getmem (hrun : h.getmem c ((n + 2) * 4) = .ok (p, h1)) :
    h.new c n init =
      .ok (p + 8, (h1.bzero p ((n + 2) * 4)).storeInt (p + 4) init) := by
  simp only [new, hrun, ok_bind]
  rfl

/-- A pointer past the first two words of a block does not look like a
failure, and neither does one past the first two words of `SYSERR`. -/
theorem getmem_not_failure (hw : h.WellFormed) (hps : h.FreeListInv c ps)
    (hrun : h.getmem c nbytes = .ok (p, h')) : p + 8 ≠ NULL ∧ p + 8 ≠ SYSERR := by
  rcases getmem_mem hw hps hrun with rfl | hp
  · exact ⟨by decide, by decide⟩
  · have halign := hps.aligned p hp
    have hgrid := hps.length_grid p hp
    have hpos := hps.length_pos p hp
    have hstop : p.toNat + (h.length p).toNat < 2 ^ 32 :=
      Nat.lt_of_le_of_lt (hps.inside p hp).2 (hw.layout.stop_lt c)
    have hsum : (p + 8).toNat = p.toNat + 8 := by
      rw [toNat_add]
      exact Nat.mod_eq_of_lt (by show p.toNat + 8 < _; omega)
    refine ⟨fun heq => ?_, fun heq => ?_⟩
    · rw [heq, toNat_NULL] at hsum
      omega
    · have hsys : SYSERR.toNat = 2 ^ 32 - 1 := by decide
      rw [heq, hsys] at hsum
      omega

/-- Free memory lies strictly between the first block of the address
space and its last byte. -/
theorem FreeAt.bounds (hl : h.Layout) {a : Nat} (ha : h.FreeAt c a) : 8 ≤ a ∧ a + 1 < 2 ^ 32 := by
  obtain ⟨ps, hps, s, hs, hsa⟩ := ha
  obtain ⟨p, hp, rfl⟩ := mem_map.mp hs
  obtain ⟨hlo, hhi⟩ := hps.inside p hp
  have hbase : 8 ≤ (h.freelist c).base.toNat := by
    have hlow := hl.low
    have hge : h.memheap.toNat ≤ (h.freelist c).base.toNat := (hl.within c).1
    have hgrid : 8 ∣ (h.freelist c).base.toNat := (hl.grid c).1
    omega
  have hstop : (h.freelist c).base.toNat + (h.freelist c).bound.toNat < 2 ^ 32 := hl.stop_lt c
  obtain ⟨hfrom, hto⟩ := hsa
  simp only [span, Span.stop] at hfrom hto
  omega

/-- A safe call needs a block that holds the whole object. -/
theorem room_of_newSafe (hw : h.WellFormed) (hps : h.FreeListInv c ps)
    (hsafe : h.NewSafe c ps n init) : ∃ p ∈ ps, 4 * (n.toNat + 2) ≤ (h.length p).toNat := by
  obtain ⟨r, h', hnew, halt⟩ := hsafe
  obtain ⟨⟨p, h1⟩, hrun, hret⟩ := bind_eq_ok hnew
  cases hret
  obtain ⟨hnull, hsys⟩ := getmem_not_failure hw hps hrun
  rcases halt with ⟨_, _, -, hin, -⟩ | ⟨-, hfail, -⟩
  · -- Both ends of the object are free memory, so its size has not wrapped.
    have hobj : object (p + 8) n = ⟨p.toNat, 4 * (n.toNat + 2)⟩ := by
      rw [object, BitVec.add_sub_cancel]
    rw [hobj] at hin
    have hfirst := (hin p.toNat ⟨Nat.le_refl _, by rw [Span.stop_mk]; omega⟩).1.bounds hw.layout
    have hlast := (hin (p.toNat + 4 * (n.toNat + 2) - 1)
      ⟨by show p.toNat ≤ _; omega, by rw [Span.stop_mk]; omega⟩).1.bounds hw.layout
    have hsize : ((n + 2) * 4).toNat = 4 * (n.toNat + 2) := toNat_size (by omega)
    have h0 : (n + 2) * 4 ≠ 0 := size_ne_zero (by omega)
    obtain ⟨free, hf⟩ := wellFormed_iff.mp hw
    rcases hf.getmem c h0 (by omega) with
      ⟨-, herr⟩ | ⟨q, l', h2, hfit, -⟩
    · -- `SYSERR` is the last byte of the address space.
      rw [hrun, Except.ok.injEq, Prod.mk.injEq] at herr
      rw [herr.1] at hfirst
      exact absurd hfirst.2 (by decide)
    · obtain ⟨pre, s, post, hsplit, -, hlen, -⟩ := firstFit_eq_some hfit
      have hs : s ∈ ps.map h.span := by
        rw [hf.map_span hps, hsplit]
        exact mem_append_right _ mem_cons_self
      obtain ⟨q, hq, rfl⟩ := mem_map.mp hs
      refine ⟨q, hq, ?_⟩
      rw [toNat_roundmb (by omega)] at hlen
      simp only [span] at hlen
      omega
  · exact absurd hfail (not_or.mpr ⟨hnull, hsys⟩)

/-- What a new object has in it. The store of `init` goes to the second
word of the block, the words after it stay cleared. -/
theorem new_contents (h : Heap) (init : Ulong) (hp : 8 ∣ p.toNat)
    (hfit : p.toNat + 4 * (n.toNat + 2) < 2 ^ 32) :
    ((h.bzero p ((n + 2) * 4)).storeInt (p + 4) init).mem (p + 8 - 4) = init ∧
    ∀ i < n.toNat, ((h.bzero p ((n + 2) * 4)).storeInt (p + 4) init).mem
      (p + 8 + BitVec.ofNat 32 (4 * i)) = 0 := by
  have hslot : ∀ k < n.toNat + 2, (p + BitVec.ofNat 32 (4 * k)).toNat = p.toNat + 4 * k := by
    intro k hk
    rw [toNat_add, toNat_ofNat]
    omega
  have hsecond : (p + 4).toNat = p.toNat + 4 := hslot 1 (by omega)
  rw [storeInt_of_aligned (by omega)]
  constructor
  · have hfront : p + 8 - 4 = p + 4 := by bv_omega
    rw [hfront, mem_store, if_pos rfl]
  · intro i hi
    have hword : p + 8 + BitVec.ofNat 32 (4 * i) = p + BitVec.ofNat 32 (4 * (i + 2)) := by
      rw [Nat.mul_add, Nat.add_comm, ofNat_add, BitVec.add_assoc]
      rfl
    have hother : p + BitVec.ofNat 32 (4 * (i + 2)) ≠ p + 4 := fun heq => by
      have hnat := hslot (i + 2) (by omega)
      rw [heq] at hnat
      omega
    rw [hword, mem_store, if_neg hother, bzero, toNat_size (by omega)]
    exact mem_memset (by omega) _ _ (by omega)

/-- With such a block the call is safe. -/
theorem newSafe_of_room (hw : h.WellFormed) (hps : h.FreeListInv c ps) {q : Ulong} (hq : q ∈ ps)
    (hroom : 4 * (n.toNat + 2) ≤ (h.length q).toNat) : h.NewSafe c ps n init := by
  obtain ⟨free, hf⟩ := wellFormed_iff.mp hw
  have hgrid := hps.length_grid q hq
  have hlt := (h.length q).isLt
  have hsize : ((n + 2) * 4).toNat = 4 * (n.toNat + 2) := toNat_size (by omega)
  have hround : (roundmb ((n + 2) * 4)).toNat = (4 * (n.toNat + 2) + 7) / 8 * 8 := by
    rw [toNat_roundmb (by omega), hsize]
  have h0 : (n + 2) * 4 ≠ 0 := size_ne_zero (by omega)
  rcases hf.getmem c h0 (by omega) with ⟨hnone, -⟩ | ⟨p, l', h1, -, hp, hne, hrun, -⟩
  · -- Lengths are multiples of eight, so `q` has room for the rounded size too.
    have hshort := firstFit_eq_none.mp hnone (h.span q)
      (hf.map_span hps ▸ mem_map_of_mem hq)
    simp only [span] at hshort
    omega
  · rcases hf.getmem_removes c h0 (by omega) with
      herr | ⟨p', h1', free', hrun', -, hf', hmem, hrem⟩
    · rw [hrun, Except.ok.injEq, Prod.mk.injEq] at herr
      exact absurd herr.1 hne
    · rw [hrun, Except.ok.injEq, Prod.mk.injEq] at hrun'
      obtain ⟨rfl, rfl⟩ := hrun'
      have hdvd : 8 ∣ p.toNat := hp
      have hfit : p.toNat + 4 * (n.toNat + 2) < 2 ^ 32 := by omega
      obtain ⟨hinit, hzero⟩ := new_contents h1 init hdvd hfit
      refine ⟨_, _, new_of_getmem hrun, Or.inl ⟨p, h1, hrun, fun a ha => ?_, hinit, hzero⟩⟩
      -- The object ends before the rounded size does.
      rw [object, BitVec.add_sub_cancel] at ha
      rw [hf.freeAt_iff]
      simp only [hf'.freeAt_iff]
      refine hrem a ⟨ha.1, Nat.lt_of_lt_of_le ha.2 ?_⟩
      simp only [Span.stop_mk]
      omega

/-- **Objects of any size.** `_new` is safe exactly when the core's free
list has a block for the whole object: neither a size that wraps nor an
empty list is noticed. -/
theorem new_safe_iff (hw : h.WellFormed) (hps : h.FreeListInv c ps) (n init : Ulong) :
    h.NewSafe c ps n init ↔ ∃ p ∈ ps, 4 * (n.toNat + 2) ≤ (h.length p).toNat :=
  ⟨room_of_newSafe hw hps, fun ⟨_, hp, hroom⟩ => newSafe_of_room hw hps hp hroom⟩

end New

/-- An array of a hundred words on the board. -/
theorem new_safe_board :
    (∃ p ∈ [(0x48000 : Ulong)], 4 * ((100 : Ulong).toNat + 2) ≤ (board.length p).toNat) ∧
      board.NewSafe 0 [0x48000] 100 7 := by
  have hroom : ∃ p ∈ [(0x48000 : Ulong)],
      4 * ((100 : Ulong).toNat + 2) ≤ (board.length p).toNat :=
    ⟨0x48000, mem_singleton.mpr rfl, by decide +kernel⟩
  exact ⟨hroom, (new_safe_iff board_wellFormed board_freeListInv 100 7).mpr hroom⟩

theorem boardTaken_freeListInv : boardTaken.FreeListInv 0 [] := by
  obtain ⟨ps, hps⟩ := boardTaken_wellFormed.lists 0
  cases ps with
  | nil => exact hps
  | cons p ps =>
    have hhead : NULL = p := hps.chain.1
    exact absurd (hhead ▸ mem_cons_self) hps.nonnull

/-- Two calls that return. Without free memory `_new(0, 0xABCD)` writes
around address zero and returns the address seven. With `n = 2^30 - 1`
the size wraps to four, and the first word of the array is still on the
free list. -/
theorem new_unsafe :
    (¬ boardTaken.NewSafe 0 [] 0 0xABCD ∧
      (boardTaken.new 0 0 0xABCD).map (fun s => (s.1, boardTaken.mem 0, s.2.mem 0, s.2.mem 4)) =
        .ok (7, 0, 0xCD000000, 0xAB)) ∧
    (¬ board.NewSafe 0 [0x48000] 0x3FFFFFFF 7 ∧
      (board.new 0 0x3FFFFFFF 7).map (fun s => (s.1, (s.2.freelist 0).head)) =
        .ok (0x48008, 0x48008)) := by
  refine ⟨⟨fun hsafe => ?_, by decide +kernel⟩, fun hsafe => ?_, by decide +kernel⟩
  · obtain ⟨p, hp, -⟩ := room_of_newSafe boardTaken_wellFormed boardTaken_freeListInv hsafe
    exact absurd hp not_mem_nil
  · obtain ⟨p, hp, hroom⟩ := room_of_newSafe board_wellFormed board_freeListInv hsafe
    have := (board.length p).isLt
    exact absurd hroom (by show ¬ 4 * (0x3FFFFFFF + 2) ≤ _; omega)

end Xinu.Heap
