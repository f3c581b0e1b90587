import Mathlib.Data.List.TakeWhile
import Xinu.Proofs.Library.Swap
import Xinu.System.Strings

/-!
# `Xinu.Proofs.Library.Bounded`: `strncpy` and `strnlen` on arrays

A source array of exactly `n` bytes may end without a `NUL`. What the two
functions should do with it is in `Bounded`: the results hold for every
memory that has the array, so also for one that has nothing else, and no
byte outside of the array is read.

Both loops read `src[i]` before they compare `i` with the limit. If the
array has no `NUL`, the last read is the one after its end. So the array
has to have a `NUL` (`bounded_iff`).
-/

namespace Xinu.Strings

open List

open Lib (Holds Mapped add_one_add_ofNat holds_append holds_cons holds_place overlay
  overlay_cons place)

/-- The bytes up to the first `NUL`. -/
def text (l : List Byte) : List Byte := l.takeWhile (· ≠ 0)

/-- The bytes up to the first `NUL`, and zeros after them. -/
def zeroFilled (l : List Byte) : List Byte :=
  text l ++ List.replicate (l.length - (text l).length) 0

/-- What is asked of the functions for a source array of the bytes `l`.
The index of the first `NUL`, if there is one, is the length of `text l`. -/
structure Bounded (dest src : Ulong64) (l : List Byte) : Prop where
  copies : ∀ m1 m2 : Bytes, Mapped m1 dest l.length → Holds m2 src l →
    strncpy m1 m2 dest src l.length = .ok (overlay dest (zeroFilled l) m1)
  measures : ∀ m : Bytes, Holds m src l →
    m.strnlen src l.length = .ok (BitVec.ofNat 64 (min l.length (text l).length))

section Text
variable {l : List Byte}

theorem nonzero_of_mem_text : ∀ b ∈ text l, b ≠ 0 := by
  intro b hb
  have hkept : decide (b ≠ 0) = true := mem_takeWhile_imp (p := fun c : Byte => c ≠ 0) hb
  exact of_decide_eq_true hkept

/-- The first `NUL` comes right after the text. -/
theorem exists_eq_text_append (h : (0 : Byte) ∈ l) : ∃ rest, l = text l ++ 0 :: rest := by
  have hsplit : text l ++ l.dropWhile (· ≠ 0) = l := takeWhile_append_dropWhile
  cases hrest : l.dropWhile (· ≠ 0) with
  | nil =>
    rw [hrest, append_nil] at hsplit
    rw [← hsplit] at h
    exact absurd rfl (nonzero_of_mem_text 0 h)
  | cons b rest =>
    have hb : b = 0 := by
      have hne : l.dropWhile (· ≠ 0) ≠ [] := by
        rw [hrest]
        exact cons_ne_nil b rest
      have hhead := head_dropWhile_not (fun c : Byte => decide (c ≠ 0)) hne
      simp only [hrest, head_cons, decide_eq_false_iff_not, not_not] at hhead
      exact hhead
    refine ⟨rest, ?_⟩
    rw [← hb, ← hrest, hsplit]

end Text

/-! ### Stores to the destination -/

section Stores
variable {m m1 m2 : Bytes} {dest src : Ulong64} {l w : List Byte} {n : Nat}

/-- The first of some mapped bytes can be stored to. -/
theorem store_of_mapped {b : Byte} (h : Mapped m dest (n + 1)) :
    ∃ c, m dest = some c ∧ m.store dest b = .ok (Function.update m dest (some b)) ∧
      Mapped (Function.update m dest (some b)) (dest + 1) n := by
  obtain ⟨l, hlen, hl⟩ := h
  obtain ⟨c, l, rfl⟩ := exists_cons_of_length_eq_add_one hlen
  refine ⟨c, hl.1, Qsort.store_of_eq hl.1, ?_⟩
  exact Mapped.update ⟨l, Nat.succ_inj.mp hlen, hl.2⟩

theorem strncpyFill_eq : ∀ {n : Nat} {dest : Ulong64} {m : Bytes}, n ≤ 2 ^ 64 → Mapped m dest n →
    strncpyFill n dest m = .ok (overlay dest (List.replicate n 0) m) := by
  intro n
  induction n with
  | zero =>
    intro dest m _ _
    rfl
  | succ n ih =>
    intro dest m hn h
    obtain ⟨c, hc, hstore, hrest⟩ := store_of_mapped (b := 0) h
    have hlen : (0 :: List.replicate n (0 : Byte)).length ≤ 2 ^ 64 := by
      rw [length_cons, length_replicate]
      exact hn
    rw [strncpyFill, hstore, ok_bind, ih (Nat.le_of_succ_le hn) hrest, List.replicate_succ,
      overlay_cons hlen hc]

theorem length_of_strncpy : ∀ {n : Nat} {src : Ulong64} {w : List Byte},
    m.strncpy src n = .ok w → w.length = n := by
  intro n
  induction n with
  | zero =>
    intro src w hw
    obtain ⟨c, hc, hw⟩ := bind_eq_ok hw
    rw [← Except.ok.inj hw]
    rfl
  | succ n ih =>
    intro src w hw
    obtain ⟨c, hc, hw⟩ := bind_eq_ok hw
    by_cases hzero : c = 0
    · rw [if_neg (not_not_intro hzero)] at hw
      rw [← Except.ok.inj hw, length_replicate]
    · rw [if_pos hzero] at hw
      obtain ⟨w', hw', hw⟩ := bind_eq_ok hw
      rw [← Except.ok.inj hw, length_cons, ih hw']

/-- What `strncpy` reads is what it stores. -/
theorem strncpyLoop_eq : ∀ {n : Nat} {dest src : Ulong64} {m : Bytes} {w : List Byte}, n ≤ 2 ^ 64 →
    Mapped m dest n → m2.strncpy src n = .ok w →
      strncpyLoop m2 n dest src m = .ok (overlay dest w m) := by
  intro n
  induction n with
  | zero =>
    intro dest src m w _ _ hw
    obtain ⟨c, hc, hw⟩ := bind_eq_ok hw
    cases hw
    rw [strncpyLoop, hc]
    rfl
  | succ n ih =>
    intro dest src m w hn h hw
    obtain ⟨c, hc, hw⟩ := bind_eq_ok hw
    rw [strncpyLoop, hc, ok_bind]
    by_cases hzero : c = 0
    · -- The second loop of `strncpy` takes over and reads no more of the source.
      rw [if_neg (not_not_intro hzero)] at hw ⊢
      cases hw
      exact strncpyFill_eq hn h
    · rw [if_pos hzero] at hw ⊢
      obtain ⟨w', hw', hw⟩ := bind_eq_ok hw
      cases hw
      obtain ⟨d, hd, hstore, hrest⟩ := store_of_mapped (b := c) h
      have hlen : (c :: w').length ≤ 2 ^ 64 := by
        rw [length_cons, length_of_strncpy hw']
        exact hn
      rw [hstore, ok_bind, ih (Nat.le_of_succ_le hn) hrest hw', overlay_cons hlen hd]

end Stores

/-! ### The end of the array -/

section End
variable {m m1 m2 : Bytes} {dest src : Ulong64} {l : List Byte}

/-- Without a `NUL` the loop of `strncpy` comes to the byte after the
array. -/
theorem strncpyLoop_past_end : ∀ {l : List Byte} {dest src : Ulong64} {m : Bytes}, (0 : Byte) ∉ l →
    Mapped m dest l.length → Holds m2 src l → m2 (src + BitVec.ofNat 64 l.length) = none →
      strncpyLoop m2 l.length dest src m = .error .outOfBounds := by
  intro l
  induction l with
  | nil =>
    intro dest src m _ _ _ hend
    -- The limit is reached, and the condition of the loop still reads `src[i]` first.
    have hsrc : src + BitVec.ofNat 64 ([] : List Byte).length = src := BitVec.add_zero src
    rw [hsrc] at hend
    rw [length_nil, strncpyLoop, Bytes.byte_of_none hend]
    rfl
  | cons b l ih =>
    intro dest src m hl hdest hsrc hend
    rw [mem_cons, not_or] at hl
    obtain ⟨c, hc, hstore, hrest⟩ := store_of_mapped (b := b) hdest
    rw [length_cons, ← add_one_add_ofNat] at hend
    rw [length_cons, strncpyLoop, Bytes.byte_eq_ok.mpr hsrc.1, ok_bind, if_pos (Ne.symm hl.1),
      hstore, ok_bind, ih hl.2 hrest hsrc.2 hend]

/-- So does the loop of `strnlen`. -/
theorem strnlenLoop_past_end : ∀ {l : List Byte} {n : Ulong64}, (0 : Byte) ∉ l →
    Holds m (src + n) l → m (src + n + BitVec.ofNat 64 l.length) = none →
      m.strnlenLoop src l.length n = .error .outOfBounds := by
  intro l
  induction l with
  | nil =>
    intro n _ _ hend
    have hsrc : src + n + BitVec.ofNat 64 ([] : List Byte).length = src + n := BitVec.add_zero _
    rw [hsrc] at hend
    rw [length_nil, Bytes.strnlenLoop, Bytes.byte_of_none hend]
    rfl
  | cons b l ih =>
    intro n hl h hend
    rw [mem_cons, not_or] at hl
    obtain ⟨h0, h⟩ := holds_cons.mp h
    rw [length_cons, ← add_one_add_ofNat, BitVec.add_assoc src n 1] at hend
    rw [BitVec.add_assoc] at h
    rw [length_cons, Bytes.strnlenLoop, Bytes.byte_eq_ok.mpr h0, ok_bind, if_pos (Ne.symm hl.1),
      ih hl.2 h hend]

theorem place_end (h : l.length < 2 ^ 64) :
    place src l (src + BitVec.ofNat 64 l.length) = none := by
  rw [place, Lib.toNat_ofNat_add_sub h, List.getElem?_eq_none (Nat.le_refl _)]

/-- An array with a `NUL` is treated as it should be. -/
theorem bounded_of_mem (hlen : l.length < 2 ^ 64) (h : (0 : Byte) ∈ l) : Bounded dest src l := by
  obtain ⟨rest, hrest⟩ := exists_eq_text_append h
  have hlt : (text l).length < l.length := by
    rw [congrArg List.length hrest, length_append, length_cons]
    omega
  -- The text with its `NUL` lies in the array, so the lemmas about strings apply.
  have hstring : ∀ m : Bytes, Holds m src l → Holds m src (text l ++ [0]) := by
    intro m hm
    rw [hrest, ← singleton_append, ← List.append_assoc] at hm
    exact (holds_append.mp hm).1
  constructor
  · intro m1 m2 hdest hsrc
    have hread := Bytes.strncpy_of_holds (n := l.length) nonzero_of_mem_text (hstring m2 hsrc)
    rw [take_of_length_le (Nat.le_of_lt hlt)] at hread
    exact strncpyLoop_eq (Nat.le_of_lt hlen) hdest hread
  · intro m hm
    have hzero : src + (0 : Ulong64) = src := BitVec.add_zero src
    have hcount : m.strnlenLoop src l.length 0 = _ :=
      Bytes.strnlenLoop_of_holds nonzero_of_mem_text (hzero.symm ▸ hstring m hm)
    rw [Bytes.strnlen, hcount]
    exact congrArg Except.ok (BitVec.zero_add _)

/-- Without a `NUL`, and with nothing after the array, both functions
leave the memory. -/
theorem leaves_memory (hlen : l.length < 2 ^ 64) (h : (0 : Byte) ∉ l) :
    ∃ m1 m2 : Bytes, Mapped m1 dest l.length ∧ Holds m2 src l ∧
      strncpy m1 m2 dest src l.length = .error .outOfBounds ∧
      m2.strnlen src l.length = .error .outOfBounds := by
  -- The array is all there is in the source's memory.
  have hsrc : Holds (place src l) src l := holds_place (Nat.le_of_lt hlen)
  have hdest : Mapped (place dest l) dest l.length := (holds_place (Nat.le_of_lt hlen)).mapped
  have hzero : src + (0 : Ulong64) = src := BitVec.add_zero src
  refine ⟨place dest l, place src l, hdest, hsrc, ?_, ?_⟩
  · exact strncpyLoop_past_end h hdest hsrc (place_end hlen)
  · refine strnlenLoop_past_end h ?_ ?_
    · rw [hzero]
      exact hsrc
    · rw [hzero]
      exact place_end hlen

/-- The array has to have a `NUL`. -/
theorem bounded_iff (n : Ulong64) (hlen : l.length = n.toNat) :
    Bounded dest src l ↔ (0 : Byte) ∈ l := by
  have hlt : l.length < 2 ^ 64 := hlen ▸ n.isLt
  constructor
  · intro hbounded
    by_contra h
    obtain ⟨m1, m2, hdest, hsrc, hcopy, -⟩ := @leaves_memory dest src l hlt h
    rw [hbounded.copies m1 m2 hdest hsrc] at hcopy
    cases hcopy
  · exact bounded_of_mem hlt

theorem bounded_terminated : Bounded 0x2000 0x1000 [chr 'a', 0] :=
  (bounded_iff 2 (by decide)).mpr (by decide)

/-- The one byte of the array is no `NUL`, and the byte after it is not
mapped. -/
theorem unterminated_leaves_memory :
    Holds (place 0x1000 [chr 'a'] : Bytes) 0x1000 [chr 'a'] ∧
    Mapped (place 0x2000 [0] : Bytes) 0x2000 1 ∧
    strncpy (place 0x2000 [0]) (place 0x1000 [chr 'a']) 0x2000 0x1000 1 = .error .outOfBounds ∧
    Bytes.strnlen (place 0x1000 [chr 'a']) 0x1000 1 = .error .outOfBounds :=
  ⟨by decide, ⟨[0], rfl, by decide⟩, rfl, rfl⟩

end End

end Xinu.Strings
