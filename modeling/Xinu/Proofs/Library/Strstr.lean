import Xinu.Proofs.Machine.Strings
import Xinu.System.Strings

/-!
# `Xinu.Proofs.Library.Strstr`: the first occurrence of a string

`strstr` returns the first place of the needle, or `NULL` if there is none,
and it reads both strings no further than their terminators: the results
hold for any two memories that have the strings, so also for memories that
have nothing else.

The loop ends at the end of the haystack before it compares there. This
matters only for the empty needle, which occurs at the end of every
string, and first there only if the haystack is empty too (`strstr_iff`).
-/

namespace Xinu.Strings

open List

open Lib (Holds add_one_add_ofNat holds_cons place holds_place)

/-- The needle occurs at the offset `k`, and not before. -/
structure FirstAt (needle haystack : List Byte) (k : Nat) : Prop where
  le : k ≤ haystack.length
  occurs : needle <+: haystack.drop k
  first : ∀ j < k, ¬needle <+: haystack.drop j

/-- What `strstr` should return for a haystack at `a`. -/
structure Found (needle haystack : List Byte) (a : Ulong64) (r : Option Ulong64) : Prop where
  some_of_infix : needle <:+: haystack →
    ∃ k, FirstAt needle haystack k ∧ r = some (a + BitVec.ofNat 64 k)
  none_of_not : ¬needle <:+: haystack → r = none

section Found
variable {needle l : List Byte} {b : Byte} {a : Ulong64} {r : Option Ulong64}

/-- An occurrence at the start is the first one. -/
theorem found_of_prefix (h : needle <+: l) : Found needle l a (some a) where
  some_of_infix _ := by
    refine ⟨0, ⟨Nat.zero_le _, h, fun j hj => absurd hj (Nat.not_lt_zero j)⟩, ?_⟩
    exact congrArg some (BitVec.add_zero a).symm
  none_of_not h' := absurd h.isInfix h'

/-- The others are found in the rest of the haystack. -/
theorem found_cons (h : ¬needle <+: b :: l) (hrest : Found needle l (a + 1) r) :
    Found needle (b :: l) a r where
  some_of_infix hinfix := by
    obtain ⟨k, hk, rfl⟩ := hrest.some_of_infix ((infix_cons_iff.mp hinfix).resolve_left h)
    refine ⟨k + 1, ⟨Nat.succ_le_succ hk.le, hk.occurs, ?_⟩, ?_⟩
    · intro j hj
      cases j with
      | zero => exact h
      | succ j => exact hk.first j (Nat.lt_of_succ_lt_succ hj)
    · rw [add_one_add_ofNat]
  none_of_not hinfix := hrest.none_of_not fun h' => hinfix (infix_cons_iff.mpr (Or.inr h'))

/-- A needle that is not empty does not occur in the empty string. -/
theorem found_nil (h : needle ≠ []) : Found needle [] a none where
  some_of_infix hinfix := absurd (infix_nil.mp hinfix) h
  none_of_not _ := rfl

end Found

section Search
variable {m1 m2 : Bytes} {s : List Byte} {a x : Ulong64}

/-- With the length of the second string `strncmp` is the comparison with a
constant. It does not read the terminator of the second string. -/
theorem strncmp_eq : ∀ {s : List Byte} {a x : Ulong64}, Holds m2 x s →
    strncmp m1 m2 a x s.length = m1.strncmp a s s.length := by
  intro s
  induction s with
  | nil => exact fun _ => rfl
  | cons d s ih =>
    intro a x h
    obtain ⟨h0, h⟩ := holds_cons.mp h
    rw [length_cons, strncmp, Bytes.strncmp, headD_cons, tail_cons, ← ih h,
      Bytes.byte_eq_ok.mpr h0]
    rfl

/-- The loop finds the needle, if one of the strings is not empty. -/
theorem strstrLoop_of_holds (hs : ∀ d ∈ s, d ≠ 0) (hx : Holds m2 x s) (hlen : s.length < 2 ^ 64) :
    ∀ {l : List Byte} {fuel : Nat} {a : Ulong64}, (∀ b ∈ l, b ≠ 0) → Holds m1 a (l ++ [0]) →
      l.length < fuel → (l ≠ [] ∨ s ≠ []) →
      ∃ r, strstrLoop m1 m2 x (BitVec.ofNat 64 s.length) fuel a = .ok r ∧ Found s l a r := by
  have hsize : (BitVec.ofNat 64 s.length).toNat = s.length := by
    rw [BitVec.toNat_ofNat, Nat.mod_eq_of_lt hlen]
  intro l
  induction l with
  | nil =>
    intro fuel a _ h hfuel hne
    obtain ⟨fuel, rfl⟩ := Nat.exists_eq_succ_of_ne_zero (Nat.ne_of_gt hfuel)
    have hbyte : m1.byte a = .ok 0 := Bytes.byte_eq_ok.mpr h.1
    rw [strstrLoop, hbyte]
    exact ⟨none, rfl, found_nil (hne.resolve_left fun h => h rfl)⟩
  | cons b l ih =>
    intro fuel a hl h hfuel _
    obtain ⟨fuel, rfl⟩ := Nat.exists_eq_succ_of_ne_zero (Nat.ne_of_gt (Nat.zero_lt_of_lt hfuel))
    obtain ⟨hb, hl'⟩ := forall_mem_cons.mp hl
    obtain ⟨r, hr, hiff⟩ := Bytes.strncmp_of_holds hs hl h
    rw [strstrLoop, Bytes.byte_eq_ok.mpr h.1, ok_bind, if_pos hb, hsize, strncmp_eq hx, hr,
      ok_bind]
    by_cases hprefix : s <+: b :: l
    · rw [if_pos (hiff.mpr hprefix)]
      exact ⟨some a, rfl, found_of_prefix hprefix⟩
    · rw [if_neg (mt hiff.mp hprefix)]
      -- The needle is not empty, or it would be a prefix.
      have hne : s ≠ [] := fun hs => hprefix (hs ▸ nil_prefix)
      obtain ⟨r, hrun, hfound⟩ := ih hl' h.2 (Nat.lt_of_succ_lt_succ hfuel) (Or.inr hne)
      exact ⟨r, hrun, found_cons hprefix hfound⟩

/-- `strstr` returns the first place of the needle, or `NULL` if it has
none, exactly when one of the strings is not empty. -/
theorem strstr_iff {haystack needle : CString} {fuel : Nat} (h : Holds m1 a haystack.encode)
    (hx : Holds m2 x needle.encode) (hfuel : haystack.bytes.length < fuel)
    (hfuel' : needle.bytes.length < fuel) :
    (∃ r, strstr m1 m2 fuel a x = .ok r ∧ Found needle.bytes haystack.bytes a r) ↔
      ¬(haystack.bytes = [] ∧ needle.bytes = []) := by
  have hstrlen : m2.strlen fuel x = .ok (BitVec.ofNat 64 needle.bytes.length) := by
    have hloop := Bytes.strlenLoop_eq needle.bytes needle.nonzero
      (show Holds m2 (x + 0) needle.encode from (BitVec.add_zero x).symm ▸ hx) hfuel'
    exact hloop.trans (congrArg Except.ok (BitVec.zero_add _))
  rw [strstr, hstrlen, ok_bind]
  constructor
  · rintro ⟨r, hr, hfound⟩ ⟨hl, hs⟩
    -- The loop ends at once, and the empty needle is at offset 0.
    obtain ⟨fuel, rfl⟩ := Nat.exists_eq_succ_of_ne_zero (Nat.ne_of_gt (Nat.zero_lt_of_lt hfuel))
    rw [CString.encode, hl] at h
    have hbyte : m1.byte a = .ok 0 := Bytes.byte_eq_ok.mpr h.1
    rw [strstrLoop, hbyte] at hr
    obtain rfl : none = r := Except.ok.inj hr
    obtain ⟨k, -, hk⟩ := hfound.some_of_infix (by rw [hs]; exact nil_infix)
    cases hk
  · intro hne
    refine strstrLoop_of_holds needle.nonzero (Lib.holds_append.mp hx).1
      (Bytes.length_lt_of_holds hx) haystack.nonzero h hfuel ?_
    rw [← not_and_or]
    exact hne

end Search

/-- The string `ab`. -/
def ab : CString := ⟨[chr 'a', chr 'b'], by decide⟩

/-- The string `b`. -/
def b : CString := ⟨[chr 'b'], by decide⟩

/-- The empty string. -/
def empty : CString := ⟨[], CString.nonzero_nil⟩

/-- Each memory has its string and nothing else. -/
theorem strstr_ab : ∃ r, strstr (place 16 ab.encode) (place 19 b.encode) 3 16 19 = .ok r ∧
    Found b.bytes ab.bytes 16 r :=
  (strstr_iff (holds_place (by decide)) (holds_place (by decide)) (by decide) (by decide)).mpr
    (by decide)

/-- The empty string is not found in the empty string. -/
theorem strstr_empty :
    strstr (place 16 empty.encode) (place 17 empty.encode) 1 16 17 = .ok none ∧
    FirstAt empty.bytes empty.bytes 0 :=
  ⟨rfl, Nat.le_refl 0, nil_prefix, fun j hj => absurd hj (Nat.not_lt_zero j)⟩

end Xinu.Strings
