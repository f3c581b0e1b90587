import Xinu.Proofs.Machine.Dtb
import Xinu.System.Platform

/-!
# `Xinu.Proofs.Machine.Strings`: loads and string functions in mapped memory

Each function that reads memory has two facts here. One says what it
returns where the memory has what it reads: a word in big-endian order, a
C string, or as much of one as a comparison needs (`Bytes.Compares`). The
other is the converse. When the function returned, all of that was there.

So for the word loads, `strcmp`, `strlen` and `strrchr` the condition for
a return is exact. `strncmp`, `strnlen` and `strncpy` are only called on
strings that one of these went through before.
-/

namespace Xinu

open List

open Lib (Holds Mapped add_one_add_ofNat holds_append holds_cons mapped_add)

namespace Bytes

variable {m : Bytes} {a : Ulong64} {s l : List Byte} {b ch : Byte}

theorem byte_eq_ok : m.byte a = .ok b ↔ m a = some b := by
  rw [byte]
  cases m a <;> simp

/-! ### Words -/

/-- The bytes of a word, from the swapped one. -/
theorem be32_be32ToCpu (b0 b1 b2 b3 : Byte) :
    Dtb.be32 (be32ToCpu (b3 ++ b2 ++ b1 ++ b0)) = [b0, b1, b2, b3] := by
  have hbyte : ∀ (k : Nat) (b : Byte),
      (∀ i < 8, (be32ToCpu (b3 ++ b2 ++ b1 ++ b0)).getLsbD (k + i) = b.getLsbD i) →
      (be32ToCpu (b3 ++ b2 ++ b1 ++ b0)).extractLsb' k 8 = b := by
    intro k b h
    apply BitVec.eq_of_getLsbD_eq
    intro i hi
    rw [BitVec.getLsbD_extractLsb', decide_eq_true hi, Bool.true_and, h i hi]
  rw [Dtb.be32, hbyte 24 b0 ?_, hbyte 16 b1 ?_, hbyte 8 b2 ?_, hbyte 0 b3 ?_]
  -- Each bit of the swapped word comes from one of the four masks.
  all_goals
    intro i hi
    simp only [be32ToCpu, bswap32, BitVec.getLsbD_or, BitVec.getLsbD_and,
      BitVec.getLsbD_shiftLeft, BitVec.getLsbD_ushiftRight, BitVec.getLsbD_append]
    interval_cases i <;> simp

/-- A word that was loaded is there in big-endian order. -/
theorem holds_of_uint {n : Uint} (h : m.uint a = .ok n) :
    Holds m a (Dtb.be32 (be32ToCpu n)) := by
  obtain ⟨b0, h0, h⟩ := bind_eq_ok h
  obtain ⟨b1, h1, h⟩ := bind_eq_ok h
  obtain ⟨b2, h2, h⟩ := bind_eq_ok h
  obtain ⟨b3, h3, h⟩ := bind_eq_ok h
  obtain rfl : b3 ++ b2 ++ b1 ++ b0 = n := Except.ok.inj h
  rw [be32_be32ToCpu]
  have htwo : a + 1 + 1 = a + 2 := BitVec.add_assoc a 1 1
  have hthree : a + 2 + 1 = a + 3 := BitVec.add_assoc a 2 1
  refine ⟨byte_eq_ok.mp h0, byte_eq_ok.mp h1, ?_, ?_, trivial⟩
  · rw [htwo]
    exact byte_eq_ok.mp h2
  · rw [htwo, hthree]
    exact byte_eq_ok.mp h3

theorem uint_isOk_iff : (∃ n, m.uint a = .ok n) ↔ Mapped m a 4 := by
  constructor
  · rintro ⟨n, h⟩
    exact (holds_of_uint h).mapped
  · rintro ⟨l, hlen, h⟩
    obtain ⟨b0, b1, b2, b3, rfl⟩ := length_eq_four.mp hlen
    rw [← be32_be32ToCpu b0 b1 b2 b3] at h
    obtain ⟨n, hn, -⟩ := uint_of_holds h
    exact ⟨n, hn⟩

theorem ulong_isOk_iff : (∃ n, m.ulong a = .ok n) ↔ Mapped m a 8 := by
  rw [show 8 = 4 + 4 from rfl, mapped_add, ← uint_isOk_iff, ← uint_isOk_iff]
  constructor
  · rintro ⟨n, h⟩
    obtain ⟨low, hlow, h⟩ := bind_eq_ok h
    obtain ⟨high, hhigh, -⟩ := bind_eq_ok h
    exact ⟨⟨low, hlow⟩, high, hhigh⟩
  · rintro ⟨⟨low, hlow⟩, high, hhigh⟩
    have hhigh' : m.uint (a + 4) = .ok high := hhigh
    refine ⟨high ++ low, ?_⟩
    rw [ulong, hlow, ok_bind, hhigh', ok_bind]
    rfl

/-! ### Strings -/

/-- The end of the string was found, so it is there. -/
theorem holds_of_strlenLoop : ∀ {fuel : Nat} {n r : Ulong64}, m.strlenLoop a fuel n = .ok r →
    ∃ s : CString, Holds m (a + n) s.encode ∧ r = n + BitVec.ofNat 64 s.bytes.length := by
  intro fuel
  induction fuel with
  | zero =>
    intro n r h
    cases h
  | succ fuel ih =>
    intro n r h
    obtain ⟨c, hc, h⟩ := bind_eq_ok h
    have hmem := byte_eq_ok.mp hc
    by_cases hzero : c = 0
    · rw [if_neg (not_not_intro hzero)] at h
      refine ⟨⟨[], nofun⟩, ⟨hzero ▸ hmem, trivial⟩, ?_⟩
      rw [← Except.ok.inj h]
      exact (BitVec.add_zero n).symm
    · rw [if_pos hzero] at h
      obtain ⟨s, hs, hr⟩ := ih h
      refine ⟨⟨c :: s.bytes, forall_mem_cons.mpr ⟨hzero, s.nonzero⟩⟩, ⟨hmem, ?_⟩, ?_⟩
      · rw [BitVec.add_assoc]
        exact hs
      · rw [hr, add_one_add_ofNat, length_cons]

/-- A string in memory does not come around to itself. -/
theorem length_lt_of_holds {s : CString} (h : Holds m a s.encode) : s.bytes.length < 2 ^ 64 := by
  by_contra hge
  obtain ⟨hchars, hnul⟩ := holds_append.mp h
  -- The NUL would be in the place of the character 2^64 places before it.
  have hsame : BitVec.ofNat 64 (s.bytes.length - 2 ^ 64) = BitVec.ofNat 64 s.bytes.length := by
    apply BitVec.eq_of_toNat_eq
    rw [BitVec.toNat_ofNat, BitVec.toNat_ofNat]
    omega
  have hlt : s.bytes.length - 2 ^ 64 < s.bytes.length := by omega
  have hchar := hchars.get hlt
  rw [hsame, hnul.1] at hchar
  exact s.nonzero _ (getElem_mem hlt) (Option.some_inj.mp hchar).symm

/-- The bytes are mapped up to the first one that differs from `s`. -/
def Compares (m : Bytes) : Ulong64 → List Byte → Prop
  | a, [] => ∃ b, m a = some b
  | a, d :: s => ∃ b, m a = some b ∧ (b = d → Compares m (a + 1) s)

/-- A C string can be compared with any other. -/
theorem compares_of_holds : ∀ {s l : List Byte} {a : Ulong64}, (∀ d ∈ s, d ≠ 0) →
    Holds m a (l ++ [0]) → m.Compares a s
  | [], [], _, _, h => ⟨0, h.1⟩
  | [], b :: _, _, _, h => ⟨b, h.1⟩
  | d :: _, [], _, hs, h => ⟨0, h.1, fun hd => absurd hd.symm (hs d mem_cons_self)⟩
  | d :: _, b :: _, _, hs, h =>
    ⟨b, h.1, fun _ => compares_of_holds (fun x hx => hs x (mem_cons_of_mem d hx)) h.2⟩

/-- A place has only one C string. -/
theorem bytes_unique : ∀ {s l : List Byte} {a : Ulong64}, (∀ d ∈ s, d ≠ 0) → (∀ b ∈ l, b ≠ 0) →
    Holds m a (s ++ [0]) → Holds m a (l ++ [0]) → s = l
  | [], [], _, _, _, _, _ => rfl
  | [], b :: _, _, _, hl, h, h' =>
    absurd (Option.some_inj.mp (h'.1.symm.trans h.1)) (hl b mem_cons_self)
  | d :: _, [], _, hs, _, h, h' =>
    absurd (Option.some_inj.mp (h.1.symm.trans h'.1)) (hs d mem_cons_self)
  | d :: _, b :: _, _, hs, hl, h, h' => by
    rw [Option.some_inj.mp (h.1.symm.trans h'.1), bytes_unique
      (fun x hx => hs x (mem_cons_of_mem d hx)) (fun x hx => hl x (mem_cons_of_mem b hx))
      h.2 h'.2]

theorem toNat_sub_eq_zero_iff {c d : Byte} : (c.toNat : Int) - d.toNat = 0 ↔ c = d := by
  rw [← BitVec.toNat_inj]
  omega

section
variable (hs : ∀ d ∈ s, d ≠ 0)
include hs

/-- `strcmp` returns where it can compare, with 0 for the same string. -/
theorem strcmp_spec (h : m.Compares a s) :
    ∃ r, m.strcmp a s = .ok r ∧ (r = 0 ↔ Holds m a (s ++ [0])) := by
  induction s generalizing a with
  | nil =>
    obtain ⟨c, hc⟩ := h
    refine ⟨c.toNat, ?_, ?_⟩
    · rw [strcmp, byte_eq_ok.mpr hc, ok_bind]
      rfl
    · rw [nil_append, holds_cons, hc, Option.some_inj, ← BitVec.toNat_inj]
      exact ⟨fun h => ⟨Int.ofNat_inj.mp h, trivial⟩, fun h => Int.ofNat_inj.mpr h.1⟩
  | cons d s ih =>
    obtain ⟨hd, hs⟩ := forall_mem_cons.mp hs
    obtain ⟨c, hc, hrest⟩ := h
    rw [strcmp, byte_eq_ok.mpr hc, ok_bind, List.cons_append, holds_cons, hc, Option.some_inj]
    -- Characters after the first difference are not read, so they need not
    -- be mapped.
    by_cases heq : c = d
    · obtain ⟨r, hr, hiff⟩ := ih hs (hrest heq)
      refine ⟨r, ?_, ?_⟩
      · rw [if_pos ⟨heq, heq ▸ hd⟩, hr]
      · rw [hiff]
        exact ⟨fun h => ⟨heq, h⟩, And.right⟩
    · refine ⟨c.toNat - d.toNat, ?_, ?_⟩
      · rw [if_neg fun h => heq h.1]
        rfl
      · rw [toNat_sub_eq_zero_iff]
        exact ⟨fun h => absurd h heq, fun h => absurd h.1 heq⟩

theorem compares_of_strcmp {r : Int} (h : m.strcmp a s = .ok r) :
    m.Compares a s := by
  induction s generalizing a with
  | nil =>
    obtain ⟨c, hc, -⟩ := bind_eq_ok h
    exact ⟨c, byte_eq_ok.mp hc⟩
  | cons d s ih =>
    obtain ⟨hd, hs⟩ := forall_mem_cons.mp hs
    obtain ⟨c, hc, h⟩ := bind_eq_ok h
    refine ⟨c, byte_eq_ok.mp hc, fun heq => ?_⟩
    rw [if_pos ⟨heq, heq ▸ hd⟩] at h
    exact ih hs h

theorem strcmp_eq_zero_iff {r : Int} (h : m.strcmp a s = .ok r) :
    r = 0 ↔ Holds m a (s ++ [0]) := by
  obtain ⟨r', hr', hiff⟩ := strcmp_spec hs (compares_of_strcmp hs h)
  rwa [Except.ok.inj (hr'.symm.trans h)] at hiff

/-- `strncmp` with the length of a constant asks for a prefix. -/
theorem strncmp_of_holds (hl : ∀ b ∈ l, b ≠ 0) (h : Holds m a (l ++ [0])) :
    ∃ r, m.strncmp a s s.length = .ok r ∧ (r = 0 ↔ s <+: l) := by
  induction s generalizing a l with
  | nil => exact ⟨0, rfl, fun _ => nil_prefix, fun _ => rfl⟩
  | cons d s ih =>
    obtain ⟨hd, hs⟩ := forall_mem_cons.mp hs
    cases l with
    | nil =>
      have hzero : m a = some 0 := h.1
      refine ⟨(0 : Byte).toNat - d.toNat, ?_, ?_⟩
      · rw [length_cons, strncmp, byte_eq_ok.mpr hzero, ok_bind, if_pos (Or.inl rfl)]
        rfl
      · rw [toNat_sub_eq_zero_iff, prefix_nil]
        exact ⟨fun h => absurd h.symm hd, fun h => absurd h (cons_ne_nil _ _)⟩
    | cons b l =>
      obtain ⟨hb, hl⟩ := forall_mem_cons.mp hl
      obtain ⟨h0, h⟩ := holds_cons.mp h
      rw [length_cons, strncmp, byte_eq_ok.mpr h0, ok_bind, headD_cons, tail_cons,
        cons_prefix_cons]
      by_cases heq : b = d
      · obtain ⟨r, hr, hiff⟩ := ih hs hl h
        have hgo : ¬(b = 0 ∨ b ≠ d) := not_or.mpr ⟨hb, not_not_intro heq⟩
        refine ⟨r, ?_, ?_⟩
        · rw [if_neg hgo, hr]
        · rw [hiff]
          exact ⟨fun h => ⟨heq.symm, h⟩, And.right⟩
      · refine ⟨b.toNat - d.toNat, ?_, ?_⟩
        · have hstop : b = 0 ∨ b ≠ d := Or.inr heq
          rw [if_pos hstop]
          rfl
        · rw [toNat_sub_eq_zero_iff]
          exact ⟨fun h => absurd h heq, fun h => absurd h.1.symm heq⟩

end

/-- `strnlen` counts up to the limit. -/
theorem strnlenLoop_of_holds (hl : ∀ b ∈ l, b ≠ 0) : ∀ {room : Nat} {n : Ulong64},
    Holds m (a + n) (l ++ [0]) →
      m.strnlenLoop a room n = .ok (n + BitVec.ofNat 64 (min room l.length)) := by
  induction l with
  | nil =>
    intro room n h
    have hzero : n + BitVec.ofNat 64 (min room ([] : List Byte).length) = n := by
      rw [length_nil, Nat.min_zero]
      exact BitVec.add_zero n
    have hbyte : m.byte (a + n) = .ok 0 := byte_eq_ok.mpr h.1
    rw [hzero]
    cases room with
    | zero =>
      rw [strnlenLoop, hbyte]
      rfl
    | succ room =>
      rw [strnlenLoop, hbyte]
      rfl
  | cons b l ih =>
    intro room n h
    obtain ⟨hb, hl⟩ := forall_mem_cons.mp hl
    obtain ⟨h0, h⟩ := holds_cons.mp h
    cases room with
    -- The loop reads a byte before it looks at the limit.
    | zero =>
      rw [strnlenLoop, byte_eq_ok.mpr h0, Nat.zero_min]
      exact congrArg Except.ok (BitVec.add_zero n).symm
    | succ room =>
      rw [BitVec.add_assoc] at h
      rw [strnlenLoop, byte_eq_ok.mpr h0, ok_bind, if_pos hb, ih hl h, add_one_add_ofNat,
        length_cons, Nat.succ_min_succ]

/-- The last place of a character from `a` on, and `r` when it has none. -/
def lastAt (ch : Byte) : List Byte → Ulong64 → Ulong64 → Ulong64
  | [], _, r => r
  | b :: l, a, r => lastAt ch l (a + 1) (if b = ch then a else r)

theorem lastAt_of_notMem (h : ch ∉ l) : ∀ (a r : Ulong64), lastAt ch l a r = r := by
  induction l with
  | nil =>
    intro a r
    rfl
  | cons b l ih =>
    intro a r
    rw [mem_cons, not_or] at h
    rw [lastAt, if_neg (Ne.symm h.1), ih h.2]

theorem lastAt_append (s l : List Byte) (h : ch ∉ l) :
    ∀ (a r : Ulong64), lastAt ch (s ++ ch :: l) a r = a + BitVec.ofNat 64 s.length := by
  induction s with
  | nil =>
    intro a r
    rw [nil_append, lastAt, if_pos rfl, lastAt_of_notMem h]
    exact (BitVec.add_zero a).symm
  | cons b s ih =>
    intro a r
    rw [List.cons_append, lastAt, ih, add_one_add_ofNat, length_cons]

theorem strrchrLoop_of_holds (hch : ch ≠ 0) (hl : ∀ b ∈ l, b ≠ 0) :
    ∀ {fuel : Nat} {a r : Ulong64}, Holds m a (l ++ [0]) → l.length < fuel →
      m.strrchrLoop ch fuel a r = .ok (lastAt ch l a r) := by
  induction l with
  | nil =>
    intro fuel a r h hfuel
    obtain ⟨fuel, rfl⟩ := Nat.exists_eq_succ_of_ne_zero (Nat.ne_of_gt hfuel)
    have hbyte : m.byte a = .ok 0 := byte_eq_ok.mpr h.1
    rw [strrchrLoop, hbyte, ok_bind, if_neg hch.symm]
    rfl
  | cons b l ih =>
    intro fuel a r h hfuel
    obtain ⟨hb, hl⟩ := forall_mem_cons.mp hl
    obtain ⟨h0, h⟩ := holds_cons.mp h
    cases fuel with
    | zero => exact absurd hfuel (Nat.not_lt_zero _)
    | succ fuel =>
      rw [strrchrLoop, byte_eq_ok.mpr h0, ok_bind]
      -- `lastAt` takes the same place for the character as the loop.
      simp only [if_pos hb]
      exact ih hl h (Nat.lt_of_succ_lt_succ hfuel)

theorem holds_of_strrchrLoop : ∀ {fuel : Nat} {a r x : Ulong64},
    m.strrchrLoop ch fuel a r = .ok x →
      ∃ s : CString, Holds m a s.encode ∧ s.bytes.length < fuel := by
  intro fuel
  induction fuel with
  | zero =>
    intro a r x h
    cases h
  | succ fuel ih =>
    intro a r x h
    obtain ⟨c, hc, h⟩ := bind_eq_ok h
    have hmem := byte_eq_ok.mp hc
    by_cases hzero : c = 0
    · exact ⟨⟨[], nofun⟩, ⟨hzero ▸ hmem, trivial⟩, Nat.succ_pos fuel⟩
    · simp only [if_pos hzero] at h
      obtain ⟨s, hs, hlen⟩ := ih h
      exact ⟨⟨c :: s.bytes, forall_mem_cons.mpr ⟨hzero, s.nonzero⟩⟩, ⟨hmem, hs⟩,
        Nat.succ_lt_succ hlen⟩

/-- `strncpy` writes the characters that fit, and zeros after them. -/
theorem strncpy_of_holds (hl : ∀ b ∈ l, b ≠ 0) : ∀ {n : Nat} {a : Ulong64},
    Holds m a (l ++ [0]) →
      m.strncpy a n = .ok (l.take n ++ List.replicate (n - l.length) 0) := by
  induction l with
  | nil =>
    intro n a h
    have hbyte : m.byte a = .ok 0 := byte_eq_ok.mpr h.1
    cases n with
    | zero =>
      rw [strncpy, hbyte]
      rfl
    | succ n =>
      rw [strncpy, hbyte]
      rfl
  | cons b l ih =>
    intro n a h
    obtain ⟨hb, hl⟩ := forall_mem_cons.mp hl
    obtain ⟨h0, h⟩ := holds_cons.mp h
    cases n with
    | zero =>
      rw [strncpy, byte_eq_ok.mpr h0, Nat.zero_sub]
      rfl
    | succ n =>
      rw [strncpy, byte_eq_ok.mpr h0, ok_bind, if_pos hb, ih hl h, length_cons,
        Nat.add_sub_add_right]
      rfl

end Bytes

end Xinu
