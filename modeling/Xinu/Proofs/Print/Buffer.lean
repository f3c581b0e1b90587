import Xinu.Proofs.Print.Numeral

/-!
# `Xinu.Proofs.Print.Buffer`: the arrays of `ulong_to_string`

`ulong_to_string` fills `temp` from its second entry on and copies it to
the buffer of the caller, the last entry first. If the loop over lists of
`Xinu.System.Print` finds the digits, the loop over the array writes the
same ones (`tempArrayLoop_eq`), so the results about the numerals carry over
(`ulongToStringInto_eq`). A number in base 2 can have as many digits as
bits. Then both arrays are full.
-/

namespace Xinu

open List

/-! ### Entries of an array -/

section Entries
variable {l l' a : List Byte} {b c : Byte}

theorem charAt_append_cons : charAt (l ++ c :: l') l.length = .ok c := by
  rw [charAt, getElem?_append_right (Nat.le_refl _), Nat.sub_self]
  rfl

theorem setChar_append_cons : setChar (l ++ b :: l') l.length c = .ok (l ++ c :: l') := by
  have hlt : l.length < (l ++ b :: l').length := by
    rw [length_append, length_cons]
    omega
  rw [setChar, if_pos hlt, set_append_right _ _ (Nat.le_refl _), Nat.sub_self, set_cons_zero]

theorem charAt_eq_getD {i : Nat} (h : i < a.length) : charAt a i = .ok (a.getD i 0) := by
  rw [charAt, List.getElem?_eq_getElem h, getD_eq_getElem?_getD, List.getElem?_eq_getElem h]
  rfl

end Entries

/-! ### The loops -/

section
variable {abi : Abi}

/-- The digits of the loop over lists are written to the array. -/
theorem tempArrayLoop_eq {digits : List Byte} {digit rest : abi.Ulong → abi.Ulong}
    (hdigit : ∀ v, (digit v).toNat < digits.length) : ∀ {room : Nat} {num : abi.Ulong}
    {cs done left : List Byte}, tempLoop digits digit rest room num = .ok cs → left.length = room →
      tempArrayLoop digits digit rest (room + 1) num done.length (done ++ left) =
        .ok (done.length + cs.length - 1, done ++ cs ++ left.drop cs.length) := by
  -- `done` is what has been written and `left` the room after it.
  intro room
  induction room with
  | zero =>
    intro num cs done left h
    cases h
  | succ room ih =>
    intro num cs done left h hleft
    obtain ⟨b, left, rfl⟩ := exists_cons_of_length_eq_add_one hleft
    rw [tempArrayLoop, charAt_eq_getD (hdigit num), ok_bind, setChar_append_cons, ok_bind]
    rw [tempLoop] at h
    by_cases hzero : rest num = 0
    · rw [if_pos hzero] at h
      cases h
      simp only [if_pos hzero]
      rw [length_singleton, Nat.add_sub_cancel, append_assoc]
      rfl
    · rw [if_neg hzero] at h
      obtain ⟨temp, htemp, h⟩ := bind_eq_ok h
      cases h
      have hloop := @ih _ _ (done ++ [digits.getD (digit num).toNat 0]) _ htemp
        (Nat.succ_inj.mp hleft)
      rw [length_append, length_singleton, append_assoc, singleton_append]
        at hloop
      simp only [if_neg hzero, hloop]
      rw [length_cons, drop_succ_cons, append_assoc done, singleton_append,
        Nat.add_right_comm]
      rfl

/-- What is copied comes out in reverse. -/
theorem copyReversed_eq : ∀ {i : Nat} {temp after done left : List Byte},
    temp.length = i + 1 → temp.length ≤ left.length →
      copyReversed (temp ++ after) i done.length (done ++ left) =
        .ok (done ++ temp.reverse ++ left.drop temp.length) := by
  intro i
  induction i with
  | zero =>
    intro temp after done left htemp hleft
    obtain ⟨c, rfl⟩ := length_eq_one_iff.mp htemp
    obtain ⟨b, left, rfl⟩ := exists_cons_of_length_pos hleft
    have hc : charAt ([c] ++ after) 0 = .ok c := rfl
    rw [copyReversed, hc, ok_bind, setChar_append_cons, reverse_singleton, append_assoc]
    rfl
  | succ i ih =>
    intro temp after done left htemp hleft
    -- The copy starts at the last entry of `temp`, so that one is taken off.
    rcases eq_nil_or_concat' temp with rfl | ⟨init, c, rfl⟩
    · cases htemp
    rw [length_append, length_singleton] at htemp hleft
    obtain ⟨b, left, rfl⟩ := exists_cons_of_length_pos (Nat.zero_lt_of_lt hleft)
    have hc : charAt (init ++ [c] ++ after) (i + 1) = .ok c := by
      rw [append_assoc, singleton_append, ← Nat.succ_inj.mp htemp]
      exact charAt_append_cons
    have hloop := @ih init (c :: after) (done ++ [c]) left (Nat.succ_inj.mp htemp)
      (Nat.le_of_succ_le_succ hleft)
    rw [length_append, length_singleton, append_assoc done, singleton_append]
      at hloop
    rw [copyReversed, hc, ok_bind, setChar_append_cons, ok_bind, append_assoc init,
      singleton_append, hloop, reverse_append, reverse_singleton,
      singleton_append, length_append, length_singleton, drop_succ_cons,
      append_assoc done, singleton_append]

/-- Digits that are written to `temp` from its second entry on come to the
start of the buffer, with the first entry as the `NUL`. -/
theorem copy_of_tempLoop {digits : List Byte} {digit rest : abi.Ulong → abi.Ulong}
    {num : abi.Ulong} {ds : List Nat} {temp str : List Byte}
    (hdigit : ∀ v, (digit v).toNat < digits.length)
    (hds : tempLoop digits digit rest abi.bits num = .ok (ds.map (digits.getD · 0)))
    (htemp : temp.length = abi.bits + 1) (hstr : ds.length + 1 ≤ str.length) :
    (do
      let temp ← setChar temp 0 0
      let (i, temp) ← tempArrayLoop digits digit rest (abi.bits + 1) num 1 temp
      copyReversed temp i 0 str) =
        .ok ((ds.map (digits.getD · 0)).reverse ++ 0 :: str.drop (ds.length + 1)) := by
  have hlen : (ds.map (digits.getD · 0)).length = ds.length := length_map _
  rw [← hlen] at hstr ⊢
  generalize ds.map (digits.getD · 0) = cs at hds hstr
  -- The arrays hold anything before, and `temp[0]` is written first.
  obtain ⟨junk, temp, rfl⟩ := exists_cons_of_length_eq_add_one htemp
  have hset : setChar (junk :: temp) 0 0 = .ok (0 :: temp) := rfl
  have hloop := @tempArrayLoop_eq _ _ _ _ hdigit _ _ _ [0] temp hds (Nat.succ_inj.mp htemp)
  have hlast : 1 + cs.length - 1 = cs.length := Nat.add_sub_cancel_left 1 cs.length
  have hcopy := @copyReversed_eq cs.length (0 :: cs) (temp.drop cs.length) [] str rfl hstr
  rw [length_singleton, singleton_append, singleton_append, hlast] at hloop
  rw [hset, ok_bind, hloop, ok_bind]
  rw [length_nil, nil_append, nil_append, reverse_cons, append_assoc,
    singleton_append] at hcopy
  exact hcopy

theorem length_digits (altDigits : Bool) :
    (if altDigits then digitsUc else digitsLc).length = 16 := by
  cases altDigits <;> rfl

/-- Both variants write the digits of the number. -/
theorem ulongToStringInto_eq {base : Nat} (h : base ∈ [2, 8, 10, 16]) (alwaysUseDivision : Bool)
    (num : abi.Ulong) (altDigits : Bool) {temp str : List Byte}
    (htemp : temp.length = abi.bits + 1) (hstr : str.length = abi.bits + 1) :
    ulongToStringInto alwaysUseDivision temp num str base altDigits =
      .ok (numeral (if altDigits then digitsUc else digitsLc) base num.toNat ++
        0 :: str.drop ((figures base num.toNat).length + 1)) := by
  obtain ⟨hbase, hpow⟩ := base_cases h
  have hlen := length_digits altDigits
  have hfits : (figures base num.toNat).length + 1 ≤ str.length := by
    rw [hstr]
    exact Nat.succ_le_succ (length_figures_le hbase.1 bits_pos (toNat_lt_pow hbase.1 num))
  have hdigit : ∀ v : abi.Ulong,
      v.toNat % base < (if altDigits then digitsUc else digitsLc).length := by
    intro v
    rw [hlen]
    exact Nat.lt_of_lt_of_le (Nat.mod_lt _ (by omega)) hbase.2
  rw [ulongToStringInto]
  by_cases hdiv : alwaysUseDivision ∨ baseToNbits base = 0
  · simp only [if_pos hdiv]
    refine copy_of_tempLoop (fun v => ?_) (tempLoop_div ⟨hbase.1, by omega⟩ num) htemp hfits
    rw [toNat_umod_base (by omega)]
    exact hdigit v
  · -- The fast path is for powers of two only.
    obtain ⟨hbits, hpow⟩ := hpow fun hshift => hdiv (Or.inr hshift)
    have hloop : tempLoop (if altDigits then digitsUc else digitsLc) _ _ abi.bits num = _ :=
      tempLoop_shift hbits num
    rw [hpow] at hloop
    simp only [if_neg hdiv]
    refine copy_of_tempLoop (fun v => ?_) hloop htemp hfits
    rw [toNat_mask hbits.2, hpow]
    exact hdigit v

/-- The digits of a number from the last one on, with no zero in front of
it. -/
structure IsFigures (base n : Nat) (ds : List Nat) : Prop where
  ne_nil : ds ≠ []
  lt : ∀ d ∈ ds, d < base
  value : Nat.ofDigits base ds = n
  leading : ds.getLast? = some 0 → ds = [0]

theorem figures_isFigures {base n : Nat} (hbase : 1 < base) :
    IsFigures base n (figures base n) where
  ne_nil := figures_ne_nil hbase
  lt _ := lt_of_mem_figures hbase
  value := ofDigits_figures
  leading h := by
    by_cases hn : n = 0
    · rw [figures, if_pos hn]
    · rw [figures, if_neg hn] at h
      have hdigits : Nat.digits base n ≠ [] := Nat.digits_ne_nil_iff_ne_zero.mpr hn
      rw [getLast?_eq_some_getLast hdigits] at h
      exact absurd (Option.some_inj.mp h) (Nat.getLast_digit_ne_zero base hn)

/-- Whether it divides or shifts, `ulong_to_string` writes the same string,
the numeral of the number, to the start of the buffer, and it stays inside
of both arrays. -/
theorem ulongToStringInto_agrees {base : Nat} (h : base ∈ [2, 8, 10, 16]) (num : abi.Ulong)
    (altDigits : Bool) (temp str : List Byte) (htemp : temp.length = abi.bits + 1)
    (hstr : str.length = abi.bits + 1) :
    ∃ ds, IsFigures base num.toNat ds ∧
      ∀ alwaysUseDivision, ulongToStringInto alwaysUseDivision temp num str base altDigits =
        .ok ((ds.map ((if altDigits then digitsUc else digitsLc).getD · 0)).reverse ++
          0 :: str.drop (ds.length + 1)) := by
  obtain ⟨hbase, -⟩ := base_cases h
  refine ⟨figures base num.toNat, figures_isFigures hbase.1, fun alwaysUseDivision => ?_⟩
  exact ulongToStringInto_eq h alwaysUseDivision num altDigits htemp hstr

/-- The greatest number of 32 bits in base 2 fills both arrays. -/
theorem ulongToStringInto_full : ∃ ds, IsFigures 2 (2 ^ 32 - 1) ds ∧
    ∀ alwaysUseDivision, @ulongToStringInto .ilp32 alwaysUseDivision
        (List.replicate 33 0) (0xFFFFFFFF : BitVec 32) (List.replicate 33 0) 2 false =
      .ok ((ds.map (digitsLc.getD · 0)).reverse ++
        0 :: (List.replicate 33 0).drop (ds.length + 1)) :=
  @ulongToStringInto_agrees .ilp32 2 (by decide) (0xFFFFFFFF : BitVec 32) false
    (List.replicate 33 0) (List.replicate 33 0) rfl rfl

end

end Xinu
