import Mathlib.Algebra.Order.Ring.Nat
import Xinu.Abstract.Scan

/-!
# `Xinu.Proofs.Scan.Read`: `_doscan` takes what the format matches

`_doscan` gets through every input: its loops end with the input, and it
never gives a character back that it did not read last. This is said with
`Prog.read`, which runs a program on a list of characters and stops when
one is given back that was not read last. There is one lemma for each
function, which says that it takes what the abstract description takes.
`read_doscan` is the result for all formats and inputs.

The string of `sscanf` and the device of `fscanf` with its buffer both
deliver such a list (`delivers_string`, `delivers_device`). So the two
return and store the same (`fscanf_eq_sscanf`).
-/

namespace Xinu

open List BitVec

open Lib (Prog Last Delivers)

variable {f f' : List Byte} {spec : Spec} {abi : Abi}

/-! ### The format -/

theorem length_parseMaxlen (f : List Byte) :
    ∀ maxlen, (parseMaxlen maxlen f).2.length ≤ f.length := by
  induction f with
  | nil => exact fun _ => Nat.le_refl _
  | cons c f ih =>
    intro maxlen
    rw [parseMaxlen]
    split
    · exact Nat.le_succ_of_le (ih _)
    · exact Nat.le_refl _

theorem length_parseSize (f : List Byte) : (parseSize f).2.length ≤ f.length := by
  unfold parseSize
  split
  · simp
  · split <;> simp

theorem length_stopcharLoop (fill : Bool) (f : List Byte) :
    ∀ first tab, (stopcharLoop fill first tab f).2.length ≤ f.length := by
  induction f with
  | nil => exact fun _ _ => Nat.le_refl _
  | cons c f ih =>
    intro first tab
    rw [stopcharLoop]
    split
    · exact Nat.le_succ _
    · exact Nat.le_succ_of_le (ih _ _)

theorem length_buildStopcharTab (f : List Byte) : (buildStopcharTab f).2.length ≤ f.length := by
  unfold buildStopcharTab
  split
  · refine Nat.le_trans (length_stopcharLoop _ _ _ _) ?_
    simp
  · exact length_stopcharLoop _ _ _ _

/-- A conversion specification takes at least one character. -/
theorem length_parseConversion {star : Bool}
    (h : parseConversion star f = some (spec, f')) : f'.length < f.length := by
  unfold parseConversion at h
  simp only at h
  split at h
  · cases h
  · rename_i c g hg
    have hlen : (c :: g).length ≤ f.length := by
      rw [← hg]
      exact Nat.le_trans (length_parseSize _) (length_parseMaxlen _ _)
    rw [length_cons] at hlen
    split at h
    · obtain ⟨-, rfl⟩ := Prod.mk.inj (Option.some.inj h)
      exact Nat.lt_of_le_of_lt (length_buildStopcharTab g) hlen
    · split at h <;> obtain ⟨-, rfl⟩ := Prod.mk.inj (Option.some.inj h) <;> exact hlen

theorem length_parseSpec (h : parseSpec f = some (spec, f')) :
    f'.length < f.length := by
  unfold parseSpec at h
  split at h
  · refine Nat.lt_of_lt_of_le (length_parseConversion h) ?_
    simp
  · exact length_parseConversion h

/-- Zero is not a maximum length. -/
theorem maxlen_of_parseConversion {star : Bool}
    (h : parseConversion star f = some (spec, f')) : spec.maxlen ≠ 0 := by
  have hmax : ∀ n : Uint, (if n = 0 then UNLIMITED_LENGTH else n) ≠ 0 := by
    intro n
    split
    · decide
    · assumption
  unfold parseConversion at h
  simp only at h
  split at h
  · cases h
  · split at h
    · obtain ⟨rfl, -⟩ := Prod.mk.inj (Option.some.inj h)
      exact hmax _
    · split at h <;> obtain ⟨rfl, -⟩ := Prod.mk.inj (Option.some.inj h) <;> exact hmax _

theorem maxlen_of_parseSpec (h : parseSpec f = some (spec, f')) :
    spec.maxlen ≠ 0 := by
  unfold parseSpec at h
  split at h
  · exact maxlen_of_parseConversion h
  · exact maxlen_of_parseConversion h

/-! ### The fields -/

/-- White space is skipped. -/
theorem read_skipSpace (x : List Byte) : ∀ {limit : Nat} (l : Last Byte), x.length < limit →
    (skipSpace limit).read l x = match x.dropWhile isspace with
      | [] => some (none, .eof, [])
      | c :: x' => some (some c, .char c, x') := by
  induction x with
  | nil =>
    intro limit l h
    cases limit with
    | zero => exact absurd h (Nat.lt_irrefl 0)
    | succ limit => rfl
  | cons c x ih =>
    intro limit l h
    cases limit with
    | zero => exact absurd h (Nat.not_lt_zero _)
    | succ limit =>
      rw [skipSpace, Prog.read]
      by_cases hc : isspace c = true
      · rw [dropWhile_cons_of_pos hc]
        simp only [if_pos hc]
        exact ih _ (Nat.lt_of_succ_lt_succ h)
      · rw [dropWhile_cons_of_neg hc]
        simp only [if_neg hc]
        rfl

section Field
variable {abi : Abi} {limit : Nat} (spec : Spec)

/-- The loop of `scan_string` takes the longest run, and puts back the
character that stops it. Here `w` is how many characters may still be
taken. -/
theorem read_scanStringLoop (maxlen : Uint) (x : List Byte) : ∀ (limit w : Nat) (len : Uint)
    (l : List Byte) (last : Last Byte), x.length < limit → len.toNat + w = maxlen.toNat →
    ∃ last', (scanStringLoop spec.type spec.stopchar maxlen limit len l).read last x =
      some ((BitVec.ofNat 32 (len.toNat + (run spec.accepts w x).length),
        ranOut spec.accepts w x, l ++ run spec.accepts w x), last',
        x.drop (run spec.accepts w x).length) ∧
      last'.isPut = if w = 0 then last.isPut else stopped spec.accepts w x := by
  induction x with
  | nil =>
    intro limit w len l last h hw
    obtain ⟨limit, rfl⟩ : ∃ k, limit = k + 1 := ⟨limit - 1, by simp at h; omega⟩
    rw [scanStringLoop]
    cases w with
    | zero =>
      rw [if_neg (by rw [lt_def]; omega)]
      exact ⟨last, by simp [Prog.read], rfl⟩
    | succ w =>
      rw [if_pos (by rw [lt_def]; omega)]
      exact ⟨.eof, by simp [Prog.read], by simp [Last.isPut]⟩
  | cons c x ih =>
    intro limit w len l last h hw
    obtain ⟨limit, rfl⟩ : ∃ k, limit = k + 1 := ⟨limit - 1, by simp at h; omega⟩
    rw [length_cons] at h
    rw [scanStringLoop]
    -- The test of `len` against `maxlen` is the test for room.
    cases w with
    | zero =>
      rw [if_neg (by rw [lt_def]; omega)]
      exact ⟨last, by simp [Prog.read], rfl⟩
    | succ w =>
      rw [if_pos (by rw [lt_def]; omega), Prog.read]
      cases hc : spec.accepts c with
      | false =>
        -- The character goes back, so that the rest starts with it.
        simp only [if_pos (of_not_not (of_decide_eq_false hc)), run_cons_of_not hc,
          ranOut_cons_of_not hc, stopped_cons_of_not hc]
        exact ⟨.put, by simp [Prog.read], rfl⟩
      | true =>
        -- `len` does not wrap: it stays below `maxlen`.
        have hmax := maxlen.isLt
        have hlen : (len + 1).toNat = len.toNat + 1 := by
          rw [toNat_add, show (1 : Uint).toNat = 1 from rfl, Nat.mod_eq_of_lt (by omega)]
        obtain ⟨last', hrun, hput⟩ :=
          ih limit w (len + 1) (l ++ [c]) (.char c) (by omega) (by omega)
        refine ⟨last', ?_, ?_⟩
        · simp only [if_neg (of_decide_eq_true hc)]
          rw [hrun, run_cons hc, ranOut_cons hc, hlen]
          simp only [length_cons, List.append_assoc, singleton_append,
            drop_succ_cons]
          rw [Nat.add_right_comm, Nat.add_assoc]
        · rw [hput, if_neg (Nat.succ_ne_zero w), stopped_cons hc]
          cases w with
          | zero => exact stopped_zero.symm
          | succ w => rfl

theorem toNat_width : (if spec.type = chr 'c' ∧ spec.maxlen = UNLIMITED_LENGTH then (1 : Uint)
    else spec.maxlen).toNat = spec.width := by
  unfold Spec.width
  split <;> rfl

theorem width_ne_zero (h : spec.maxlen ≠ 0) : spec.width ≠ 0 := by
  unfold Spec.width
  split
  · decide
  · exact fun hzero => h (eq_of_toNat_eq hzero)

theorem width_lt : spec.width < 2 ^ 32 := by
  rw [← toNat_width]
  exact BitVec.isLt _

theorem read_scanString {assign : Bool} (hstring : spec.isString = true) (x : List Byte)
    (last : Last Byte) (h : x.length < limit) :
    ∃ last', (scanString limit assign spec.type spec.maxlen spec.stopchar :
        Prog Byte (Field abi)).read last x =
      some ((spec.takeString x : Taken abi).field assign spec.isString, last',
        (spec.takeString x : Taken abi).rest) ∧
      (spec.maxlen ≠ 0 → last'.isPut = stopped spec.accepts spec.width x) := by
  have hw := toNat_width spec
  obtain ⟨last', hrun, hput⟩ := read_scanStringLoop spec (if spec.type = chr 'c' ∧
    spec.maxlen = UNLIMITED_LENGTH then (1 : Uint) else spec.maxlen) x limit spec.width 0 [] last h
    (by rw [hw]; simp)
  have hlen : (BitVec.ofNat 32 (run spec.accepts spec.width x).length).toNat =
      (run spec.accepts spec.width x).length := by
    rw [toNat_ofNat, Nat.mod_eq_of_lt (Nat.lt_of_le_of_lt length_run_le (width_lt spec))]
  have hempty : BitVec.ofNat 32 (run spec.accepts spec.width x).length = 0 ↔
      run spec.accepts spec.width x = [] := by
    rw [← toNat_inj, hlen, ← length_eq_zero_iff]
    rfl
  refine ⟨last', ?_, fun hmax => ?_⟩
  · rw [scanString, Prog.read_bind_of_eq hrun, show (0 : Uint).toNat = 0 from rfl, Nat.zero_add]
    simp only [Taken.field, Spec.takeString, hstring, lt_def, hw, hlen, hempty, ne_eq,
      nil_append]
    simp [Prog.read, pure]
  · rw [hput, if_neg (width_ne_zero spec hmax)]

/-- The digits of a number, from the character `c` on that was read
last. -/
theorem read_digitLoop (base : Nat) (maxlen : Uint) (limit : Nat) :
    ∀ (x : List Byte) (c : Byte) (len : Uint) (n : abi.Ulong) (w : Nat), x.length + 2 ≤ limit →
      len.toNat + 1 < 2 ^ 32 → w = max 1 (maxlen.toNat - len.toNat) →
      ∃ last', (digitLoop base maxlen limit (some c) len n).read (.char c) x =
        some ((BitVec.ofNat 32 (len.toNat + (run (isDigitOf base) w (c :: x)).length),
          (run (isDigitOf base) w (c :: x)).foldl (pushDigit base) n,
          ranOut (isDigitOf base) w (c :: x)), last',
          (c :: x).drop (run (isDigitOf base) w (c :: x)).length) ∧
        last'.isPut = stopped (isDigitOf base) w (c :: x) := by
  induction limit with
  | zero => exact fun x c len n w h => absurd h (Nat.not_succ_le_zero _)
  | succ limit ih =>
    intro x c len n w h hlen hw
    obtain ⟨w, rfl⟩ : ∃ k, w = k + 1 := ⟨w - 1, by omega⟩
    rw [digitLoop]
    cases hd : digit base (tolower c) with
    | none =>
      have hc : isDigitOf base c = false := by
        rw [isDigitOf, hd]
        rfl
      rw [run_cons_of_not hc, ranOut_cons_of_not hc, stopped_cons_of_not hc]
      exact ⟨.put, by simp [Prog.read], rfl⟩
    | some v =>
      have hc : isDigitOf base c = true := by
        rw [isDigitOf, hd]
        rfl
      have hpush : pushDigit base n c = n * BitVec.ofNat _ base + BitVec.ofNat _ v := by
        rw [pushDigit, hd, Option.getD_some]
      have hsucc : (len + 1).toNat = len.toNat + 1 := by
        rw [toNat_add, show (1 : Uint).toNat = 1 from rfl, Nat.mod_eq_of_lt hlen]
      rw [run_cons hc, ranOut_cons hc, stopped_cons hc]
      simp only [foldl_cons, hpush, length_cons, drop_succ_cons]
      split
      next hle =>
        -- The width is used up.
        rw [le_def, hsucc] at hle
        obtain rfl : w = 0 := by omega
        exact ⟨.char c, by simp [Prog.read, ofNat_add], stopped_zero.symm⟩
      next hlt =>
        rw [le_def, hsucc] at hlt
        cases x with
        | nil =>
          obtain ⟨limit, rfl⟩ : ∃ k, limit = k + 1 := ⟨limit - 1, by simp at h; omega⟩
          obtain ⟨w, rfl⟩ : ∃ k, w = k + 1 := ⟨w - 1, by omega⟩
          exact ⟨.eof, by simp [Prog.read, digitLoop, ofNat_add], stopped_nil.symm⟩
        | cons d x =>
          have := maxlen.isLt
          rw [length_cons] at h
          obtain ⟨last', hrun, hput⟩ := ih x d (len + 1)
            (n * BitVec.ofNat _ base + BitVec.ofNat _ v) w (by omega) (by omega) (by omega)
          refine ⟨last', ?_, hput⟩
          rw [Prog.read, hrun, hsucc]
          simp only [Nat.add_assoc, Nat.add_comm 1]

/-- The sign and the digits of a number, whose first character was read
last. -/
theorem read_scanDigits (c : Byte) (x : List Byte) (h : x.length + 2 ≤ limit) :
    ∃ last', (scanDigits limit spec.base spec.maxlen c :
        Prog Byte (Uint × abi.Ulong × Bool)).read (.char c) x =
      (let body := if isSign c then x else c :: x
      let l := run (isDigitOf spec.base) (spec.digitWidth (isSign c)) body
      some ((BitVec.ofNat 32 ((if isSign c then 1 else 0) + l.length), digitsValue spec.base l,
        ranOut (isDigitOf spec.base) (spec.digitWidth (isSign c)) body), last',
        body.drop l.length)) ∧
      last'.isPut = stopped (isDigitOf spec.base) (spec.digitWidth (isSign c))
        (if isSign c then x else c :: x) := by
  unfold scanDigits
  cases hc : isSign c with
  | true =>
    rw [if_pos (of_decide_eq_true hc)]
    -- The sign is counted in `len`, and the first digit is read before any
    -- width is looked at.
    obtain ⟨w, hw⟩ : ∃ w, spec.digitWidth true = w + 1 := ⟨spec.digitWidth true - 1, by
      unfold Spec.digitWidth
      omega⟩
    cases x with
    | nil =>
      obtain ⟨limit, rfl⟩ : ∃ k, limit = k + 1 := ⟨limit - 1, by simp at h; omega⟩
      refine ⟨.eof, ?_, stopped_nil.symm⟩
      simp [Prog.read, digitLoop, hw, digitsValue]
    | cons d x =>
      rw [length_cons] at h
      exact read_digitLoop spec.base spec.maxlen limit x d 1 0 _ (by omega) (by decide) rfl
  | false =>
    rw [if_neg (of_decide_eq_false hc)]
    exact read_digitLoop spec.base spec.maxlen limit x c 0 0 _ h (by decide) rfl

/-- The test for a digit after the loop, on the length with the sign. -/
theorem digits_iff {sign : Bool} {x : List Byte} :
    let l := run (isDigitOf spec.base) (spec.digitWidth sign) x
    let len := BitVec.ofNat 32 ((if sign then 1 else 0) + l.length)
    (len ≠ 0 ∧ ¬(sign = true ∧ len = 1)) ↔ l ≠ [] := by
  intro l len
  have hle : l.length ≤ spec.digitWidth sign := length_run_le
  have hmax := spec.maxlen.isLt
  -- The loop counts in 32 bits, and the width keeps it from wrapping.
  have hlen : len.toNat = (if sign then 1 else 0) + l.length := by
    refine (toNat_ofNat ..).trans (Nat.mod_eq_of_lt ?_)
    rw [Spec.digitWidth] at hle
    split <;> simp_all only [if_true, Bool.false_eq_true, if_false] <;> omega
  have hzero : len = 0 ↔ (if sign then 1 else 0) + l.length = 0 := by
    rw [← toNat_inj, hlen]
    rfl
  have hone : len = 1 ↔ (if sign then 1 else 0) + l.length = 1 := by
    rw [← toNat_inj, hlen]
    rfl
  rw [ne_eq, hzero, hone, ← length_pos_iff]
  generalize l.length = k
  cases sign with
  | true =>
    simp only [if_true, true_and]
    omega
  | false =>
    simp only [Bool.false_eq_true, if_false, false_and, not_false_eq_true, and_true]
    omega

/-- A number, from its first character on. -/
theorem read_scanNumber {assign : Bool} (c : Byte) (x : List Byte) (h : x.length + 2 ≤ limit) :
    ∃ last', (scanNumber limit assign spec.base spec.maxlen spec.size c :
        Prog Byte (Field abi)).read (.char c) x =
      some ((spec.takeNumber (c :: x) : Taken abi).field assign false, last',
        (spec.takeNumber (c :: x) : Taken abi).rest) ∧
      last'.isPut = stopped (isDigitOf spec.base) (spec.digitWidth (isSign c))
        (if isSign c then x else c :: x) := by
  obtain ⟨last', hrun, hput⟩ := @read_scanDigits abi limit spec c x h
  refine ⟨last', ?_, hput⟩
  rw [scanNumber, Prog.read_bind_of_eq hrun]
  have hsign : (c = chr '-' ∨ c = chr '+') ↔ isSign c = true := decide_eq_true_iff.symm
  have hdigits := @digits_iff spec (isSign c) (if isSign c then x else c :: x)
  -- The field is reported only if something is assigned.
  simp only [hsign, hdigits]
  cases hc : isSign c with
  | true =>
    have htake : (spec.takeNumber (c :: x) : Taken abi) = spec.takeDigits (some c) x := if_pos hc
    rw [htake]
    simp only [Spec.takeDigits, Taken.field, if_true, Option.isSome_some, Option.some_inj]
    cases assign <;> by_cases hl : run (isDigitOf spec.base) (spec.digitWidth true) x = [] <;>
      simp [hl, Prog.read, pure]
  | false =>
    have hminus : c ≠ chr '-' := by
      rintro rfl
      cases hc
    have htake : (spec.takeNumber (c :: x) : Taken abi) = spec.takeDigits none (c :: x) :=
      if_neg (by rw [hc]; decide)
    rw [htake]
    simp only [Spec.takeDigits, Taken.field, Option.isSome_none]
    cases assign <;>
      by_cases hl : run (isDigitOf spec.base) (spec.digitWidth false) (c :: x) = [] <;>
      simp [hl, hminus, Prog.read, pure]

/-- `scan_number_or_string` takes the field of the conversion. -/
theorem read_scanNumberOrString {assign : Bool} (x : List Byte) (last : Last Byte)
    (h : x.length + 2 ≤ limit) :
    ∃ last', (scanNumberOrString limit assign spec : Prog Byte (Field abi)).read last x =
      some ((spec.take x : Taken abi).field assign spec.isString, last',
        (spec.take x : Taken abi).rest) ∧
      (spec.maxlen ≠ 0 → last'.isPut = spec.putsBack x) := by
  unfold scanNumberOrString
  by_cases hset : spec.type = chr '[' ∨ spec.type = chr 'c'
  · have hstring : spec.isString = true := decide_eq_true (hset.imp_right Or.inl)
    rw [if_pos hset, Spec.take, if_pos hset, Spec.putsBack, if_pos hset]
    exact read_scanString spec hstring x last (by omega)
  · rw [if_neg hset, Spec.take, if_neg hset, Spec.putsBack, if_neg hset]
    have hskip := read_skipSpace x last (show x.length < limit by omega)
    have hlen := (dropWhile_suffix isspace (l := x)).length_le
    cases hx : x.dropWhile isspace with
    | nil =>
      rw [hx] at hskip
      -- The input ends before the field starts.
      rw [Prog.read_bind_of_eq hskip]
      exact ⟨.eof, by simp [Taken.field, Prog.read, pure], fun _ => rfl⟩
    | cons c y =>
      rw [hx] at hskip hlen
      rw [length_cons] at hlen
      rw [Prog.read_bind_of_eq hskip]
      simp only
      by_cases hs : spec.type = chr 's'
      · -- The first character of the string is read again.
        have hstring : spec.isString = true := decide_eq_true (Or.inr (Or.inr hs))
        rw [if_pos hs, if_pos hs, if_pos hs]
        exact read_scanString spec hstring (c :: y) .put (by rw [length_cons]; omega)
      · have hnumber : spec.isString = false := by
          refine decide_eq_false fun hstring => ?_
          rcases hstring with h | h | h
          · exact hset (Or.inl h)
          · exact hset (Or.inr h)
          · exact hs h
        obtain ⟨last', hrun, hput⟩ := @read_scanNumber abi limit spec assign c y (by omega)
        rw [if_neg hs, if_neg hs, if_neg hs, hnumber]
        refine ⟨last', hrun, fun _ => hput.trans ?_⟩
        cases isSign c <;> rfl

theorem length_take_rest (x : List Byte) : (spec.take x : Taken abi).rest.length ≤ x.length := by
  have hlen := (dropWhile_suffix isspace (l := x)).length_le
  unfold Spec.take
  split
  · simp [Spec.takeString]
  · cases hx : x.dropWhile isspace with
    | nil => exact Nat.zero_le _
    | cons c y =>
      rw [hx] at hlen
      refine Nat.le_trans ?_ hlen
      simp only
      split
      · simp [Spec.takeString]
      · rw [Spec.takeNumber]
        split
        · simp only [Spec.takeDigits, length_drop, length_cons]
          omega
        · simp only [Spec.takeDigits, length_drop, length_cons]
          omega

end Field

/-! ### One conversion of a list -/

section Conversion
variable {abi : Abi} {ap : Nat → abi.Ulong}

/-- With a pointer, a conversion that does not match ends the scan. -/
theorem conclude_of_ptr {st : ScanState abi} {n : Nat} {ptr : abi.Ulong} (hptr : ptr ≠ 0)
    (t : Taken abi) (isString : Bool) : st.conclude n ptr (t.field true isString) =
      if t.eof then .inl (st.returns .eof st.orEof)
      else if t.matched then .inr st.next
      else .inl { st.returns .mismatch st.nmatch with failed := some n } := by
  have hnot : ¬ptr = BitVec.ofNat abi.bits 0 := hptr
  cases ht : t.matched <;> cases he : t.eof <;> simp [ScanState.conclude, Taken.field, ht, he, hnot]

/-- Without one, only the end of the input does. -/
theorem conclude_of_null {st : ScanState abi} {n : Nat} (t : Taken abi) (isString : Bool) :
    st.conclude n 0 (t.field false isString) =
      if t.eof then .inl (st.returns .eof st.orEof) else .inr st.next := by
  cases ht : t.matched <;> cases he : t.eof <;> cases isString <;>
    simp [ScanState.conclude, Taken.field, ht, he]

/-- The state after a conversion took its field through a pointer. -/
def ScanState.took (st : ScanState abi) (ptr : abi.Ulong) (t : Taken abi) : ScanState abi where
  directives := st.directives
  arg := st.arg + 1
  matched := if t.matched then st.matched ++ [st.arg] else st.matched
  stores := st.stores ++ (t.data.map fun data => ⟨st.arg, ptr, data⟩).toList

/-- The state after a conversion took its field without one. -/
def ScanState.skipped (st : ScanState abi) (star : Bool) : ScanState abi :=
  { st with arg := if star then st.arg else st.arg + 1 }

theorem record_of_ptr {st : ScanState abi} {ptr : abi.Ulong} (hptr : ptr ≠ 0) (t : Taken abi)
    (isString : Bool) : st.record false ptr (t.field true isString) = st.took ptr t := by
  have hnot : ¬ptr = BitVec.ofNat abi.bits 0 := hptr
  cases ht : t.matched <;> simp [ScanState.record, ScanState.took, Taken.field, ht, hnot]

theorem record_of_null {st : ScanState abi} {star : Bool} (t : Taken abi) (isString : Bool) :
    st.record star 0 (t.field false isString) = st.skipped star := by
  simp [ScanState.record, ScanState.skipped, Taken.field]

variable (ap) in
/-- The pointer of a conversion, which is `NULL` if there is a star. -/
def pointer (spec : Spec) (st : ScanState abi) : abi.Ulong := if spec.star then 0 else ap st.arg

variable (ap) in
/-- The outcome of a conversion that took `t`: the scan ends, or goes
on. -/
def outcome (spec : Spec) (st : ScanState abi) (t : Taken abi) : Scanned abi ⊕ ScanState abi :=
  let field := t.field (pointer ap spec st ≠ 0) spec.isString
  (st.record spec.star (pointer ap spec st) field).conclude st.arg (pointer ap spec st) field

variable {spec : Spec} {ds : List Directive} {st : ScanState abi} {x : List Byte}

theorem star_of_pointer (h : pointer ap spec st ≠ 0) : spec.star = false := by
  cases hstar : spec.star with
  | true => exact absurd (if_pos hstar) h
  | false => rfl

theorem outcome_of_null (h : pointer ap spec st = 0) (t : Taken abi) :
    outcome ap spec st t = if t.eof then
        .inl ((st.skipped spec.star).returns .eof (st.skipped spec.star).orEof)
      else .inr (st.skipped spec.star).next := by
  rw [outcome, h]
  simp only [ne_eq, not_true_eq_false, decide_false, record_of_null, conclude_of_null]

theorem outcome_of_ptr (h : pointer ap spec st ≠ 0) (t : Taken abi) :
    outcome ap spec st t =
      let st' := st.took (pointer ap spec st) t
      if t.eof then .inl (st'.returns .eof st'.orEof)
      else if t.matched then .inr st'.next
      else .inl { st'.returns .mismatch st'.nmatch with failed := some st.arg } := by
  rw [outcome]
  simp only [star_of_pointer h, decide_eq_true h, record_of_ptr h, conclude_of_ptr h]

/-- Whether the scan goes on depends on the pointer and the field. -/
theorem outcome_cases :
    (∃ st', outcome ap spec st (spec.take x) = .inr st' ∧ spec.goesOn ap st.arg x = true ∧
      st'.arg = if spec.star then st.arg else st.arg + 1) ∨
    ∃ scanned, outcome ap spec st (spec.take x) = .inl scanned ∧
      spec.goesOn ap st.arg x = false := by
  have hgoes : spec.goesOn ap st.arg x = (!(spec.take x : Taken abi).eof &&
    ((spec.take x : Taken abi).matched || decide (pointer ap spec st = 0))) := rfl
  rw [hgoes]
  by_cases hptr : pointer ap spec st = 0
  · rw [outcome_of_null hptr, decide_eq_true hptr, Bool.or_true, Bool.and_true]
    cases (spec.take x : Taken abi).eof with
    | true => exact Or.inr ⟨_, rfl, rfl⟩
    | false => exact Or.inl ⟨_, rfl, rfl, rfl⟩
  · rw [outcome_of_ptr hptr, decide_eq_false hptr, star_of_pointer hptr, Bool.or_false]
    cases (spec.take x : Taken abi).eof with
    | true => exact Or.inr ⟨_, rfl, rfl⟩
    | false =>
      cases (spec.take x : Taken abi).matched with
      | true => exact Or.inl ⟨_, rfl, rfl, rfl⟩
      | false => exact Or.inr ⟨_, rfl, rfl⟩

/-- A conversion and then the other directives. -/
theorem scanList_conversion : scanList ap (.conversion spec :: ds) st x =
    (outcome ap spec st (spec.take x)).elim
      (fun scanned => (scanned, (spec.take x : Taken abi).rest))
      fun st => scanList ap ds st (spec.take x : Taken abi).rest := by
  rw [scanList, outcome, pointer]
  split
  · next h => rw [h, Sum.elim_inl]
  · next h => rw [h, Sum.elim_inr]

theorem scanList_ptr (hstar : spec.star = false) (hptr : ap st.arg ≠ 0) :
    scanList ap (.conversion spec :: ds) st x =
      let t : Taken abi := spec.take x
      let st' := st.took (ap st.arg) t
      if t.eof then (st'.returns .eof st'.orEof, t.rest)
      else if t.matched then scanList ap ds st'.next t.rest
      else ({ st'.returns .mismatch st'.nmatch with failed := some st.arg }, t.rest) := by
  have hpointer : pointer ap spec st = ap st.arg := if_neg (by rw [hstar]; decide)
  rw [scanList_conversion, outcome_of_ptr (hpointer.trans_ne hptr), hpointer]
  dsimp only
  cases (spec.take x : Taken abi).eof with
  | true => rfl
  | false => cases (spec.take x : Taken abi).matched <;> rfl

theorem scanList_null (hptr : (if spec.star then 0 else ap st.arg) = 0) :
    scanList ap (.conversion spec :: ds) st x =
      let t : Taken abi := spec.take x
      let st' := st.skipped spec.star
      if t.eof then (st'.returns .eof st'.orEof, t.rest) else scanList ap ds st'.next t.rest := by
  rw [scanList_conversion, outcome_of_null hptr]
  dsimp only
  cases (spec.take x : Taken abi).eof <;> rfl

end Conversion

/-! ### All directives -/

/-- `_doscan` scans the list. -/
theorem read_doscanLoop {limit : Nat} (ap : Nat → abi.Ulong) :
    ∀ (fuel : Nat) (f : List Byte) (st : ScanState abi) (last : Last Byte) (x : List Byte),
      f.length < fuel → x.length + 2 ≤ limit →
      ∃ last', (doscanLoop limit ap fuel f st).read last x =
        some ((scanList ap (directivesLoop fuel f) st x).1, last',
          (scanList ap (directivesLoop fuel f) st x).2) ∧ (last'.isPut = true ↔
          scanEnding ap (directivesLoop fuel f) st.arg last.isPut x = .lookahead) := by
  have hclean : Ending.clean ≠ .lookahead := by decide
  have hliteral : Ending.literal ≠ .lookahead := by decide
  -- By induction on the rounds: each one consumes a character of the format.
  intro fuel
  induction fuel with
  | zero => exact fun f st last x h => absurd h (Nat.not_lt_zero _)
  | succ fuel ih =>
    intro f st last x hf hx
    cases f with
    | nil => exact ⟨last, rfl, Ending.between_eq.symm⟩
    | cons c f =>
      rw [length_cons] at hf
      rw [doscanLoop, directivesLoop]
      split
      · cases hspec : parseSpec f with
        | none => exact ⟨last, rfl, Ending.between_eq.symm⟩
        | some s =>
          obtain ⟨spec, f'⟩ := s
          have hf' := length_parseSpec hspec
          simp only
          -- Both sides decide on the same pointer and the same field.
          generalize hptr : (if spec.star = true then (0 : abi.Ulong) else ap st.arg) = ptr
          obtain ⟨last', hrun, hput⟩ := @read_scanNumberOrString abi limit spec (ptr ≠ 0) x last hx
          have hrest := @length_take_rest abi spec x
          have houtcome : (st.record spec.star ptr ((spec.take x : Taken abi).field (ptr ≠ 0)
              spec.isString)).conclude st.arg ptr ((spec.take x : Taken abi).field (ptr ≠ 0)
              spec.isString) = outcome ap spec st (spec.take x) := by
            rw [← hptr]
            rfl
          rw [Prog.read_bind_of_eq hrun, scanList_conversion, scanEnding,
            ← hput (maxlen_of_parseSpec hspec)]
          simp only [houtcome]
          rcases @outcome_cases abi ap spec st x with ⟨st', hout, hgoes, harg⟩ |
            ⟨scanned, hout, hgoes⟩
          · rw [hout, hgoes, if_pos rfl, ← harg]
            exact ih f' st' last' _ (by omega) (by omega)
          · rw [hout, hgoes, if_neg Bool.false_ne_true]
            exact ⟨last', rfl, Ending.between_eq.symm⟩
      · simp only
        have htail : (if c = chr '%' then f.tail else f).length ≤ f.length := by split <;> simp
        split
        · -- White space: the character after it goes back.
          have hskip := read_skipSpace x last (show x.length < limit by omega)
          have hlen := (dropWhile_suffix isspace (l := x)).length_le
          have hdrop := (dropWhile_suffix isspace
            (l := if c = chr '%' then f.tail else f)).length_le
          rw [scanList]
          cases hy : x.dropWhile isspace with
          | nil =>
            rw [hy] at hskip
            rw [Prog.read_bind_of_eq hskip, scanEnding, hy]
            exact ⟨.eof, rfl, iff_of_false Bool.false_ne_true hclean⟩
          | cons d y =>
            rw [hy] at hskip hlen
            rw [Prog.read_bind_of_eq hskip, scanEnding, hy]
            exact ih _ st.next .put (d :: y) (by omega) (by omega)
        · -- A literal character is not given back, even if it does not match.
          cases x with
          | nil => exact ⟨.eof, rfl, iff_of_false Bool.false_ne_true hclean⟩
          | cons d y =>
            rw [length_cons] at hx
            rw [Prog.read, scanList, scanEnding]
            simp only
            split
            · exact ⟨.char d, rfl, iff_of_false Bool.false_ne_true hliteral⟩
            · exact ih _ st.next (.char d) y (by omega) (by omega)

/-- What `_doscan` returns and leaves, for every format and input. -/
theorem read_doscan {limit : Nat} (format : CString) (ap : Nat → abi.Ulong)
    (x : List Byte) (h : x.length + 2 ≤ limit) :
    ∃ last, (doscan limit format ap).read .fresh x =
      some ((scanList ap (directives format) ⟨0, 0, [], []⟩ x).1, last,
        (scanList ap (directives format) ⟨0, 0, [], []⟩ x).2) ∧
      (last.isPut = true ↔ scanEnding ap (directives format) 0 false x = .lookahead) :=
  read_doscanLoop ap _ _ _ _ _ (Nat.lt_succ_self _) h

/-! ### The two streams -/

/-- The position of `sscanf` in its string. -/
def AtString (l : Last Byte) (x : List Byte) (s : StringPos) : Prop :=
  s.after = x ∧ ∀ c, l = .char c → ∃ before, s.before = c :: before

theorem delivers_string : Delivers ⟨sgetch, sungetch⟩ AtString where
  cons l c x s h := by
    obtain ⟨before, after⟩ := s
    obtain ⟨rfl, -⟩ := h
    refine ⟨rfl, rfl, ?_⟩
    rintro d ⟨rfl⟩
    exact ⟨before, rfl⟩
  nil l s h := by
    obtain ⟨before, after⟩ := s
    obtain ⟨rfl, -⟩ := h
    exact ⟨rfl, rfl, nofun⟩
  put c x s h := by
    obtain ⟨before, after⟩ := s
    obtain ⟨rfl, hlast⟩ := h
    obtain ⟨rest, rfl⟩ : ∃ rest, before = c :: rest := hlast c rfl
    exact ⟨⟨rest, c :: after⟩, rfl, rfl, nofun⟩

/-- The device of `fscanf` and its buffer. Only a character that was put
back is available. -/
def AtDevice (l : Last Byte) (x : List Byte) (s : ChBuf) : Prop :=
  match l with
  | .put => s.chAvail = true ∧ x = s.c :: s.dev
  | .char c => s.chAvail = false ∧ s.c = c ∧ x = s.dev
  | .fresh | .eof => s.chAvail = false ∧ x = s.dev

theorem delivers_device : Delivers ⟨getch, ungetch⟩ AtDevice where
  cons l c x s h := by
    obtain ⟨dev, avail, buf⟩ := s
    -- After `ungetch` the buffer comes first, otherwise the device does.
    cases l with
    | put =>
      obtain ⟨rfl, hx⟩ : avail = true ∧ c :: x = buf :: dev := h
      obtain ⟨rfl, rfl⟩ := List.cons.inj hx
      exact ⟨rfl, rfl, rfl, rfl⟩
    | char d =>
      obtain ⟨rfl, -, rfl⟩ : avail = false ∧ buf = d ∧ c :: x = dev := h
      exact ⟨rfl, rfl, rfl, rfl⟩
    | fresh | eof =>
      obtain ⟨rfl, rfl⟩ : avail = false ∧ c :: x = dev := h
      exact ⟨rfl, rfl, rfl, rfl⟩
  nil l s h := by
    obtain ⟨dev, avail, buf⟩ := s
    cases l with
    | put => cases h.2
    | char d =>
      obtain ⟨rfl, -, rfl⟩ : avail = false ∧ buf = d ∧ [] = dev := h
      exact ⟨rfl, rfl, rfl⟩
    | fresh | eof =>
      obtain ⟨rfl, rfl⟩ : avail = false ∧ [] = dev := h
      exact ⟨rfl, rfl, rfl⟩
  put c x s h := by
    obtain ⟨dev, avail, buf⟩ := s
    obtain ⟨rfl, rfl, rfl⟩ : avail = false ∧ buf = c ∧ x = dev := h
    exact ⟨⟨x, true, buf⟩, rfl, rfl, rfl⟩

/-- What `sscanf` does, on the list of the characters. -/
theorem sscanf_eq {limit : Nat} (format s : CString) (ap : Nat → abi.Ulong)
    (h : s.bytes.length + 2 ≤ limit) :
    sscanf limit s format ap =
      some (scanList ap (directives format) ⟨0, 0, [], []⟩ s.bytes).1 := by
  obtain ⟨l, hread, -⟩ := read_doscan format ap s.bytes h
  have hstring : AtString .fresh s.bytes ⟨[], s.bytes⟩ := ⟨rfl, nofun⟩
  obtain ⟨p, hp, -⟩ := delivers_string.run_eq _ hstring hread
  rw [sscanf, hp]
  rfl

/-- `_doscan` gives characters back only right after it read them, and
`fscanf` on a device that delivers `s` and then `EOF` returns and stores
what `sscanf` does on `s`. -/
theorem fscanf_eq_sscanf {limit : Nat} (format s : CString) (ap : Nat → abi.Ulong)
    (junk : Byte) (h : s.bytes.length + 2 ≤ limit) :
    ∃ scanned l rest, (doscan limit format ap).read .fresh s.bytes = some (scanned, l, rest) ∧
      sscanf limit s format ap = some scanned ∧
      fscanf limit s.bytes junk format ap = some scanned := by
  obtain ⟨l, hread, -⟩ := read_doscan format ap s.bytes h
  have hdevice : AtDevice .fresh s.bytes ⟨s.bytes, false, junk⟩ := ⟨rfl, rfl⟩
  obtain ⟨q, hq, -⟩ := delivers_device.run_eq _ hdevice hread
  refine ⟨_, l, _, hread, sscanf_eq format s ap h, ?_⟩
  rw [fscanf, hq]
  rfl

/-- The string `12 ab`. -/
def twoFields : CString := ⟨[chr '1', chr '2', chr ' ', chr 'a', chr 'b'], by decide⟩

/-- The format `%d%s`. -/
def numberAndString : CString := ⟨[chr '%', chr 'd', chr '%', chr 's'], by decide⟩

/-- Pointers that are not `NULL`. -/
def pointers (abi : Abi) (n : Nat) : abi.Ulong := BitVec.ofNat _ (n + 1)

theorem fscanf_eq_sscanf_twoFields : ∃ scanned l rest,
    (doscan 7 numberAndString (pointers .lp64)).read .fresh twoFields.bytes =
      some (scanned, l, rest) ∧
    sscanf 7 twoFields numberAndString (pointers .lp64) = some scanned ∧
    fscanf 7 twoFields.bytes 0 numberAndString (pointers .lp64) = some scanned :=
  fscanf_eq_sscanf numberAndString twoFields _ 0 (by decide)

example : sscanf 7 twoFields numberAndString (pointers .lp64) = some
    { result := 2
      stores := [⟨0, 1, .int 12⟩, ⟨1, 2, .chars [chr 'a', chr 'b'] true⟩]
      matched := [0, 1]
      directives := 1
      stop := .eof
      failed := none } := by decide +kernel

end Xinu
