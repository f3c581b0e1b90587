import Xinu.Proofs.Scan.Text

/-!
# `Xinu.Proofs.Scan.Width`: how much a conversion takes

`number_width_iff` and `chars_width_iff` say when a conversion takes the
documented field: the longest run that the maximum width allows. A number
fails to for a width of one and a sign, because the width is looked at
after the first digit. All conversions fail to when the number of
characters does not fit a `uint`, and when they are suppressed and do not
match.
-/

namespace Xinu

open List

open Lib (Prog Last)

variable {c : Byte} {y : List Byte}

/-! ### Runs -/

section Run
variable {p : Byte → Bool} {x : List Byte}

theorem run_eq_take : ∀ k : Nat, run p k x = (x.takeWhile p).take k := by
  induction x with
  | nil =>
    intro k
    rw [run_nil, takeWhile_nil, take_nil]
  | cons c x ih =>
    intro k
    cases hc : p c with
    | true =>
      rw [takeWhile_cons_of_pos hc]
      cases k with
      | zero => rfl
      | succ k => rw [run_cons hc, ih, take_succ_cons]
    | false =>
      rw [run_cons_of_not hc, takeWhile_cons_of_neg (by rw [hc]; decide), take_nil]

theorem length_run (k : Nat) : (run p k x).length = min k (x.takeWhile p).length := by
  rw [run_eq_take, length_take]

theorem length_run_le_length {k : Nat} : (run p k x).length ≤ x.length := by
  rw [length_run]
  exact Nat.le_trans (Nat.min_le_right ..) (List.takeWhile_prefix p).length_le

theorem drop_inj {m n : Nat} (hm : m ≤ x.length) (hn : n ≤ x.length) :
    x.drop m = x.drop n ↔ m = n := by
  constructor
  · intro h
    have hlen := congrArg List.length h
    rw [length_drop, length_drop] at hlen
    omega
  · rintro rfl
    rfl

end Run

/-- What is taken is the run of at most `k` characters at the start of
`body`. -/
structure Took {abi : Abi} (t : Taken abi) (p : Byte → Bool) (k : Nat) (body : List Byte) :
    Prop where
  matched : t.matched = decide (run p k body ≠ [])
  eof : t.eof = ranOut p k body
  rest : t.rest = body.drop (run p k body).length

section Took
variable {abi : Abi} (ap : Nat → abi.Ulong) (spec : Spec) (st : ScanState abi) {t : Taken abi}
  {p : Byte → Bool} {k : Nat} {body : List Byte}

/-- Taking `n` characters, with the outcome of a match if there are
any. A suppressed conversion that does not match does not fail, unless the
input has ended. -/
theorem Took.good_iff (h : Took t p k body) (hk : 0 < k) {n : Nat} (hn : n ≤ body.length) :
    (t.rest = body.drop n ∧ if n ≠ 0 then Succeeds st (pointer ap spec st) (body.drop n)
        (outcome ap spec st t) else Fails st (outcome ap spec st t)) ↔
      (run p k body).length = n ∧ (n = 0 → pointer ap spec st = 0 → body = []) := by
  have hrest : t.rest = body.drop n ↔ (run p k body).length = n := by
    rw [h.rest, drop_inj length_run_le_length hn]
  rw [hrest]
  refine and_congr_right fun hlen => ?_
  by_cases hzero : n = 0
  · have hrun : run p k body = [] := length_eq_zero_iff.mp (hlen.trans hzero)
    have hmatched : t.matched = false := by
      rw [h.matched, hrun]
      rfl
    have heof : t.eof = true ↔ body = [] := by
      rw [h.eof, ranOut, hrun, decide_eq_true_iff, length_nil, eq_comm (a := 0),
        length_eq_zero_iff]
      exact and_iff_right hk
    rw [if_neg (not_not_intro hzero), fails_iff, heof, hmatched]
    by_cases hptr : pointer ap spec st = 0
    · rw [if_pos hptr]
      exact ⟨fun hbody _ _ => hbody, fun hbody => hbody hzero hptr⟩
    · rw [if_neg hptr]
      exact iff_of_true rfl fun _ hnull => absurd hnull hptr
  · have hmatched : t.matched = true := by
      rw [h.matched]
      refine decide_eq_true fun hrun => hzero ?_
      rw [← hlen, hrun]
      rfl
    -- A run that ends with the input leaves nothing.
    have heof : t.eof = true → t.rest = [] := by
      rw [h.eof, ranOut, decide_eq_true_iff, h.rest]
      intro hout
      rw [hout.2, drop_length]
    rw [if_pos hzero, ← hrest.mpr hlen, succeeds_iff t heof]
    exact iff_of_true (fun _ => hmatched) fun hn => absurd hn hzero

end Took

/-! ### Widths -/

/-- The width that a maximum of `w` characters becomes in a `uint`. -/
def wrapped (w : Nat) : Nat := if w % 2 ^ 32 = 0 then 2 ^ 32 - 1 else w % 2 ^ 32

theorem wrapped_of_lt {w : Nat} (hw : 0 < w) (h : w < 2 ^ 32) : wrapped w = w := by
  rw [wrapped, Nat.mod_eq_of_lt h, if_neg (by omega)]

theorem wrapped_bounds (w : Nat) : 0 < wrapped w ∧ wrapped w < 2 ^ 32 := by
  have hmod := Nat.mod_lt w (Nat.two_pow_pos 32)
  rw [wrapped]
  split
  · omega
  · omega

theorem ScanText.toNat_maxlen (t : ScanText) : t.maxlen.toNat = wrapped (decimalValue t.width) := by
  have hzero : BitVec.ofNat 32 (decimalValue t.width) = 0 ↔ decimalValue t.width % 2 ^ 32 = 0 := by
    rw [← BitVec.toNat_inj, BitVec.toNat_ofNat]
    rfl
  rw [maxlen, wrapped]
  by_cases h : decimalValue t.width % 2 ^ 32 = 0
  · rw [if_pos (hzero.mpr h), if_pos h]
    rfl
  · rw [if_neg fun hw => h (hzero.mp hw), if_neg h, BitVec.toNat_ofNat]

/-! ### Numbers -/

theorem signOf_cons (hc : isSign c = true) :
    signOf (c :: y) = [c] := by
  rw [signOf, run_cons hc, run_zero]

theorem signOf_cons_of_not (hc : isSign c = false) :
    signOf (c :: y) = [] :=
  run_cons_of_not hc

theorem length_signOf_le (y : List Byte) : (signOf y).length ≤ 1 := length_run_le

/-- A sign is not a digit. -/
theorem isDigitOf_of_isSign {base : Nat} (hc : isSign c = true) :
    isDigitOf base c = false := by
  have hsign : c = chr '-' ∨ c = chr '+' := of_decide_eq_true hc
  have hnone : ∀ b ∈ [chr '-', chr '+'], ¬(chr 'a' ≤ tolower b ∧ tolower b ≤ chr 'f') ∧
      ¬(chr '8' ≤ tolower b ∧ tolower b ≤ chr '9') ∧
      ¬(chr '0' ≤ tolower b ∧ tolower b ≤ chr '7') := by decide
  obtain ⟨hletter, hhigh, hlow⟩ := hnone c (by simpa using hsign)
  rw [isDigitOf, digit, if_neg fun h => hletter h.2, if_neg fun h => hhigh h.2, if_neg hlow]
  rfl

section Number
variable {abi : Abi} (spec : Spec)

/-- The digits of a number are taken after its sign. -/
theorem took_takeNumber (y : List Byte) :
    Took (spec.takeNumber y : Taken abi) (isDigitOf spec.base)
      (max 1 (spec.maxlen.toNat - (signOf y).length)) (afterSign y) := by
  cases y with
  | nil =>
    have hmax : max 1 (spec.maxlen.toNat - (signOf []).length) =
        max 1 (spec.maxlen.toNat - (signOf []).length) - 1 + 1 := by omega
    rw [hmax]
    exact ⟨rfl, ranOut_nil.symm, rfl⟩
  | cons c z =>
    cases hc : isSign c with
    | true =>
      rw [Spec.takeNumber, if_pos hc, afterSign, signOf_cons hc]
      exact ⟨rfl, rfl, rfl⟩
    | false =>
      rw [Spec.takeNumber, hc, if_neg Bool.false_ne_true, afterSign, signOf_cons_of_not hc]
      exact ⟨rfl, rfl, rfl⟩

variable {spec} in
/-- White space before a number is skipped. -/
theorem take_number (htype : spec.type ∉ [chr '[', chr 'c', chr 's']) (x : List Byte) :
    (spec.take x : Taken abi) = spec.takeNumber (x.dropWhile isspace) := by
  simp only [mem_cons, not_mem_nil, or_false, not_or] at htype
  rw [Spec.take, if_neg fun h => h.elim htype.1 htype.2.1]
  cases x.dropWhile isspace with
  | nil => rfl
  | cons d y => exact if_neg htype.2.2

/-- The documented field, in two parts. -/
theorem numberPrefix_take (base : Nat) {w : Nat} (hw : 0 < w) (y : List Byte) :
    numberPrefix base (y.take w) =
      signOf y ++ run (isDigitOf base) (w - (signOf y).length) (afterSign y) := by
  have hsign : signOf (y.take w) = signOf y := by
    rw [signOf, signOf, run, run, take_take, Nat.min_eq_left hw]
  rw [numberPrefix, afterSign, hsign, drop_take]
  rfl

end Number

namespace ScanText
variable (t : ScanText)

/-- The specification of a number. -/
def spec (c : Byte) : Spec where
  star := t.star
  maxlen := t.maxlen
  size := if isupper c then .long else t.size
  type := if isupper c then tolower c else c
  stopchar := fun _ => false

theorem parseSpec_spec (hc : Specifier c) (hset : c ≠ chr '[') (f : List Byte) :
    parseSpec (t.text ++ c :: f) = some (t.spec c, f) := by
  rw [t.parseSpec_text hc f, if_neg hset, spec]
  cases isupper c <;> rfl

end ScanText

theorem specifier_number (hc : c ∈ numberTypes) :
    Specifier c ∧
      c ≠ chr '[' ∧ (if isupper c then tolower c else c) ∉ [chr '[', chr 'c', chr 's'] := by
  have hall : ∀ b ∈ numberTypes, isDecimal b = false ∧ b ≠ chr 'l' ∧ b ≠ chr 'h' ∧ b ≠ chr '*' ∧
      b ≠ chr '%' ∧ b ≠ chr '[' ∧
      (if isupper b then tolower b else b) ∉ [chr '[', chr 'c', chr 's'] := by decide +kernel
  obtain ⟨hdecimal, hlong, hshort, hstar, hpercent, hset, htype⟩ := hall c hc
  exact ⟨⟨hdecimal, hlong, hshort, hstar, hpercent⟩, hset, htype⟩

/-- When a number of at most `w` characters is taken as documented. -/
structure NumberFits (base w : Nat) (suppressed : Prop) (y : List Byte) : Prop where
  /-- One character is not both a sign and a digit. -/
  narrow : w = 1 → signOf y ≠ [] → (afterSign y).takeWhile (isDigitOf base) = []
  /-- The width does not fit a `uint`. -/
  wide : 2 ^ 32 ≤ w → ((afterSign y).takeWhile (isDigitOf base)).length ≤
    max 1 (wrapped w - (signOf y).length)
  /-- What is suppressed matches, unless the input has ended. -/
  suppress : suppressed → afterSign y = [] ∨ (afterSign y).takeWhile (isDigitOf base) ≠ []

/-- The two runs of digits have one length. -/
theorem numberFits_iff {base w : Nat} (hw : 0 < w) {suppressed : Prop} :
    ((run (isDigitOf base) (max 1 (wrapped w - (signOf y).length)) (afterSign y)).length =
        (run (isDigitOf base) (w - (signOf y).length) (afterSign y)).length ∧
      ((run (isDigitOf base) (w - (signOf y).length) (afterSign y)).length = 0 →
        suppressed → afterSign y = [])) ↔
      NumberFits base w suppressed y := by
  have hsign := length_signOf_le y
  have hbounds := wrapped_bounds w
  have hnarrow := @wrapped_of_lt w hw
  have hfits : NumberFits base w suppressed y ↔
      (w = 1 → (signOf y).length ≠ 0 → ((afterSign y).takeWhile (isDigitOf base)).length = 0) ∧
      (2 ^ 32 ≤ w → ((afterSign y).takeWhile (isDigitOf base)).length ≤
        max 1 (wrapped w - (signOf y).length)) ∧
      (suppressed → afterSign y = [] ∨
        ((afterSign y).takeWhile (isDigitOf base)).length ≠ 0) := by
    simp only [ne_eq, length_eq_zero_iff]
    exact ⟨fun h => ⟨h.narrow, h.wide, h.suppress⟩, fun h => ⟨h.1, h.2.1, h.2.2⟩⟩
  rw [hfits, length_run, length_run]
  generalize ((afterSign y).takeWhile (isDigitOf base)).length = digits
  generalize (signOf y).length = sign at hsign ⊢
  constructor
  · rintro ⟨hlen, hnull⟩
    refine ⟨fun hone hne => ?_, fun hwide => ?_, fun hs => ?_⟩
    · rw [hnarrow (by omega)] at hlen
      omega
    · omega
    · by_cases hzero : digits = 0
      · exact Or.inl (hnull (by omega) hs)
      · exact Or.inr hzero
  · rintro ⟨hone, hwide, hnull⟩
    refine ⟨?_, fun hzero hs => ?_⟩
    · by_cases hlt : w < 2 ^ 32
      · rw [hnarrow hlt]
        -- Only one character for a sign leaves room for no digit.
        by_cases hsingle : w = 1 ∧ sign ≠ 0
        · rw [hone hsingle.1 hsingle.2]
          omega
        · omega
      · have hle := hwide (by omega)
        omega
    · rcases hnull hs with hbody | hdigits
      · exact hbody
      · exact absurd (hone (by omega) (by omega)) hdigits

section Number
variable {abi : Abi} {limit : Nat} (ap : Nat → abi.Ulong) (st : ScanState abi)

/-- A conversion of a number of at most `w` characters is done by
`convert`, after which the format goes on behind it. It takes the longest
start of the next `w` characters that is a number, and succeeds if that has
a digit, in exactly the cases of `NumberFits`. -/
theorem number_width_iff (t : ScanText) (hc : c ∈ numberTypes)
    (hw : 0 < decimalValue t.width) (f x : List Byte) (hlimit : x.length + 2 ≤ limit) :
    let w := decimalValue t.width
    let base := scanBase (t.spec c).type
    let y := x.dropWhile isspace
    let field := numberPrefix base (y.take w)
    let rest := y.drop field.length
    let ptr := pointer ap (t.spec c) st
    (∀ fuel last, (doscanLoop limit ap (fuel + 1) (chr '%' :: (t.text ++ c :: f)) st).read last x =
      ((convert limit ap (t.spec c) st).read last x).bind fun r =>
        Sum.elim (fun scanned => some (scanned, r.2))
          (fun st => (doscanLoop limit ap fuel f st).read r.2.1 r.2.2) r.1) ∧
    (Performs limit ap (t.spec c) st x rest (fun out =>
        if ∃ d ∈ field, isDigitOf base d = true then Succeeds st ptr rest out
        else Fails st out) ↔
      NumberFits base w (ptr = 0) y) := by
  intro w base y field rest ptr
  obtain ⟨hspecifier, hset, htype⟩ := specifier_number hc
  refine ⟨fun fuel last => read_doscanLoop_conversion limit ap _ st (t.peek_text hspecifier f)
    (t.parseSpec_spec hspecifier hset f) last x, ?_⟩
  have htake : ((t.spec c).take x : Taken abi) = (t.spec c).takeNumber y := take_number htype x
  have htook := @took_takeNumber abi (t.spec c) y
  have hfield : field = signOf y ++ run (isDigitOf base) (w - (signOf y).length) (afterSign y) :=
    numberPrefix_take base hw y
  have hrest : rest = (afterSign y).drop
      (run (isDigitOf base) (w - (signOf y).length) (afterSign y)).length := by
    show y.drop field.length = _
    rw [hfield, length_append, afterSign, drop_drop]
  have hdigit : (∃ d ∈ field, isDigitOf base d = true) ↔
      (run (isDigitOf base) (w - (signOf y).length) (afterSign y)).length ≠ 0 := by
    rw [hfield, ne_eq, length_eq_zero_iff]
    constructor
    · rintro ⟨d, hd, hdigit⟩
      rcases mem_append.mp hd with hd | hd
      · rw [isDigitOf_of_isSign (mem_takeWhile_imp hd)] at hdigit
        cases hdigit
      · exact ne_nil_of_mem hd
    · intro hne
      obtain ⟨d, hd⟩ := exists_mem_of_ne_nil _ hne
      exact ⟨d, mem_append_right _ hd, mem_takeWhile_imp hd⟩
  have hgood := htook.good_iff ap (t.spec c) st (by omega)
    (n := (run (isDigitOf base) (w - (signOf y).length) (afterSign y)).length)
    length_run_le_length
  rw [performs_iff hlimit, htake, hrest]
  simp only [hdigit]
  rw [hgood, show (t.spec c).maxlen.toNat = wrapped w from t.toNat_maxlen]
  exact numberFits_iff hw

/-- A maximum width of one digit `d`. -/
def oneDigit (d : Byte) (hd : isDecimal d = true) : ScanText where
  star := false
  width := [d]
  size := .regular
  widthDigits := by
    rintro c hc
    rw [mem_singleton.mp hc]
    exact hd

/-- `%2d` on `-57` takes `-5`. -/
theorem number_width_two : chr 'd' ∈ numberTypes ∧
    Performs 5 (pointers .lp64) ((oneDigit (chr '2') rfl).spec (chr 'd')) ⟨0, 0, [], []⟩
      [chr '-', chr '5', chr '7'] [chr '7'] (Succeeds ⟨0, 0, [], []⟩ 1 [chr '7']) :=
  ⟨by decide +kernel,
    (number_width_iff (pointers .lp64) ⟨0, 0, [], []⟩ (oneDigit (chr '2') rfl) (by decide +kernel)
      (by decide +kernel) [] [chr '-', chr '5', chr '7'] (Nat.le_refl 5)).2.mpr
        ⟨by decide +kernel, by decide +kernel, by decide +kernel⟩⟩

/-- `%1d` on `-5` takes two characters, and matches. -/
theorem sscanf_one_digit :
    sscanf 4 ⟨[chr '-', chr '5'], by decide⟩ ⟨[chr '%', chr '1', chr 'd'], by decide⟩
        (pointers .lp64) = some
      { result := 1
        stores := [⟨0, 1, .int (-5)⟩]
        matched := [0]
        directives := 1
        stop := .done
        failed := none } ∧
      numberPrefix 10 ([chr '-', chr '5'].take 1) = [chr '-'] := by
  decide +kernel

end Number

/-! ### Sets and strings -/

/-- The longest run is the start of one without a maximum. -/
theorem longest_eq_take (p : Byte → Bool) (limit : Option Nat) (x : List Byte) :
    longest p limit x = (x.takeWhile p).take (limit.getD (x.takeWhile p).length) := by
  cases limit with
  | none => exact take_length.symm
  | some w => exact run_eq_take w

/-- Runs from the same place that have one length are the same. -/
theorem run_eq_longest {p : Byte → Bool} {k : Nat} {limit : Option Nat} {x : List Byte}
    (h : (run p k x).length = (longest p limit x).length) : run p k x = longest p limit x := by
  have htake : ∀ j, (x.takeWhile p).take ((x.takeWhile p).take j).length =
      (x.takeWhile p).take j := by
    intro j
    rw [length_take, take_eq_take_iff]
    omega
  rw [run_eq_take, longest_eq_take] at h ⊢
  rw [← htake k, h, htake]

namespace ScanText
variable (t : ScanText)

/-- The specification of characters. -/
def charsSpec (k : CharsText) : Spec where
  star := t.star
  maxlen := t.maxlen
  size := t.size
  type := peek k.text
  stopchar := match k with
    | .set s => fun c => !s.member c
    | .string => fun _ => false

theorem parseSpec_chars (k : CharsText) {f : List Byte} (hf : k.Unterminated → f = []) :
    parseSpec (t.text ++ (k.text ++ f)) = some (t.charsSpec k, f) := by
  cases k with
  | set s =>
    refine (t.parseSpec_text ⟨by decide, by decide, by decide, by decide, by decide⟩
      (s.text ++ f)).trans ?_
    rw [if_pos rfl, buildStopcharTab_text s hf]
    rfl
  | string =>
    refine (t.parseSpec_text ⟨by decide, by decide, by decide, by decide, by decide⟩ f).trans ?_
    rw [if_neg (by decide), if_neg (by decide)]
    rfl

theorem peek_chars (k : CharsText) (f : List Byte) :
    peek (t.text ++ (k.text ++ f)) ≠ chr '%' := by
  cases k with
  | set s =>
    exact t.peek_text ⟨by decide, by decide, by decide, by decide, by decide⟩ (s.text ++ f)
  | string => exact t.peek_text ⟨by decide, by decide, by decide, by decide, by decide⟩ f

variable {abi : Abi}

theorem accepts_chars (k : CharsText) : (t.charsSpec k).accepts = k.member := by
  funext c
  rw [Bool.eq_iff_iff, Spec.accepts, decide_eq_true_iff]
  cases k with
  | set s =>
    have hdiff : chr '[' ≠ chr 's' := by decide
    show ¬(chr '[' = chr '[' ∧ (!s.member c) = true ∨ chr '[' = chr 's' ∧ isspace c = true) ↔
      s.member c = true
    simp [hdiff]
  | string =>
    show ¬(chr 's' = chr '[' ∧ false = true ∨ chr 's' = chr 's' ∧ isspace c = true) ↔
      (!isspace c) = true
    simp

/-- Characters are taken as one run, and stored with a `NUL` after
them. -/
theorem took_chars (k : CharsText) (x : List Byte) :
    Took ((t.charsSpec k).take x : Taken abi) k.member (wrapped (decimalValue t.width))
        (k.start x) ∧
      (run k.member (wrapped (decimalValue t.width)) (k.start x) ≠ [] →
        ((t.charsSpec k).take x : Taken abi).data =
          some (.chars (run k.member (wrapped (decimalValue t.width)) (k.start x)) true)) := by
  have htype : (t.charsSpec k).type ≠ chr 'c' := by
    cases k with
    | set s => exact (by decide : chr '[' ≠ chr 'c')
    | string => exact (by decide : chr 's' ≠ chr 'c')
  have hwidth : (t.charsSpec k).width = wrapped (decimalValue t.width) := by
    rw [Spec.width, if_neg fun h => htype h.1]
    exact t.toNat_maxlen
  have hstring : ∀ y, Took ((t.charsSpec k).takeString y : Taken abi) k.member
        (wrapped (decimalValue t.width)) y ∧
      ((t.charsSpec k).takeString y : Taken abi).data =
        some (.chars (run k.member (wrapped (decimalValue t.width)) y) true) := by
    intro y
    rw [Spec.takeString, t.accepts_chars, hwidth]
    refine ⟨⟨?_, rfl, rfl⟩, ?_⟩
    · simp [htype]
    · simp [htype]
  cases k with
  | set s =>
    have htake : ((t.charsSpec (.set s)).take x : Taken abi) =
      (t.charsSpec (.set s)).takeString x :=
      if_pos (Or.inl rfl)
    rw [htake]
    exact ⟨(hstring x).1, fun _ => (hstring x).2⟩
  | string =>
    have hpos := (wrapped_bounds (decimalValue t.width)).1
    have hset : ¬((t.charsSpec .string).type = chr '[' ∨ (t.charsSpec .string).type = chr 'c') :=
      (by decide : ¬(chr 's' = chr '[' ∨ chr 's' = chr 'c'))
    rw [Spec.take, if_neg hset, CharsText.start]
    cases x.dropWhile isspace with
    | nil =>
      rw [← Nat.sub_add_cancel hpos]
      exact ⟨⟨by simp, ranOut_nil.symm, by simp⟩, fun h => absurd run_nil h⟩
    | cons c y => exact ⟨(hstring (c :: y)).1, fun _ => (hstring (c :: y)).2⟩

end ScanText

/-- When characters are taken as documented. -/
structure CharsFit (member : Byte → Bool) (w : Nat) (suppressed : Prop) (y : List Byte) :
    Prop where
  /-- The width fits a `uint`, or the run does. -/
  wide : 0 < w ∧ w < 2 ^ 32 ∨ (y.takeWhile member).length ≤ wrapped w
  /-- What is suppressed matches, unless the input has ended. -/
  suppress : suppressed → y = [] ∨ y.takeWhile member ≠ []

section Chars
variable {abi : Abi} {limit : Nat} (ap : Nat → abi.Ulong) (st : ScanState abi)

theorem charsFit_iff {t : ScanText} {member : Byte → Bool} {suppressed : Prop} :
    ((run member (wrapped (decimalValue t.width)) y).length = (longest member t.limit y).length ∧
      ((longest member t.limit y).length = 0 → suppressed → y = [])) ↔
      CharsFit member (decimalValue t.width) suppressed y := by
  have hbounds := wrapped_bounds (decimalValue t.width)
  have hnarrow := @wrapped_of_lt (decimalValue t.width)
  have hfit : CharsFit member (decimalValue t.width) suppressed y ↔
      (0 < decimalValue t.width ∧ decimalValue t.width < 2 ^ 32 ∨
        (y.takeWhile member).length ≤ wrapped (decimalValue t.width)) ∧
      (suppressed → y = [] ∨ (y.takeWhile member).length ≠ 0) := by
    simp only [ne_eq, length_eq_zero_iff]
    exact ⟨fun h => ⟨h.wide, h.suppress⟩, fun h => ⟨h.1, h.2⟩⟩
  rw [hfit, length_run, longest_eq_take, length_take, ScanText.limit]
  generalize (y.takeWhile member).length = all
  generalize decimalValue t.width = w at hbounds hnarrow ⊢
  have hlen : min (wrapped w) all = min ((if w = 0 then none else some w).getD all) all ↔
      (0 < w ∧ w < 2 ^ 32 ∨ all ≤ wrapped w) := by
    by_cases hzero : w = 0
    · rw [if_pos hzero, Option.getD_none]
      omega
    · rw [if_neg hzero, Option.getD_some]
      by_cases hlt : w < 2 ^ 32
      · rw [hnarrow (by omega) hlt]
        omega
      · omega
  have hempty : min ((if w = 0 then none else some w).getD all) all = 0 ↔ all = 0 := by
    by_cases hzero : w = 0
    · rw [if_pos hzero, Option.getD_none]
      omega
    · rw [if_neg hzero, Option.getD_some]
      omega
  rw [hlen, hempty]
  refine and_congr_right fun _ => ⟨fun h hs => ?_, fun h hall hs => ?_⟩
  · by_cases hall : all = 0
    · exact Or.inl (h hall hs)
    · exact Or.inr hall
  · exact (h hs).resolve_right (not_not_intro hall)

/-- A conversion `%[` or `%s` is done by `convert`, after which the format
goes on behind it. It takes the longest run of its characters, stores it
with a `NUL`, and fails if it is empty, in exactly the cases of
`CharsFit`. -/
theorem chars_width_iff (t : ScanText) (k : CharsText) (f x : List Byte)
    (hf : k.Unterminated → f = []) (hlimit : x.length + 2 ≤ limit) :
    let y := k.start x
    let field := longest k.member t.limit y
    let rest := y.drop field.length
    let ptr := pointer ap (t.charsSpec k) st
    (∀ fuel last,
      (doscanLoop limit ap (fuel + 1) (chr '%' :: (t.text ++ (k.text ++ f))) st).read last x =
        ((convert limit ap (t.charsSpec k) st).read last x).bind fun r =>
          Sum.elim (fun scanned => some (scanned, r.2))
            (fun st => (doscanLoop limit ap fuel f st).read r.2.1 r.2.2) r.1) ∧
    (Performs limit ap (t.charsSpec k) st x rest (fun out =>
        if field ≠ [] then Succeeds st ptr rest out ∧
          (ptr ≠ 0 → storedBy out = st.stores ++ [⟨st.arg, ptr, .chars field true⟩])
        else Fails st out) ↔
      CharsFit k.member (decimalValue t.width) (ptr = 0) y) := by
  intro y field rest ptr
  refine ⟨fun fuel last => read_doscanLoop_conversion limit ap _ st (t.peek_chars k f)
    (t.parseSpec_chars k hf) last x, ?_⟩
  obtain ⟨htook, hdata⟩ := @ScanText.took_chars t abi k x
  have hpos := (wrapped_bounds (decimalValue t.width)).1
  have hfield : field.length ≤ y.length := by
    show (longest k.member t.limit y).length ≤ y.length
    rw [longest_eq_take, length_take]
    exact Nat.le_trans (Nat.min_le_right ..) (List.takeWhile_prefix _).length_le
  have hgood := htook.good_iff ap (t.charsSpec k) st hpos hfield
  rw [performs_iff hlimit, ← charsFit_iff, ← hgood]
  -- What is stored is what was taken.
  refine and_congr_right fun hrest => ?_
  by_cases hempty : field = []
  · have hzero : field.length = 0 := length_eq_zero_iff.mpr hempty
    rw [if_neg (not_not_intro hempty), if_neg (not_not_intro hzero)]
  · have hpositive : field.length ≠ 0 := fun h => hempty (length_eq_zero_iff.mp h)
    rw [if_pos hempty, if_pos hpositive]
    refine and_iff_left fun hptr => ?_
    have hrun : run k.member (wrapped (decimalValue t.width)) y = field := by
      rw [htook.rest, drop_inj length_run_le_length hfield] at hrest
      exact run_eq_longest hrest
    rw [storedBy_outcome hptr, hdata (by rw [hrun]; exact hempty), hrun]
    rfl

/-- The set of `a` and `b`. -/
def lettersAB : SetText where
  inverted := false
  chars := [chr 'a', chr 'b']
  closed := true
  bracket := by decide
  caret := by decide
  nonempty := by decide

/-- `%2[ab]` on `abc` takes `ab`. -/
theorem chars_width_two :
    Performs 5 (pointers .lp64) ((oneDigit (chr '2') rfl).charsSpec (.set lettersAB))
      ⟨0, 0, [], []⟩ [chr 'a', chr 'b', chr 'c'] [chr 'c'] (fun out =>
        Succeeds ⟨0, 0, [], []⟩ 1 [chr 'c'] out ∧
          ((1 : Abi.Ulong .lp64) ≠ 0 →
            storedBy out = [⟨0, 1, .chars [chr 'a', chr 'b'] true⟩])) :=
  (chars_width_iff (pointers .lp64) ⟨0, 0, [], []⟩ (oneDigit (chr '2') rfl) (.set lettersAB) []
    [chr 'a', chr 'b', chr 'c'] (fun _ => rfl) (Nat.le_refl 5)).2.mpr
      ⟨by decide +kernel, fun _ => by decide +kernel⟩

/-- The width 2^32 + 1 counts as one. -/
theorem sscanf_wide :
    sscanf 4 ⟨[chr 'a', chr 'b'], by decide⟩ ⟨"%4294967297s".toList.map chr, by decide⟩
        (pointers .lp64) = some
      { result := 1
        stores := [⟨0, 1, .chars [chr 'a'] true⟩]
        matched := [0]
        directives := 1
        stop := .done
        failed := none } ∧
      longest CharsText.string.member (some 4294967297) [chr 'a', chr 'b'] =
        [chr 'a', chr 'b'] := by
  decide +kernel

end Chars

end Xinu
