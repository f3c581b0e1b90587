import Xinu.Proofs.Scan.Atol

/-!
# `Xinu.Proofs.Print.RoundTrip`: `sscanf` reads what `sprintf` prints

`IntConversion` lists the conversions of integers that formatted output and
formatted input share. Each prints an optional sign and a numeral
(`sprintf_text`), and takes the same characters back to the number
(`take_printed`). The sign of the most negative number is no exception: its
negation is the same number, and both sides compute it without sign.
-/

namespace Xinu

open List BitVec

/-! ### Conversions -/

inductive IntConversion where
  | d
  | u
  | o
  | x
  | ld
  | lo
  | lx
deriving DecidableEq

namespace IntConversion
variable (k : IntConversion) {abi : Abi} (args : PrintArgs abi)

/-- The conversion specifier. -/
def type : Byte :=
  match k with
  | .d | .ld => chr 'd'
  | .u => chr 'u'
  | .o | .lo => chr 'o'
  | .x | .lx => chr 'x'

def isLong : Bool :=
  match k with
  | .d | .u | .o | .x => false
  | .ld | .lo | .lx => true

/-- The format. -/
def text : CString :=
  match k with
  | .d => ⟨[chr '%', chr 'd'], by decide⟩
  | .u => ⟨[chr '%', chr 'u'], by decide⟩
  | .o => ⟨[chr '%', chr 'o'], by decide⟩
  | .x => ⟨[chr '%', chr 'x'], by decide⟩
  | .ld => ⟨[chr '%', chr 'l', chr 'd'], by decide⟩
  | .lo => ⟨[chr '%', chr 'l', chr 'o'], by decide⟩
  | .lx => ⟨[chr '%', chr 'l', chr 'x'], by decide⟩

/-- The argument as it is stored. -/
def stored : Stored abi := if k.isLong then .long (args.ap 0) else .int (args.int 0)

/-- The argument as a `long` or an `unsigned long`. -/
def value : abi.Ulong :=
  if k.isLong then args.ap 0
  else if k.type = chr 'd' then (args.int 0).signExtend _
  else (args.int 0).setWidth _

def negative : Bool := k.type = chr 'd' && (k.value args).slt 0

/-- The absolute value of the argument. -/
def magnitude : abi.Ulong := if k.negative args then -k.value args else k.value args

/-- What `_doprnt` makes of the argument. -/
def converted : Converted where
  str := numeral digitsLc (scanBase k.type) (k.magnitude args).toNat
  base := scanBase k.type
  sign := k.negative args

/-- What is printed. -/
def printed : List Byte :=
  (if k.negative args then [chr '-'] else []) ++ (k.converted args).str

theorem scanBase_mem : scanBase k.type ∈ [8, 10, 16] := by
  cases k <;> decide

theorem one_lt_scanBase : 1 < scanBase k.type := by
  cases k <;> decide

theorem length_converted_le : (k.converted args).str.length ≤ 64 :=
  calc (k.converted args).str.length ≤ abi.bits :=
        length_numeral_le k.one_lt_scanBase (k.magnitude args)
    _ ≤ 64 := by cases abi <;> decide

end IntConversion

/-! ### Printing -/

section Print
variable {abi : Abi} (args : PrintArgs abi)

/-- A specification without flags, width and precision. -/
def plainField : PrintField := ⟨false, chr ' ', 0, -1⟩

theorem printSpec_plain (k : IntConversion) :
    printSpec args 0 k.text.bytes.tail =
      (some (plainField, .ok (k.converted args)), 1, []) := by
  -- The format is fixed, so the specification is read by computing.
  cases k with
  | d =>
    show (some (plainField, printSigned args .regular 0), 1, []) = _
    rw [printSigned_eq]
    rfl
  | u =>
    show (some (plainField, printUnsigned args 10 false .regular 0), 1, []) = _
    rw [printUnsigned_eq args (by decide)]
    rfl
  | o =>
    show (some (plainField, printUnsigned args 8 false .regular 0), 1, []) = _
    rw [printUnsigned_eq args (by decide)]
    rfl
  | x =>
    show (some (plainField, printUnsigned args 16 false .regular 0), 1, []) = _
    rw [printUnsigned_eq args (by decide)]
    rfl
  | ld =>
    show (some (plainField, printSigned args .long 0), 1, []) = _
    rw [printSigned_eq]
    rfl
  | lo =>
    show (some (plainField, printUnsigned args 8 false .long 0), 1, []) = _
    rw [printUnsigned_eq args (by decide)]
    rfl
  | lx =>
    show (some (plainField, printUnsigned args 16 false .long 0), 1, []) = _
    rw [printUnsigned_eq args (by decide)]
    rfl

/-- A plain field has no padding. -/
theorem fieldText_plain (k : IntConversion) :
    fieldText plainField (k.converted args) = k.printed args := by
  have hplain : Realizes plainField ⟨false, false, 0, none⟩ :=
    ⟨rfl, rfl, by decide, rfl, fun _ => by decide, nofun⟩
  have hbase : (k.converted args).base ≠ 0 := Nat.ne_of_gt (Nat.lt_of_succ_lt k.one_lt_scanBase)
  have hnumber : ∀ sign numeral,
      PrintLayout.number ⟨false, false, 0, none⟩ sign numeral = sign ++ numeral := by
    simp [PrintLayout.number, PrintLayout.chars, PrintLayout.digits]
  rw [hplain.fieldText_number _ hbase (k.length_converted_le args), hnumber]
  rfl

theorem sprintf_text (k : IntConversion) :
    sprintf k.text args = .ok ((k.printed args).length, k.printed args ++ [0]) := by
  have hbytes : k.text.bytes = chr '%' :: k.text.bytes.tail := by
    cases k <;> rfl
  have hpercent : chr '%' = chr '%' ∧ peek k.text.bytes.tail ≠ chr '%' := by
    cases k <;> decide
  have htext : formatText args (k.text.bytes.length + 1) k.text.bytes 0 = k.printed args := by
    rw [hbytes, formatText, if_pos hpercent, printSpec_plain]
    show fieldText plainField (k.converted args) ++ [] = _
    rw [append_nil, fieldText_plain]
  rw [sprintf_eq, htext]

/-- The most negative `int`, and no strings. -/
def intMin (abi : Abi) : PrintArgs abi := ⟨fun _ => 0x80000000, fun _ => ⟨[], nofun⟩⟩

example : IntConversion.d.printed (intMin .ilp32) = "-2147483648".toList.map chr := by
  decide +kernel

end Print

/-! ### Scanning -/

/-- Each digit is read as what it stands for, and is neither white space
nor a sign nor `NUL`. -/
theorem digitsLc_digit : ∀ base ∈ [8, 10, 16], ∀ d < base,
    digit base (tolower (digitsLc.getD d 0)) = some d ∧ isspace (digitsLc.getD d 0) = false ∧
      isSign (digitsLc.getD d 0) = false ∧ digitsLc.getD d 0 ≠ 0 := by
  decide +kernel

theorem digitsValue_reverse {abi : Abi} {base : Nat} (hbase : base ∈ [8, 10, 16]) (l : List Nat)
    (h : ∀ d ∈ l, d < base) :
    (digitsValue base (l.map (digitsLc.getD · 0)).reverse : abi.Ulong) =
      BitVec.ofNat _ (Nat.ofDigits base l) := by
  induction l with
  | nil => rfl
  | cons d l ih =>
    have hd : d < base := h d mem_cons_self
    have hvalue := ih fun e he => h e (mem_cons_of_mem d he)
    rw [digitsValue] at hvalue ⊢
    rw [map_cons, reverse_cons, foldl_append, hvalue, foldl_cons,
      foldl_nil, pushDigit, (digitsLc_digit base hbase d hd).1, Option.getD_some,
      Nat.ofDigits_cons, Nat.add_comm, Nat.mul_comm, ofNat_add, ofNat_mul]

section Scan
variable {abi : Abi} {base : Nat}

theorem one_lt_of_mem (h : base ∈ [8, 10, 16]) : 1 < base := by
  revert base
  decide

theorem digitsValue_numeral (hbase : base ∈ [8, 10, 16]) (num : abi.Ulong) :
    digitsValue base (numeral digitsLc base num.toNat) = num := by
  rw [numeral, digitsValue_reverse hbase _ fun d => lt_of_mem_figures (one_lt_of_mem hbase),
    ofDigits_figures, ofNat_toNat, setWidth_eq]

theorem exists_of_mem_numeral (hone : 1 < base) {n : Nat} {c : Byte}
    (h : c ∈ numeral digitsLc base n) : ∃ d < base, digitsLc.getD d 0 = c := by
  rw [numeral, mem_reverse, mem_map] at h
  obtain ⟨d, hd, hc⟩ := h
  exact ⟨d, lt_of_mem_figures hone hd, hc⟩

/-- The characters of a numeral, as a field. -/
theorem takeDigits_numeral {spec : Spec} (hbase : spec.base ∈ [8, 10, 16]) (num : abi.Ulong)
    (sign : Option Byte) (hwidth : abi.bits < spec.digitWidth sign.isSome) :
    (spec.takeDigits sign (numeral digitsLc spec.base num.toNat) : Taken abi) =
      ⟨true, true, some (storeNumber spec.size (if sign = some (chr '-') then -num else num)),
        []⟩ := by
  have hone : 1 < spec.base := one_lt_of_mem hbase
  have hlen : (numeral digitsLc spec.base num.toNat).length < spec.digitWidth sign.isSome :=
    Nat.lt_of_le_of_lt (length_numeral_le hone num) hwidth
  have hdigits : ∀ c ∈ numeral digitsLc spec.base num.toNat, isDigitOf spec.base c = true := by
    intro c hc
    obtain ⟨d, hd, rfl⟩ := exists_of_mem_numeral hone hc
    rw [isDigitOf, (digitsLc_digit _ hbase d hd).1, Option.isSome_some]
  have hne : numeral digitsLc spec.base num.toNat ≠ [] := numeral_ne_nil hone
  rw [Spec.takeDigits]
  simp only [run_of_forall hdigits (Nat.le_of_lt hlen), ranOut_of_forall hdigits hlen,
    digitsValue_numeral hbase, hne, ne_eq, not_false_eq_true, decide_true, if_false,
    drop_length]

/-- A number with its sign, as a field. -/
theorem takeNumber_numeral {spec : Spec} (hbase : spec.base ∈ [8, 10, 16])
    (hmaxlen : spec.maxlen = UNLIMITED_LENGTH) (num : abi.Ulong) (negative : Bool) :
    (spec.takeNumber ((if negative then [chr '-'] else []) ++
        numeral digitsLc spec.base num.toNat) : Taken abi) =
      ⟨true, true, some (storeNumber spec.size (if negative then -num else num)), []⟩ := by
  have hone : 1 < spec.base := one_lt_of_mem hbase
  -- Without a maximum width there is room for every digit of a `long`.
  have hwidth : ∀ sign, abi.bits < spec.digitWidth sign := by
    intro sign
    have hbits : abi.bits ≤ 64 := by cases abi <;> decide
    have hmax : 65 < spec.digitWidth sign := by
      rw [Spec.digitWidth, hmaxlen]
      cases sign <;> decide
    omega
  cases negative with
  | true =>
    show (spec.takeDigits (some (chr '-')) (numeral digitsLc spec.base num.toNat) : Taken abi) = _
    exact takeDigits_numeral hbase num _ (hwidth _)
  | false =>
    have htake : (spec.takeNumber (numeral digitsLc spec.base num.toNat) : Taken abi) =
        spec.takeDigits none (numeral digitsLc spec.base num.toNat) := by
      -- A numeral does not start with a sign.
      cases hnum : numeral digitsLc spec.base num.toNat with
      | nil => exact absurd hnum (numeral_ne_nil hone)
      | cons c l =>
        have hc : c ∈ numeral digitsLc spec.base num.toNat := by
          rw [hnum]
          exact mem_cons_self
        obtain ⟨d, hd, rfl⟩ := exists_of_mem_numeral hone hc
        rw [Spec.takeNumber, (digitsLc_digit _ hbase d hd).2.2.1]
        rfl
    rw [if_neg (by decide), nil_append, htake, takeDigits_numeral hbase num none (hwidth _)]
    rfl

end Scan

/-! ### Round trip -/

namespace IntConversion
variable (k : IntConversion) {abi : Abi} (args : PrintArgs abi)

/-- The conversion specification of the format. -/
def spec : Spec where
  star := false
  maxlen := UNLIMITED_LENGTH
  size := if k.isLong then .long else .regular
  type := k.type
  stopchar := fun _ => false

theorem directives_text : directives k.text = [.conversion k.spec] := by
  cases k <;> rfl

theorem mem_printed {c : Byte} (h : c ∈ k.printed args) : isspace c = false ∧ c ≠ 0 := by
  rw [printed, mem_append] at h
  rcases h with h | h
  · cases hneg : k.negative args with
    | true =>
      rw [hneg, if_pos rfl, mem_singleton] at h
      rw [h]
      decide
    | false =>
      rw [hneg] at h
      exact absurd h not_mem_nil
  · obtain ⟨d, hd, rfl⟩ := exists_of_mem_numeral k.one_lt_scanBase h
    obtain ⟨-, hspace, -, hzero⟩ := digitsLc_digit _ k.scanBase_mem d hd
    exact ⟨hspace, hzero⟩

theorem setWidth_signExtend {v w : Nat} (h : v ≤ w) (n : BitVec v) :
    (n.signExtend w).setWidth v = n := by
  ext i hi
  rw [getElem_setWidth, getLsbD_signExtend]
  simp [hi, Nat.lt_of_lt_of_le hi h]

/-- The absolute value and the sign give the argument. -/
theorem storeNumber_magnitude :
    storeNumber k.spec.size (if k.negative args then -k.magnitude args else k.magnitude args) =
      k.stored args := by
  -- Negating twice modulo the size of a `long` loses nothing.
  have hvalue : (if k.negative args then -k.magnitude args else k.magnitude args) =
      k.value args := by
    rw [magnitude]
    cases k.negative args with
    | true => exact BitVec.neg_neg
    | false => rfl
  rw [hvalue]
  have hbits : 32 ≤ abi.bits := by cases abi <;> decide
  cases k with
  | d =>
    show Stored.int (((args.int 0).signExtend abi.bits).setWidth 32) = .int (args.int 0)
    rw [setWidth_signExtend hbits]
  | u | o | x =>
    show Stored.int (((args.int 0).setWidth abi.bits).setWidth 32) = .int (args.int 0)
    rw [setWidth_setWidth_of_le _ hbits, setWidth_eq]
  | ld | lo | lx => rfl

/-- Scanning takes back all that was printed. -/
theorem take_printed :
    (k.spec.take (k.printed args) : Taken abi) = ⟨true, true, some (k.stored args), []⟩ := by
  have htype : ¬(k.spec.type = chr '[' ∨ k.spec.type = chr 'c') ∧ k.spec.type ≠ chr 's' := by
    cases k <;> decide
  have hnumber : (k.spec.takeNumber (k.printed args) : Taken abi) =
      ⟨true, true, some (k.stored args), []⟩ := by
    rw [← storeNumber_magnitude]
    exact @takeNumber_numeral abi k.spec k.scanBase_mem rfl _ _
  cases hprinted : k.printed args with
  | nil =>
    rw [hprinted] at hnumber
    exact absurd (congrArg Taken.matched hnumber) nofun
  | cons c l =>
    have hc : isspace c = false := (k.mem_printed args (by rw [hprinted]; simp)).1
    rw [Spec.take, if_neg htype.1, dropWhile_cons_of_neg (by rw [hc]; decide)]
    rw [hprinted] at hnumber
    show (if k.spec.type = chr 's' then _ else k.spec.takeNumber (c :: l)) = _
    rw [if_neg htype.2, hnumber]

end IntConversion

/-- For every integer, the string that `sprintf` leaves is converted back
by `sscanf` with the same format: one conversion matches, and stores the
integer. -/
theorem sscanf_sprintf {abi : Abi} (k : IntConversion) (args : PrintArgs abi)
    {ap : Nat → abi.Ulong} (hptr : ap 0 ≠ 0) :
    ∃ s : CString, sprintf k.text args = .ok (s.bytes.length, s.encode) ∧
      ∀ limit, s.bytes.length + 2 ≤ limit → ∃ scanned, sscanf limit s k.text ap = some scanned ∧
        scanned.result = 1 ∧ scanned.stores = [⟨0, ap 0, k.stored args⟩] := by
  refine ⟨⟨k.printed args, fun c hc => (k.mem_printed args hc).2⟩, sprintf_text args k, ?_⟩
  intro limit hlimit
  refine ⟨_, sscanf_eq k.text _ ap hlimit, ?_⟩
  rw [k.directives_text, scanList_ptr rfl hptr]
  simp only [k.take_printed args, if_true]
  exact ⟨rfl, rfl⟩

theorem sscanf_sprintf_intMin : pointers .lp64 0 ≠ 0 ∧
    ∃ s : CString, sprintf IntConversion.d.text (intMin .lp64) = .ok (s.bytes.length, s.encode) ∧
      ∀ limit, s.bytes.length + 2 ≤ limit → ∃ scanned,
        sscanf limit s IntConversion.d.text (pointers .lp64) = some scanned ∧ scanned.result = 1 ∧
          scanned.stores = [⟨0, pointers .lp64 0, .int 0x80000000⟩] :=
  ⟨by decide, sscanf_sprintf .d (intMin .lp64) (by decide)⟩

/-- `atol` gives back every number that `%d` or `%ld` has printed, from
wherever in memory the string is. It reads nothing but the string. -/
theorem atol_sprintf {abi : Abi} (k : IntConversion) (hk : k.type = chr 'd')
    (args : PrintArgs abi) :
    ∃ s : CString, sprintf k.text args = .ok (s.bytes.length, s.encode) ∧
      ∀ (m : abi.Ulong → Option Byte) (limit : Nat) (n nptr : abi.Ulong), n ≠ 0 →
        Lib.Holds m nptr s.encode → s.bytes.length + 2 ≤ limit →
          atol m limit n nptr = .ok (k.value args) := by
  refine ⟨⟨k.printed args, fun c hc => (k.mem_printed args hc).2⟩, sprintf_text args k, ?_⟩
  intro m limit n nptr hn hs hlimit
  -- An `int` is printed as the `long` with the same value.
  have hlong : k.printed args = IntConversion.ld.printed ⟨fun _ => k.value args, args.strings⟩ := by
    simp only [IntConversion.printed, IntConversion.negative, IntConversion.converted,
      IntConversion.magnitude, hk]
    rfl
  rw [atol, sscanf_memory _ _ _ hs hlimit, ok_bind,
    show longFormat = IntConversion.ld.text from rfl, IntConversion.ld.directives_text,
      scanList_ptr rfl hn]
  simp only [hlong, IntConversion.ld.take_printed _, if_true]
  rfl

/-- The string in a memory of its own. -/
theorem atol_sprintf_intMin : ∃ s : CString,
    sprintf IntConversion.d.text (intMin .lp64) = .ok (11, s.encode) ∧
      atol (Lib.place (0x80010000 : Abi.lp64.Ulong) s.encode) 13 0x80020000 0x80010000 =
        .ok 0xFFFFFFFF80000000 := by
  obtain ⟨s, hprint, hread⟩ := atol_sprintf .d rfl (intMin .lp64)
  obtain ⟨text, hrun, htext⟩ : ∃ l, sprintf IntConversion.d.text (intMin .lp64) = .ok (11, l) ∧
    l.length = 12 := ⟨_, rfl, rfl⟩
  obtain ⟨hlen, rfl⟩ := Prod.mk.inj (Except.ok.inj (hprint.symm.trans hrun))
  refine ⟨s, hrun, hread _ _ _ _ (by decide) (Lib.holds_place ?_) (by omega)⟩
  rw [htext]
  decide

end Xinu
