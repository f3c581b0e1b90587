import Xinu.Proofs.Print.Layout

/-!
# `Xinu.Proofs.Print.Conversions`: what the conversions print

`doprntFrom` is `_doprnt` at some place of its format. A conversion there
prints one text, and `_doprnt` goes on after the specifier
(`prints_iff`). For the integers it is the documented text
(`prints_integer`). Characters and strings take part in the padding with
zeroes, which is meant for numbers, and a character goes through a string
that its `NUL` or the precision may end (`prints_text_iff`).
-/

namespace Xinu

open List

/-! ### A conversion inside a format -/

/-- `_doprnt` from a place in its format on, with an iteration for each
character that is left. -/
def doprntFrom {σ : Type} (putc : Putc σ) {abi : Abi} (args : PrintArgs abi) (f : List Byte)
    (arg : Nat) (p : Printing σ) : Except (PrintStop σ) (Printing σ) :=
  doprntLoop putc args (f.length + 1) f arg p

section Prints
variable {abi : Abi} (args : PrintArgs abi) (arg : Nat)

theorem doprntFrom_eq {σ : Type} (putc : Putc σ) (f : List Byte) :
    doprntFrom putc args f arg = putChars putc (formatText args (f.length + 1) f arg) :=
  funext fun p => doprntLoop_eq args putc _ f arg p (Nat.lt_succ_self _)

/-- Whatever the output function does, the conversion in front of `f`
gives it this text, and the format goes on with `f` and the argument
after those of the conversion. -/
def Prints (spec : ConvSpec) (type : Byte) (f text : List Byte) : Prop :=
  ∀ (σ : Type) (putc : Putc σ) (p : Printing σ),
    doprntFrom putc args (chr '%' :: (spec.text ++ type :: f)) arg p =
      putChars putc text p >>= doprntFrom putc args f (spec.valueArg arg + 1)

/-- A specification cannot be taken for the second character of `%%`. -/
theorem peek_text_ne_percent (spec : ConvSpec) {c : Byte} (hc : c ∈ specifiers) (f : List Byte) :
    peek (spec.text ++ c :: f) ≠ chr '%' := by
  have hdecimal : ∀ b, isDecimal b = true → b ≠ chr '%' := by
    intro b hb h
    rw [h] at hb
    exact absurd hb (by decide)
  have hwidth : ∀ b ∈ spec.width.text, b ≠ chr '%' := by
    cases h : spec.width with
    | digits l => exact fun b hb => hdecimal b ((spec.widthDigits l h).1 b hb)
    | star => decide
  have hprec : ∀ b ∈ spec.prec.text, b ≠ chr '%' := by
    cases h : spec.prec with
    | omitted => exact fun b hb => absurd hb not_mem_nil
    | digits l =>
      intro b hb
      rcases mem_cons.mp hb with rfl | hb
      · decide
      · exact hdecimal b (spec.precDigits l h b hb)
    | star => decide
  have hsize : ∀ b ∈ spec.size.text, b ≠ chr '%' := by
    cases spec.size <;> decide
  have htext : ∀ b ∈ spec.text ++ [c], b ≠ chr '%' := by
    intro b hb
    simp only [ConvSpec.text, mem_append, mem_singleton] at hb
    rcases hb with (hb | hb | hb | hb) | rfl
    · rcases spec.isFlag b hb with rfl | rfl
      · decide
      · decide
    · exact hwidth b hb
    · exact hprec b hb
    · exact hsize b hb
    · revert b
      decide
  have hmem : peek (spec.text ++ c :: f) ∈ spec.text ++ [c] := by
    cases spec.text with
    | nil => exact mem_singleton_self c
    | cons b l => exact mem_cons_self
  exact htext _ hmem

variable {args arg}

/-- The text of a conversion is the text of its field. -/
theorem prints_iff {spec : ConvSpec} {c : Byte} (hc : c ∈ specifiers) {f text : List Byte}
    {field : PrintField} {conv : Converted}
    (hspec : printSpec args arg (spec.text ++ c :: f) =
      (some (field, .ok conv), spec.valueArg arg + 1, f)) :
    Prints args arg spec c f text ↔ fieldText field conv = text := by
  have hfrom : ∀ (σ : Type) (putc : Putc σ) (p : Printing σ),
      doprntFrom putc args (chr '%' :: (spec.text ++ c :: f)) arg p =
        putChars putc (fieldText field conv) p >>=
          doprntFrom putc args f (spec.valueArg arg + 1) := by
    intro σ putc p
    have hlen : f.length < (spec.text ++ c :: f).length + 1 := by
      rw [length_append, length_cons]
      omega
    rw [doprntFrom_eq, length_cons, formatText,
      if_pos ⟨rfl, peek_text_ne_percent spec hc f⟩, hspec, doprntFrom_eq,
      formatText_congr args _ _ f _ (Nat.lt_succ_self _) hlen]
    exact congrFun (putChars_append putc _ _) p
  constructor
  · intro h
    -- With `sprntf` the text can be read off the string.
    have hout := (hfrom _ sprntf ⟨0, []⟩).symm.trans (h _ sprntf ⟨0, []⟩)
    have hput : ∀ l rest : List Byte, putChars sprntf l ⟨0, []⟩ >>= putChars sprntf rest =
        .ok ⟨0 + BitVec.ofNat 32 (l ++ rest).length, l ++ rest⟩ := by
      intro l rest
      rw [← congrFun (putChars_append sprntf l rest), putChars_eq, feed_sprntf]
      rfl
    rw [doprntFrom_eq, hput, hput] at hout
    exact append_cancel_right (congrArg Printing.out (Except.ok.inj hout))
  · intro h σ putc p
    rw [← h]
    exact hfrom σ putc p

end Prints

/-! ### Integers -/

/-- The conversions of integers. -/
inductive IntSpecifier where
  | d
  | u
  | o
  | x
  | X
  | b

namespace IntSpecifier
variable (k : IntSpecifier)

def char : Byte :=
  match k with
  | .d => chr 'd'
  | .u => chr 'u'
  | .o => chr 'o'
  | .x => chr 'x'
  | .X => chr 'X'
  | .b => chr 'b'

def base : Nat :=
  match k with
  | .d | .u => 10
  | .o => 8
  | .x | .X => 16
  | .b => 2

/-- The digits of `X` are upper case. -/
def digits : List Byte :=
  match k with
  | .X => digitsUc
  | _ => digitsLc

variable {abi : Abi} (args : PrintArgs abi)

/-- The argument, which `d` takes as signed and the others as unsigned.
With a modifier `h` or `hh` an `int` was passed. -/
def value (size : PrintSize) (arg : Nat) : Int :=
  match k with
  | .d => if size = .long then (args.ap arg).toInt else (args.int arg).toInt
  | _ => if size = .long then (args.ap arg).toNat else (args.int arg).toNat

def sign (size : PrintSize) (arg : Nat) : List Byte :=
  if k.value args size arg < 0 then [chr '-'] else []

/-- The numeral of the absolute value. -/
def magnitude (size : PrintSize) (arg : Nat) : List Byte :=
  numeral k.digits k.base (k.value args size arg).natAbs

theorem char_mem : k.char ∈ specifiers := by
  cases k <;> decide

theorem one_lt_base : 1 < k.base := by
  cases k <;> decide

theorem slt_zero_eq_msb {w : Nat} (v : BitVec w) : v.slt 0 = v.msb := by
  rw [BitVec.slt, BitVec.msb_eq_toInt]
  simp

/-- A negative `long` is negated as an unsigned one. That also gives the
absolute value of the most negative one. -/
theorem toNat_abs {w : Nat} (v : BitVec w) :
    (if v.slt 0 then -v else v).toNat = v.toInt.natAbs := by
  have hlt := v.isLt
  rw [slt_zero_eq_msb, BitVec.toInt_eq_msb_cond]
  cases hmsb : v.msb with
  | true =>
    have hpos : 0 < v.toNat := by
      rcases Nat.eq_zero_or_pos v.toNat with h | h
      · rw [BitVec.msb_eq_decide, h] at hmsb
        simp at hmsb
      · exact h
    rw [if_pos rfl, if_pos rfl, BitVec.toNat_neg, Nat.mod_eq_of_lt (by omega)]
    omega
  | false =>
    rw [if_neg Bool.false_ne_true, if_neg Bool.false_ne_true]
    rfl

/-- The conversion of an argument. -/
def converted (size : PrintSize) (arg : Nat) : Converted where
  str := k.magnitude args size arg
  base := k.base
  sign := k.value args size arg < 0

theorem printSigned_value (size : PrintSize) (arg : Nat) :
    printSigned args size arg = .ok (IntSpecifier.d.converted args size arg) := by
  have hbits : 32 ≤ abi.bits := by cases abi <;> decide
  have hvalue : (if size = .long then args.ap arg else (args.int arg).signExtend abi.bits).toInt =
      IntSpecifier.d.value args size arg := by
    by_cases hsize : size = .long
    · rw [if_pos hsize, value, if_pos hsize]
    · rw [if_neg hsize, value, if_neg hsize, BitVec.toInt_signExtend_of_le hbits]
  rw [printSigned_eq]
  generalize (if size = .long then args.ap arg else (args.int arg).signExtend abi.bits) = larg
    at hvalue ⊢
  show Except.ok (Converted.mk (numeral digitsLc 10 (if larg.slt 0 then -larg else larg).toNat) 10
    (larg.slt 0)) = .ok ⟨numeral digitsLc 10 _, 10, _⟩
  have hzero : (0 : abi.Ulong).toInt = 0 := BitVec.toInt_zero
  rw [toNat_abs, hvalue, BitVec.slt, hvalue, hzero]

/-- The label `handle_unsigned`, for one of the other specifiers. -/
theorem printUnsigned_value (hk : k.char ≠ chr 'd') (size : PrintSize) (arg : Nat)
    {altDigits : Bool} (hdigits : (if altDigits then digitsUc else digitsLc) = k.digits) :
    printUnsigned args k.base altDigits size arg = .ok (k.converted args size arg) := by
  have hbits : 32 ≤ abi.bits := by cases abi <;> decide
  have hbase : k.base ∈ [2, 8, 10, 16] := by cases k <;> decide
  have hvalue : k.value args size arg =
      (if size = .long then args.ap arg else (args.int arg).setWidth abi.bits).toNat := by
    have hdef : k.value args size arg =
        (if size = .long then (args.ap arg).toNat else (args.int arg).toNat : Int) := by
      cases k with
      | d => exact absurd rfl hk
      | u | o | x | X | b => rfl
    rw [hdef]
    split
    · rfl
    · rw [BitVec.toNat_setWidth, Nat.mod_eq_of_lt
        (Nat.lt_of_lt_of_le (args.int arg).isLt (Nat.pow_le_pow_right (by decide) hbits))]
  rw [printUnsigned_eq args hbase, hdigits]
  generalize (if size = .long then args.ap arg else (args.int arg).setWidth abi.bits) = ularg
    at hvalue ⊢
  have hsign : decide (k.value args size arg < 0) = false := by
    rw [hvalue]
    exact decide_eq_false (by omega)
  rw [converted, magnitude, hsign, hvalue]
  rfl

theorem printConversion_eq (size : PrintSize) (arg : Nat) :
    printConversion args size arg k.char = some (.ok (k.converted args size arg)) := by
  cases k with
  | d => exact congrArg some (printSigned_value args size arg)
  | u => exact congrArg some (printUnsigned_value .u args (by decide) size arg rfl)
  | o => exact congrArg some (printUnsigned_value .o args (by decide) size arg rfl)
  | x => exact congrArg some (printUnsigned_value .x args (by decide) size arg rfl)
  | X => exact congrArg some (printUnsigned_value .X args (by decide) size arg rfl)
  | b => exact congrArg some (printUnsigned_value .b args (by decide) size arg rfl)

theorem natAbs_lt {w : Nat} (v : BitVec w) (hw : w ≤ 64) : v.toInt.natAbs < 2 ^ 64 := by
  rw [← toNat_abs]
  exact Nat.lt_of_lt_of_le (BitVec.isLt _) (Nat.pow_le_pow_right (by decide) hw)

/-- No value has more digits than a `long` has bits. -/
theorem length_magnitude_le (size : PrintSize) (arg : Nat) :
    (k.magnitude args size arg).length ≤ 64 := by
  have hbits : abi.bits ≤ 64 := by cases abi <;> decide
  have hpow : ∀ {w : Nat} (v : BitVec w), w ≤ 64 → v.toNat < 2 ^ 64 := fun v hw =>
    Nat.lt_of_lt_of_le v.isLt (Nat.pow_le_pow_right (by decide) hw)
  have hvalue : (k.value args size arg).natAbs < 2 ^ 64 := by
    cases k with
    | d =>
      rw [value]
      split
      · exact natAbs_lt _ hbits
      · exact natAbs_lt _ (by decide)
    | u | o | x | X | b =>
      show (if size = .long then (args.ap arg).toNat else (args.int arg).toNat : Int).natAbs < _
      split
      · exact hpow (args.ap arg) hbits
      · exact hpow (args.int arg) (by decide)
  rw [magnitude, length_numeral]
  exact length_figures_le k.one_lt_base (by decide)
    (Nat.lt_of_lt_of_le hvalue (Nat.pow_le_pow_left k.one_lt_base 64))

end IntSpecifier

section Integer
variable {abi : Abi} (args : PrintArgs abi) (arg : Nat)

/-- A conversion of an integer prints the documented text, whose length is
the field width unless the number needs more. -/
theorem prints_integer (spec : ConvSpec) (k : IntSpecifier) (f : List Byte)
    (hwidth : (spec.layout args arg).width < 2 ^ 31)
    (hprec : ∀ n, (spec.layout args arg).prec = some n → n < 2 ^ 31) :
    let layout := spec.layout args arg
    let sign := k.sign args spec.size (spec.valueArg arg)
    let magnitude := k.magnitude args spec.size (spec.valueArg arg)
    Prints args arg spec k.char f (layout.number sign magnitude) ∧
      (layout.number sign magnitude).length =
        max layout.width (sign ++ layout.digits magnitude).length := by
  intro layout sign magnitude
  refine ⟨?_, layout.length_number sign magnitude⟩
  have hbase : (k.converted args spec.size (spec.valueArg arg)).base ≠ 0 :=
    Nat.ne_of_gt (Nat.lt_of_succ_lt k.one_lt_base)
  have hsign : (if (k.converted args spec.size (spec.valueArg arg)).sign then [chr '-'] else []) =
      sign := by
    rw [IntSpecifier.converted]
    simp only [decide_eq_true_eq]
    rfl
  rw [prints_iff k.char_mem (printSpec_text args arg spec k.char_mem f
      (k.printConversion_eq args spec.size (spec.valueArg arg))),
    (realizes_layout args arg spec hwidth hprec).fieldText_number _ hbase
      (k.length_magnitude_le args spec.size (spec.valueArg arg)), hsign]
  rfl

/-- `-5.3`. -/
def leftFive : ConvSpec where
  flags := [chr '-']
  width := .digits [chr '5']
  prec := .digits [chr '3']
  size := .regular
  isFlag := by decide
  widthDigits := by
    rintro l ⟨⟩
    decide
  precDigits := by
    rintro l ⟨⟩
    decide

/-- The number -7, and no strings. -/
def minusSeven (abi : Abi) : PrintArgs abi := ⟨fun _ => -7, fun _ => ⟨[], CString.nonzero_nil⟩⟩

theorem prints_integer_leftFive :
    let layout := leftFive.layout (minusSeven .lp64) 0
    layout.width < 2 ^ 31 ∧ (∀ n, layout.prec = some n → n < 2 ^ 31) ∧
      Prints (minusSeven .lp64) 0 leftFive (chr 'd') [] ("-007 ".toList.map chr) :=
  ⟨by decide, by rintro n ⟨⟩; decide,
    (prints_integer (minusSeven .lp64) 0 leftFive .d [] (by decide) (by rintro n ⟨⟩; decide)).1⟩

end Integer

/-! ### Characters and strings -/

section Text
variable {abi : Abi} (args : PrintArgs abi) (arg : Nat)

/-- The argument of `%c`. -/
def PrintArgs.character : Byte := (args.int arg).setWidth 8

/-- The argument of `%s`. -/
def PrintArgs.string : List Byte :=
  if args.ap arg = 0 then "(null)".toList.map chr else (args.strings (args.ap arg)).bytes

end Text

namespace PrintLayout
variable (layout : PrintLayout)

/-- The padding is on the left, and the `0` flag is given. -/
def ZeroFill : Prop := layout.left = false ∧ layout.zero = true

instance : Decidable layout.ZeroFill := inferInstanceAs (Decidable (_ ∧ _))

/-- What is printed of a text: zeroes take the place of the spaces. -/
def filled (text : List Byte) : List Byte :=
  if layout.ZeroFill then List.replicate (layout.width - text.length) (chr '0') ++ text
  else layout.chars text

theorem chars_of_zeroFill (h : layout.ZeroFill) (text : List Byte) :
    layout.chars text = List.replicate (layout.width - text.length) (chr ' ') ++ text := by
  rw [chars, h.1]
  rfl

theorem filled_eq_chars_iff (text : List Byte) :
    layout.filled text = layout.chars text ↔ ¬(layout.ZeroFill ∧ text.length < layout.width) := by
  by_cases hfill : layout.ZeroFill
  · have hzero : chr '0' ≠ chr ' ' := by decide
    rw [filled, if_pos hfill, layout.chars_of_zeroFill hfill, append_left_inj,
      replicate_inj]
    simp only [true_and, hzero, or_false, hfill]
    omega
  · rw [filled, if_neg hfill]
    exact iff_of_true rfl fun h => hfill h.1

/-- When a character is printed as documented. It is lost if it is `NUL`
or the precision is zero, and the padding of the empty field may then
look the same. -/
def CharFits (c : Byte) : Prop :=
  if c = 0 ∨ layout.prec = some 0 then
    if layout.ZeroFill then layout.width = 1 ∧ c = chr '0' else 0 < layout.width ∧ c = chr ' '
  else layout.ZeroFill → layout.width ≤ 1

instance : DecidablePred layout.CharFits := fun _ => by
  unfold CharFits
  infer_instance

/-- An empty field and a field with one character. -/
theorem filled_nil_iff (c : Byte) : layout.filled [] = layout.chars [c] ↔
    if layout.ZeroFill then layout.width = 1 ∧ c = chr '0' else 0 < layout.width ∧ c = chr ' ' := by
  by_cases hfill : layout.ZeroFill
  · have hzero : chr '0' ≠ chr ' ' := by decide
    rw [filled, if_pos hfill, if_pos hfill, layout.chars_of_zeroFill hfill]
    match layout.width with
    | 0 => simp
    | 1 => simp [eq_comm]
    | w + 2 => simp [replicate_succ, hzero]
  · rw [filled, if_neg hfill, if_neg hfill, chars, chars]
    cases layout.width with
    | zero => simp
    | succ w =>
      cases layout.left with
      | true => simp [replicate_succ, eq_comm]
      | false => simp [replicate_succ', eq_comm]

theorem cut_character (c : Byte) : layout.cut ([c].takeWhile (· ≠ 0)) =
    if c = 0 ∨ layout.prec = some 0 then [] else [c] := by
  by_cases hc : c = 0
  · rw [if_pos (Or.inl hc), hc, cut]
    cases layout.prec <;> simp
  · have htake : [c].takeWhile (· ≠ 0) = [c] := takeWhile_cons_of_pos (decide_eq_true hc)
    rw [htake, cut]
    cases layout.prec with
    | none => exact (if_neg fun h => h.elim hc (by simp)).symm
    | some n =>
      cases n with
      | zero => exact (if_pos (Or.inr rfl)).symm
      | succ n =>
        have hne : ¬(c = 0 ∨ some (n + 1) = some 0) := fun h => h.elim hc (by simp)
        rw [if_neg hne]
        exact take_of_length_le (Nat.le_add_left 1 n)

theorem filled_character_iff (c : Byte) :
    layout.filled (layout.cut ([c].takeWhile (· ≠ 0))) = layout.chars [c] ↔ layout.CharFits c := by
  rw [cut_character, CharFits]
  by_cases hlost : c = 0 ∨ layout.prec = some 0
  · rw [if_pos hlost, if_pos hlost]
    exact layout.filled_nil_iff c
  · rw [if_neg hlost, if_neg hlost, layout.filled_eq_chars_iff, not_and]
    simp only [length_singleton, Nat.not_lt]

/-- When a string is printed as documented. -/
def StringFits (str : List Byte) : Prop :=
  str.length < 2 ^ 31 ∧ ¬(layout.ZeroFill ∧ (layout.cut str).length < layout.width)

end PrintLayout

section Text
variable {field : PrintField} {layout : PrintLayout} (hrealizes : Realizes field layout)
  (conv : Converted) (hbase : conv.base = 0) (hsign : conv.sign = false)
include hrealizes hbase hsign

/-- No length makes a field longer than an `int` can count. -/
theorem Realizes.length_fieldText_lt : (fieldText field conv).length < 2 ^ 31 := by
  have hzeroes : field.precZeroes conv = 0 := if_neg fun h => h.2.1 hbase
  have hwidth := hrealizes.width_lt
  have hroomlt : (field.room conv).toInt.toNat < 2 ^ 31 := by
    have hint := toInt_cases (field.room conv)
    omega
  have hint := toInt_cases (field.lenStr conv)
  -- A length that counts as negative prints nothing of the string.
  have hsum : (field.room conv).toInt.toNat + (field.lenStr conv).toInt.toNat < 2 ^ 31 := by
    by_cases hneg : (field.lenStr conv).toNat < 2 ^ 31
    · have hroom := hrealizes.toNat_room conv (n := (field.lenStr conv).toNat) (by omega) (by
        rw [hzeroes, hsign]
        rfl)
      omega
    · omega
  have htake : (conv.str.take (field.lenStr conv).toInt.toNat).length ≤
      (field.lenStr conv).toInt.toNat := length_take_le _ _
  have hempty : (0 : BitVec 32).toInt.toNat = 0 := rfl
  rw [fieldText, PrintField.padding, PrintField.zeroes, hzeroes, hsign]
  by_cases hzeroed : field.Zeroed conv
  · simp only [hzeroed, if_true, hempty, replicate_zero, ite_self, Bool.false_eq_true,
      if_false, length_append, length_nil, length_replicate]
    omega
  · simp only [hzeroed, if_false, hempty, replicate_zero, Bool.false_eq_true, nil_append,
      length_append]
    cases field.leftjust with
    | true =>
      rw [if_pos rfl, if_pos rfl, length_replicate, length_nil]
      omega
    | false =>
      rw [if_neg Bool.false_ne_true, if_neg Bool.false_ne_true, length_replicate,
        length_nil]
      omega

end Text

section Text
variable {abi : Abi} (args : PrintArgs abi) (arg : Nat)

/-- Characters and strings are printed as documented exactly where the
`0` flag, a `NUL` and the precision of a character do not interfere. A
string that is longer than an `int` can count comes out too short, unless a
precision cuts it. -/
theorem prints_text_iff (spec : ConvSpec) (f : List Byte)
    (hwidth : (spec.layout args arg).width < 2 ^ 31)
    (hprec : ∀ n, (spec.layout args arg).prec = some n → n < 2 ^ 31) :
    let layout := spec.layout args arg
    let c := args.character (spec.valueArg arg)
    let str := args.string (spec.valueArg arg)
    (Prints args arg spec (chr 'c') f (layout.chars [c]) ↔ layout.CharFits c) ∧
      (layout.StringFits str →
        Prints args arg spec (chr 's') f (layout.chars (layout.cut str))) ∧
      (str.length < 2 ^ 31 ∨ layout.prec = none →
        Prints args arg spec (chr 's') f (layout.chars (layout.cut str)) →
          layout.StringFits str) := by
  intro layout c str
  have hrealizes := realizes_layout args arg spec hwidth hprec
  refine ⟨?_, ?_⟩
  · have hlen : ([c].takeWhile (· ≠ 0)).length < 2 ^ 31 :=
      Nat.lt_of_le_of_lt (takeWhile_sublist _).length_le (by decide : 1 < 2 ^ 31)
    rw [prints_iff (by decide) (printSpec_text args arg spec (c := chr 'c') (by decide) f rfl),
      hrealizes.fieldText_chars _ rfl hlen rfl]
    exact layout.filled_character_iff c
  · rw [prints_iff (by decide) (printSpec_text args arg spec (c := chr 's') (by decide) f rfl)]
    constructor
    · intro hfits
      rw [hrealizes.fieldText_chars _ rfl hfits.1 rfl]
      exact (layout.filled_eq_chars_iff _).mpr hfits.2
    · intro hdomain htext
      by_cases hlen : str.length < 2 ^ 31
      · rw [hrealizes.fieldText_chars _ rfl hlen rfl] at htext
        exact ⟨hlen, (layout.filled_eq_chars_iff _).mp htext⟩
      · -- The whole string would be printed, and that is too long.
        have hcut : layout.cut str = str := by
          rw [PrintLayout.cut, hdomain.resolve_left hlen]
        have hshort : (layout.chars (layout.cut str)).length < 2 ^ 31 := by
          rw [← htext]
          exact hrealizes.length_fieldText_lt _ rfl rfl
        rw [PrintLayout.length_chars, hcut] at hshort
        omega

/-- `3` or `03`. -/
def widthThree (zero : Bool) : ConvSpec where
  flags := if zero then [chr '0'] else []
  width := .digits [chr '3']
  prec := .omitted
  size := .regular
  isFlag := by
    cases zero <;> decide
  widthDigits := by
    rintro l ⟨⟩
    decide
  precDigits := nofun

/-- The character `x`, and no strings. -/
def letterX (abi : Abi) : PrintArgs abi := ⟨fun _ => 0x78, fun _ => ⟨[], CString.nonzero_nil⟩⟩

/-- `%3c` is padded with spaces, as documented, and `%03c` is not. -/
theorem prints_text_widthThree :
    let text := [chr ' ', chr ' ', chr 'x']
    (∀ zero, ((widthThree zero).layout (letterX .lp64) 0).chars [chr 'x'] = text) ∧
      Prints (letterX .lp64) 0 (widthThree false) (chr 'c') [] text ∧
      ¬Prints (letterX .lp64) 0 (widthThree true) (chr 'c') [] text := by
  refine ⟨by decide, ?_, ?_⟩
  · exact (prints_text_iff (letterX .lp64) 0 (widthThree false) [] (by decide) nofun).1.mpr
      (by decide)
  · intro hprints
    exact absurd ((prints_text_iff (letterX .lp64) 0 (widthThree true) [] (by decide) nofun).1.mp
      hprints) (by decide)

/-- `%03c` is padded with zeroes, and not with spaces. -/
theorem sprintf_zeroThree :
    sprintf ⟨chr '%' :: ((widthThree true).text ++ [chr 'c']), by decide⟩ (letterX .lp64) =
        .ok (3, [chr '0', chr '0', chr 'x', 0]) ∧
      ((widthThree true).layout (letterX .lp64) 0).chars [chr 'x'] =
        [chr ' ', chr ' ', chr 'x'] :=
  ⟨rfl, rfl⟩

end Text

end Xinu
