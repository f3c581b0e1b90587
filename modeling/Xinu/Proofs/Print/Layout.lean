import Xinu.Proofs.Print.Output

/-!
# `Xinu.Proofs.Print.Layout`: a specification and its field

The first half reads a specification: every `ConvSpec` is taken apart into
its parts again, whatever follows its specifier (`printSpec_text`). The
second half is about the lengths of a field. `_doprnt` computes them in
32-bit words, one of which may overflow, and the results are those of the
natural numbers (`toNat_room`).
-/

namespace Xinu

open List BitVec

/-! ### Reading a specification -/

/-- The flags end at a character that is none. -/
theorem printFlags_append {fl g : List Byte} (hflag : ∀ c ∈ fl, c = chr '-' ∨ c = chr '0')
    (hg : peek g ≠ chr '-' ∧ peek g ≠ chr '0') : ∀ left padChar,
    printFlags left padChar (fl ++ g) =
      (left || decide (chr '-' ∈ fl), if chr '0' ∈ fl then chr '0' else padChar, g) := by
  induction fl with
  | nil =>
    intro left padChar
    cases g with
    | nil => simp [printFlags]
    | cons c g =>
      have hc : c ≠ chr '-' ∧ c ≠ chr '0' := hg
      rw [nil_append, printFlags, if_neg hc.1, if_neg hc.2]
      simp
  | cons c fl ih =>
    intro left padChar
    have hrest := ih fun d hd => hflag d (mem_cons_of_mem c hd)
    have hdiff : chr '0' ≠ chr '-' := by decide
    rw [List.cons_append, printFlags]
    rcases hflag c mem_cons_self with rfl | rfl
    · rw [if_pos rfl, hrest]
      simp [hdiff]
    · rw [if_neg hdiff, if_pos rfl, hrest]
      simp [hdiff.symm]

/-- The digits of a width or a precision end at a character that is
none. -/
theorem printDigits_append {l g : List Byte} (hl : ∀ c ∈ l, isDecimal c = true)
    (hg : isDecimal (peek g) = false) : ∀ n : Nat,
    printDigits (BitVec.ofNat 32 n) (l ++ g) =
      (BitVec.ofNat 32 (l.foldl (fun n c => n * 10 + (c.toNat - 48)) n), g) := by
  induction l with
  | nil =>
    intro n
    cases g with
    | nil => rfl
    | cons c g =>
      have hc : ¬(chr '0' ≤ c ∧ c ≤ chr '9') := of_decide_eq_false hg
      rw [nil_append, printDigits, if_neg hc]
      rfl
  | cons c l ih =>
    intro n
    have hc : chr '0' ≤ c ∧ c ≤ chr '9' := of_decide_eq_true (hl c mem_cons_self)
    -- `c - '0'` is not negative for a digit.
    have hdigit : c.setWidth 32 - (chr '0').setWidth 32 = BitVec.ofNat 32 (c.toNat - 48) := by
      have hle : (chr '0').toNat ≤ c.toNat := hc.1
      have hzero : ((chr '0').setWidth 32 : BitVec 32).toNat = 48 := rfl
      have hwidth : (c.setWidth 32 : BitVec 32).toNat = c.toNat := by
        rw [toNat_setWidth, Nat.mod_eq_of_lt (Nat.lt_trans c.isLt (by decide))]
      have hlt := c.isLt
      apply eq_of_toNat_eq
      rw [toNat_sub, hwidth, hzero, toNat_ofNat]
      have hchr : (chr '0').toNat = 48 := rfl
      omega
    rw [List.cons_append, printDigits, if_pos hc, hdigit,
      show BitVec.ofNat 32 n * 10 + BitVec.ofNat 32 (c.toNat - 48) =
        BitVec.ofNat 32 (n * 10 + (c.toNat - 48)) by rw [ofNat_add, ofNat_mul]; rfl,
      ih fun d hd => hl d (mem_cons_of_mem c hd)]
    rfl

/-- Digits do not start with a `*`. -/
theorem peek_append_ne_star {l g : List Byte} (hl : ∀ c ∈ l, isDecimal c = true)
    (hg : peek g ≠ chr '*') : peek (l ++ g) ≠ chr '*' := by
  cases l with
  | nil => exact hg
  | cons c l =>
    intro h
    have hc := hl c mem_cons_self
    rw [show c = chr '*' from h] at hc
    exact absurd hc (by decide)

/-- What follows the digits of a width or a precision. -/
structure Ends (g : List Byte) : Prop where
  minus : peek g ≠ chr '-'
  decimal : isDecimal (peek g) = false
  star : peek g ≠ chr '*'
  dot : peek g ≠ chr '.'

theorem ends_size (size : PrintSize) {c : Byte} (hc : c ∈ specifiers) (f : List Byte) :
    Ends (size.text ++ c :: f) := by
  have hpeek : peek (size.text ++ c :: f) ∈ [chr 'h', chr 'l'] ++ specifiers := by
    cases size with
    | shortShort => exact mem_append_left _ (by decide : chr 'h' ∈ [chr 'h', chr 'l'])
    | short => exact mem_append_left _ (by decide : chr 'h' ∈ [chr 'h', chr 'l'])
    | regular => exact mem_append_right _ hc
    | long => exact mem_append_left _ (by decide : chr 'l' ∈ [chr 'h', chr 'l'])
  have hall : ∀ b ∈ [chr 'h', chr 'l'] ++ specifiers,
      b ≠ chr '-' ∧ isDecimal b = false ∧ b ≠ chr '*' ∧ b ≠ chr '.' := by decide +kernel
  have h := hall _ hpeek
  exact ⟨h.1, h.2.1, h.2.2.1, h.2.2.2⟩

theorem printSize_text (size : PrintSize) {c : Byte} (hc : c ∈ specifiers) (f : List Byte) :
    printSize (size.text ++ c :: f) = (size, c :: f) := by
  have hmod : c ≠ chr 'l' ∧ c ≠ chr 'h' := by
    revert c
    decide
  have hlong : ∀ l, printSize (chr 'l' :: l) = (.long, l) := fun l => if_pos rfl
  have hshort : ∀ l, printSize (chr 'h' :: l) =
      if peek l = chr 'h' then (.shortShort, l.tail) else (.short, l) := fun l =>
    (if_neg (show chr 'h' ≠ chr 'l' by decide)).trans (if_pos rfl)
  cases size with
  | shortShort => exact (hshort _).trans (if_pos rfl)
  | short => exact (hshort _).trans (if_neg hmod.2)
  | regular => exact (if_neg hmod.1).trans (if_neg hmod.2)
  | long => exact hlong _

section Spec
variable {abi : Abi} (args : PrintArgs abi) (arg : Nat)

/-- The precision as a word. -/
def PrecText.word : PrecText → BitVec 32
  | omitted => -1
  | digits l => BitVec.ofNat 32 (decimalValue l)
  | star => args.int arg

/-- The width as a word, without its sign. -/
def WidthText.word : WidthText → BitVec 32
  | digits l => BitVec.ofNat 32 (decimalValue l)
  | star => if (args.int arg).slt 0 then -args.int arg else args.int arg

theorem printPrec_text (prec : PrecText)
    (hdigits : ∀ l, prec = .digits l → ∀ c ∈ l, isDecimal c = true) {g : List Byte} (hg : Ends g) :
    printPrec args arg (prec.text ++ g) = (prec.word args arg, arg + prec.count, g) := by
  have hdot : ∀ l, printPrec args arg (chr '.' :: l) =
      if peek l = chr '*' then (args.int arg, arg + 1, l.tail)
      else ((printDigits 0 l).1, arg, (printDigits 0 l).2) := fun l => if_pos rfl
  cases prec with
  | omitted => exact if_neg hg.dot
  | star => exact (hdot _).trans (if_pos rfl)
  | digits l =>
    have hread := printDigits_append (hdigits l rfl) hg.decimal 0
    have hstar := peek_append_ne_star (hdigits l rfl) hg.star
    show printPrec args arg (chr '.' :: (l ++ g)) = _
    rw [hdot, if_neg hstar, show printDigits 0 (l ++ g) = _ from hread]
    rfl

theorem printWidth_text (width : WidthText) (left : Bool)
    (hdigits : ∀ l, width = .digits l → ∀ c ∈ l, isDecimal c = true) {g : List Byte}
    (hstar : peek g ≠ chr '*') (hdecimal : isDecimal (peek g) = false) :
    printWidth args arg left (width.text ++ g) =
      (width.word args arg, left || decide (width.value args arg < 0), arg + width.count, g) := by
  cases width with
  | star =>
    have hread : printWidth args arg left (chr '*' :: g) =
        if (args.int arg).slt 0 then (-args.int arg, true, arg + 1, g)
        else (args.int arg, left, arg + 1, g) := if_pos rfl
    have hneg : (args.int arg).slt 0 = decide ((args.int arg).toInt < 0) := by
      rw [BitVec.slt]
      rfl
    show printWidth args arg left (chr '*' :: g) = _
    rw [hread, WidthText.word, WidthText.value, WidthText.count, ← hneg]
    cases (args.int arg).slt 0 with
    | true => simp
    | false => simp
  | digits l =>
    have hread := printDigits_append (hdigits l rfl) hdecimal 0
    have hpeek := peek_append_ne_star (hdigits l rfl) hstar
    have hnonneg : ¬((decimalValue l : Int) < 0) := by omega
    show printWidth args arg left (l ++ g) = _
    rw [printWidth, if_neg hpeek, show printDigits 0 (l ++ g) = _ from hread, WidthText.value,
      decide_eq_false hnonneg, Bool.or_false]
    rfl

/-- After the width comes a point, or what ends a precision. -/
theorem peek_prec (prec : PrecText) (g : List Byte) :
    peek (prec.text ++ g) = chr '.' ∨ peek (prec.text ++ g) = peek g := by
  cases prec with
  | omitted => exact Or.inr rfl
  | digits l => exact Or.inl rfl
  | star => exact Or.inl rfl

/-- After the flags comes something that is none. -/
theorem peek_width (spec : ConvSpec) {g : List Byte} (hminus : peek g ≠ chr '-')
    (hdecimal : isDecimal (peek g) = false) :
    peek (spec.width.text ++ g) ≠ chr '-' ∧ peek (spec.width.text ++ g) ≠ chr '0' := by
  cases hw : spec.width with
  | star =>
    show chr '*' ≠ chr '-' ∧ chr '*' ≠ chr '0'
    decide +kernel
  | digits l =>
    obtain ⟨hall, hzero⟩ := spec.widthDigits l hw
    cases l with
    | nil =>
      refine ⟨hminus, fun h => ?_⟩
      rw [show peek g = chr '0' from h] at hdecimal
      exact absurd hdecimal (by decide)
    | cons c l =>
      refine ⟨fun h => ?_, hzero⟩
      have hc := hall c mem_cons_self
      rw [show c = chr '-' from h] at hc
      exact absurd hc (by decide)

/-- A specification is read part by part, whatever follows its
specifier. -/
theorem printSpec_text (spec : ConvSpec) {c : Byte} (hc : c ∈ specifiers) (f : List Byte)
    {conv : Except Fault Converted}
    (hconv : printConversion args spec.size (spec.valueArg arg) c = some conv) :
    printSpec args arg (spec.text ++ c :: f) =
      (some (⟨(spec.layout args arg).left,
          if (spec.layout args arg).left then chr ' '
          else if (spec.layout args arg).zero then chr '0' else chr ' ',
          spec.width.word args arg, spec.prec.word args (arg + spec.width.count)⟩, conv),
        spec.valueArg arg + 1, f) := by
  have hends := ends_size spec.size hc f
  have hprec := printPrec_text args (arg + spec.width.count) spec.prec spec.precDigits hends
  -- Neither the point nor what follows the precision is read as a width.
  have hnext : peek (spec.prec.text ++ (spec.size.text ++ c :: f)) ≠ chr '-' ∧
      peek (spec.prec.text ++ (spec.size.text ++ c :: f)) ≠ chr '*' ∧
      isDecimal (peek (spec.prec.text ++ (spec.size.text ++ c :: f))) = false := by
    rcases peek_prec spec.prec (spec.size.text ++ c :: f) with h | h
    · rw [h]
      decide +kernel
    · rw [h]
      exact ⟨hends.minus, hends.star, hends.decimal⟩
  have hwidth := printWidth_text args arg spec.width (false || decide (chr '-' ∈ spec.flags))
    (fun l hl => (spec.widthDigits l hl).1) hnext.2.1 hnext.2.2
  have hflags := printFlags_append spec.isFlag (peek_width spec hnext.1 hnext.2.2) false (chr ' ')
  have hread := (printSpec_eq args hflags hwidth hprec (printSize_text spec.size hc f)).1 conv hconv
  have htext : spec.text ++ c :: f = spec.flags ++
      (spec.width.text ++ (spec.prec.text ++ (spec.size.text ++ c :: f))) := by
    simp only [ConvSpec.text, List.append_assoc]
  have hleft : ((false || decide (chr '-' ∈ spec.flags)) ||
      decide (spec.width.value args arg < 0)) = (spec.layout args arg).left := by
    rw [Bool.false_or, ConvSpec.layout, Bool.decide_or]
  have hzero : (if chr '0' ∈ spec.flags then chr '0' else chr ' ') =
      if (spec.layout args arg).zero then chr '0' else chr ' ' := by
    rw [ConvSpec.layout]
    simp only [decide_eq_true_eq]
  rw [htext, hread, hleft, hzero]
  rfl

end Spec

/-! ### The lengths of a field -/

/-- A field of words that is what the layout asks for. -/
structure Realizes (field : PrintField) (layout : PrintLayout) : Prop where
  leftjust : field.leftjust = layout.left
  padChar : field.padChar =
    if layout.left then chr ' ' else if layout.zero then chr '0' else chr ' '
  width_lt : layout.width < 2 ^ 31
  fmin : field.fmin.toNat = layout.width
  omitted : layout.prec = none → (0 : BitVec 32).sle field.prec = false
  given : ∀ n, layout.prec = some n → n < 2 ^ 31 ∧ field.prec.toNat = n

/-- An `int` is its word, or 2^32 less. -/
theorem toInt_cases (v : BitVec 32) :
    v.toNat < 2 ^ 31 ∧ v.toInt = v.toNat ∨ 2 ^ 31 ≤ v.toNat ∧ v.toInt = v.toNat - 2 ^ 32 := by
  rw [toInt_eq_toNat_cond]
  split
  · exact Or.inl ⟨by omega, rfl⟩
  · exact Or.inr ⟨by omega, rfl⟩

theorem sle_zero_eq (v : BitVec 32) : (0 : BitVec 32).sle v = decide (v.toNat < 2 ^ 31) := by
  have hv := v.isLt
  have hint := toInt_cases v
  show decide ((0 : Int) ≤ v.toInt) = _
  exact decide_eq_decide.mpr (by omega)

theorem slt_zero_eq (v : BitVec 32) : v.slt 0 = decide (v.toInt < 0) := rfl

section Words
variable {abi : Abi} (args : PrintArgs abi) (arg : Nat)

/-- The absolute value of a width is its negation or itself. -/
theorem WidthText.toNat_word (width : WidthText)
    (h : (width.value args arg).natAbs < 2 ^ 31) :
    (width.word args arg).toNat = (width.value args arg).natAbs := by
  cases width with
  | digits l =>
    rw [WidthText.value, Int.natAbs_natCast] at h ⊢
    rw [WidthText.word, toNat_ofNat, Nat.mod_eq_of_lt (by omega)]
  | star =>
    have hv := (args.int arg).isLt
    have hint := toInt_cases (args.int arg)
    rw [WidthText.value] at h ⊢
    rw [WidthText.word, slt_zero_eq]
    by_cases hneg : (args.int arg).toInt < 0
    · rw [if_pos (decide_eq_true hneg), toNat_neg]
      omega
    · rw [if_neg (by rw [decide_eq_false hneg]; decide)]
      omega

/-- A precision that counts as omitted is a negative word. -/
theorem PrecText.sle_word (prec : PrecText) (h : prec.value args arg = none) :
    (0 : BitVec 32).sle (prec.word args arg) = false := by
  cases prec with
  | omitted => rfl
  | digits l => cases h
  | star =>
    have hv := (args.int arg).isLt
    have hint := toInt_cases (args.int arg)
    rw [PrecText.value] at h
    split at h
    · rw [PrecText.word, sle_zero_eq]
      exact decide_eq_false (by omega)
    · cases h

theorem PrecText.toNat_word (prec : PrecText) {n : Nat} (h : prec.value args arg = some n)
    (hn : n < 2 ^ 31) : (prec.word args arg).toNat = n := by
  cases prec with
  | omitted => cases h
  | digits l =>
    rw [PrecText.value, Option.some_inj] at h
    rw [PrecText.word, toNat_ofNat, h, Nat.mod_eq_of_lt (by omega)]
  | star =>
    have hint := toInt_cases (args.int arg)
    rw [PrecText.value] at h
    split at h
    · cases h
    · rw [Option.some_inj] at h
      rw [PrecText.word]
      omega

/-- The text of a specification gives such a field, if an `int` can hold
its width and its precision. -/
theorem realizes_layout (spec : ConvSpec) (hwidth : (spec.layout args arg).width < 2 ^ 31)
    (hprec : ∀ n, (spec.layout args arg).prec = some n → n < 2 ^ 31) :
    Realizes ⟨(spec.layout args arg).left,
      if (spec.layout args arg).left then chr ' '
      else if (spec.layout args arg).zero then chr '0' else chr ' ',
      spec.width.word args arg, spec.prec.word args (arg + spec.width.count)⟩
      (spec.layout args arg) where
  leftjust := rfl
  padChar := rfl
  width_lt := hwidth
  fmin := spec.width.toNat_word args arg hwidth
  omitted := spec.prec.sle_word args (arg + spec.width.count)
  given n hn := ⟨hprec n hn, spec.prec.toNat_word args (arg + spec.width.count) hn (hprec n hn)⟩

end Words

/-- What is left of a length `b` after a length `a`. The sum `a` may be
one more than an `int` can hold. Then it counts as negative, and so does
the difference, which the loops take for zero. -/
theorem toNat_rest {a b : BitVec 32} (ha : a.toNat ≤ 2 ^ 31) (hb : b.toNat < 2 ^ 31) :
    (if a.slt b then b - a else 0).toInt.toNat = b.toNat - a.toNat := by
  have hinta := toInt_cases a
  have hintb := toInt_cases b
  have hintd := toInt_cases (b - a)
  have hsub : (b - a).toNat = (2 ^ 32 - a.toNat + b.toNat) % 2 ^ 32 := toNat_sub b a
  rw [BitVec.slt]
  by_cases hlt : a.toInt < b.toInt
  · rw [if_pos (decide_eq_true hlt)]
    omega
  · rw [if_neg (by rw [decide_eq_false hlt]; decide)]
    show 0 = _
    omega

theorem toNat_diff {a b : BitVec 32} (ha : a.toNat < 2 ^ 31) (hb : b.toNat < 2 ^ 31) :
    (if a.slt b then b - a else 0).toNat = b.toNat - a.toNat := by
  have hinta := toInt_cases a
  have hintb := toInt_cases b
  have hsub : (b - a).toNat = (2 ^ 32 - a.toNat + b.toNat) % 2 ^ 32 := toNat_sub b a
  rw [BitVec.slt]
  by_cases hlt : a.toInt < b.toInt
  · rw [if_pos (decide_eq_true hlt)]
    omega
  · rw [if_neg (by rw [decide_eq_false hlt]; decide)]
    show 0 = _
    omega

theorem toInt_toNat_of_lt {v : BitVec 32} (h : v.toNat < 2 ^ 31) : v.toInt.toNat = v.toNat := by
  have hint := toInt_cases v
  omega

/-! ### The text of a field -/

/-- A field that is padded with zeroes. -/
theorem fieldText_zeroed {field : PrintField} {conv : Converted} (h : field.Zeroed conv) :
    fieldText field conv = (if conv.sign then [chr '-'] else []) ++
      (List.replicate (field.room conv).toInt.toNat (chr '0') ++
        conv.str.take (field.lenStr conv).toInt.toNat) := by
  rw [fieldText, PrintField.padding, PrintField.zeroes, if_pos h, if_pos h, h.1]
  simp

section Text
variable {field : PrintField} {layout : PrintLayout} (hrealizes : Realizes field layout)
  (conv : Converted)
include hrealizes

theorem Realizes.sle_prec : (0 : BitVec 32).sle field.prec = layout.prec.isSome := by
  cases hprec : layout.prec with
  | none => exact hrealizes.omitted hprec
  | some n =>
    obtain ⟨hn, htoNat⟩ := hrealizes.given n hprec
    rw [sle_zero_eq, htoNat]
    exact decide_eq_true hn

/-- The padding, if `n` characters are not padding. -/
theorem Realizes.toNat_room {n : Nat} (hn : n ≤ 2 ^ 31)
    (h : (field.lenStr conv).toNat + (field.precZeroes conv).toNat +
      (if conv.sign then 1 else 0) = n) :
    (field.room conv).toInt.toNat = layout.width - n := by
  have hsign : (if conv.sign then 1 else 0 : BitVec 32).toNat = if conv.sign then 1 else 0 := by
    cases conv.sign <;> rfl
  have hsum : (field.lenStr conv + field.precZeroes conv +
      if conv.sign then 1 else 0 : BitVec 32).toNat = n := by
    rw [toNat_add, toNat_add, hsign]
    omega
  show (if _ then _ else _ : BitVec 32).toInt.toNat = _
  rw [toNat_rest (by omega) (by rw [hrealizes.fmin]; exact hrealizes.width_lt), hsum,
    hrealizes.fmin]

theorem Realizes.toNat_precZeroes (hbase : conv.base ≠ 0) (hlen : conv.str.length < 2 ^ 31) :
    (field.precZeroes conv).toNat = layout.prec.getD 0 - conv.str.length := by
  have hstr : field.lenStr conv = BitVec.ofNat 32 conv.str.length :=
    if_neg fun h => hbase h.2.1
  have htoNat : (BitVec.ofNat 32 conv.str.length).toNat = conv.str.length := by
    rw [toNat_ofNat, Nat.mod_eq_of_lt (by omega)]
  rw [PrintField.precZeroes, hstr, hrealizes.sle_prec]
  cases hprec : layout.prec with
  | none =>
    rw [if_neg fun h => Bool.false_ne_true h.1]
    exact (Nat.zero_sub _).symm
  | some n =>
    obtain ⟨hn, hfield⟩ := hrealizes.given n hprec
    have hdiff : (if (BitVec.ofNat 32 conv.str.length).slt field.prec then
        field.prec - BitVec.ofNat 32 conv.str.length else 0).toNat = n - conv.str.length := by
      rw [toNat_diff (by omega) (by omega), htoNat, hfield]
    simpa [hbase] using hdiff

/-- Zeroes are padded on the left of a number that has no precision, and
of a text. -/
theorem Realizes.zeroed_iff : field.Zeroed conv ↔
    layout.left = false ∧ layout.zero = true ∧ (layout.prec = none ∨ conv.base = 0) := by
  rw [PrintField.Zeroed, PrintField.fill, hrealizes.sle_prec, hrealizes.padChar,
    hrealizes.leftjust]
  have hspace : chr ' ' ≠ chr '0' := by decide
  cases layout.left with
  | true => simp
  | false =>
    cases layout.prec with
    | none => cases layout.zero <;> simp [hspace]
    | some n =>
      by_cases hbase : conv.base = 0
      · cases layout.zero <;> simp [hspace, hbase]
      · simp [hspace, hbase]

/-- All other padding is spaces. -/
theorem Realizes.fill_eq (h : ¬field.Zeroed conv) : field.fill conv = chr ' ' := by
  rw [hrealizes.zeroed_iff] at h
  rw [PrintField.fill, hrealizes.sle_prec, hrealizes.padChar]
  by_cases hprecise : layout.prec.isSome = true ∧ conv.base ≠ 0
  · rw [if_pos hprecise]
  · rw [if_neg hprecise]
    cases hleft : layout.left with
    | true => rfl
    | false =>
      have hzero : ¬layout.zero = true := fun hzero => h ⟨hleft, hzero, by
        by_cases hbase : conv.base = 0
        · exact Or.inr hbase
        · exact Or.inl (Option.not_isSome_iff_eq_none.mp fun hsome => hprecise ⟨hsome, hbase⟩)⟩
      rw [if_neg Bool.false_ne_true, if_neg hzero]

/-- A field that is padded with spaces. -/
theorem Realizes.fieldText_spaces (h : ¬field.Zeroed conv) {body : List Byte}
    (hbody : (if conv.sign then [chr '-'] else []) ++
      (List.replicate (field.precZeroes conv).toInt.toNat (chr '0') ++
        conv.str.take (field.lenStr conv).toInt.toNat) = body)
    (hroom : (field.room conv).toInt.toNat = layout.width - body.length) :
    fieldText field conv = layout.chars body := by
  rw [fieldText, PrintField.padding, PrintField.zeroes, if_neg h, if_neg h,
    hrealizes.fill_eq conv h, hrealizes.leftjust, hroom, PrintLayout.chars, ← hbody]
  cases layout.left with
  | true => simp
  | false => simp

/-- A number is printed as the layout asks. -/
theorem Realizes.fieldText_number (hbase : conv.base ≠ 0) (hlen : conv.str.length ≤ 64) :
    fieldText field conv = layout.number (if conv.sign then [chr '-'] else []) conv.str := by
  have htoNat : (field.lenStr conv).toNat = conv.str.length := by
    rw [PrintField.lenStr, if_neg fun h => hbase h.2.1, toNat_ofNat,
      Nat.mod_eq_of_lt (by omega)]
  have htake : conv.str.take (field.lenStr conv).toInt.toNat = conv.str := by
    rw [toInt_toNat_of_lt (by omega), htoNat, take_length]
  have hzeroes := hrealizes.toNat_precZeroes conv hbase (by omega)
  have hprec : layout.prec.getD 0 < 2 ^ 31 := by
    cases h : layout.prec with
    | none => exact Nat.two_pow_pos 31
    | some n => exact (hrealizes.given n h).1
  have hsign : (if conv.sign then [chr '-'] else []).length = if conv.sign then 1 else 0 := by
    cases conv.sign <;> rfl
  -- The sum may be 2^31, which is the largest length that does no harm.
  have hroom := hrealizes.toNat_room conv (n := max (layout.prec.getD 0) conv.str.length +
    if conv.sign then 1 else 0) (by split <;> omega) (by omega)
  have hzeroed := hrealizes.zeroed_iff conv
  by_cases h : field.Zeroed conv
  · obtain ⟨hleft, hzero, hnone⟩ := hzeroed.mp h
    have hnone : layout.prec = none := hnone.resolve_right hbase
    have hnumber : layout.zero = true ∧ layout.left = false ∧ layout.prec = none :=
      ⟨hzero, hleft, hnone⟩
    rw [fieldText_zeroed h, htake, hroom, hnone, Option.getD_none, Nat.zero_max, PrintLayout.number,
      if_pos hnumber, List.append_assoc, length_append, hsign, Nat.add_comm]
  · have hnumber : ¬(layout.zero = true ∧ layout.left = false ∧ layout.prec = none) :=
      fun hz => h (hzeroed.mpr ⟨hz.2.1, hz.1, Or.inl hz.2.2⟩)
    rw [PrintLayout.number, if_neg hnumber]
    refine hrealizes.fieldText_spaces conv h ?_ ?_
    · rw [htake, toInt_toNat_of_lt (by omega), hzeroes, PrintLayout.digits]
    · rw [hroom, length_append, hsign, PrintLayout.digits, length_append,
        length_replicate]
      omega

section Chars
variable (hbase : conv.base = 0) (hlen : conv.str.length < 2 ^ 31)
include hbase hlen

theorem Realizes.take_lenStr :
    conv.str.take (field.lenStr conv).toInt.toNat = layout.cut conv.str ∧
      (field.lenStr conv).toNat = (layout.cut conv.str).length := by
  have hofNat : (BitVec.ofNat 32 conv.str.length).toNat = conv.str.length := by
    rw [toNat_ofNat, Nat.mod_eq_of_lt (by omega)]
  have hint := toInt_cases (BitVec.ofNat 32 conv.str.length)
  rw [PrintField.lenStr, hrealizes.sle_prec, PrintLayout.cut]
  cases hprec : layout.prec with
  | none =>
    rw [if_neg fun h => Bool.false_ne_true h.1, toInt_toNat_of_lt (by omega), hofNat]
    exact ⟨take_length, rfl⟩
  | some n =>
    obtain ⟨hn, htoNat⟩ := hrealizes.given n hprec
    have hintp := toInt_cases field.prec
    by_cases hlt : n < conv.str.length
    · have hslt : field.prec.slt (BitVec.ofNat 32 conv.str.length) = true :=
        decide_eq_true (by omega)
      rw [if_pos ⟨rfl, hbase, hslt⟩, toInt_toNat_of_lt (by omega), htoNat]
      exact ⟨rfl, by rw [length_take]; omega⟩
    · have hslt : field.prec.slt (BitVec.ofNat 32 conv.str.length) = false :=
        decide_eq_false (by omega)
      have htake : conv.str.take n = conv.str := take_of_length_le (by omega)
      rw [if_neg fun h => Bool.false_ne_true (hslt.symm.trans h.2.2),
        toInt_toNat_of_lt (by omega), hofNat]
      show conv.str.take _ = conv.str.take n ∧ _ = (conv.str.take n).length
      rw [htake]
      exact ⟨take_length, rfl⟩

/-- A text is printed as the layout asks, but for zeroes in the place of
the spaces. -/
theorem Realizes.fieldText_chars (hsign : conv.sign = false) :
    fieldText field conv =
      if layout.left = false ∧ layout.zero = true then
        List.replicate (layout.width - (layout.cut conv.str).length) (chr '0') ++
          layout.cut conv.str
      else layout.chars (layout.cut conv.str) := by
  obtain ⟨htake, htoNat⟩ := hrealizes.take_lenStr conv hbase hlen
  have hzeroes : field.precZeroes conv = 0 := if_neg fun h => h.2.1 hbase
  have hcut := layout.length_cut_le conv.str
  have hroom := hrealizes.toNat_room conv (n := (layout.cut conv.str).length) (by omega) (by
    rw [htoNat, hzeroes, hsign]
    rfl)
  have hzeroed : field.Zeroed conv ↔ layout.left = false ∧ layout.zero = true := by
    rw [hrealizes.zeroed_iff]
    simp only [hbase, or_true, and_true]
  by_cases h : field.Zeroed conv
  · rw [if_pos (hzeroed.mp h), fieldText_zeroed h, htake, hroom, hsign]
    rfl
  · rw [if_neg fun hz => h (hzeroed.mpr hz)]
    refine hrealizes.fieldText_spaces conv h ?_ hroom
    rw [htake, hzeroes, hsign]
    rfl

end Chars

end Text

end Xinu
