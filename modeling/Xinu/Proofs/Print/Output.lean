import Xinu.Abstract.Print
import Xinu.Proofs.Print.Numeral

/-!
# `Xinu.Proofs.Print.Output`: `_doprnt` writes one text

The loops of `_doprnt` call the output function for one character after
the other, and none of them looks at what the calls do. So the characters
of a format are a list that depends on the format and the arguments alone:
`fieldText` for a conversion and `formatText` for a whole format.
`_doprnt` gives this list to the output function, up to its first failure
(`doprnt_eq`). What is proved about the text of a format then holds for
every output function.
-/

namespace Xinu

open List

/-! ### Writing a list -/

section Put
variable {σ : Type} (putc : Putc σ)

theorem putChars_append (l l' : List Byte) :
    putChars putc (l ++ l') = fun p => putChars putc l p >>= putChars putc l' := by
  funext p
  rw [putChars, foldlM_append]
  rfl

/-- The loops feed the output function, and count. -/
theorem putChars_eq (l : List Byte) : ∀ p : Printing σ,
    putChars putc l p =
      if (putc.feed l p.out).1 then
        .ok ⟨p.written + BitVec.ofNat 32 l.length, (putc.feed l p.out).2⟩
      else .error (.eof (putc.feed l p.out).2) := by
  induction l with
  | nil =>
    intro p
    show Except.ok p = .ok ⟨p.written + 0#32, p.out⟩
    rw [BitVec.add_zero]
  | cons c l ih =>
    intro p
    rw [show putChars putc (c :: l) p = putChar putc p c >>= putChars putc l from rfl, putChar,
      Putc.feed]
    cases (putc c p.out).1 with
    | true =>
      rw [if_pos rfl, if_pos rfl, ok_bind, ih, length_cons, Nat.add_comm l.length 1,
        BitVec.ofNat_add, ← BitVec.add_assoc]
      rfl
    | false => rfl

end Put

/-- `sprntf` adds the whole text to its string. -/
theorem feed_sprntf (l : List Byte) : ∀ out, Putc.feed sprntf l out = (true, out ++ l) := by
  induction l with
  | nil => exact fun out => by rw [append_nil]; rfl
  | cons c l ih =>
    intro out
    show Putc.feed sprntf l (out ++ [c]) = _
    rw [ih, List.append_assoc]
    rfl

/-! ### A conversion in its field -/

section Field
variable (field : PrintField) (conv : Converted)

namespace PrintField

/-- `len_str`. -/
def lenStr : BitVec 32 :=
  if (0 : BitVec 32).sle field.prec ∧ conv.base = 0 ∧
      field.prec.slt (BitVec.ofNat 32 conv.str.length) then field.prec
  else BitVec.ofNat 32 conv.str.length

/-- `num_zeroes`, as the precision has it. -/
def precZeroes : BitVec 32 :=
  if (0 : BitVec 32).sle field.prec ∧ conv.base ≠ 0 ∧ (field.lenStr conv).slt field.prec then
    field.prec - field.lenStr conv
  else 0

/-- `pad_char`, after the precision was looked at. -/
def fill : Byte := if (0 : BitVec 32).sle field.prec ∧ conv.base ≠ 0 then chr ' ' else field.padChar

/-- `len_padding`, before padding zeroes are counted as digits. -/
def room : BitVec 32 :=
  let lenNonpadding := field.lenStr conv + field.precZeroes conv + if conv.sign then 1 else 0
  if lenNonpadding.slt field.fmin then field.fmin - lenNonpadding else 0

/-- The padding is zeroes on the left. -/
def Zeroed : Prop := field.leftjust = false ∧ field.fill conv = chr '0'

instance : Decidable (field.Zeroed conv) := inferInstanceAs (Decidable (_ ∧ _))

/-- The padding, and the zeroes before the number. -/
def padding : List Byte :=
  List.replicate (if field.Zeroed conv then (0 : BitVec 32) else field.room conv).toInt.toNat
    (field.fill conv)

def zeroes : List Byte :=
  List.replicate (if field.Zeroed conv then field.room conv else field.precZeroes conv).toInt.toNat
    (chr '0')

end PrintField

/-- What is written for a conversion. -/
def fieldText : List Byte :=
  (if field.leftjust then [] else field.padding conv) ++
    ((if conv.sign then [chr '-'] else []) ++ (field.zeroes conv ++
      (conv.str.take (field.lenStr conv).toInt.toNat ++
        if field.leftjust then field.padding conv else [])))

/-- The five loops of a conversion write one list. -/
theorem putField_eq {σ : Type} (putc : Putc σ) (p : Printing σ) :
    putField putc field conv p = putChars putc (fieldText field conv) p := by
  have hlists : putChars putc (fieldText field conv) p = (do
      let p ← putChars putc (if field.leftjust then [] else field.padding conv) p
      let p ← putChars putc (if conv.sign then [chr '-'] else []) p
      let p ← putChars putc (field.zeroes conv) p
      let p ← putChars putc (conv.str.take (field.lenStr conv).toInt.toNat) p
      putChars putc (if field.leftjust then field.padding conv else []) p) := by
    simp only [fieldText, putChars_append]
  rw [hlists]
  obtain ⟨leftjust, padChar, fmin, prec⟩ := field
  -- The padding is on one side, and the list for the other side is empty.
  cases leftjust with
  | true => rfl
  | false => rfl

end Field

/-! ### A whole format -/

section Format
variable {abi : Abi} (args : PrintArgs abi)

theorem length_printFlags (f : List Byte) :
    ∀ leftjust padChar, (printFlags leftjust padChar f).2.2.length ≤ f.length := by
  induction f with
  | nil => exact fun _ _ => Nat.le_refl _
  | cons c f ih =>
    intro leftjust padChar
    rw [printFlags]
    split
    · exact Nat.le_succ_of_le (ih _ _)
    · split
      · exact Nat.le_succ_of_le (ih _ _)
      · exact Nat.le_refl _

theorem length_printDigits (f : List Byte) : ∀ n, (printDigits n f).2.length ≤ f.length := by
  induction f with
  | nil => exact fun _ => Nat.le_refl _
  | cons c f ih =>
    intro n
    rw [printDigits]
    split
    · exact Nat.le_succ_of_le (ih _)
    · exact Nat.le_refl _

theorem length_printWidth (arg : Nat) (leftjust : Bool) (f : List Byte) :
    (printWidth args arg leftjust f).2.2.2.length ≤ f.length := by
  unfold printWidth
  split
  · simp only
    split <;> simp
  · exact length_printDigits f 0

theorem length_printPrec (arg : Nat) (f : List Byte) :
    (printPrec args arg f).2.2.length ≤ f.length := by
  unfold printPrec
  split
  · split
    · simp only [length_tail]
      omega
    · refine Nat.le_trans (length_printDigits f.tail 0) ?_
      simp
  · exact Nat.le_refl _

theorem length_printSize (f : List Byte) : (printSize f).2.length ≤ f.length := by
  unfold printSize
  split
  · simp
  · split
    · split <;> simp
      omega
    · exact Nat.le_refl _

theorem printSigned_eq (size : PrintSize) (arg : Nat) :
    printSigned args size arg =
      let larg : abi.Ulong := if size = .long then args.ap arg else (args.int arg).signExtend _
      .ok ⟨numeral digitsLc 10 (if larg.slt 0 then -larg else larg).toNat, 10, larg.slt 0⟩ := by
  rw [printSigned, ulongToString_eq (by decide)]
  rfl

theorem printUnsigned_eq {base : Nat} (h : base ∈ [2, 8, 10, 16]) (altDigits : Bool)
    (size : PrintSize) (arg : Nat) :
    printUnsigned args base altDigits size arg =
      let ularg : abi.Ulong := if size = .long then args.ap arg else (args.int arg).setWidth _
      .ok ⟨numeral (if altDigits then digitsUc else digitsLc) base ularg.toNat, base, false⟩ := by
  rw [printUnsigned, ulongToString_eq h]
  rfl

/-- A specifier that is known is converted, and the buffers are large
enough for that. -/
theorem printConversion_isSome (size : PrintSize) (arg : Nat) {c : Byte} (hc : c ∈ specifiers) :
    ∃ conv, printConversion args size arg c = some (.ok conv) := by
  simp only [specifiers, mem_cons, not_mem_nil, or_false] at hc
  rcases hc with rfl | rfl | rfl | rfl | rfl | rfl | rfl | rfl
  · exact ⟨_, rfl⟩
  · exact ⟨_, rfl⟩
  · exact ⟨_, congrArg some (printSigned_eq args size arg)⟩
  all_goals exact ⟨_, congrArg some (printUnsigned_eq args (by decide) _ size arg)⟩

theorem printConversion_eq_none (size : PrintSize) (arg : Nat) {c : Byte} (hc : c ∉ specifiers) :
    printConversion args size arg c = none := by
  simp only [specifiers, mem_cons, not_mem_nil, or_false, not_or] at hc
  obtain ⟨hchar, hstring, hd, hu, ho, hx, hX, hb⟩ := hc
  rw [printConversion, if_neg hchar, if_neg hstring, if_neg hd, if_neg hu, if_neg ho, if_neg hx,
    if_neg hX, if_neg hb]

/-- The parts of a specification, one after the other. -/
theorem printSpec_eq {arg arg1 arg2 : Nat} {f f1 f2 f3 f4 : List Byte} {left left' : Bool}
    {padChar : Byte} {fmin prec : BitVec 32} {size : PrintSize}
    (hflags : printFlags false (chr ' ') f = (left, padChar, f1))
    (hwidth : printWidth args arg left f1 = (fmin, left', arg1, f2))
    (hprec : printPrec args arg1 f2 = (prec, arg2, f3)) (hsize : printSize f3 = (size, f4)) :
    (∀ conv, printConversion args size arg2 (peek f4) = some conv →
      printSpec args arg f =
        (some (⟨left', if left' then chr ' ' else padChar, fmin, prec⟩, conv), arg2 + 1, f4.tail)) ∧
    (printConversion args size arg2 (peek f4) = none → printSpec args arg f =
      (none, arg2, f4)) := by
  refine ⟨fun conv hconv => ?_, fun hconv => ?_⟩
  · simp only [printSpec, hflags, hwidth, hprec, hsize, hconv]
  · simp only [printSpec, hflags, hwidth, hprec, hsize, hconv]

/-- What can become of a specification: it ends in a known specifier, and
is converted, or it does not. -/
theorem printSpec_cases (arg : Nat) (f : List Byte) : ∃ arg' f', f'.length ≤ f.length ∧
    ((∃ field conv, peek f' ∈ specifiers ∧
      printSpec args arg f = (some (field, .ok conv), arg' + 1, f'.tail)) ∨
    printSpec args arg f = (none, arg', f')) := by
  have hflags := length_printFlags f false (chr ' ')
  rcases hf : printFlags false (chr ' ') f with ⟨left, padChar, f1⟩
  have hwidth := length_printWidth args arg left f1
  rcases hw : printWidth args arg left f1 with ⟨fmin, left', arg1, f2⟩
  have hprec := length_printPrec args arg1 f2
  rcases hp : printPrec args arg1 f2 with ⟨prec, arg2, f3⟩
  have hsize := length_printSize f3
  rcases hs : printSize f3 with ⟨size, f4⟩
  rw [hf] at hflags
  rw [hw] at hwidth
  rw [hp] at hprec
  rw [hs] at hsize
  simp only at hflags hwidth hprec hsize
  obtain ⟨hsome, hnone⟩ := printSpec_eq args hf hw hp hs
  refine ⟨arg2, f4, by omega, ?_⟩
  by_cases hc : peek f4 ∈ specifiers
  · obtain ⟨conv, hconv⟩ := printConversion_isSome args size arg2 hc
    exact Or.inl ⟨_, conv, hc, hsome _ hconv⟩
  · exact Or.inr (hnone (printConversion_eq_none args size arg2 hc))

theorem length_tail_of_peek {f : List Byte} (h : peek f ∈ specifiers) :
    f.tail.length < f.length := by
  cases f with
  | nil => exact absurd h (by decide)
  | cons c f => exact Nat.lt_succ_self _

/-- The text of a format from the argument `arg` on. -/
def formatText : Nat → List Byte → Nat → List Byte
  | 0, _, _ => []
  | _ + 1, [], _ => []
  | fuel + 1, c :: f, arg =>
    if c = chr '%' ∧ peek f ≠ chr '%' then
      match printSpec args arg f with
      | (some (field, .ok conv), arg, f) => fieldText field conv ++ formatText fuel f arg
      | (some (_, .error _), _, _) => []
      | (none, arg, _) => c :: formatText fuel f arg
    else c :: formatText fuel (if c = chr '%' then f.tail else f) arg

/-- The loop of `_doprnt` writes the text of the format. The induction is
on the rounds, and each one takes a character of the format. -/
theorem doprntLoop_eq {σ : Type} (putc : Putc σ) (fuel : Nat) :
    ∀ (f : List Byte) (arg : Nat) (p : Printing σ), f.length < fuel →
      doprntLoop putc args fuel f arg p = putChars putc (formatText args fuel f arg) p := by
  induction fuel with
  | zero => exact fun f arg p h => absurd h (Nat.not_lt_zero _)
  | succ fuel ih =>
    intro f arg p hlen
    cases f with
    | nil => rfl
    | cons c f =>
      rw [length_cons] at hlen
      rw [doprntLoop, formatText]
      by_cases hspec : c = chr '%' ∧ peek f ≠ chr '%'
      · rw [if_pos hspec, if_pos hspec]
        obtain ⟨arg', f', hf', ⟨field, conv, hc, h⟩ | h⟩ := printSpec_cases args arg f
        · have htail := length_tail_of_peek hc
          rw [h]
          show putField putc field conv p >>= doprntLoop putc args fuel f'.tail (arg' + 1) =
            putChars putc (fieldText field conv ++ formatText args fuel f'.tail (arg' + 1)) p
          rw [putField_eq, putChars_append]
          exact congrArg _ (funext fun p => ih f'.tail (arg' + 1) p (by omega))
        · -- An unknown specification: only its `%` is done.
          rw [h]
          exact congrArg _ (funext fun p => ih f arg' p (by omega))
      · rw [if_neg hspec, if_neg hspec]
        have hrest : (if c = chr '%' then f.tail else f).length ≤ f.length := by
          split <;> simp
        exact congrArg _ (funext fun p => ih _ arg p (by omega))

/-- Rounds that are left over do not matter. -/
theorem formatText_congr (fuel : Nat) : ∀ (fuel' : Nat) (f : List Byte) (arg : Nat),
    f.length < fuel → f.length < fuel' → formatText args fuel f arg =
      formatText args fuel' f arg := by
  induction fuel with
  | zero => exact fun fuel' f arg h => absurd h (Nat.not_lt_zero _)
  | succ fuel ih =>
    intro fuel' f arg h h'
    cases fuel' with
    | zero => exact absurd h' (Nat.not_lt_zero _)
    | succ fuel' =>
      cases f with
      | nil => rfl
      | cons c f =>
        rw [length_cons] at h h'
        rw [formatText, formatText]
        by_cases hspec : c = chr '%' ∧ peek f ≠ chr '%'
        · rw [if_pos hspec, if_pos hspec]
          obtain ⟨arg', f', hf', ⟨field, conv, hc, heq⟩ | heq⟩ := printSpec_cases args arg f
          · have htail := length_tail_of_peek hc
            rw [heq]
            exact congrArg _ (ih fuel' f'.tail (arg' + 1) (by omega) (by omega))
          · rw [heq]
            exact congrArg _ (ih fuel' f arg' (by omega) (by omega))
        · rw [if_neg hspec, if_neg hspec]
          have hrest : (if c = chr '%' then f.tail else f).length ≤ f.length := by
            split <;> simp
          exact congrArg _ (ih fuel' _ arg (by omega) (by omega))

end Format

/-! ### `_doprnt` -/

section Doprnt
variable {abi : Abi} (format : CString) (args : PrintArgs abi)

/-- `_doprnt` gives the text of its format to the output function, and
returns its length or `EOF`. -/
theorem doprnt_eq {σ : Type} (putc : Putc σ) (out : σ) :
    doprnt putc format args out =
      let text := formatText args (format.bytes.length + 1) format.bytes 0
      .ok (if (putc.feed text out).1 then (BitVec.ofNat 32 text.length).toInt else EOF,
        (putc.feed text out).2) := by
  rw [doprnt, doprntLoop_eq args putc _ _ _ _ (Nat.lt_succ_self _), putChars_eq]
  simp only
  cases (putc.feed (formatText args (format.bytes.length + 1) format.bytes 0) out).1 with
  | true =>
    -- `chars_written` starts at zero.
    show Except.ok ((0#32 + BitVec.ofNat 32 _).toInt, _) = _
    rw [BitVec.zero_add]
    rfl
  | false => rfl

/-- For every format there is one text that `_doprnt` gives to any output
function: it ends, having called the function for the characters of the
text up to the first failure. If there was one it returns `EOF`, and
otherwise the length of the text, as long as an `int` can hold it. -/
theorem doprnt_feeds : ∃ text : List Byte, ∀ (σ : Type) (putc : Putc σ) (out : σ),
    ∃ result, doprnt putc format args out = .ok (result, (putc.feed text out).2) ∧
      ((putc.feed text out).1 = true → text.length < 2 ^ 31 → result = text.length) ∧
      ((putc.feed text out).1 = false → result = EOF) := by
  refine ⟨_, fun σ putc out => ⟨_, doprnt_eq format args putc out, ?_, ?_⟩⟩
  · intro hall hlen
    rw [if_pos hall, BitVec.toInt_eq_toNat_of_lt, BitVec.toNat_ofNat, Nat.mod_eq_of_lt (by omega)]
    rw [BitVec.toNat_ofNat, Nat.mod_eq_of_lt (by omega)]
    omega
  · intro hfail
    rw [hfail, if_neg Bool.false_ne_true]

theorem sprintf_eq :
    sprintf format args =
      let text := formatText args (format.bytes.length + 1) format.bytes 0
      .ok (text.length, text ++ [0]) := by
  rw [sprintf, doprnt_eq]
  simp only [feed_sprntf, nil_append]
  rfl

end Doprnt

end Xinu
