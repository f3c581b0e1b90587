import Xinu.System.Print

/-!
# `Xinu.Abstract.Print`: what a format is documented to print

A conversion specification is a text with five parts (`ConvSpec`). With
the arguments of its `*`s it asks for a field (`PrintLayout`): a width, the
side of the padding, and a precision. `PrintLayout.number` and
`PrintLayout.chars` are the texts that the comment on `_doprnt` describes
for such a field. The lengths here are natural numbers, and each text is
written down as a whole.

`Putc.feed` gives a text to an output function, up to its first failure.
-/

namespace Xinu

open List

/-! ### Output functions -/

section Feed
variable {σ : Type}

/-- The calls for the characters of a text, up to the first one that
fails: whether none did, and what the calls have done. -/
def Putc.feed (putc : Putc σ) : List Byte → σ → Bool × σ
  | [], out => (true, out)
  | c :: l, out => if (putc c out).1 then Putc.feed putc l (putc c out).2
    else (false, (putc c out).2)

end Feed

/-! ### Conversion specifications -/

def isDecimal (c : Byte) : Bool := chr '0' ≤ c ∧ c ≤ chr '9'

/-- The value of a row of decimal digits, as a natural number. -/
def decimalValue (l : List Byte) : Nat := l.foldl (fun n c => n * 10 + (c.toNat - 48)) 0

/-- A minimum field width: no digits for none, and `*` for an argument. -/
inductive WidthText where
  | digits (l : List Byte)
  | star

/-- An optional precision. -/
inductive PrecText where
  | omitted
  | digits (l : List Byte)
  | star

def WidthText.text : WidthText → List Byte
  | digits l => l
  | star => [chr '*']

def PrecText.text : PrecText → List Byte
  | omitted => []
  | digits l => chr '.' :: l
  | star => [chr '.', chr '*']

/-- The text of a length modifier. -/
def PrintSize.text : PrintSize → List Byte
  | .shortShort => [chr 'h', chr 'h']
  | .short => [chr 'h']
  | .regular => []
  | .long => [chr 'l']

/-- The specifier characters. -/
def specifiers : List Byte :=
  [chr 'c', chr 's', chr 'd', chr 'u', chr 'o', chr 'x', chr 'X', chr 'b']

/-- A conversion specification, between its `%` and its specifier
character. A zero at the start of a width would be a flag. -/
structure ConvSpec where
  flags : List Byte
  width : WidthText
  prec : PrecText
  size : PrintSize
  isFlag : ∀ c ∈ flags, c = chr '-' ∨ c = chr '0'
  widthDigits : ∀ l, width = .digits l → (∀ c ∈ l, isDecimal c = true) ∧ peek l ≠ chr '0'
  precDigits : ∀ l, prec = .digits l → ∀ c ∈ l, isDecimal c = true

/-- The field that a specification asks for. -/
structure PrintLayout where
  /-- Justified to the left. -/
  left : Bool
  /-- The `0` flag. -/
  zero : Bool
  width : Nat
  prec : Option Nat

section Layout
variable {abi : Abi} (args : PrintArgs abi) (arg : Nat)

/-- The arguments that a width takes. -/
def WidthText.count : WidthText → Nat
  | digits _ => 0
  | star => 1

def PrecText.count : PrecText → Nat
  | omitted | digits _ => 0
  | star => 1

/-- The width, which may be negative if it is an argument. -/
def WidthText.value : WidthText → Int
  | digits l => decimalValue l
  | star => (args.int arg).toInt

/-- The precision. A negative argument is the same as none. -/
def PrecText.value : PrecText → Option Nat
  | omitted => none
  | digits l => some (decimalValue l)
  | star => if (args.int arg).toInt < 0 then none else some (args.int arg).toInt.toNat

namespace ConvSpec
variable (spec : ConvSpec)

def text : List Byte := spec.flags ++ (spec.width.text ++ (spec.prec.text ++ spec.size.text))

/-- The argument that is converted, if the width starts at `arg`. -/
def valueArg : Nat := arg + spec.width.count + spec.prec.count

def layout : PrintLayout where
  left := chr '-' ∈ spec.flags ∨ spec.width.value args arg < 0
  zero := chr '0' ∈ spec.flags
  width := (spec.width.value args arg).natAbs
  prec := spec.prec.value args (arg + spec.width.count)

end ConvSpec

end Layout

/-! ### Texts -/

namespace PrintLayout
variable (field : PrintLayout)

/-- The text on one side of its field, with spaces on the other. -/
def chars (text : List Byte) : List Byte :=
  let spaces := List.replicate (field.width - text.length) (chr ' ')
  if field.left then text ++ spaces else spaces ++ text

/-- A string, of which the precision gives the maximum length. -/
def cut (text : List Byte) : List Byte :=
  match field.prec with
  | none => text
  | some n => text.take n

/-- The digits of a number, with the zeroes that the precision asks
for. -/
def digits (numeral : List Byte) : List Byte :=
  List.replicate (field.prec.getD 0 - numeral.length) (chr '0') ++ numeral

/-- A number. The `0` flag counts without a precision only, and puts the
padding after the sign. -/
def number (sign numeral : List Byte) : List Byte :=
  if field.zero ∧ field.left = false ∧ field.prec = none then
    sign ++ List.replicate (field.width - (sign ++ numeral).length) (chr '0') ++ numeral
  else field.chars (sign ++ field.digits numeral)

theorem length_chars (text : List Byte) :
    (field.chars text).length = max field.width text.length := by
  unfold chars
  cases field.left with
  | true =>
    rw [if_pos rfl, length_append, length_replicate]
    omega
  | false =>
    rw [if_neg Bool.false_ne_true, length_append, length_replicate]
    omega

theorem length_cut_le (text : List Byte) : (field.cut text).length ≤ text.length := by
  unfold cut
  cases field.prec with
  | none => exact Nat.le_refl _
  | some n => exact length_take_le' n text

/-- The length of a number is the width, unless the number needs more. -/
theorem length_number (sign numeral : List Byte) :
    (field.number sign numeral).length =
      max field.width (sign ++ field.digits numeral).length := by
  unfold number
  split
  · -- Without a precision there are no zeroes apart from the padding.
    rename_i h
    rw [digits, h.2.2]
    simp only [length_append, length_replicate, Option.getD_none, Nat.zero_sub]
    omega
  · exact field.length_chars _

end PrintLayout

end Xinu
