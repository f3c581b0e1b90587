import Xinu.Abstract.Print
import Xinu.Abstract.Scan

/-!
# `Xinu.Abstract.Fields`: what a conversion of a format is to take

A conversion specification of formatted input is a text with a star, a
maximum width and a size (`ScanText`), and the specifier with its set
(`SetText`). The fields are those that the comment on `_doscan` describes:
`numberPrefix` for a number and `longest` for characters. The widths here
are natural numbers.
-/

namespace Xinu

/-! ### Conversion specifications -/

/-- The text of a size modifier. -/
def IntegerSize.text : IntegerSize → List Byte
  | .short => [chr 'h']
  | .regular => []
  | .long => [chr 'l']

/-- A conversion specification, between its `%` and its specifier. -/
structure ScanText where
  star : Bool
  /-- The digits of the maximum width. -/
  width : List Byte
  size : IntegerSize
  widthDigits : ∀ c ∈ width, isDecimal c = true

namespace ScanText
variable (t : ScanText)

def text : List Byte := (if t.star then [chr '*'] else []) ++ (t.width ++ t.size.text)

/-- The maximum width. No digits, or zero, stand for none. -/
def limit : Option Nat := if decimalValue t.width = 0 then none else some (decimalValue t.width)

end ScanText

/-- The specifiers of numbers. -/
def numberTypes : List Byte :=
  [chr 'd', chr 'u', chr 'o', chr 'x', chr 'D', chr 'U', chr 'O', chr 'X']

/-- A set of characters, between `[` and the end of the specification. A
bracket may be its first character, and the closing one may be missing. -/
structure SetText where
  inverted : Bool
  chars : List Byte
  closed : Bool
  bracket : chr ']' ∉ chars.tail
  caret : inverted = false → peek chars ≠ chr '^'
  nonempty : closed = true → chars ≠ []

namespace SetText
variable (s : SetText)

def text : List Byte :=
  (if s.inverted then [chr '^'] else []) ++ (s.chars ++ if s.closed then [chr ']'] else [])

/-- The characters of the set. -/
def member (c : Byte) : Bool := s.chars.contains c != s.inverted

end SetText

/-- The conversions that take a run of characters: `%[` and `%s`. -/
inductive CharsText where
  | set (s : SetText)
  | string

namespace CharsText

def text : CharsText → List Byte
  | set s => chr '[' :: s.text
  | string => [chr 's']

/-- The specification ends with the format. -/
def Unterminated : CharsText → Prop
  | set s => s.closed = false
  | string => False

/-- The characters that are taken. -/
def member : CharsText → Byte → Bool
  | set s => s.member
  | string => fun c => !isspace c

/-- Where the field starts. -/
def start : CharsText → List Byte → List Byte
  | set _, x => x
  | string, x => x.dropWhile isspace

end CharsText

/-! ### Fields -/

/-- The longest run of characters with the property, up to a maximum
length if there is one. -/
def longest (p : Byte → Bool) (limit : Option Nat) (x : List Byte) : List Byte :=
  match limit with
  | none => x.takeWhile p
  | some w => (x.take w).takeWhile p

/-- The characters of a sign: one or none. -/
def signOf (x : List Byte) : List Byte := run isSign 1 x

def afterSign (x : List Byte) : List Byte := x.drop (signOf x).length

/-- The longest start of the form: optional sign, then digits. -/
def numberPrefix (base : Nat) (x : List Byte) : List Byte :=
  signOf x ++ (afterSign x).takeWhile (isDigitOf base)

/-! ### Success and failure -/

section Outcome
variable {abi : Abi}

/-- How many conversions have been counted. -/
def counted (out : Scanned abi ⊕ ScanState abi) : Nat :=
  Sum.elim (fun scanned => scanned.matched.length) ScanState.nmatch out

/-- What has been stored. -/
def storedBy (out : Scanned abi ⊕ ScanState abi) : List (Store abi) :=
  Sum.elim Scanned.stores ScanState.stores out

/-- A conversion has matched: it is counted if it has a pointer, and the
scan goes on unless the input has ended. -/
def Succeeds (st : ScanState abi) (ptr : abi.Ulong) (rest : List Byte)
    (out : Scanned abi ⊕ ScanState abi) : Prop :=
  counted out = st.nmatch + (if ptr = 0 then 0 else 1) ∧ (out.isRight = true ∨ rest = [])

/-- A conversion has not matched: it is not counted, and ends the scan. -/
def Fails (st : ScanState abi) (out : Scanned abi ⊕ ScanState abi) : Prop :=
  counted out = st.nmatch ∧ out.isLeft = true

end Outcome

end Xinu
