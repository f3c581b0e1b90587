import Xinu.System.Scan
import Xinu.System.Types

/-!
# `Xinu.System.Print`: formatted output

`_doprnt` of `doprnt.c` with `ulong_to_string`, and `sprintf`. `_doprnt`
writes through the function `putc_func` that it is given, which may fail
at any call.

A format is a C string: the end of the list is its terminating `NUL`. The
arguments are words, and a `char *` among them points to the string that
`strings` has for it. The type `int` is `BitVec 32`, compared as signed.
-/

namespace Xinu

/-! ### `ulong_to_string` -/

def digitsLc : List Byte := "0123456789abcdef".toList.map chr
def digitsUc : List Byte := "0123456789ABCDEF".toList.map chr

def baseToNbits (base : Nat) : Nat :=
  if base = 2 then 1 else if base = 4 then 2 else if base = 8 then 3 else if base = 16 then 4 else 0

section
variable {abi : Abi}

/-- The loops over the digits of a number, from the last one on. `digit`
and `rest` split a number, and `room` is how many entries `temp` has
left. -/
def tempLoop (digits : List Byte) (digit rest : abi.Ulong → abi.Ulong) :
    Nat → abi.Ulong → Except Fault (List Byte)
  | 0, _ => .error .outOfBounds
  | room + 1, num => do
    let c := digits.getD (digit num).toNat 0
    if rest num = 0 then return [c]
    else
      let temp ← tempLoop digits digit rest room (rest num)
      return c :: temp

/-- `ulong_to_string`. The entry of `temp` that is not a digit is its
`NUL`. -/
def ulongToString (num : abi.Ulong) (base : Nat) (altDigits : Bool) : Except Fault (List Byte) := do
  let digits := if altDigits then digitsUc else digitsLc
  let shift := baseToNbits base
  let temp ←
    if shift = 0 then
      tempLoop digits (· % BitVec.ofNat _ base) (· / BitVec.ofNat _ base) abi.bits num
    else tempLoop digits (· &&& ((1 <<< shift) - 1)) (· >>> shift) abi.bits num
  return temp.reverse

/-! The same function with its arrays: `temp`, which is not initialised,
and the buffer `str` of the caller. -/

/-- `a[i]`. -/
def charAt (a : List Byte) (i : Nat) : Except Fault Byte :=
  a[i]?.elim (.error .outOfBounds) .ok

/-- `a[i] = c`. -/
def setChar (a : List Byte) (i : Nat) (c : Byte) : Except Fault (List Byte) :=
  if i < a.length then .ok (a.set i c) else .error .outOfBounds

/-- The loops over the digits, from the entry `i` of `temp` on. They end
with `temp` and the last entry that was written. -/
def tempArrayLoop (digits : List Byte) (digit rest : abi.Ulong → abi.Ulong) :
    Nat → abi.Ulong → Nat → List Byte → Except Fault (Nat × List Byte)
  | 0, _, _, _ => .error .nontermination
  | fuel + 1, num, i, temp => do
    let c ← charAt digits (digit num).toNat
    let temp ← setChar temp i c
    let num := rest num
    if num = 0 then return (i, temp) else tempArrayLoop digits digit rest fuel num (i + 1) temp

/-- The loop that copies `temp[i]` to `temp[0]` to `str[k]` and after. -/
def copyReversed (temp : List Byte) : Nat → Nat → List Byte → Except Fault (List Byte)
  | 0, k, str => do
    let c ← charAt temp 0
    setChar str k c
  | i + 1, k, str => do
    let c ← charAt temp (i + 1)
    let str ← setChar str k c
    copyReversed temp i (k + 1) str

/-- `ulong_to_string(num, str, base, alt_digits)`, as it is compiled with
and without `ALWAYS_USE_DIVISION`. -/
def ulongToStringInto (alwaysUseDivision : Bool) (temp : List Byte) (num : abi.Ulong)
    (str : List Byte) (base : Nat) (altDigits : Bool) : Except Fault (List Byte) := do
  let digits := if altDigits then digitsUc else digitsLc
  let temp ← setChar temp 0 0
  let (i, temp) ←
    if alwaysUseDivision ∨ baseToNbits base = 0 then
      tempArrayLoop digits (· % BitVec.ofNat _ base) (· / BitVec.ofNat _ base)
        (abi.bits + 1) num 1 temp
    else
      let shift := baseToNbits base
      tempArrayLoop digits (· &&& ((1 <<< shift) - 1)) (· >>> shift) (abi.bits + 1) num 1 temp
  copyReversed temp i 0 str

end

/-! ### Conversion specifications -/

/-- `enum integer_size`. -/
inductive PrintSize where
  | shortShort
  | short
  | regular
  | long
deriving DecidableEq

/-- What a conversion prints, without padding. -/
structure Converted where
  /-- `str`, up to its `NUL`. -/
  str : List Byte
  /-- Zero if it is not a number. -/
  base : Nat
  /-- The sign is `-`. -/
  sign : Bool

/-- The field that it is printed in. -/
structure PrintField where
  leftjust : Bool
  padChar : Byte
  fmin : BitVec 32
  prec : BitVec 32

/-- The arguments, and the strings that they may point to. -/
structure PrintArgs (abi : Abi) where
  ap : Nat → abi.Ulong
  strings : abi.Ulong → CString

/-- `va_arg(ap, int)`. -/
def PrintArgs.int {abi : Abi} (args : PrintArgs abi) (arg : Nat) : BitVec 32 :=
  (args.ap arg).setWidth 32

/-- The flags. -/
def printFlags : Bool → Byte → List Byte → Bool × Byte × List Byte
  | leftjust, padChar, [] => (leftjust, padChar, [])
  | leftjust, padChar, c :: f =>
    if c = chr '-' then printFlags true padChar f
    else if c = chr '0' then printFlags leftjust (chr '0') f
    else (leftjust, padChar, c :: f)

/-- The digits of a field width or a precision. -/
def printDigits : BitVec 32 → List Byte → BitVec 32 × List Byte
  | n, [] => (n, [])
  | n, c :: f =>
    if chr '0' ≤ c ∧ c ≤ chr '9' then
      printDigits (n * 10 + (c.setWidth 32 - (chr '0').setWidth 32)) f
    else (n, c :: f)

section
variable {abi : Abi} (args : PrintArgs abi)

/-- The minimum field width. A negative argument also justifies to the
left. -/
def printWidth (arg : Nat) (leftjust : Bool) (f : List Byte) :
    BitVec 32 × Bool × Nat × List Byte :=
  if peek f = chr '*' then
    let fmin := args.int arg
    if fmin.slt 0 then (-fmin, true, arg + 1, f.tail) else (fmin, leftjust, arg + 1, f.tail)
  else
    let (fmin, f) := printDigits 0 f
    (fmin, leftjust, arg, f)

/-- The precision: `-1` if it is omitted. -/
def printPrec (arg : Nat) (f : List Byte) : BitVec 32 × Nat × List Byte :=
  if peek f = chr '.' then
    if peek f.tail = chr '*' then (args.int arg, arg + 1, f.tail.tail)
    else
      let (prec, f) := printDigits 0 f.tail
      (prec, arg, f)
  else (-1, arg, f)

/-- The length modifier. -/
def printSize (f : List Byte) : PrintSize × List Byte :=
  if peek f = chr 'l' then (.long, f.tail)
  else if peek f = chr 'h' then
    if peek f.tail = chr 'h' then (.shortShort, f.tail.tail) else (.short, f.tail)
  else (.regular, f)

/-- `%d`. The negation is done on the unsigned number. -/
def printSigned (size : PrintSize) (arg : Nat) : Except Fault Converted := do
  let larg : abi.Ulong := if size = .long then args.ap arg else (args.int arg).signExtend _
  let sign := larg.slt 0
  let ularg := if sign then -larg else larg
  let str ← ulongToString ularg 10 false
  return ⟨str, 10, sign⟩

/-- The label `handle_unsigned`. -/
def printUnsigned (base : Nat) (altDigits : Bool) (size : PrintSize) (arg : Nat) :
    Except Fault Converted := do
  let ularg : abi.Ulong := if size = .long then args.ap arg else (args.int arg).setWidth _
  let str ← ulongToString ularg base altDigits
  return ⟨str, base, false⟩

/-- The conversion of an argument. There is none for an unknown
specifier. -/
def printConversion (size : PrintSize) (arg : Nat) (c : Byte) : Option (Except Fault Converted) :=
  if c = chr 'c' then
    -- A `NUL` ends the temporary string before it.
    some (.ok ⟨[(args.int arg).setWidth 8].takeWhile (· ≠ 0), 0, false⟩)
  else if c = chr 's' then
    let str := if args.ap arg = 0 then "(null)".toList.map chr
      else (args.strings (args.ap arg)).bytes
    some (.ok ⟨str, 0, false⟩)
  else if c = chr 'd' then some (printSigned args size arg)
  else if c = chr 'u' then some (printUnsigned args 10 false size arg)
  else if c = chr 'o' then some (printUnsigned args 8 false size arg)
  else if c = chr 'x' then some (printUnsigned args 16 false size arg)
  else if c = chr 'X' then some (printUnsigned args 16 true size arg)
  else if c = chr 'b' then some (printUnsigned args 2 false size arg)
  else none

/-- A conversion specification, after its `%`: the field, the conversion,
the next argument and the format after it. The arguments that an unknown
specification has taken stay taken. -/
def printSpec (arg : Nat) (f : List Byte) :
    Option (PrintField × Except Fault Converted) × Nat × List Byte :=
  let (leftjust, padChar, f) := printFlags false (chr ' ') f
  let (fmin, leftjust, arg, f) := printWidth args arg leftjust f
  let padChar := if leftjust then chr ' ' else padChar
  let (prec, arg, f) := printPrec args arg f
  let (size, f) := printSize f
  match printConversion args size arg (peek f) with
  | some conv => (some (⟨leftjust, padChar, fmin, prec⟩, conv), arg + 1, f.tail)
  | none => (none, arg, f)

end

/-! ### Output -/

/-- `putc_func`: whether the call succeeded, and what it did. -/
abbrev Putc (σ : Type) := Byte → σ → Bool × σ

/-- How a loop may be left early: it returns `EOF`, or something is
written out of bounds. -/
inductive PrintStop (σ : Type) where
  | eof (out : σ)
  | fault (e : Fault)

/-- `chars_written`, and what was written. -/
structure Printing (σ : Type) where
  written : BitVec 32
  out : σ

section
variable {σ : Type} (putc : Putc σ)

/-- One character. -/
def putChar (p : Printing σ) (c : Byte) : Except (PrintStop σ) (Printing σ) :=
  if (putc c p.out).1 then .ok ⟨p.written + 1, (putc c p.out).2⟩ else .error (.eof (putc c p.out).2)

/-- The loops that write characters. -/
def putChars (l : List Byte) (p : Printing σ) : Except (PrintStop σ) (Printing σ) :=
  l.foldlM (putChar putc) p

/-- The loops that write `n` times the same character. -/
def putPadding (n : BitVec 32) (c : Byte) (p : Printing σ) : Except (PrintStop σ) (Printing σ) :=
  putChars putc (List.replicate n.toInt.toNat c) p

/-- A conversion in its field. -/
def putField (field : PrintField) (conv : Converted) (p : Printing σ) :
    Except (PrintStop σ) (Printing σ) := do
  let len : BitVec 32 := BitVec.ofNat 32 conv.str.length
  let precise := (0 : BitVec 32).sle field.prec
  let lenStr := if precise ∧ conv.base = 0 ∧ field.prec.slt len then field.prec else len
  let numZeroes :=
    if precise ∧ conv.base ≠ 0 ∧ lenStr.slt field.prec then field.prec - lenStr else 0
  let padChar := if precise ∧ conv.base ≠ 0 then chr ' ' else field.padChar
  let lenNonpadding := lenStr + numZeroes + if conv.sign then 1 else 0
  let lenPadding := if lenNonpadding.slt field.fmin then field.fmin - lenNonpadding else 0
  -- Zeroes on the left go between the sign and the number.
  let zeroes := field.leftjust = false ∧ padChar = chr '0'
  let numZeroes := if zeroes then lenPadding else numZeroes
  let lenPadding := if zeroes then 0 else lenPadding
  let p ← if field.leftjust then pure p else putPadding putc lenPadding padChar p
  let p ← putChars putc (if conv.sign then [chr '-'] else []) p
  let p ← putPadding putc numZeroes (chr '0') p
  let p ← putChars putc (conv.str.take lenStr.toInt.toNat) p
  if field.leftjust then putPadding putc lenPadding padChar p else return p

/-- The loop of `_doprnt` over the format. Its iterations are at most the
characters of the format. -/
def doprntLoop {abi : Abi} (args : PrintArgs abi) :
    Nat → List Byte → Nat → Printing σ → Except (PrintStop σ) (Printing σ)
  | 0, _, _, _ => .error (.fault .nontermination)
  | _ + 1, [], _, p => .ok p
  | fuel + 1, c :: f, arg, p =>
    if c = chr '%' ∧ peek f ≠ chr '%' then
      match printSpec args arg f with
      | (some (field, conv), arg, f) =>
        match conv with
        | .ok conv => do
          let p ← putField putc field conv p
          doprntLoop args fuel f arg p
        | .error e => .error (.fault e)
      | (none, arg, _) => do
        -- The `%` is written, and what follows it is read again.
        let p ← putChar putc p c
        doprntLoop args fuel f arg p
    else do
      -- The test has moved on to the second character of `%%`.
      let p ← putChar putc p c
      doprntLoop args fuel (if c = chr '%' then f.tail else f) arg p

/-- `_doprnt`: its result and what was written. -/
def doprnt {abi : Abi} (format : CString) (args : PrintArgs abi) (out : σ) :
    Except Fault (Int × σ) :=
  match doprntLoop putc args (format.bytes.length + 1) format.bytes 0 ⟨0, out⟩ with
  | .ok p => .ok (p.written.toInt, p.out)
  | .error (.eof out) => .ok (EOF, out)
  | .error (.fault e) => .error e

end

/-! ### `sprintf` -/

/-- `sprntf`: a character is added to the string. -/
def sprntf : Putc (List Byte) := fun c s => (true, s ++ [c])

/-- `sprintf(str, format, ...)`: its result and what it leaves in `str`.
The result is the length without a bound, where the source counts in an
`int`: the two differ from `2 ^ 31` characters on. -/
def sprintf {abi : Abi} (format : CString) (args : PrintArgs abi) :
    Except Fault (Int × List Byte) := do
  let (_, s) ← doprnt sprntf format args []
  return (s.length, s ++ [0])

end Xinu
