import Mathlib.Logic.Function.Basic
import Xinu.Lib.Pushback
import Xinu.System.Ctype

/-!
# `Xinu.System.Scan`: formatted input

`_doscan` of `doscan.c` with its helpers, and the two ways to call it:
`sscanf` reads a string and `fscanf` a device. `_doscan` gets its input
through the functions `getch` and `ungetch` that it is given, so it is a
program over these two calls. The result of `getch` is a byte or `EOF`.

A format is a C string: the end of the list is its terminating `NUL`. The
arguments are the pointers `ap 0`, `ap 1`, and so on. What is stored
through them is returned as a list.

The loops over the input go on as long as the input does. They take the
number of their iterations as `limit`.
-/

namespace Xinu

open Lib (Prog Stream)

/-- The character at a pointer into the format. -/
def peek (f : List Byte) : Byte := f.headD 0

/-- `enum integer_size`. -/
inductive IntegerSize where
  | short
  | regular
  | long
deriving DecidableEq

/-- `UNLIMITED_LENGTH`. -/
def UNLIMITED_LENGTH : Uint := ~~~0

/-- `EOF`, `stddef.h`. -/
def EOF : Int := -2

/-- What is stored through a pointer: characters, with a `NUL` after them
or not, or a number. -/
inductive Stored (abi : Abi) where
  | chars (l : List Byte) (nul : Bool)
  | short (n : BitVec 16)
  | int (n : BitVec 32)
  | long (n : abi.Ulong)
deriving DecidableEq

/-! ### Conversion specifications -/

/-- A conversion specification, after `%`. -/
structure Spec where
  /-- Assignment is suppressed. -/
  star : Bool
  maxlen : Uint
  size : IntegerSize
  type : Byte
  /-- `stopchar_tab`. -/
  stopchar : Byte → Bool

/-- The digits of the maximum length. -/
def parseMaxlen : Uint → List Byte → Uint × List Byte
  | maxlen, [] => (maxlen, [])
  | maxlen, c :: f =>
    if isdigit c then parseMaxlen (maxlen * 10 + (c.setWidth 32 - (chr '0').setWidth 32)) f
    else (maxlen, c :: f)

/-- The number size modifier. -/
def parseSize (f : List Byte) : IntegerSize × List Byte :=
  if peek f = chr 'l' then (.long, f.tail)
  else if peek f = chr 'h' then (.short, f.tail)
  else (.regular, f)

/-- The loop of `build_stopchar_tab`. -/
def stopcharLoop (fill : Bool) : Bool → (Byte → Bool) → List Byte → (Byte → Bool) × List Byte
  | _, tab, [] => (tab, [])
  | first, tab, c :: f =>
    if c = chr ']' ∧ first = false then (tab, f)
    else stopcharLoop fill false (Function.update tab c fill) f

/-- `build_stopchar_tab`. -/
def buildStopcharTab (f : List Byte) : (Byte → Bool) × List Byte :=
  if peek f = chr '^' then stopcharLoop true true (fun _ => false) f.tail
  else stopcharLoop false true (fun _ => true) f

/-- The conversion specification at the start of `f`, after the optional
`*`, and the format after it. There is none when the format ends before
its conversion specifier. -/
def parseConversion (star : Bool) (f : List Byte) : Option (Spec × List Byte) :=
  let (maxlen, f) := parseMaxlen 0 f
  let maxlen := if maxlen = 0 then UNLIMITED_LENGTH else maxlen
  let (size, f) := parseSize f
  match f with
  | [] => none
  | c :: f =>
    if c = chr '[' then
      let (stopchar, f) := buildStopcharTab f
      some (⟨star, maxlen, size, c, stopchar⟩, f)
    else if isupper c then some (⟨star, maxlen, .long, tolower c, fun _ => false⟩, f)
    else some (⟨star, maxlen, size, c, fun _ => false⟩, f)

/-- The conversion specification at the start of `f`. -/
def parseSpec (f : List Byte) : Option (Spec × List Byte) :=
  if peek f = chr '*' then parseConversion true f.tail else parseConversion false f

/-! ### Scanning one field -/

/-- `do c = getch(); while (isspace(c))`, up to the end of the input. -/
def skipSpace : Nat → Prog Byte (Option Byte)
  | 0 => .stuck
  | limit + 1 => .getch fun
    | none => .ret none
    | some c => if isspace c then skipSpace limit else .ret (some c)

/-- The loop of `scan_string`. It returns the length, whether the input
ended, and the characters. -/
def scanStringLoop (type : Byte) (stopchar : Byte → Bool) (maxlen : Uint) :
    Nat → Uint → List Byte → Prog Byte (Uint × Bool × List Byte)
  | 0, _, _ => .stuck
  | limit + 1, len, l =>
    if len < maxlen then
      .getch fun
        | none => .ret (len, true, l)
        | some c =>
          if (type = chr '[' ∧ stopchar c) ∨ (type = chr 's' ∧ isspace c) then
            .ungetch (.ret (len, false, l))
          else scanStringLoop type stopchar maxlen limit (len + 1) (l ++ [c])
    else .ret (len, false, l)

/-- What a scan reports: whether it matched, whether the input ended, and
what it stored. -/
structure Field (abi : Abi) where
  matched : Bool
  eof : Bool
  stored : Option (Stored abi)

/-- `scan_string`. `assign` says that the pointer is not `NULL`. -/
def scanString {abi : Abi} (limit : Nat) (assign : Bool) (type : Byte) (maxlen : Uint)
    (stopchar : Byte → Bool) : Prog Byte (Field abi) := do
  let maxlen := if type = chr 'c' ∧ maxlen = UNLIMITED_LENGTH then 1 else maxlen
  let (len, eof, l) ← scanStringLoop type stopchar maxlen limit 0 []
  let stored := if assign then some (.chars l (type ≠ chr 'c')) else none
  return ⟨len ≠ 0 ∧ ¬ (type = chr 'c' ∧ len < maxlen), eof, stored⟩

/-- The value of a digit: the `switch` over the base, with its cases
falling through. -/
def digit (base : Nat) (c : Byte) : Option Nat :=
  if base = 16 ∧ chr 'a' ≤ c ∧ c ≤ chr 'f' then some (0xA + (c.toNat - (chr 'a').toNat))
  else if (base = 16 ∨ base = 10) ∧ chr '8' ≤ c ∧ c ≤ chr '9' then
    some (c.toNat - (chr '0').toNat)
  else if chr '0' ≤ c ∧ c ≤ chr '7' then some (c.toNat - (chr '0').toNat)
  else none

/-- The loop over the digits of a number. It returns the length, the
number, and whether the input ended. -/
def digitLoop {abi : Abi} (base : Nat) (maxlen : Uint) :
    Nat → Option Byte → Uint → abi.Ulong → Prog Byte (Uint × abi.Ulong × Bool)
  | 0, _, _, _ => .stuck
  | _ + 1, none, len, n => .ret (len, n, true)
  | limit + 1, some c, len, n =>
    match digit base (tolower c) with
    | some d =>
      let n := n * BitVec.ofNat _ base + BitVec.ofNat _ d
      let len := len + 1
      if maxlen ≤ len then .ret (len, n, false)
      else .getch fun c => digitLoop base maxlen limit c len n
    | none => .ungetch (.ret (len, n, false))

/-- `*ptr = n`, for the size of the number. -/
def storeNumber {abi : Abi} : IntegerSize → abi.Ulong → Stored abi
  | .short, n => .short (n.setWidth 16)
  | .regular, n => .int (n.setWidth 32)
  | .long, n => .long n

/-- The optional sign and the digits of a number, from its first character
on. -/
def scanDigits {abi : Abi} (limit base : Nat) (maxlen : Uint) (c : Byte) :
    Prog Byte (Uint × abi.Ulong × Bool) :=
  if c = chr '-' ∨ c = chr '+' then .getch fun c => digitLoop base maxlen limit c 1 0
  else digitLoop base maxlen limit (some c) 0 0

/-- The numbers of `scan_number_or_string`, from their first character
on. -/
def scanNumber {abi : Abi} (limit : Nat) (assign : Bool) (base : Nat) (maxlen : Uint)
    (size : IntegerSize) (c : Byte) : Prog Byte (Field abi) := do
  let (len, n, eof) ← scanDigits limit base maxlen c
  let hadSign := c = chr '-' ∨ c = chr '+'
  return if assign ∧ len ≠ 0 ∧ ¬ (hadSign ∧ len = 1) then
      ⟨true, eof, some (storeNumber size (if c = chr '-' then -n else n))⟩
    else ⟨false, eof, none⟩

/-- The base of a conversion. -/
def scanBase (type : Byte) : Nat :=
  if type = chr 'o' then 8 else if type = chr 'x' then 16 else 10

/-- `scan_number_or_string`. -/
def scanNumberOrString {abi : Abi} (limit : Nat) (assign : Bool) (spec : Spec) :
    Prog Byte (Field abi) :=
  if spec.type = chr '[' ∨ spec.type = chr 'c' then
    scanString limit assign spec.type spec.maxlen spec.stopchar
  else do
    match ← skipSpace limit with
    | none => return ⟨false, true, none⟩
    | some c =>
      if spec.type = chr 's' then
        .ungetch (scanString limit assign spec.type spec.maxlen spec.stopchar)
      else scanNumber limit assign (scanBase spec.type) spec.maxlen spec.size c

/-! ### `_doscan` -/

/-- Why a scan stopped: at the end of the format, inside a conversion
specification, at the end of the input, or at input that does not
match. -/
inductive Stop where
  | done
  | truncated
  | eof
  | mismatch
deriving DecidableEq

/-- A store, through the pointer that is argument `arg`. -/
structure Store (abi : Abi) where
  arg : Nat
  ptr : abi.Ulong
  data : Stored abi
deriving DecidableEq

/-- The state of `_doscan` between two directives. The variable `nmatch`
is the length of `matched`, which lists the arguments that were
matched. -/
structure ScanState (abi : Abi) where
  /-- The directives done. -/
  directives : Nat
  /-- The next argument. -/
  arg : Nat
  matched : List Nat
  stores : List (Store abi)

namespace ScanState

variable {abi : Abi}

/-- `nmatch`. -/
def nmatch (st : ScanState abi) : Nat := st.matched.length

/-- `(nmatch == 0) ? EOF : nmatch`. -/
def orEof (st : ScanState abi) : Int := if st.nmatch = 0 then EOF else st.nmatch

/-- A directive is done. -/
def next (st : ScanState abi) : ScanState abi := { st with directives := st.directives + 1 }

end ScanState

/-- What `_doscan` returns and stored, and where and why it stopped. -/
structure Scanned (abi : Abi) where
  result : Int
  stores : List (Store abi)
  matched : List Nat
  directives : Nat
  stop : Stop
  /-- The argument whose conversion did not match, if that was why. -/
  failed : Option Nat
deriving DecidableEq

/-- `_doscan` returns. -/
def ScanState.returns {abi : Abi} (st : ScanState abi) (stop : Stop) (result : Int) : Scanned abi :=
  ⟨result, st.stores, st.matched, st.directives, stop, none⟩

/-- The state after a conversion reported `field`. -/
def ScanState.record {abi : Abi} (st : ScanState abi) (star : Bool) (ptr : abi.Ulong)
    (field : Field abi) : ScanState abi where
  directives := st.directives
  arg := if star then st.arg else st.arg + 1
  matched := if field.matched ∧ ptr ≠ 0 then st.matched ++ [st.arg] else st.matched
  stores := st.stores ++ (field.stored.map fun data => ⟨st.arg, ptr, data⟩).toList

/-- What `_doscan` does after the conversion for argument `arg` reported
`field`: it returns, or goes on with the next directive. -/
def ScanState.conclude {abi : Abi} (st : ScanState abi) (arg : Nat) (ptr : abi.Ulong)
    (field : Field abi) : Scanned abi ⊕ ScanState abi :=
  if field.matched then
    if field.eof then .inl (st.returns .eof st.orEof) else .inr st.next
  else if ptr ≠ 0 ∨ field.eof then
    if field.eof then .inl (st.returns .eof st.orEof)
    else .inl { st.returns .mismatch st.nmatch with failed := some arg }
  else .inr st.next

/-- The loop of `_doscan` over the format. Its iterations are at most the
characters of the format. -/
def doscanLoop {abi : Abi} (limit : Nat) (ap : Nat → abi.Ulong) :
    Nat → List Byte → ScanState abi → Prog Byte (Scanned abi)
  | 0, _, _ => .stuck
  | _ + 1, [], st => .ret (st.returns .done st.nmatch)
  | fuel + 1, c :: f, st =>
    if c = chr '%' ∧ peek f ≠ chr '%' then
      match parseSpec f with
      | none => .ret (st.returns .truncated st.nmatch)
      | some (spec, f) => do
        let ptr := if spec.star then 0 else ap st.arg
        let field ← scanNumberOrString limit (ptr ≠ 0) spec
        match (st.record spec.star ptr field).conclude st.arg ptr field with
        | .inl scanned => return scanned
        | .inr st => doscanLoop limit ap fuel f st
    else
      -- The test has moved on to the second character of `%%`.
      let f := if c = chr '%' then f.tail else f
      if isspace c then do
        match ← skipSpace limit with
        | none => return st.returns .eof st.orEof
        | some _ => .ungetch (doscanLoop limit ap fuel (f.dropWhile isspace) st.next)
      else .getch fun
        | none => .ret (st.returns .eof st.orEof)
        | some d =>
          if d ≠ c then .ret (st.returns .mismatch st.nmatch)
          else doscanLoop limit ap fuel f st.next

/-- `_doscan`. -/
def doscan {abi : Abi} (limit : Nat) (format : CString) (ap : Nat → abi.Ulong) :
    Prog Byte (Scanned abi) :=
  doscanLoop limit ap (format.bytes.length + 1) format.bytes ⟨0, 0, [], []⟩

/-! ### `sscanf` and `fscanf` -/

/-- A position in a string: the characters before it, the last one first,
and those after it. -/
structure StringPos where
  before : List Byte
  after : List Byte

/-- `sgetch`. -/
def sgetch : StringPos → Option Byte × StringPos
  | ⟨before, []⟩ => (none, ⟨before, []⟩)
  | ⟨before, c :: after⟩ => (some c, ⟨c :: before, after⟩)

/-- `sungetch`. There is nothing before the start of the string. -/
def sungetch : StringPos → Option StringPos
  | ⟨[], _⟩ => none
  | ⟨c :: before, after⟩ => some ⟨before, c :: after⟩

/-- `sscanf(str, format, ...)`. -/
def sscanf {abi : Abi} (limit : Nat) (str format : CString) (ap : Nat → abi.Ulong) :
    Option (Scanned abi) :=
  ((doscan limit format ap).run ⟨sgetch, sungetch⟩ ⟨[], str.bytes⟩).map Prod.fst

/-- A device, with what it has still to deliver before `EOF`, and the
`struct ch_buf` of `fscanf`. -/
structure ChBuf where
  dev : List Byte
  chAvail : Bool
  c : Byte

/-- `getch` of `fscanf.c`. -/
def getch (buf : ChBuf) : Option Byte × ChBuf :=
  if buf.chAvail then (some buf.c, { buf with chAvail := false })
  else
    match buf.dev with
    | [] => (none, buf)
    | c :: dev => (some c, { buf with dev := dev, c := c })

/-- `ungetch` of `fscanf.c`. -/
def ungetch (buf : ChBuf) : Option ChBuf := some { buf with chAvail := true }

/-- `fscanf(dev, format, ...)`. The character in the buffer is whatever
was on the stack. -/
def fscanf {abi : Abi} (limit : Nat) (dev : List Byte) (junk : Byte) (format : CString)
    (ap : Nat → abi.Ulong) : Option (Scanned abi) :=
  ((doscan limit format ap).run ⟨getch, ungetch⟩ ⟨dev, false, junk⟩).map Prod.fst

/-- `fscanf`, with what the device has left to deliver afterwards. The
`struct ch_buf` is on the stack of the call and is gone. -/
def fscanfOn {abi : Abi} (limit : Nat) (dev : List Byte) (junk : Byte) (format : CString)
    (ap : Nat → abi.Ulong) : Option (Scanned abi × List Byte) :=
  ((doscan limit format ap).run ⟨getch, ungetch⟩ ⟨dev, false, junk⟩).map fun r => (r.1, r.2.dev)

/-- `fgetc(dev)`: the next character of the device or `EOF`, and what the
device has left. -/
def fgetc (dev : List Byte) : Option Byte × List Byte := (dev.head?, dev.tail)

end Xinu
