import Mathlib.Data.List.TakeWhile
import Xinu.System.Scan

/-!
# `Xinu.Abstract.Scan`: how an input matches a format

A format is a list of directives. What a directive takes from an input is
said here with list functions: the longest run of characters of a field,
and what is left after it. There is no push-back in this description, and
no pointer.

`Spec.take` is the field of one conversion. `scanList` goes through all
directives. `matchFormat` is the part of it that does not depend on where the
results are stored: which conversions match, and why the match ends.
`scanEnding` says whether the scan ends with a character that was read but
not taken, and `unconsumed` is the input that no directive takes.
-/

namespace Xinu

open List

/-! ### Directives -/

inductive Directive where
  /-- White space matches any amount of it. -/
  | space
  | literal (c : Byte)
  | conversion (spec : Spec)
  /-- The format ends in a conversion specification. -/
  | truncated

/-- The directives of a format that is shorter than `fuel`. -/
def directivesLoop : Nat → List Byte → List Directive
  | 0, _ => []
  | _ + 1, [] => []
  | fuel + 1, c :: f =>
    if c = chr '%' ∧ peek f ≠ chr '%' then
      match parseSpec f with
      | none => [.truncated]
      | some (spec, f) => .conversion spec :: directivesLoop fuel f
    else
      let f := if c = chr '%' then f.tail else f
      if isspace c then .space :: directivesLoop fuel (f.dropWhile isspace)
      else .literal c :: directivesLoop fuel f

def directives (format : CString) : List Directive :=
  directivesLoop (format.bytes.length + 1) format.bytes

/-! ### Fields -/

/-- What a conversion takes from the input. -/
structure Taken (abi : Abi) where
  matched : Bool
  /-- The field ended with the input. -/
  eof : Bool
  /-- What a pointer gets. -/
  data : Option (Stored abi)
  /-- The input after the field. -/
  rest : List Byte

/-- The longest run of at most `width` characters with the property. -/
def run (p : Byte → Bool) (width : Nat) (x : List Byte) : List Byte := (x.take width).takeWhile p

/-- The run ended because the input did. -/
def ranOut (p : Byte → Bool) (width : Nat) (x : List Byte) : Bool :=
  (run p width x).length < width ∧ (run p width x).length = x.length

section Run
variable {p : Byte → Bool} {width : Nat} {c : Byte} {x : List Byte}

@[simp] theorem run_zero : run p 0 x = [] := rfl

@[simp] theorem run_nil : run p width [] = [] := by rw [run, take_nil, takeWhile_nil]

theorem run_cons (h : p c = true) : run p (width + 1) (c :: x) = c :: run p width x := by
  rw [run, take_succ_cons, takeWhile_cons_of_pos h, run]

theorem run_cons_of_not (h : p c = false) : run p width (c :: x) = [] := by
  cases width with
  | zero => rfl
  | succ width => simp [run, h]

@[simp] theorem ranOut_zero : ranOut p 0 x = false := by simp [ranOut]

@[simp] theorem ranOut_nil : ranOut p (width + 1) [] = true := by simp [ranOut]

theorem ranOut_cons (h : p c = true) : ranOut p (width + 1) (c :: x) = ranOut p width x := by
  simp [ranOut, run_cons h]

theorem ranOut_cons_of_not (h : p c = false) : ranOut p width (c :: x) = false := by
  simp [ranOut, run_cons_of_not h]

/-- A run of all of the input. -/
theorem run_of_forall (h : ∀ c ∈ x, p c = true) (hlen : x.length ≤ width) : run p width x = x := by
  rw [run, take_of_length_le hlen]
  exact takeWhile_eq_self_iff.mpr h

theorem ranOut_of_forall (h : ∀ c ∈ x, p c = true) (hlen : x.length < width) :
    ranOut p width x = true := by
  rw [ranOut, run_of_forall h (Nat.le_of_lt hlen)]
  exact decide_eq_true ⟨hlen, rfl⟩

theorem length_run_le : (run p width x).length ≤ width :=
  Nat.le_trans (List.takeWhile_prefix p).length_le (length_take_le ..)

end Run

namespace Spec
variable (spec : Spec) {abi : Abi}

/-- The conversions that take characters as they are. -/
def isString : Bool := spec.type = chr '[' ∨ spec.type = chr 'c' ∨ spec.type = chr 's'

/-- The width of a field of characters. -/
def width : Nat :=
  if spec.type = chr 'c' ∧ spec.maxlen = UNLIMITED_LENGTH then 1 else spec.maxlen.toNat

/-- The characters of such a field. -/
def accepts (c : Byte) : Bool :=
  ¬((spec.type = chr '[' ∧ spec.stopchar c) ∨ (spec.type = chr 's' ∧ isspace c))

/-- A field of characters. -/
def takeString (x : List Byte) : Taken abi where
  matched := run spec.accepts spec.width x ≠ [] ∧
    ¬(spec.type = chr 'c' ∧ (run spec.accepts spec.width x).length < spec.width)
  eof := ranOut spec.accepts spec.width x
  data := some (.chars (run spec.accepts spec.width x) (spec.type ≠ chr 'c'))
  rest := x.drop (run spec.accepts spec.width x).length

end Spec

def isSign (c : Byte) : Bool := c = chr '-' ∨ c = chr '+'

def isDigitOf (base : Nat) (c : Byte) : Bool := (digit base (tolower c)).isSome

/-- The number with one more digit, modulo the size of a `long`. -/
def pushDigit {abi : Abi} (base : Nat) (n : abi.Ulong) (c : Byte) : abi.Ulong :=
  n * BitVec.ofNat _ base + BitVec.ofNat _ ((digit base (tolower c)).getD 0)

/-- The value of a row of digits. -/
def digitsValue {abi : Abi} (base : Nat) (l : List Byte) : abi.Ulong := l.foldl (pushDigit base) 0

namespace Spec
variable (spec : Spec) {abi : Abi}

def base : Nat := scanBase spec.type

/-- The number of digits that may be taken. The width counts the sign, but
one digit is always taken. -/
def digitWidth (sign : Bool) : Nat := max 1 (spec.maxlen.toNat - if sign then 1 else 0)

/-- The digits of a number, after the sign if there was one. -/
def takeDigits (sign : Option Byte) (x : List Byte) : Taken abi :=
  let l := run (isDigitOf spec.base) (spec.digitWidth sign.isSome) x
  let n : abi.Ulong := digitsValue spec.base l
  { matched := l ≠ []
    eof := ranOut (isDigitOf spec.base) (spec.digitWidth sign.isSome) x
    data := if l = [] then none
      else some (storeNumber spec.size (if sign = some (chr '-') then -n else n))
    rest := x.drop l.length }

/-- A number. -/
def takeNumber : List Byte → Taken abi
  | [] => ⟨false, true, none, []⟩
  | c :: x => if isSign c then spec.takeDigits (some c) x else spec.takeDigits none (c :: x)

/-- The field of a conversion. White space before it is skipped, except
for `%c` and `%[`. -/
def take (x : List Byte) : Taken abi :=
  if spec.type = chr '[' ∨ spec.type = chr 'c' then spec.takeString x
  else
    match x.dropWhile isspace with
    | [] => ⟨false, true, none, []⟩
    | x => if spec.type = chr 's' then spec.takeString x else spec.takeNumber x

end Spec

/-- What `scan_number_or_string` reports about a field. Without a pointer
it does not report that a number matched. -/
def Taken.field {abi : Abi} (t : Taken abi) (assign isString : Bool) : Field abi where
  matched := t.matched ∧ (assign ∨ isString)
  eof := t.eof
  stored := if assign then t.data else none

/-! ### All directives -/

/-- What a scan of the list returns, and what it leaves. -/
def scanList {abi : Abi} (ap : Nat → abi.Ulong) :
    List Directive → ScanState abi → List Byte → Scanned abi × List Byte
  | [], st, x => (st.returns .done st.nmatch, x)
  | .truncated :: _, st, x => (st.returns .truncated st.nmatch, x)
  | .space :: ds, st, x =>
    match x.dropWhile isspace with
    | [] => (st.returns .eof st.orEof, [])
    | x => scanList ap ds st.next x
  | .literal _ :: _, st, [] => (st.returns .eof st.orEof, [])
  | .literal c :: ds, st, d :: x =>
    if d ≠ c then (st.returns .mismatch st.nmatch, x) else scanList ap ds st.next x
  | .conversion spec :: ds, st, x =>
    let ptr := if spec.star then 0 else ap st.arg
    let t : Taken abi := spec.take x
    let field := t.field (ptr ≠ 0) spec.isString
    match (st.record spec.star ptr field).conclude st.arg ptr field with
    | .inl scanned => (scanned, t.rest)
    | .inr st => scanList ap ds st t.rest

/-- How an input matches a format: the conversions that match, by the
number of their argument, and why the match ends. `failed` is the
conversion that the input does not match, if that is why. -/
structure Match where
  matched : List Nat
  stop : Stop
  failed : Option Nat
deriving DecidableEq

/-- One more conversion has matched. -/
def Match.cons (n : Nat) (m : Match) : Match := { m with matched := n :: m.matched }

/-- The match of an input, from argument `n` on. -/
def matchFormat (abi : Abi) : Nat → List Directive → List Byte → Match
  | _, [], _ => ⟨[], .done, none⟩
  | _, .truncated :: _, _ => ⟨[], .truncated, none⟩
  | n, .space :: ds, x =>
    match x.dropWhile isspace with
    | [] => ⟨[], .eof, none⟩
    | x => matchFormat abi n ds x
  | _, .literal _ :: _, [] => ⟨[], .eof, none⟩
  | n, .literal c :: ds, d :: x =>
    if d ≠ c then ⟨[], .mismatch, none⟩ else matchFormat abi n ds x
  | n, .conversion spec :: ds, x =>
    let t : Taken abi := spec.take x
    if spec.star then
      if t.eof then ⟨[], .eof, none⟩ else matchFormat abi n ds t.rest
    else if t.matched then
      if t.eof then ⟨[n], .eof, none⟩ else (matchFormat abi (n + 1) ds t.rest).cons n
    else if t.eof then ⟨[], .eof, none⟩
    else ⟨[], .mismatch, some n⟩

/-! ### What is left unread -/

/-- The run ended at a character that does not belong to it. -/
def stopped (p : Byte → Bool) (width : Nat) (x : List Byte) : Bool :=
  (run p width x).length < width ∧ (run p width x).length < x.length

section Stopped
variable {p : Byte → Bool} {width : Nat} {c : Byte} {x : List Byte}

@[simp] theorem stopped_zero : stopped p 0 x = false := by simp [stopped]

@[simp] theorem stopped_nil : stopped p width [] = false := by simp [stopped]

theorem stopped_cons (h : p c = true) : stopped p (width + 1) (c :: x) = stopped p width x := by
  simp [stopped, run_cons h]

theorem stopped_cons_of_not (h : p c = false) : stopped p (width + 1) (c :: x) = true := by
  simp [stopped, run_cons_of_not h]

end Stopped

/-- The field of a conversion ended at a character that was read and put
back. -/
def Spec.putsBack (spec : Spec) (x : List Byte) : Bool :=
  if spec.type = chr '[' ∨ spec.type = chr 'c' then stopped spec.accepts spec.width x
  else
    match x.dropWhile isspace with
    | [] => false
    | c :: x =>
      if spec.type = chr 's' then stopped spec.accepts spec.width (c :: x)
      else if isSign c then stopped (isDigitOf spec.base) (spec.digitWidth true) x
      else stopped (isDigitOf spec.base) (spec.digitWidth false) (c :: x)

/-- How a scan ends: with nothing read but what it took, with a character
that was put back, or at a character that is not the literal. -/
inductive Ending where
  | clean
  | lookahead
  | literal
deriving DecidableEq

/-- The end of a scan between two directives. -/
def Ending.between (put : Bool) : Ending := if put then .lookahead else .clean

theorem Ending.between_eq {put : Bool} : Ending.between put = .lookahead ↔ put = true := by
  cases put <;> decide

section Device
variable {abi : Abi} (ap : Nat → abi.Ulong)

/-- The scan goes on after the conversion for argument `n`. -/
def Spec.goesOn (spec : Spec) (n : Nat) (x : List Byte) : Bool :=
  let t : Taken abi := spec.take x
  !t.eof && (t.matched || decide ((if spec.star then 0 else ap n) = 0))

/-- How a scan of the list ends, from argument `n` on. `put` says that the
next character has been put back. -/
def scanEnding : List Directive → Nat → Bool → List Byte → Ending
  | [], _, put, _ => .between put
  | .truncated :: _, _, put, _ => .between put
  | .space :: ds, n, _, x =>
    match x.dropWhile isspace with
    | [] => .clean
    | x => scanEnding ds n true x
  | .literal _ :: _, _, _, [] => .clean
  | .literal c :: ds, n, _, d :: x => if d ≠ c then .literal else scanEnding ds n false x
  | .conversion spec :: ds, n, _, x =>
    if spec.goesOn ap n x then
      scanEnding ds (if spec.star then n else n + 1) (spec.putsBack x)
        (spec.take x : Taken abi).rest
    else .between (spec.putsBack x)

/-- What no directive of the list consumes. A literal does not consume a
character that it does not match. -/
def unconsumed : List Directive → Nat → List Byte → List Byte
  | [], _, x => x
  | .truncated :: _, _, x => x
  | .space :: ds, n, x =>
    match x.dropWhile isspace with
    | [] => []
    | x => unconsumed ds n x
  | .literal _ :: _, _, [] => []
  | .literal c :: ds, n, d :: x => if d ≠ c then d :: x else unconsumed ds n x
  | .conversion spec :: ds, n, x =>
    if spec.goesOn ap n x then
      unconsumed ds (if spec.star then n else n + 1) (spec.take x : Taken abi).rest
    else (spec.take x : Taken abi).rest

end Device

end Xinu
