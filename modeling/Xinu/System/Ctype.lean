import Mathlib.Data.List.Basic
import Mathlib.Data.Nat.Notation

/-!
# `Xinu.System.Ctype`: bytes, C strings and character classes

The character table of `ctype_.c` and the macros of `ctype.h` that the
formatted input and output functions use. They take their argument as an
`unsigned char`.

The C library is built for two ports. `long` has 32 bits on one and 64 on
the other, and `int` has 32 on both.
-/

namespace Xinu

/-- `unsigned char`. -/
abbrev Byte := BitVec 8

/-- `uint`, on both ports. -/
abbrev Uint := BitVec 32

/-- The characters of a C string. -/
structure CString where
  bytes : List Byte
  nonzero : ∀ b ∈ bytes, b ≠ 0

/-- The bytes of a C string in memory. -/
def CString.encode (s : CString) : List Byte := s.bytes ++ [0]

/-- The empty string has no `NUL` before its end. -/
theorem CString.nonzero_nil : ∀ b ∈ ([] : List Byte), b ≠ 0 :=
  fun _ h => absurd h List.not_mem_nil

/-- The sizes of the integer types. -/
inductive Abi where
  | ilp32
  | lp64
deriving DecidableEq

/-- The number of bits of a `long`, and of a pointer. -/
def Abi.bits : Abi → Nat
  | ilp32 => 32
  | lp64 => 64

/-- `unsigned long`. -/
abbrev Abi.Ulong (abi : Abi) := BitVec abi.bits

/-- The byte of a character. -/
def chr (c : Char) : Byte := BitVec.ofNat 8 c.toNat

/-! ### `ctype.h` -/

def CTYPE_U : Byte := 0x01
def CTYPE_L : Byte := 0x02
def CTYPE_N : Byte := 0x04
def CTYPE_S : Byte := 0x08
def CTYPE_P : Byte := 0x10
def CTYPE_C : Byte := 0x20
def CTYPE_X : Byte := 0x40

/-- The first half of `_ctype_`. The second half is zero. -/
def ctypeTable : List Byte :=
  List.replicate 9 CTYPE_C ++ List.replicate 5 (CTYPE_C ||| CTYPE_S) ++
    List.replicate 18 CTYPE_C ++ [CTYPE_S] ++ List.replicate 15 CTYPE_P ++
    List.replicate 10 CTYPE_N ++ List.replicate 7 CTYPE_P ++
    List.replicate 6 (CTYPE_U ||| CTYPE_X) ++ List.replicate 20 CTYPE_U ++
    List.replicate 6 CTYPE_P ++ List.replicate 6 (CTYPE_L ||| CTYPE_X) ++
    List.replicate 20 CTYPE_L ++ List.replicate 4 CTYPE_P ++ [CTYPE_C]

def ctype (c : Byte) : Byte := ctypeTable.getD c.toNat 0

def isspace (c : Byte) : Bool := ctype c &&& CTYPE_S ≠ 0

def isdigit (c : Byte) : Bool := ctype c &&& CTYPE_N ≠ 0

def isupper (c : Byte) : Bool := ctype c &&& CTYPE_U ≠ 0

def tolower (c : Byte) : Byte := if isupper c then c + (chr 'a' - chr 'A') else c

end Xinu
