import Xinu.System.Scan
import Xinu.System.Sort

/-!
# `Xinu.System.Stdio`: reading lines

`fgetc` and `fgets` of `libxc`. A device is the list of the characters that
it has still to deliver. After them it returns `EOF` at every call. The
buffer is in memory, where a store outside of what is mapped is a fault.

`getLines` is a caller of `fgets`. It calls it with the same buffer until
the result is `NULL`.
-/

namespace Xinu.Stdio

/-- `getc(dev)`: a character is returned as an `unsigned char`. -/
def getc : List Byte → Int × List Byte
  | [] => (EOF, [])
  | c :: dev => (c.toNat, dev)

/-- `fgetc(dev)`. -/
def fgetc (dev : List Byte) : Int × List Byte :=
  let (c, dev) := getc dev
  -- The first test is the one for `SYSERR`.
  if c = -1 ∨ c = EOF then (EOF, dev) else ((BitVec.ofInt 8 c).toNat, dev)

/-- The variables of `fgets`, with the memory and the device. -/
structure LineState where
  c : Int
  cs : Ulong64
  m : Bytes
  dev : List Byte

/-- The loop of `fgets`, for the number of rounds that the size allows. -/
def fgetsLoop : Nat → LineState → Except Fault LineState
  | 0, st => .ok st
  | n + 1, st => do
    let (c, dev) := fgetc st.dev
    if c ≠ EOF then
      let m ← st.m.store st.cs (BitVec.ofInt 8 c)
      let st := ⟨c, st.cs + 1, m, dev⟩
      if (chr '\n').toNat = c then return st else fgetsLoop n st
    else return { st with c := c, dev := dev }

/-- `fgets(s, n, dev)`: its result, none for `NULL`, with the memory and
the device that it leaves. -/
def fgets (s : Ulong64) (n : BitVec 32) (m : Bytes) (dev : List Byte) :
    Except Fault (Option Ulong64 × Bytes × List Byte) := do
  let st ← fgetsLoop (n.toInt - 1).toNat ⟨EOF, s, m, dev⟩
  if st.c = EOF ∧ st.cs = s then return (none, st.m, st.dev)
  else
    let m ← st.m.store st.cs 0
    return (some s, m, st.dev)

/-- The results of `fgets` before the `NULL`, each with the memory after
the call, and the memory after the last call. `fuel` bounds the number of
the calls. -/
def getLines (s : Ulong64) (n : BitVec 32) :
    Nat → Bytes → List Byte → Except Fault (List (Ulong64 × Bytes) × Bytes)
  | 0, _, _ => .error .nontermination
  | fuel + 1, m, dev => do
    let (r, m, dev) ← fgets s n m dev
    match r with
    | none => return ([], m)
    | some p =>
      let (calls, last) ← getLines s n fuel m dev
      return ((p, m) :: calls, last)

end Xinu.Stdio
