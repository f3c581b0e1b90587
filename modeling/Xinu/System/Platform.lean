import Xinu.System.Dtb

/-!
# `Xinu.System.Platform`: the platform record of the device tree

The handlers of `dtb.c`, which fill in the platform record from the
properties of the device tree, the string functions of the C library that
they call, and `parseDtbNodes` with these calls in place. A read outside
the mapped memory is a fault, and so is a write outside of a buffer of the
record. The names that the handlers compare with are constants of the
program, which can always be read.

The fields `uart_addr`, `uart_clock` and `manufacturer` are not in
`platform.h`. They are taken as `dtb.c` uses them, the last with as many
bytes as it copies there. The fields that `dtb.c` does not set are left
out.

`dtb_read_long` shifts a `uint` by 32, the number of its bits. The C
language leaves the result open. The instruction `sllw` takes the amount
modulo 32 and gives the operand, and a compiler that computes the constant
may give 0. The model has the result as a parameter, `shl`.
-/

namespace Xinu

/-- The characters of a string constant, without the NUL. -/
def literal (l : List Char) : List Byte := l.map chr

namespace Bytes

/-- A load of a `ulong`. -/
def ulong (m : Bytes) (a : Ulong64) : Except Fault Ulong64 := do
  let low ← m.uint a
  let high ← m.uint (a + 4)
  return high ++ low

/-- `strncmp(s1, s2, n)` with a string constant `s2`. -/
def strncmp (m : Bytes) : Ulong64 → List Byte → Nat → Except Fault Int
  | _, _, 0 => return 0
  | s1, s2, n + 1 => do
    let c ← m.byte s1
    if c = 0 ∨ c ≠ s2.headD 0 then return c.toNat - (s2.headD 0).toNat
    else m.strncmp (s1 + 1) s2.tail n

/-- `strcmp(s1, s2)` with a string constant `s2`. -/
def strcmp (m : Bytes) : Ulong64 → List Byte → Except Fault Int
  | s1, [] => do
    -- The NUL of `s2` ends the loop, whatever the other byte is.
    let c ← m.byte s1
    return c.toNat
  | s1, d :: s2 => do
    let c ← m.byte s1
    if c = d ∧ c ≠ 0 then m.strcmp (s1 + 1) s2 else return c.toNat - d.toNat

/-- The loop of `strnlen`, with `room` characters up to the limit. The
character is read before the limit is checked. -/
def strnlenLoop (m : Bytes) (s : Ulong64) : Nat → Ulong64 → Except Fault Ulong64
  | 0, n => do
    let _ ← m.byte (s + n)
    return n
  | room + 1, n => do
    if (← m.byte (s + n)) ≠ 0 then m.strnlenLoop s room (n + 1) else return n

/-- `strnlen(s, maxlen)`. -/
def strnlen (m : Bytes) (s : Ulong64) (maxlen : Nat) : Except Fault Ulong64 :=
  m.strnlenLoop s maxlen 0

/-- The loop of `strrchr`. -/
def strrchrLoop (m : Bytes) (ch : Byte) : Nat → Ulong64 → Ulong64 → Except Fault Ulong64
  | 0, _, _ => .error .nontermination
  | fuel + 1, s, r => do
    let c ← m.byte s
    let r := if c = ch then s else r
    if c ≠ 0 then m.strrchrLoop ch fuel (s + 1) r else return r

/-- `strrchr(s, c)`. -/
def strrchr (m : Bytes) (fuel : Nat) (s : Ulong64) (c : Byte) : Except Fault Ulong64 :=
  m.strrchrLoop c fuel s 0

/-- The `n` bytes that `strncpy(dest, src, n)` writes. Here too the
character is read before the limit is checked. -/
def strncpy (m : Bytes) : Ulong64 → Nat → Except Fault (List Byte)
  | src, 0 => do
    let _ ← m.byte src
    return []
  | src, n + 1 => do
    let c ← m.byte src
    if c ≠ 0 then return c :: (← m.strncpy (src + 1) n) else return List.replicate (n + 1) 0

end Bytes

/-! ### The record -/

def PLT_STRMAX : Nat := 18

/-- A `char` array of `PLT_STRMAX` bytes. -/
abbrev Buffer := Fin PLT_STRMAX → Byte

/-- The bytes are written to the buffer from its start on. -/
def Buffer.store (b : Buffer) (l : List Byte) : Except Fault Buffer :=
  if l.length ≤ PLT_STRMAX then .ok fun i => l.getD i (b i) else .error .outOfBounds

/-- The fields of `struct platform` that the device tree sets. -/
structure Platform where
  family : Buffer
  manufacturer : Buffer
  minaddr : Ulong64
  maxaddr : Ulong64
  uartAddr : Ulong64
  uartClock : Uint

/-- The record before `platforminit`. -/
def Platform.zero : Platform := ⟨fun _ => 0, fun _ => 0, 0, 0, 0, 0⟩

/-! ### The handlers -/

namespace Dtb

/-- The start of the name of a memory node. -/
def memoryAt : List Byte := literal ['m', 'e', 'm', 'o', 'r', 'y', '@']

/-- The start of the name of a UART. -/
def uartAt : List Byte := literal ['u', 'a', 'r', 't', '@']

def reg : List Byte := literal ['r', 'e', 'g']

def clockFrequency : List Byte :=
  literal ['c', 'l', 'o', 'c', 'k', '-', 'f', 'r', 'e', 'q', 'u', 'e', 'n', 'c', 'y']

def model : List Byte := literal ['m', 'o', 'd', 'e', 'l']

/-- `dtb_read_long(dataptr)`. The two halves of the sum come from the same
half of the word. -/
def dtbReadLong (shl : Uint → Uint) (m : Bytes) (dataptr : Ulong64) : Except Fault Ulong64 := do
  let data ← m.ulong dataptr
  let half := be32ToCpu ((data >>> 32).setWidth 32)
  return (shl half ||| half).setWidth 64

variable (shl : Uint → Uint) (m : Bytes) (fuel : Nat)

def memoryHandler (p : Platform) (call : PropCall) : Except Fault (Syscall × Platform) := do
  if (← m.strcmp call.pname reg) = 0 ∧ call.plen = 16 then
    let min ← dtbReadLong shl m call.propVal
    let max := min + (← dtbReadLong shl m (call.propVal + 8))
    return (.ok, { p with minaddr := min, maxaddr := max })
  else return (.ok, p)

def uartHandler (p : Platform) (call : PropCall) : Except Fault (Syscall × Platform) := do
  if (← m.strcmp call.pname reg) = 0 then
    let addr ← dtbReadLong shl m call.propVal
    return (.ok, { p with uartAddr := addr })
  else if (← m.strcmp call.pname clockFrequency) = 0 then
    return (.ok, { p with uartClock := ← m.uint call.propVal })
  else return (.ok, p)

/-- The part of `baseHandler` after its call of `strrchr`. -/
def storeModel (p : Platform) (call : PropCall) (manufacturer : Ulong64) :
    Except Fault (Syscall × Platform) := do
  if manufacturer ≠ 0 then
    let family ← p.family.store (← m.strncpy call.propVal (manufacturer - call.propVal).toNat)
    let manufacturer ← p.manufacturer.store (← m.strncpy (manufacturer + 1) PLT_STRMAX)
    return (.ok, { p with family := family, manufacturer := manufacturer })
  else
    let manufacturer ← p.manufacturer.store (← m.strncpy call.propVal PLT_STRMAX)
    return (.ok, { p with manufacturer := manufacturer })

def baseHandler (p : Platform) (call : PropCall) : Except Fault (Syscall × Platform) := do
  if (← m.strcmp call.pname model) = 0 then
    let manufacturer ← m.strrchr fuel call.propVal (chr ',')
    storeModel m p call manufacturer
  else return (.ok, p)

/-- `handleProp(name, pname, prop_val, plen)`. -/
def handleProp (p : Platform) (call : PropCall) : Except Fault (Syscall × Platform) := do
  if (← m.strncmp call.name memoryAt 7) = 0 then
    memoryHandler shl m p call
  else if (← m.strncmp call.name uartAt 5) = 0 then
    uartHandler shl m p call
  else if (← m.strnlen call.name PLT_STRMAX) = 0 then baseHandler m fuel p call
  else return (.syserr, p)

end Dtb

/-! ### The walk with its handlers -/

namespace Platform

open Dtb

variable (shl : Uint → Uint) (m : Bytes) (fuel : Nat)

/-- The loop of `parseDtbNodes` with the calls of `handleProp`. -/
def parseLoop (structBase stringBase : Ulong64) :
    Nat → Uint → Ulong64 → Platform → Except Fault (Syscall × Platform) :=
  parseTokens m fuel structBase stringBase
    (fun call rest p => do let (_, p) ← handleProp shl m fuel p call; rest p) id

/-- `parseDtbNodes(dtb_addr)`, with the platform record. -/
def parseDtbNodes (p : Platform) (dtbAddr : Ulong64) : Except Fault (Syscall × Platform) := do
  let structBase := (dtbAddr.setWidth 32 + be32ToCpu (← m.uint (dtbAddr + 8))).setWidth 64
  let stringBase := dtbAddr + (be32ToCpu (← m.uint (dtbAddr + 12))).setWidth 64
  parseLoop shl m fuel structBase stringBase fuel 0 0 p

end Platform

end Xinu
