import Xinu.System.Ctype
import Xinu.System.Paging

/-!
# `Xinu.System.Dtb`: walking the flattened device tree

`parseDtbNodes` of `dtb.c`, with `c2ioff`, the byte swap of
`endianness.h` and `strlen`. This is code of the 64-bit port, so pointers
and `size_t` have 64 bits and `uint` has 32. The CPU is little-endian.

Memory is a map from addresses to bytes where it is mapped, and a read
elsewhere is a fault. `handleProp` fills in the platform record and does
not touch the tree, and its result is dropped. The walker returns the list
of its calls instead (`Xinu.System.Platform` has the calls themselves).
The message for an unknown token is left out.

Both loops can go on forever in a bad tree. They take the number of
iterations as `fuel`.
-/

namespace Xinu

/-- Memory, byte by byte. -/
abbrev Bytes := Ulong64 → Option Byte

namespace Bytes

/-- A load of one byte. -/
def byte (m : Bytes) (a : Ulong64) : Except Fault Byte :=
  match m a with
  | some b => .ok b
  | none => .error .outOfBounds

/-- A load of a `uint`. -/
def uint (m : Bytes) (a : Ulong64) : Except Fault Uint := do
  let b0 ← m.byte a
  let b1 ← m.byte (a + 1)
  let b2 ← m.byte (a + 2)
  let b3 ← m.byte (a + 3)
  return b3 ++ b2 ++ b1 ++ b0

/-- The loop of `strlen`. -/
def strlenLoop (m : Bytes) (s : Ulong64) : Nat → Ulong64 → Except Fault Ulong64
  | 0, _ => .error .nontermination
  | fuel + 1, n => do
    if (← m.byte (s + n)) ≠ 0 then m.strlenLoop s fuel (n + 1) else return n

/-- `strlen(s)`. -/
def strlen (m : Bytes) (fuel : Nat) (s : Ulong64) : Except Fault Ulong64 := m.strlenLoop s fuel 0

end Bytes

/-- `bswap32` of `endianness.h`. -/
def bswap32 (n : Uint) : Uint :=
  (n <<< 24) ||| ((n &&& 0xff00) <<< 8) ||| ((n &&& 0xff0000) >>> 8) ||| (n >>> 24)

/-- `be32_to_cpu` on a little-endian CPU. -/
def be32ToCpu (n : Uint) : Uint := bswap32 n

namespace Dtb

def FDT_MAGIC : Uint := 0xd00dfeed
def FDT_BEGIN_NODE : Uint := 1
def FDT_END_NODE : Uint := 2
def FDT_PROP : Uint := 3
def FDT_NOP : Uint := 4
def FDT_END : Uint := 9

/-- `c2ioff`: the words that `charoff` bytes take. -/
def c2ioff (charoff : Uint) : Uint := charoff / 4 + if charoff % 4 ≠ 0 then 1 else 0

/-- A call `handleProp(name, pname, prop_val, plen)`. -/
structure PropCall where
  name : Ulong64
  pname : Ulong64
  propVal : Ulong64
  plen : Uint
deriving DecidableEq, Repr

/-- The loop of `parseDtbNodes` over the token at `index`. What it does at
a property, with the state `s` and the rest of the loop, is `handle`. -/
def parseTokens {σ ρ : Type} (m : Bytes) (limit : Nat) (structBase stringBase : Ulong64)
    (handle : PropCall → (σ → Except Fault (Syscall × ρ)) → σ → Except Fault (Syscall × ρ))
    (done : σ → ρ) : Nat → Uint → Ulong64 → σ → Except Fault (Syscall × ρ)
  | 0, _, _, _ => .error .nontermination
  | fuel + 1, index, name, s => do
    let next := parseTokens m limit structBase stringBase handle done fuel
    let tokptr := structBase + 4 * index.setWidth 64
    let token := be32ToCpu (← m.uint tokptr)
    if token = FDT_BEGIN_NODE then
      let len ← m.strlen limit (tokptr + 4)
      next (index + (1 + c2ioff ((1 + len).setWidth 32))) (tokptr + 4) s
    else if token = FDT_PROP then
      let prop := tokptr + 4
      let plen := be32ToCpu (← m.uint prop)
      let nameoff := be32ToCpu (← m.uint (prop + 4))
      handle ⟨name, stringBase + nameoff.setWidth 64, prop + 8, plen⟩
        (next (index + (1 + c2ioff ((8 + plen.setWidth 64 : Ulong64).setWidth 32))) name) s
    else if token = FDT_END_NODE then next (index + 1) 0 s
    else if token = FDT_NOP then next (index + 1) name s
    else if token = FDT_END then return (.ok, done s)
    else return (.syserr, done s)

/-- The loop, with a list of the calls of `handleProp`. -/
def parseLoop (m : Bytes) (limit : Nat) (structBase stringBase : Ulong64) (fuel : Nat)
    (index : Uint) (name : Ulong64) : Except Fault (Syscall × List PropCall) :=
  parseTokens m limit structBase stringBase
    (fun call rest _ => do let (r, calls) ← rest (); return (r, call :: calls)) (fun _ => []) fuel
    index name ()

/-- `parseDtbNodes(dtb_addr)`, with the calls of `handleProp`. The base of
the structure block is computed in a `uint`. -/
def parseDtbNodes (m : Bytes) (fuel : Nat) (dtbAddr : Ulong64) :
    Except Fault (Syscall × List PropCall) := do
  let structBase := (dtbAddr.setWidth 32 + be32ToCpu (← m.uint (dtbAddr + 8))).setWidth 64
  let stringBase := dtbAddr + (be32ToCpu (← m.uint (dtbAddr + 12))).setWidth 64
  parseLoop m fuel structBase stringBase fuel 0 0

end Dtb

end Xinu
