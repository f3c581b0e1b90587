import Xinu.System.Config
import Xinu.System.Types

/-!
# `Xinu.System.Symtab`: the symbol table of the configuration generator

`lookup` of `config.c` on its own, for a string of any length.
`Conf.lookup` is the same function on the tokens of a file, which fit into
the scanner's buffer and have fewer than `2 ^ 31` characters.

The result of `strlen` is kept in an `int`. Past `INT_MAX` it is the
length modulo `2 ^ 32`, with a sign. A negative length is below
`CONFMAXNM`, and `malloc` and `strncpy` take it for a huge one.
-/

namespace Xinu.Config

/-- `int len = strlen(str)`. -/
def intLength (str : List Char) : Int := (BitVec.ofNat 32 str.length).toInt

/-- The copy `s` that `lookup` makes of `str`. -/
def truncated (str : List Char) : Except Fault (List Char) :=
  let len : Int := if intLength str ≥ CONFMAXNM then CONFMAXNM - 1 else intLength str
  if len < 0 then .error .outOfBounds else .ok (str.take len.toNat)

/-- `lookup(str)`. The names in the table are shorter than `CONFMAXNM`, so
`strncmp` compares all of them. Past the end of `symtab` there is no room
for an entry. -/
def lookup (symtab : List SymEnt) (str : List Char) : Except Fault (Nat × List SymEnt) := do
  let s ← truncated str
  match symtab.findIdx? (fun e => e.name = s) with
  | some i => return (i, symtab)
  | none =>
    if symtab.length < Conf.NSYM then return (symtab.length, symtab ++ [⟨s, 0⟩])
    else .error .outOfBounds

/-- Calls of `lookup`, one after the other. -/
def lookups (symtab : List SymEnt) : List Ident → Except Fault (List Nat × List SymEnt)
  | [] => .ok ([], symtab)
  | id :: ids => do
    let (i, symtab) ← lookup symtab id.text
    let (is, symtab) ← lookups symtab ids
    return (i :: is, symtab)

end Xinu.Config
