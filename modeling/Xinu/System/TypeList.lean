import Mathlib.Logic.Function.Basic
import Xinu.System.Config
import Xinu.System.Types

/-!
# `Xinu.System.TypeList`: the records of the type list

`mktype`, `initattr` and `newattr` of `config.c` on the records themselves,
while types are declared. `Conf.mktype` and `Conf.newattr` are the same
functions on a list of finished entries. Here a record is memory that
`malloc` has returned, with whatever it contained, and the list is made of
its `next` pointers.

`Mallocs` is what the calls of `malloc` for a record return, one after
the other. A name pointer is the number of its symbol, as in `Conf`. Of
the symbols that `newattr` gets for routines only the names are used, and
these stand in the attribute.
-/

namespace Xinu.Config

/-! ### Strings in a record -/

/-- The terminating zero. -/
def NUL : Char := Char.ofNat 0

/-- The string in an array of characters, if it ends there. -/
def cstring : List Char → Option (List Char)
  | [] => none
  | c :: l => if c = NUL then some [] else (cstring l).map (c :: ·)

/-- `char [CONFMAXNM]`. -/
abbrev Field := Fin CONFMAXNM → Char

/-- `strncpy(f, src, n)`, for `n` up to the size of the field. -/
def Field.strncpy (f : Field) (src : List Char) (n : Nat) : Field :=
  fun i => if i.val < n then src.getD i.val NUL else f i

def Field.string (f : Field) : Option (List Char) := cstring (List.ofFn f)

/-! ### Records -/

/-- `NIL`. -/
def NIL : Nat := 0

/-- `struct dev_ent`. The type name is the name of the symbol `tnum`. -/
structure TypeRec where
  name : Option Nat
  tnum : Nat
  device : Nat
  csr : Int
  irq : Int
  routine : Routine → Field
  minor : Nat
  next : Nat

/-- `initattr(fstr, tnum, deviceid)`. The member `next` is not set. -/
def TypeRec.initattr (fstr : TypeRec) (tnum deviceid : Nat) : TypeRec :=
  { fstr with
    name := none
    tnum := tnum
    device := deviceid
    csr := 0
    irq := 0
    routine := fun r => (fstr.routine r).strncpy "ioerr".toList 5
    minor := 0 }

/-- The assignment of `newattr`. -/
def TypeRec.newattr (s : TypeRec) : Attr → TypeRec
  | .csr val => { s with csr := val }
  | .irq val => { s with irq := val }
  | .routine r id =>
    { s with routine := Function.update s.routine r ((s.routine r).strncpy id.name CONFMAXNM) }

/-- The memory that the calls of `malloc` return: where it is, and what it
contains. -/
structure Mallocs where
  addr : Nat → Nat
  content : Nat → TypeRec
  nonnull : ∀ k, addr k ≠ NIL
  injective : Function.Injective addr

/-- How a declaration ends early. -/
inductive Stop where
  | fault (f : Fault)
  | exit (e : Exit)
deriving DecidableEq

/-- The memory of the records, and the variables `ftypes` and `currtype`.
`mallocs` counts the records. -/
structure TypeList where
  mem : Nat → Option TypeRec := fun _ => none
  ftypes : Nat := NIL
  currtype : Nat := NIL
  mallocs : Nat := 0

namespace TypeList

/-- The record at `p`. Any other pointer is outside the records. -/
def deref (s : TypeList) (p : Nat) : Except Stop TypeRec :=
  match s.mem p with
  | some r => .ok r
  | none => .error (.fault .outOfBounds)

/-- Write the record at `p`. -/
def set (s : TypeList) (p : Nat) (r : TypeRec) : TypeList :=
  { s with mem := Function.update s.mem p (some r) }

/-- The loop of `mktype`: the last record of the list. A loop that has
passed more records than there are never ends. -/
def findLast (t : TypeList) (tnum deviceid : Nat) : Nat → Nat → Nat → Except Stop Nat
  | 0, _, _ => .error (.fault .nontermination)
  | fuel + 1, p, s =>
    if s = NIL then .ok p
    else do
      let r ← t.deref s
      if r.tnum = tnum ∧ r.device = deviceid then .error (.exit (.duplicateDevice deviceid tnum))
      else t.findLast tnum deviceid fuel s r.next

/-- `p->next = s` in `mktype`, or `ftypes = s` for the first record. -/
def link (t : TypeList) (p s : Nat) : Except Stop TypeList :=
  if t.ftypes ≠ NIL then do
    let r ← t.deref p
    return t.set p { r with next := s }
  else .ok { t with ftypes := s }

/-- `currtype = s = malloc(sizeof(struct dev_ent))`. -/
def malloc (M : Mallocs) (t : TypeList) : TypeList :=
  { t.set (M.addr t.mallocs) (M.content t.mallocs) with
    currtype := M.addr t.mallocs
    mallocs := t.mallocs + 1 }

/-- `mktype(deviceid)`, with `currtname` as `tnum`. -/
def mktype (M : Mallocs) (t : TypeList) (tnum deviceid : Nat) : Except Stop TypeList := do
  let p ← t.findLast tnum deviceid (t.mallocs + 1) NIL t.ftypes
  let s := M.addr t.mallocs
  let t ← (t.malloc M).link p s
  let fstr ← t.deref s
  return t.set s (fstr.initattr tnum deviceid)

/-- `newattr`, before the first device. -/
def newattr (t : TypeList) (a : Attr) : Except Stop TypeList := do
  let s ← t.deref t.currtype
  return t.set t.currtype (s.newattr a)

end TypeList

/-- The declaration of a type on a device, with the numbers of its
symbols. -/
structure TypeDecl where
  tnum : Nat
  device : Nat
  attrs : List Attr

/-- `devheader attr_list`. -/
def TypeList.declare (M : Mallocs) (t : TypeList) (d : TypeDecl) : Except Stop TypeList := do
  let t ← t.mktype M d.tnum d.device
  d.attrs.foldlM newattr t

end Xinu.Config
