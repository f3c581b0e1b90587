import Mathlib.Data.List.Basic

/-!
# `Xinu.System.Config`: the configuration generator

`compile/config`: the declarations of a configuration file, the actions of
`parse.y` on them in the order in which the parser takes them, and what
`main` writes to `conf.h` and `conf.c`.

A name pointer is the number of the symbol whose name it points to. Every
symbol has a string of its own, so two pointers are equal exactly when the
symbols are. The two linked lists are only ever extended at the end, where
`currtype` and `lastdv` point.

The lines of `conf.h` that define a name are kept as text, since the
widths in their formats matter. An entry of `devtab` is kept as the values
that are written into it. The output that is the same for every
configuration, the literal section and the messages are left out.
-/

namespace Xinu.Config

/-! ### The declarations -/

/-- The characters of an identifier, `scan.l`. -/
def isIdentChar (c : Char) : Bool := c.isAlphanum || c == '_'

/-- A text that `{ID}` matches. -/
def isIdent : List Char → Bool
  | [] => false
  | c :: l => (c.isAlpha || c == '_') && l.all isIdentChar

/-- An `IDENT` token. -/
structure Ident where
  text : List Char
  valid : isIdent text = true

/-- `CONFMAXNM`: the size of a name, with its terminating zero. -/
abbrev CONFMAXNM : Nat := 20

/-- The name that `lookup` makes of an identifier: a longer one is
truncated. -/
def Ident.name (id : Ident) : List Char := id.text.take (CONFMAXNM - 1)

/-- The attributes that name a routine. -/
inductive Routine where
  | intr | init | open | close | read | write | control | seek | getc | putc
deriving DecidableEq

/-- The attribute tokens. -/
inductive Tok where
  | CSR
  | IRQ
  | routine (r : Routine)

/-- `attr`. -/
inductive Attr where
  | csr (val : Int)
  | irq (val : Int)
  | routine (r : Routine) (id : Ident)

/-- `devheader attr_list`. -/
structure TypeDev where
  on : Ident
  attrs : List Attr

/-- `ftype`. Its `dev_list` has at least one member. -/
structure Ftype where
  tname : Ident
  devs : List TypeDev
  ne : devs ≠ []

/-- `descriptor`. -/
structure Descriptor where
  dname : Ident
  tname : Ident
  on : Option Ident
  attrs : List Attr

/-- `configuration`. -/
structure Configuration where
  ftypes : List Ftype
  descriptors : List Descriptor

/-! ### The actions -/

/-- How the generator ends early. -/
inductive Exit where
  | duplicateType (symid : Nat)
  | duplicateDevice (deviceid tnum : Nat)
  | duplicateName (devid : Nat)
  | badType (nameid : Nat)
  | internalOverflow
  | tooManySymbols
  | nullPointer
deriving DecidableEq

/-- `struct sym_ent`. -/
structure SymEnt where
  name : List Char
  occurs : Nat
deriving DecidableEq

/-- `struct dev_ent`. The type name is the name of the symbol `tnum`. -/
structure DevEnt where
  name : Option Nat
  tnum : Nat
  device : Nat
  csr : Int
  irq : Int
  routine : Routine → List Char
  minor : Nat

/-- The global variables. -/
structure Conf where
  symtab : List SymEnt := []
  ftypes : List DevEnt := []
  devs : List DevEnt := []
  ndevs : Nat := 0
  currtname : Option Nat := none

namespace Conf

/-- `symtab` has room for this many symbols. -/
abbrev NSYM : Nat := 250

/-- `lookup(str)`. -/
def lookup (s : Conf) (id : Ident) : Except Exit (Nat × Conf) :=
  match s.symtab.findIdx? (fun e => e.name = id.name) with
  | some i => .ok (i, s)
  | none =>
    if s.symtab.length < NSYM then
      .ok (s.symtab.length, { s with symtab := s.symtab ++ [⟨id.name, 0⟩] })
    else .error .tooManySymbols

/-- The string `c` of `newattr`: the name of the symbol, if the value is
the number of one. -/
def attrName (s : Conf) (val : Int) : Except Exit (Option (List Char)) :=
  if 0 ≤ val then
    match s.symtab[val.toNat]? with
    | some e => if e.name.length < CONFMAXNM then .ok (some e.name) else .error .internalOverflow
    | none => .ok none
  else .ok none

/-- The assignment of `newattr`. -/
def setAttr (tok : Tok) (val : Int) (c : Option (List Char)) (e : DevEnt) : Except Exit DevEnt :=
  match tok, c with
  | .CSR, _ => .ok { e with csr := val }
  | .IRQ, _ => .ok { e with irq := val }
  | .routine r, some c => .ok { e with routine := Function.update e.routine r c }
  | .routine _, none => .error .nullPointer

/-- `newattr(tok, val)`. -/
def newattr (s : Conf) (tok : Tok) (val : Int) : Except Exit Conf := do
  let c ← s.attrName val
  -- The entry is in `devs` as soon as there is one.
  match s.devs.getLast? with
  | some e =>
    let e ← setAttr tok val c e
    return { s with devs := s.devs.dropLast ++ [e] }
  | none =>
    match s.ftypes.getLast? with
    | some e =>
      let e ← setAttr tok val c e
      return { s with ftypes := s.ftypes.dropLast ++ [e] }
    | none => .error .nullPointer

/-- `cktname(symid)`. -/
def cktname (s : Conf) (symid : Nat) : Except Exit Nat :=
  if s.ftypes.any (fun e => e.tnum = symid) then .error (.duplicateType symid) else .ok symid

end Conf

/-- `initattr`, on memory that was zero. -/
def initattr (tnum deviceid : Nat) : DevEnt where
  name := none
  tnum := tnum
  device := deviceid
  csr := 0
  irq := 0
  routine := fun _ => "ioerr".toList
  minor := 0

namespace Conf

/-- `mktype(deviceid)`. -/
def mktype (s : Conf) (deviceid : Nat) : Except Exit Conf :=
  match s.currtname with
  | none => .error .nullPointer
  | some tnum =>
    if s.ftypes.any (fun e => e.tnum = tnum && e.device = deviceid) then
      .error (.duplicateDevice deviceid tnum)
    else .ok { s with ftypes := s.ftypes ++ [initattr tnum deviceid] }

/-- The test of the search in `mkdev`. A negative number is no device
name. -/
def matchesType (typid : Nat) (deviceid : Int) (e : DevEnt) : Bool :=
  e.tnum = typid && (deviceid < 0 || (e.device : Int) = deviceid)

/-- `mkdev(nameid, typid, deviceid)`. -/
def mkdev (s : Conf) (nameid typid : Nat) (deviceid : Int) : Except Exit Conf :=
  match s.ftypes.find? (matchesType typid deviceid) with
  | some e =>
    .ok { s with devs := s.devs ++ [{ e with name := some nameid }], ndevs := s.ndevs + 1 }
  | none => .error (.badType nameid)

/-- `ckdname(devid)`. -/
def ckdname (s : Conf) (devid : Nat) : Except Exit Nat :=
  if s.devs.any (fun e => e.name = some devid) then .error (.duplicateName devid) else .ok devid

/-! ### The parser -/

def attr (s : Conf) : Attr → Except Exit Conf
  | .csr val => s.newattr .CSR val
  | .irq val => s.newattr .IRQ val
  | .routine r id => do
    let (val, s) ← s.lookup id
    s.newattr (.routine r) val

/-- `attr_list`. -/
def attrList (s : Conf) (attrs : List Attr) : Except Exit Conf := attrs.foldlM attr s

/-- `devheader attr_list`. -/
def typeDev (s : Conf) (d : TypeDev) : Except Exit Conf := do
  let (deviceid, s) ← s.lookup d.on
  let s ← s.mktype deviceid
  s.attrList d.attrs

def ftype (s : Conf) (t : Ftype) : Except Exit Conf := do
  let (symid, s) ← s.lookup t.tname
  let tnum ← s.cktname symid
  t.devs.foldlM typeDev { s with currtname := some tnum }

/-- `optional_on`: the value is zero when it is not there. -/
def optionalOn (s : Conf) : Option Ident → Except Exit (Nat × Conf)
  | none => .ok (0, s)
  | some id => s.lookup id

/-- The values `$1`, `$3` and `$4` of `fspec`. -/
def fspecIds (s : Conf) (d : Descriptor) : Except Exit ((Nat × Nat × Nat) × Conf) := do
  let (symid, s) ← s.lookup d.dname
  let nameid ← s.ckdname symid
  let (typid, s) ← s.lookup d.tname
  let (deviceid, s) ← s.optionalOn d.on
  return ((nameid, typid, deviceid), s)

def descriptor (s : Conf) (d : Descriptor) : Except Exit Conf := do
  let ((nameid, typid, deviceid), s) ← s.fspecIds d
  let s ← s.mkdev nameid typid deviceid
  s.attrList d.attrs

/-- `yyparse()`. -/
def parse (cfg : Configuration) : Except Exit Conf := do
  let s ← cfg.ftypes.foldlM ftype {}
  cfg.descriptors.foldlM descriptor s

end Conf

/-! ### The output -/

/-- `%d` of a number that is not negative. -/
def decimal (n : Nat) : List Char := Nat.toDigits 10 n

/-- `%-ns`. -/
def padded (n : Nat) (s : List Char) : List Char := s ++ List.replicate (n - s.length) ' '

/-- The line for a device, with the number of the device. -/
def deviceLine (name : List Char) (i : Nat) (tname : List Char) : List Char :=
  "#define ".toList ++ padded 12 name ++ decimal i ++ "       /* type ".toList ++ padded 8 tname ++
    " */".toList

/-- The line for the control blocks of a type. -/
def sizeLine (e : SymEnt) : List Char :=
  "#define N".toList ++ e.name.map Char.toUpper ++ ' ' :: decimal e.occurs

/-- An entry of `devtab`. -/
structure Dentry where
  num : Nat
  minor : Nat
  name : List Char
  routine : Routine → List Char
  csr : Int
  irq : Int

/-- What is written. `names`, `sizes` and `ndevs` are lines of `conf.h`,
`includes` and `devtab` are in `conf.c`. -/
structure Output where
  names : List (List Char)
  sizes : List (List Char)
  ndevs : Option (List Char)
  includes : List (List Char)
  devtab : List Dentry

/-- The text of a name. -/
def symName (symtab : List SymEnt) (i : Nat) : List Char := (symtab[i]?.map SymEnt.name).getD []

/-- `symtab[i].occurs++`. -/
def bumpOccurs (symtab : List SymEnt) (i : Nat) : List SymEnt :=
  symtab.modify i fun e => { e with occurs := e.occurs + 1 }

/-- The loop over the devices that writes their lines and counts the
references to each type. -/
def defineDevs : Nat → List SymEnt → List DevEnt → List (List Char) × List DevEnt × List SymEnt
  | _, symtab, [] => ([], [], symtab)
  | i, symtab, s :: l =>
    let line := deviceLine ((s.name.map (symName symtab)).getD []) i (symName symtab s.tnum)
    let minor := (symtab[s.tnum]?.map SymEnt.occurs).getD 0
    let (lines, devs, symtab) := defineDevs (i + 1) (bumpOccurs symtab s.tnum) l
    (line :: lines, { s with minor := minor } :: devs, symtab)

/-- An entry of `devtab` from a device. -/
def dentry (symtab : List SymEnt) (fcount : Nat) (s : DevEnt) : Dentry where
  num := fcount
  minor := s.minor
  name := (s.name.map (symName symtab)).getD []
  routine := s.routine
  csr := s.csr
  irq := s.irq

/-- The output of `main`. -/
def Conf.emit (s : Conf) : Output :=
  let (lines, devs, symtab) := defineDevs 0 s.symtab s.devs
  let used := symtab.filter fun e => 0 < e.occurs
  { names := lines
    sizes := used.map sizeLine
    ndevs := if 0 < s.ndevs then some ("#define NDEVS ".toList ++ decimal s.ndevs) else none
    includes := used.map SymEnt.name
    devtab := devs.mapIdx (dentry symtab) }

end Xinu.Config
