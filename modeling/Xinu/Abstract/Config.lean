import Xinu.Lib.Records
import Xinu.System.Config

/-!
# `Xinu.Abstract.Config`: what a configuration declares

The meaning of a configuration, without symbols and without the parser's
variables: which type entries it declares, which of them a device is made
from, and which values its attributes have. `Consistent` compares the
output with it.

A line of `conf.h` is read as the preprocessor reads it: `define?` is the
name that it defines and the value.
-/

namespace Xinu.Config

open Lib

/-! ### Attributes -/

def Attr.csr? : Attr → Option Int
  | .csr val => some val
  | _ => none

def Attr.irq? : Attr → Option Int
  | .irq val => some val
  | _ => none

def Attr.routine? (r : Routine) : Attr → Option (List Char)
  | .routine r' id => if r' = r then some id.name else none
  | _ => none

/-- The values of the attributes. -/
@[ext] structure Values where
  csr : Int
  irq : Int
  routine : Routine → List Char

/-- The last value that the list gives counts. What it does not give stays
as it is. -/
def Values.override (v : Values) (attrs : List Attr) : Values where
  csr := (lastOf Attr.csr? attrs).getD v.csr
  irq := (lastOf Attr.irq? attrs).getD v.irq
  routine := fun r => (lastOf (Attr.routine? r) attrs).getD (v.routine r)

/-- "Unspecified switches default to ioerr", `xinu.conf`. -/
def Values.unspecified : Values := ⟨0, 0, fun _ => "ioerr".toList⟩

/-! ### Types and devices -/

/-- A type on a device. -/
structure TypeEntry where
  tname : List Char
  device : List Char
  values : Values

namespace Configuration
variable (cfg : Configuration)

/-- The type entries in the order of their declarations. -/
def types : List TypeEntry :=
  cfg.ftypes.flatMap fun t => t.devs.map fun d =>
    ⟨t.tname.name, d.on.name, Values.unspecified.override d.attrs⟩

/-- The matching type entry: the first one of the type, on the device
that the declaration names. One that names no device takes any. -/
def typeOf (d : Descriptor) : Option TypeEntry :=
  cfg.types.find? fun t => t.tname = d.tname.name ∧ ∀ on ∈ d.on, t.device = on.name

/-- The types of the devices, in order. -/
def typeNames : List (List Char) := cfg.descriptors.map fun d => d.tname.name

/-- The number of devices of a type. -/
def count (t : List Char) : Nat := cfg.typeNames.count t

/-- The type names differ by more than case. -/
def TypesDiffer : Prop := (cfg.ftypes.map fun t => t.tname.name.map Char.toUpper).Nodup

end Configuration

/-! ### Reading the output -/

/-- The first word of a line, and what follows it. -/
def word (l : List Char) : List Char × List Char :=
  ((l.dropWhile (· = ' ')).takeWhile (· ≠ ' '), (l.dropWhile (· = ' ')).dropWhile (· ≠ ' '))

/-- What a line defines, and as what. The only slash in a line begins a
comment. -/
def define? (line : List Char) : Option (List Char × List Char) :=
  let (directive, rest) := word (line.takeWhile (· ≠ '/'))
  let (name, rest) := word rest
  if directive = "#define".toList then some (name, (word rest).1) else none

/-- The name of the number of control blocks of a type. -/
def sizeName (t : List Char) : List Char := 'N' :: t.map Char.toUpper

/-- The output agrees with what is declared. -/
structure Consistent (cfg : Configuration) (out : Output) : Prop where
  /-- The device with number `i` is defined as `i`. -/
  names : out.names.map define? =
    cfg.descriptors.mapIdx fun i d => some (d.dname.name, decimal i)
  /-- It is the entry with index `i` of the table, and has its number. -/
  devtab : out.devtab.map (fun e => (e.num, e.name)) =
    cfg.descriptors.mapIdx fun i d => (i, d.dname.name)
  /-- The devices of a type are numbered from zero, in order. -/
  minors : ∀ t, numbersOf t cfg.typeNames (out.devtab.map Dentry.minor) = List.range (cfg.count t)
  /-- The number of control blocks of a used type is that of its devices.
  Only the lines for types are read: one for a type `devs` defines `NDEVS`
  as well, before the line below does. -/
  sizes : ∀ t, 0 < cfg.count t → ∀ v,
    some (sizeName t, v) ∈ out.sizes.map define? ↔ v = decimal (cfg.count t)
  ndevs : out.ndevs.bind define? = some ("NDEVS".toList, decimal cfg.descriptors.length)
  /-- An attribute has the last value that the device gives, or else that
  of the matching type entry. -/
  attributes : List.Forall₂ (fun d (e : Dentry) => ∃ t, cfg.typeOf d = some t ∧
    Values.mk e.csr e.irq e.routine = t.values.override d.attrs) cfg.descriptors out.devtab

end Xinu.Config
