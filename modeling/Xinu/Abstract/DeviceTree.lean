import Xinu.Lib.Layout
import Xinu.System.Dtb

/-!
# `Xinu.Abstract.DeviceTree`: device trees and their flattened form

A device tree is a tree of named nodes, each with properties and
children. `Node.flatten` lists what the structure block says about it, and
`Node.properties` is what a reader should get out of it: every property
with the name of its node, in preorder. `walk` reads the flattened form
with nothing but the current name, and `walk_flatten` says that this is
enough, because the properties of a node come before its children.

`Blob` is the binary form, version 17: a header, the reserved areas, the
structure block and the strings block. The structure block spells the
flattened tree as tokens, with `FDT_NOP` tokens anywhere between them.
-/

namespace Xinu.Dtb

open List

structure Property where
  name : CString
  value : List Byte

/-- A node with its name, properties and children. -/
inductive Node where
  | mk (name : CString) (props : List Property) (children : List Node)

/-- What the structure block says, token by token. -/
inductive Item where
  | beginNode (name : CString)
  | prop (p : Property)
  | endNode

namespace Node

mutual

/-- The flattened form of a node. -/
def flatten : Node → List Item
  | .mk name props children =>
    .beginNode name :: (props.map .prop ++ (flattenAll children ++ [.endNode]))

/-- The flattened form of the children of a node. -/
def flattenAll : List Node → List Item
  | [] => []
  | n :: ns => flatten n ++ flattenAll ns

end

mutual

/-- The properties of a node and its descendants in preorder, with the
names of their owners. -/
def properties : Node → List (CString × Property)
  | .mk name props children => props.map (fun p => (name, p)) ++ propertiesAll children

/-- The properties of the children of a node. -/
def propertiesAll : List Node → List (CString × Property)
  | [] => []
  | n :: ns => properties n ++ propertiesAll ns

end

end Node

/-! ### Reading the flattened form -/

/-- The properties with the name that is current at each. No name is
current after the end of a node. -/
def walk : Option CString → List Item → List (Option CString × Property)
  | _, [] => []
  | _, .beginNode name :: l => walk (some name) l
  | name, .prop p :: l => (name, p) :: walk name l
  | _, .endNode :: l => walk none l

/-- An owner is found. -/
def owned (x : CString × Property) : Option CString × Property := (some x.1, x.2)

theorem walk_props (name : CString) (props : List Property) (rest : List Item) :
    walk (some name) (props.map .prop ++ rest) =
      (props.map fun p => (name, p)).map owned ++ walk (some name) rest := by
  induction props with
  | nil => rfl
  | cons p props ih =>
    show (some name, p) :: walk (some name) (props.map .prop ++ rest) = _
    rw [ih]
    rfl

mutual

/-- The name that was current before a node does not matter, and none is
current after it. -/
theorem walk_node : ∀ (n : Node) (name : Option CString) (rest : List Item),
    walk name (n.flatten ++ rest) = n.properties.map owned ++ walk none rest
  | .mk nodeName props children, name, rest => by
    rw [Node.flatten, Node.properties, cons_append, append_assoc, append_assoc,
      map_append, append_assoc]
    show walk (some nodeName) _ = _
    rw [walk_props, singleton_append, walk_nodes children]

/-- The children of a node, up to its end. -/
theorem walk_nodes : ∀ (ns : List Node) (name : Option CString) (rest : List Item),
    walk name (Node.flattenAll ns ++ .endNode :: rest) =
      (Node.propertiesAll ns).map owned ++ walk none rest
  | [], _, _ => rfl
  | n :: ns, name, rest => by
    rw [Node.flattenAll, Node.propertiesAll, append_assoc, walk_node n, walk_nodes ns,
      map_append, append_assoc]

end

/-- The walk over a flattened tree finds its properties. -/
theorem walk_flatten (t : Node) : walk none t.flatten = t.properties.map owned := by
  have h := walk_node t none []
  rwa [append_nil, walk, append_nil] at h

/-! ### The binary form -/

/-- A big-endian word. -/
def be32 (x : Uint) : List Byte :=
  [x.extractLsb' 24 8, x.extractLsb' 16 8, x.extractLsb' 8 8, x.extractLsb' 0 8]

/-- A big-endian double word. -/
def be64 (x : Ulong64) : List Byte := be32 (x.extractLsb' 32 32) ++ be32 (x.setWidth 32)

/-- Zeros up to the next multiple of four. -/
def pad4 (l : List Byte) : List Byte := l ++ List.replicate ((4 - l.length % 4) % 4) 0

theorem length_pad4 (l : List Byte) : (pad4 l).length = 4 * ((l.length + 3) / 4) := by
  simp only [pad4, length_append, length_replicate]
  omega

/-- A token of the structure block. A property refers to its name by an
offset in the strings block. -/
inductive Token where
  | beginNode (name : CString)
  | prop (nameoff : Uint) (p : Property)
  | endNode
  | nop

namespace Token

def item : Token → Option Item
  | beginNode name => some (.beginNode name)
  | prop _ p => some (.prop p)
  | endNode => some .endNode
  | nop => none

/-- The bytes of a token, a multiple of four. -/
def encode : Token → List Byte
  | beginNode name => be32 FDT_BEGIN_NODE ++ pad4 name.encode
  | prop nameoff p => be32 FDT_PROP ++ (be32 (BitVec.ofNat 32 p.value.length) ++
      (be32 nameoff ++ pad4 p.value))
  | endNode => be32 FDT_END_NODE
  | nop => be32 FDT_NOP

/-- The words of a token. -/
def words : Token → Nat
  | beginNode name => 1 + (name.bytes.length + 1 + 3) / 4
  | prop _ p => 1 + (8 + p.value.length + 3) / 4
  | endNode | nop => 1

theorem length_encode (t : Token) : t.encode.length = 4 * t.words := by
  cases t with
  | beginNode name =>
    simp only [encode, words, be32, CString.encode, length_append, length_pad4,
      length_cons, length_nil]
    omega
  | prop nameoff p =>
    simp only [encode, words, be32, length_append, length_pad4, length_cons,
      length_nil]
    omega
  | endNode => rfl
  | nop => rfl

end Token

/-- The blocks of a device tree of version 17. -/
structure Blob where
  /-- The CPU that boots. -/
  bootCpuid : Uint
  /-- The reserved areas, up to the structure block. -/
  reserved : List Byte
  tokens : List Token
  /-- The strings block, and what follows it. -/
  strings : List Byte
  /-- The strings block has the names of the properties. -/
  named : ∀ nameoff p, .prop nameoff p ∈ tokens →
    p.name.encode <+: strings.drop nameoff.toNat
  /-- The sizes fit into the words of the header. -/
  fits : 40 + reserved.length + ((tokens.flatMap Token.encode).length + 4) + strings.length < 2 ^ 32

namespace Blob

/-- The structure block. -/
def structure_ (b : Blob) : List Byte := b.tokens.flatMap Token.encode ++ be32 FDT_END

def offDtStruct (b : Blob) : Nat := 40 + b.reserved.length

def offDtStrings (b : Blob) : Nat := b.offDtStruct + b.structure_.length

def totalsize (b : Blob) : Nat := b.offDtStrings + b.strings.length

/-- The fields of `struct fdt_header`, in order. -/
def header (b : Blob) : List Uint :=
  [FDT_MAGIC, BitVec.ofNat 32 b.totalsize, BitVec.ofNat 32 b.offDtStruct,
    BitVec.ofNat 32 b.offDtStrings, 40, 17, 16, b.bootCpuid, BitVec.ofNat 32 b.strings.length,
    BitVec.ofNat 32 b.structure_.length]

def encode (b : Blob) : List Byte :=
  b.header.flatMap be32 ++ (b.reserved ++ (b.structure_ ++ b.strings))

/-- The structure block spells the tree. -/
def Describes (b : Blob) (t : Node) : Prop := b.tokens.filterMap Token.item = t.flatten

end Blob

end Xinu.Dtb
