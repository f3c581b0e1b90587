import Mathlib.Tactic.IntervalCases
import Xinu.Abstract.DeviceTree

/-!
# `Xinu.Proofs.Machine.Dtb`: the walker reads the device tree

`parseLoop` at the index of a token does what the token says and goes on
at the index of the next one. There is one lemma for each kind of token,
and `parseLoop_tokens` puts them together by induction on the tokens: the
calls are those of the abstract `walk`. `walk_flatten` then says that they
are the properties of the tree.

The main result, `parseDtbNodes_blob_iff`, is that the walker reads a blob
right, whatever else is in memory, exactly when the structure block starts
below 2^32. The walker computes that address with 32 bits, and
`parseDtbNodes_wrapped` is a blob across the 4 GiB line on which it reads
from address 0 instead.
-/

namespace Xinu

open List BitVec

open Lib (Holds holds_append holds_cons)

/-! ### Words and strings in memory -/

section Memory
variable {m : Bytes} {a : Ulong64}

theorem Bytes.byte_of_eq {b : Byte} (h : m a = some b) : m.byte a = .ok b := by
  rw [Bytes.byte, h]

theorem Bytes.byte_of_none (h : m a = none) : m.byte a = .error .outOfBounds := by
  rw [Bytes.byte, h]

/-- A big-endian word is loaded with its bytes in reverse. -/
theorem be32ToCpu_append (x : Uint) :
    be32ToCpu (x.extractLsb' 0 8 ++ x.extractLsb' 8 8 ++ x.extractLsb' 16 8 ++ x.extractLsb' 24 8) =
      x := by
  apply eq_of_getLsbD_eq
  intro i hi
  simp only [be32ToCpu, bswap32, getLsbD_or, getLsbD_and, getLsbD_shiftLeft,
    getLsbD_ushiftRight, getLsbD_append, getLsbD_extractLsb']
  interval_cases i <;> simp

theorem Bytes.uint_of_holds {x : Uint} (h : Holds m a (Dtb.be32 x)) :
    ∃ n, m.uint a = .ok n ∧ be32ToCpu n = x := by
  have h1 : m (a + 1) = some (x.extractLsb' 16 8) := h.get (n := 1) (by decide : 1 < 4)
  have h2 : m (a + 2) = some (x.extractLsb' 8 8) := h.get (n := 2) (by decide : 2 < 4)
  have h3 : m (a + 3) = some (x.extractLsb' 0 8) := h.get (n := 3) (by decide : 3 < 4)
  refine ⟨_, ?_, be32ToCpu_append x⟩
  simp only [Bytes.uint, Bytes.byte_of_eq h.1, Bytes.byte_of_eq h1, Bytes.byte_of_eq h2,
    Bytes.byte_of_eq h3, ok_bind]
  rfl

/-- `strlen` goes on to the end of the string. -/
theorem Bytes.strlenLoop_eq (l : List Byte) (hl : ∀ b ∈ l, b ≠ 0) :
    ∀ {fuel : Nat} {n : Ulong64}, Holds m (a + n) (l ++ [0]) → l.length < fuel →
      m.strlenLoop a fuel n = .ok (n + BitVec.ofNat 64 l.length) := by
  induction l with
  | nil =>
    intro fuel n h hfuel
    cases fuel with
    | zero => exact absurd hfuel (Nat.not_lt_zero _)
    | succ fuel =>
      rw [Bytes.strlenLoop, Bytes.byte_of_eq h.1]
      simp only [ok_bind, ne_eq, not_true_eq_false, if_false]
      exact congrArg Except.ok (BitVec.add_zero n).symm
  | cons b l ih =>
    intro fuel n h hfuel
    obtain ⟨hb, hl⟩ := forall_mem_cons.mp hl
    obtain ⟨h0, h⟩ := holds_cons.mp h
    cases fuel with
    | zero => exact absurd hfuel (Nat.not_lt_zero _)
    | succ fuel =>
      rw [BitVec.add_assoc] at h
      rw [Bytes.strlenLoop, Bytes.byte_of_eq h0]
      simp only [ok_bind, if_pos hb]
      rw [ih hl h (Nat.lt_of_succ_lt_succ hfuel), Lib.add_one_add_ofNat, length_cons]

end Memory

namespace Dtb

theorem toNat_c2ioff (x : Uint) : (c2ioff x).toNat = (x.toNat + 3) / 4 := by
  have hx := x.isLt
  have hdiv : (x / 4).toNat = x.toNat / 4 := toNat_udiv
  have hmod : (x % 4).toNat = x.toNat % 4 := toNat_umod
  have hzero : x % 4 = 0 ↔ x.toNat % 4 = 0 := by
    rw [← hmod]
    exact ⟨fun h => congrArg BitVec.toNat h, fun h => eq_of_toNat_eq h⟩
  unfold c2ioff
  split
  · rename_i hne
    have hone : (1 : Uint).toNat = 1 := rfl
    rw [toNat_add, hdiv, hone]
    have := mt hzero.mpr hne
    omega
  · rename_i heq
    have := hzero.mp (not_not.mp heq)
    have hsum : x / 4 + 0 = x / 4 := BitVec.add_zero _
    rw [hsum, hdiv]
    omega

/-! ### One token -/

section Token
variable {m : Bytes} {limit fuel : Nat} {structBase stringBase name : Ulong64} {index : Uint}

/-- The pointer to the token at an index. -/
def tokptr (structBase : Ulong64) (index : Uint) : Ulong64 := structBase + 4 * index.setWidth 64

theorem tokptr_add (n : Nat) (h : index.toNat + n < 2 ^ 32) :
    tokptr structBase (index + BitVec.ofNat 32 n) =
      tokptr structBase index + BitVec.ofNat 64 (4 * n) := by
  have hfour : (4 : Ulong64).toNat = 4 := rfl
  apply eq_of_toNat_eq
  simp only [tokptr, toNat_add, toNat_mul, toNat_setWidth, toNat_ofNat,
    hfour]
  omega

/-- The index after the name of a node. -/
theorem words_beginNode (n : Nat) (h : n + 1 < 2 ^ 32) :
    1 + c2ioff ((1 + (0 + BitVec.ofNat 64 n) : Ulong64).setWidth 32) =
      BitVec.ofNat 32 (1 + (n + 1 + 3) / 4) := by
  have hone : (1 : Uint).toNat = 1 := rfl
  have hone' : (1 : Ulong64).toNat = 1 := rfl
  have hzero : (0 : Ulong64).toNat = 0 := rfl
  apply eq_of_toNat_eq
  simp only [toNat_add, toNat_c2ioff, toNat_setWidth, toNat_ofNat, hone, hone',
    hzero]
  omega

/-- The index after the value of a property. -/
theorem words_prop (n : Nat) (h : 8 + n < 2 ^ 32) :
    1 + c2ioff ((8 + (BitVec.ofNat 32 n).setWidth 64 : Ulong64).setWidth 32) =
      BitVec.ofNat 32 (1 + (8 + n + 3) / 4) := by
  have hone : (1 : Uint).toNat = 1 := rfl
  have height : (8 : Ulong64).toNat = 8 := rfl
  apply eq_of_toNat_eq
  simp only [toNat_add, toNat_c2ioff, toNat_setWidth, toNat_ofNat, hone, height]
  omega

theorem parseLoop_beginNode {nodeName : CString} (hlimit : nodeName.bytes.length < limit)
    (hsize : nodeName.bytes.length + 1 < 2 ^ 32)
    (h : Holds m (tokptr structBase index) (Token.beginNode nodeName).encode) :
    parseLoop m limit structBase stringBase (fuel + 1) index name =
      parseLoop m limit structBase stringBase fuel
        (index + BitVec.ofNat 32 (Token.beginNode nodeName).words)
          (tokptr structBase index + 4) := by
  obtain ⟨htok, hname⟩ := holds_append.mp h
  obtain ⟨n, hn, hx⟩ := Bytes.uint_of_holds htok
  have hstart : tokptr structBase index + 4 + 0 = tokptr structBase index + 4 := BitVec.add_zero _
  have hstr : Holds m (tokptr structBase index + 4 + 0) (nodeName.bytes ++ [0]) := by
    rw [hstart]
    exact (holds_append.mp hname).1
  have hlen := Bytes.strlenLoop_eq nodeName.bytes nodeName.nonzero hstr hlimit
  unfold tokptr at hn hlen
  rw [parseLoop, parseTokens]
  simp only [hn, ok_bind, hx, if_true, Bytes.strlen, hlen, words_beginNode _ hsize]
  rfl

theorem parseLoop_prop {nameoff : Uint} {p : Property} (hsize : 8 + p.value.length < 2 ^ 32)
    (h : Holds m (tokptr structBase index) (Token.prop nameoff p).encode) :
    parseLoop m limit structBase stringBase (fuel + 1) index name = do
      let (r, calls) ← parseLoop m limit structBase stringBase fuel
        (index + BitVec.ofNat 32 (Token.prop nameoff p).words) name
      return (r, ⟨name, stringBase + nameoff.setWidth 64, tokptr structBase index + 4 + 8,
        BitVec.ofNat 32 p.value.length⟩ :: calls) := by
  obtain ⟨htok, h⟩ := holds_append.mp h
  obtain ⟨hplen, h⟩ := holds_append.mp h
  obtain ⟨hoff, -⟩ := holds_append.mp h
  obtain ⟨n, hn, hx⟩ := Bytes.uint_of_holds htok
  obtain ⟨n1, hn1, hx1⟩ := Bytes.uint_of_holds hplen
  obtain ⟨n2, hn2, hx2⟩ := Bytes.uint_of_holds hoff
  have hn1' : m.uint (tokptr structBase index + 4) = .ok n1 := hn1
  have hn2' : m.uint (tokptr structBase index + 4 + 4) = .ok n2 := hn2
  have hne : FDT_PROP ≠ FDT_BEGIN_NODE := by decide
  unfold tokptr at hn hn1' hn2'
  rw [parseLoop, parseTokens]
  simp only [hn, ok_bind, hx, if_neg hne, if_true, hn1', hx1, hn2', hx2, words_prop _ hsize]
  rfl

/-- A token that is one word. -/
theorem parseLoop_word {x : Uint} (hbegin : x ≠ FDT_BEGIN_NODE) (hprop : x ≠ FDT_PROP)
    (h : Holds m (tokptr structBase index) (be32 x)) :
    parseLoop m limit structBase stringBase (fuel + 1) index name =
      if x = FDT_END_NODE then parseLoop m limit structBase stringBase fuel (index + 1) 0
      else if x = FDT_NOP then parseLoop m limit structBase stringBase fuel (index + 1) name
      else if x = FDT_END then .ok (.ok, []) else .ok (.syserr, []) := by
  obtain ⟨n, hn, hx⟩ := Bytes.uint_of_holds h
  unfold tokptr at hn
  rw [parseLoop, parseTokens]
  simp only [hn, ok_bind, hx, if_neg hbegin, if_neg hprop]
  rfl

/-! ### All tokens -/

/-- The current name, or `NULL`. -/
def NameAt (m : Bytes) (ptr : Ulong64) : Option CString → Prop
  | none => ptr = 0
  | some s => Holds m ptr s.encode

/-- What a call passes on: the name of the owner, and the property. -/
structure PropCall.Passes (m : Bytes) (call : PropCall) (name : Option CString) (p : Property) :
    Prop where
  name : NameAt m call.name name
  pname : Holds m call.pname p.name.encode
  propVal : Holds m call.propVal p.value
  plen : call.plen.toNat = p.value.length

/-- The names of the properties are in the strings block. -/
def Named (m : Bytes) (stringBase : Ulong64) (ts : List Token) : Prop :=
  ∀ nameoff p, Token.prop nameoff p ∈ ts → Holds m (stringBase + nameoff.setWidth 64) p.name.encode

theorem parseLoop_tokens (ts : List Token) (hnamed : Named m stringBase ts) :
    ∀ {fuel : Nat} {index : Uint} {ptr : Ulong64} {name : Option CString}, NameAt m ptr name →
      Holds m (tokptr structBase index) (ts.flatMap Token.encode ++ be32 FDT_END) →
      4 * index.toNat + (ts.flatMap Token.encode).length < 2 ^ 32 →
      (ts.flatMap Token.encode).length ≤ limit → ts.length < fuel →
      ∃ calls, parseLoop m limit structBase stringBase fuel index ptr = .ok (.ok, calls) ∧
        List.Forall₂ (fun call x => call.Passes m x.1 x.2) calls
          (walk name (ts.filterMap Token.item)) := by
  -- By induction on the tokens: the first one says where the next one is.
  induction ts with
  | nil =>
    intro fuel index ptr name _ h _ _ hfuel
    obtain ⟨fuel, rfl⟩ : ∃ n, fuel = n + 1 :=
      Nat.exists_eq_succ_of_ne_zero (by simp at hfuel; omega)
    refine ⟨[], ?_, .nil⟩
    rw [parseLoop_word (x := FDT_END) (by decide) (by decide) h]
    rfl
  | cons t ts ih =>
    intro fuel index ptr name hname h hsize hlimit hfuel
    obtain ⟨fuel, rfl⟩ : ∃ n, fuel = n + 1 :=
      Nat.exists_eq_succ_of_ne_zero (by simp at hfuel; omega)
    rw [flatMap_cons, List.append_assoc] at h
    rw [flatMap_cons, length_append, t.length_encode] at hsize hlimit
    obtain ⟨ht, hrest⟩ := holds_append.mp h
    rw [t.length_encode, ← tokptr_add t.words (by omega)] at hrest
    have hindex : (index + BitVec.ofNat 32 t.words).toNat = index.toNat + t.words := by
      rw [toNat_add, toNat_ofNat]
      omega
    have hnamed' : Named m stringBase ts := fun off p hp => hnamed off p (mem_cons_of_mem t hp)
    have hnext := fun {ptr : Ulong64} {name : Option CString} (hname : NameAt m ptr name) =>
      ih hnamed' hname hrest (by omega) (by omega) (Nat.lt_of_succ_lt_succ hfuel)
    cases t with
    | beginNode nodeName =>
      simp only [Token.words] at hsize hlimit
      rw [parseLoop_beginNode (by omega) (by omega) ht]
      have hname' : NameAt m (tokptr structBase index + 4) (some nodeName) :=
        (holds_append.mp (holds_append.mp ht).2).1
      exact hnext hname'
    | prop nameoff p =>
      simp only [Token.words] at hsize
      obtain ⟨calls, hrun, hcalls⟩ := hnext hname
      rw [parseLoop_prop (by omega) ht, hrun]
      refine ⟨_, rfl, .cons ⟨hname, hnamed nameoff p mem_cons_self, ?_, ?_⟩ hcalls⟩
      · -- The value comes after the token and the two words of `fdt_prop`.
        have hval := (holds_append.mp (holds_append.mp (holds_append.mp ht).2).2).2
        rw [BitVec.add_assoc] at hval
        exact (holds_append.mp hval).1
      · rw [toNat_ofNat]
        exact Nat.mod_eq_of_lt (by omega)
    | endNode =>
      rw [parseLoop_word (x := FDT_END_NODE) (by decide) (by decide) ht]
      have hnull : NameAt m 0 none := rfl
      exact hnext hnull
    | nop =>
      rw [parseLoop_word (x := FDT_NOP) (by decide) (by decide) ht]
      exact hnext hname

end Token

/-! ### The blob -/

section Blob
variable {m : Bytes} {a : Ulong64}

/-- A field of the header. -/
theorem holds_field {x : Uint} : ∀ {l : List Uint} {n : Nat} {a : Ulong64},
    Holds m a (l.flatMap be32) → l[n]? = some x → Holds m (a + BitVec.ofNat 64 (4 * n)) (be32 x)
  | [], _, _, _, hn => by simp at hn
  | y :: l, 0, a, h, hn => by
    obtain rfl : y = x := by simpa using hn
    have hzero : a + BitVec.ofNat 64 (4 * 0) = a := BitVec.add_zero a
    rw [hzero]
    exact (holds_append.mp h).1
  | y :: l, n + 1, a, h, hn => by
    have hnext := holds_field (holds_append.mp h).2 (getElem?_cons_succ ▸ hn)
    rw [BitVec.add_assoc, ← ofNat_add] at hnext
    rwa [Nat.mul_add, Nat.add_comm]

theorem length_le_flatMap_encode (ts : List Token) :
    ts.length ≤ (ts.flatMap Token.encode).length := by
  induction ts with
  | nil => exact Nat.zero_le _
  | cons t ts ih =>
    have hpos : 1 ≤ t.words := by cases t <;> simp [Token.words]
    rw [flatMap_cons, length_append, t.length_encode, length_cons]
    omega

/-- The names of the properties are where the tokens say. -/
theorem Blob.holds_name (b : Blob) (h : Holds m a b.strings) : Named m a b.tokens := by
  intro nameoff p hp
  have hname := b.named nameoff p hp
  have hpos : 0 < p.name.encode.length := by simp [CString.encode]
  have hlen := hname.length_le
  rw [length_drop] at hlen
  have hoff : nameoff.setWidth 64 = BitVec.ofNat 64 nameoff.toNat := by
    apply eq_of_toNat_eq
    rw [toNat_setWidth, toNat_ofNat]
  rw [← take_append_drop nameoff.toNat b.strings, holds_append, length_take,
    Nat.min_eq_left (by omega), ← hoff] at h
  obtain ⟨rest, hrest⟩ := hname
  exact (holds_append.mp (hrest ▸ h.2)).1

/-- The base of the structure block, as the walker computes it. -/
def Blob.structBase (b : Blob) (dtbAddr : Ulong64) : Ulong64 :=
  (dtbAddr.setWidth 32 + BitVec.ofNat 32 b.offDtStruct).setWidth 64

/-- The base of the strings block. -/
def Blob.stringBase (b : Blob) (dtbAddr : Ulong64) : Ulong64 :=
  dtbAddr + (BitVec.ofNat 32 b.offDtStrings).setWidth 64

theorem Blob.length_structure (b : Blob) :
    b.structure_.length = (b.tokens.flatMap Token.encode).length + 4 := by
  rw [structure_, length_append]
  rfl

/-- The header says where the two blocks are. -/
theorem Blob.offsets (b : Blob) (hm : Holds m a b.encode) :
    Holds m (a + 8) (be32 (BitVec.ofNat 32 b.offDtStruct)) ∧
      Holds m (a + 12) (be32 (BitVec.ofNat 32 b.offDtStrings)) :=
  have hheader := (holds_append.mp hm).1
  ⟨holds_field (n := 2) hheader rfl, holds_field (n := 3) hheader rfl⟩

/-- Where the walker finds the two blocks. -/
theorem Blob.parts (b : Blob) (hm : Holds m a b.encode)
    (hbase : a.toNat + b.offDtStruct < 2 ^ 32) :
    Holds m (tokptr (b.structBase a) 0) b.structure_ ∧ Named m (b.stringBase a) b.tokens := by
  have hfits := b.fits
  have hhead : (b.header.flatMap be32).length = 40 := rfl
  have hstruct : b.offDtStruct = 40 + b.reserved.length := rfl
  have hstrings : b.offDtStrings = b.offDtStruct + b.structure_.length := rfl
  have hblock := b.length_structure
  obtain ⟨-, hm⟩ := holds_append.mp hm
  obtain ⟨-, hm⟩ := holds_append.mp hm
  obtain ⟨hstructure, hm⟩ := holds_append.mp hm
  rw [hhead, BitVec.add_assoc, ← ofNat_add] at hstructure
  rw [hhead, BitVec.add_assoc, BitVec.add_assoc, ← ofNat_add, ← ofNat_add] at hm
  -- The base of the structure block fits into 32 bits.
  have hbase' : tokptr (b.structBase a) 0 = a + BitVec.ofNat 64 (40 + b.reserved.length) := by
    have hzero : tokptr (b.structBase a) 0 = b.structBase a := BitVec.add_zero _
    rw [hzero]
    apply eq_of_toNat_eq
    simp only [structBase, toNat_setWidth, toNat_add, toNat_ofNat, hstruct]
      at hbase ⊢
    omega
  have hoff : (BitVec.ofNat 32 b.offDtStrings).setWidth 64 = BitVec.ofNat 64 b.offDtStrings := by
    apply eq_of_toNat_eq
    simp only [toNat_setWidth, toNat_ofNat]
    omega
  refine ⟨hbase'.symm ▸ hstructure, b.holds_name ?_⟩
  rw [stringBase, hoff, hstrings, hstruct, Nat.add_assoc]
  exact hm

theorem Blob.length_encode (b : Blob) :
    b.encode.length = 40 + (b.reserved.length + (b.structure_.length + b.strings.length)) := by
  have hhead : (b.header.flatMap be32).length = 40 := rfl
  rw [encode, length_append, length_append, length_append, hhead]

/-- Beyond 2^32 the base wraps to an address below the blob. -/
theorem Blob.place_structBase (b : Blob) (haddr : a.toNat < 2 ^ 32)
    (hbase : 2 ^ 32 ≤ a.toNat + b.offDtStruct) :
    Lib.place a b.encode (tokptr (b.structBase a) 0) = none := by
  have hfits := b.fits
  have hblock := b.length_structure
  have hstruct : b.offDtStruct = 40 + b.reserved.length := rfl
  have hzero : tokptr (b.structBase a) 0 = b.structBase a := BitVec.add_zero _
  have hwrap : (b.structBase a).toNat = a.toNat + b.offDtStruct - 2 ^ 32 := by
    simp only [structBase, toNat_setWidth, toNat_add, toNat_ofNat]
    omega
  rw [hzero, Lib.place, List.getElem?_eq_none]
  rw [b.length_encode, toNat_sub, hwrap]
  omega

end Blob

end Dtb

open Dtb in
/-- On a blob at an address below 2^32, `parseDtbNodes` returns `OK` and
calls `handleProp` once for each property, in preorder, with the name of
the owner, the name, the value and its length. It does so in every memory
that holds the blob if and only if the structure block starts below
2^32. -/
theorem parseDtbNodes_blob_iff (b : Blob) (t : Node) (ht : b.Describes t) (dtbAddr : Ulong64)
    (haddr : dtbAddr.toNat < 2 ^ 32) :
    (∀ m, Holds m dtbAddr b.encode → ∀ fuel, b.encode.length ≤ fuel →
      ∃ calls, parseDtbNodes m fuel dtbAddr = .ok (.ok, calls) ∧
        List.Forall₂ (fun call x => call.Passes m (some x.1) x.2) calls t.properties) ↔
    dtbAddr.toNat + b.offDtStruct < 2 ^ 32 := by
  have hfits := b.fits
  have hlen := b.length_encode
  have hblock := b.length_structure
  refine ⟨fun hall => Nat.lt_of_not_le fun hbase => ?_, fun hbase m hm fuel hfuel => ?_⟩
  · -- With nothing else in memory, the first token cannot be read.
    have hm : Holds (Lib.place dtbAddr b.encode) dtbAddr b.encode := Lib.holds_place (by omega)
    obtain ⟨calls, hrun, -⟩ := hall _ hm _ (Nat.le_refl _)
    obtain ⟨hoffStruct, hoffStrings⟩ := b.offsets hm
    obtain ⟨n1, hn1, hx1⟩ := Bytes.uint_of_holds hoffStruct
    obtain ⟨n2, hn2, hx2⟩ := Bytes.uint_of_holds hoffStrings
    rw [parseDtbNodes, hn1, ok_bind, hn2, ok_bind, hx1, hx2, hlen, Nat.add_comm 40] at hrun
    obtain ⟨n, hn, -⟩ := bind_eq_ok hrun
    obtain ⟨x, hx, -⟩ := bind_eq_ok hn
    cases (Bytes.byte_of_none (b.place_structBase haddr hbase)).symm.trans hx
  · have htokens := length_le_flatMap_encode b.tokens
    obtain ⟨hoffStruct, hoffStrings⟩ := b.offsets hm
    obtain ⟨hstructure, hnamed⟩ := b.parts hm hbase
    obtain ⟨n1, hn1, hx1⟩ := Bytes.uint_of_holds hoffStruct
    obtain ⟨n2, hn2, hx2⟩ := Bytes.uint_of_holds hoffStrings
    have hnull : NameAt m 0 none := rfl
    have hzero : (0 : Uint).toNat = 0 := rfl
    obtain ⟨calls, hrun, hcalls⟩ := parseLoop_tokens b.tokens hnamed hnull hstructure
      (by omega) (show _ ≤ fuel by omega) (show _ < fuel by omega)
    refine ⟨calls, ?_, ?_⟩
    · rw [parseDtbNodes, hn1, ok_bind, hn2, ok_bind, hx1, hx2]
      exact hrun
    · rw [ht, walk_flatten, List.forall₂_map_right_iff] at hcalls
      exact hcalls

namespace Dtb

/-- The string "reg". -/
def regName : CString := ⟨[0x72, 0x65, 0x67], by decide⟩

/-- A root with the property `reg` and a child `u` that has it too. -/
def regTree : Node :=
  .mk ⟨[], by decide⟩ [⟨regName, [1, 2, 3, 4, 5]⟩]
    [.mk ⟨[0x75], by decide⟩ [⟨regName, [6]⟩] []]

/-- The blob of `regTree`, with no reserved areas and an `FDT_NOP`. -/
def regBlob : Blob where
  bootCpuid := 0
  reserved := List.replicate 16 0
  tokens := [.beginNode ⟨[], by decide⟩, .nop, .prop 0 ⟨regName, [1, 2, 3, 4, 5]⟩,
    .beginNode ⟨[0x75], by decide⟩, .prop 0 ⟨regName, [6]⟩, .endNode, .endNode]
  strings := regName.encode
  named := by
    intro nameoff p h
    have hp : nameoff = 0 ∧ p.name = regName := by
      simp only [mem_cons, Token.prop.injEq, reduceCtorEq, false_or, not_mem_nil,
        or_false] at h
      rcases h with ⟨rfl, rfl⟩ | ⟨rfl, rfl⟩ <;> exact ⟨rfl, rfl⟩
    obtain ⟨rfl, hname⟩ := hp
    rw [hname]
    exact prefix_rfl
  fits := by decide

theorem length_regBlob : regBlob.encode.length = 128 := by decide +kernel

/-- The blob across the 4 GiB line, with zeros around it. -/
def wrappedBlob : Bytes := fun x => (Lib.place 0xFFFFFFC8 regBlob.encode x).or (some 0)

theorem holds_wrappedBlob : Holds wrappedBlob 0xFFFFFFC8 regBlob.encode := by
  refine (Lib.holds_place (by rw [length_regBlob]; decide)).mono fun x b hx => ?_
  rw [wrappedBlob, hx]
  rfl

end Dtb

open Dtb in
/-- The blob at the start of the memory of the board. -/
theorem parseDtbNodes_regBlob : ∃ calls,
    parseDtbNodes (Lib.place 0x80000000 regBlob.encode) 128 0x80000000 = .ok (.ok, calls) ∧
      List.Forall₂ (fun call x => call.Passes (Lib.place 0x80000000 regBlob.encode) (some x.1) x.2)
        calls regTree.properties :=
  (parseDtbNodes_blob_iff regBlob regTree rfl _ (by decide)).mpr (by decide) _
    (Lib.holds_place (by rw [length_regBlob]; decide)) _ length_regBlob.le

open Dtb in
/-- The address of the structure block of the blob across the 4 GiB line
wraps to zero, and the walk ends there with the first word. -/
theorem parseDtbNodes_wrapped : regBlob.Describes regTree ∧ regTree.properties ≠ [] ∧
    Holds wrappedBlob 0xFFFFFFC8 regBlob.encode ∧ (0xFFFFFFC8 : Ulong64).toNat < 2 ^ 32 ∧
      ∀ fuel, parseDtbNodes wrappedBlob (fuel + 1) 0xFFFFFFC8 = .ok (.syserr, []) := by
  refine ⟨rfl, by simp [regTree, Node.properties], holds_wrappedBlob, by decide, fun fuel => ?_⟩
  have hstruct : wrappedBlob.uint (0xFFFFFFC8 + 8) = .ok 0x38000000 := by decide +kernel
  have hstrings : wrappedBlob.uint (0xFFFFFFC8 + 12) = .ok 0x7c000000 := by decide +kernel
  have hbase : ((0xFFFFFFC8 : Ulong64).setWidth 32 + be32ToCpu 0x38000000).setWidth 64 =
      (0 : Ulong64) := by decide
  have hzero : wrappedBlob.uint (0 + 4 * (0 : Uint).setWidth 64) = .ok 0 := by decide +kernel
  have htoken : be32ToCpu 0 = 0 := by decide
  rw [parseDtbNodes, hstruct, hstrings]
  simp only [ok_bind, hbase]
  rw [parseLoop, parseTokens]
  simp only [hzero, ok_bind, htoken]
  rfl

end Xinu
