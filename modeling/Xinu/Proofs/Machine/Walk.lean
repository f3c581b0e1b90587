import Xinu.Proofs.Machine.Model

/-!
# `Xinu.Proofs.Machine.Walk`: the blobs that the walker stays inside of

`parseDtbNodes` checks none of the sizes in the header. Whether it stays
inside the blob depends on all of its bytes, and this module says exactly
how. `Legible` has the bytes of one property that its handler reads.
`Walkable` is a grammar of the structure block: tokens that lie inside the
blob with all that is read for them, up to one that ends the walk.
`Readable` adds the two words of the header.

`parseLoop_returns` goes through the grammar, `walkable_of_parseLoop`
through the rounds of the loop, and together they are
`parseDtbNodes_ends_iff`: the walk ends without a fault exactly on the
readable blobs. A derivation of the grammar is finite, so this also says
when the loop ends at all. `readable_of_describes` connects it with device
trees: the blob of a tree is readable when the few values that the
handlers look into have the form that they expect.
-/

namespace Xinu.Dtb

open Lib (Holds Mapped holds_append holds_cons mapped_add)
open Bytes List

variable {shl : Uint → Uint} {m : Bytes} {fuel rounds : Nat} {p : Platform} {call : PropCall}
  {name : Option CString} {s v : CString} {r : Syscall × Platform}
  {structBase stringBase ptr a : Ulong64} {index : Uint}

/-! ### The bytes that the handlers read -/

/-- What stands before the last comma fits into the buffer for it. -/
def FamilyFits (v : CString) : Prop :=
  ∀ front back, v.bytes = front ++ chr ',' :: back → chr ',' ∉ back → front.length ≤ PLT_STRMAX

/-- What the handlers read for a property of the node `s` is there. -/
def Legible (m : Bytes) (s : CString) (pname propVal : Ulong64) (plen : Uint) : Prop :=
  if memoryAt <+: s.bytes then
    m.Compares pname reg ∧ (Holds m pname (reg ++ [0]) ∧ plen = 16 → Mapped m propVal 16)
  else if uartAt <+: s.bytes then
    m.Compares pname reg ∧
      if Holds m pname (reg ++ [0]) then Mapped m propVal 8
      else m.Compares pname clockFrequency ∧
        (Holds m pname (clockFrequency ++ [0]) → Mapped m propVal 4)
  else if s.bytes = [] then
    m.Compares pname model ∧
      (Holds m pname (model ++ [0]) → ∃ v : CString, Holds m propVal v.encode ∧ FamilyFits v)
  else True

theorem dtbReadLong_isOk_iff : (∃ x, dtbReadLong shl m a = .ok x) ↔ Mapped m a 8 := by
  rw [← ulong_isOk_iff]
  constructor
  · rintro ⟨x, h⟩
    obtain ⟨data, hdata, -⟩ := bind_eq_ok h
    exact ⟨data, hdata⟩
  · rintro ⟨data, hdata⟩
    rw [dtbReadLong, hdata]
    exact ⟨_, rfl⟩

theorem memoryHandler_isOk_iff : (∃ r, memoryHandler shl m p call = .ok r) ↔
    m.Compares call.pname reg ∧
      (Holds m call.pname (reg ++ [0]) ∧ call.plen = 16 → Mapped m call.propVal 16) := by
  have hsplit : Mapped m call.propVal 16 ↔
      Mapped m call.propVal 8 ∧ Mapped m (call.propVal + 8) 8 := mapped_add (n := 8) (k := 8)
  constructor
  · rintro ⟨r, h⟩
    obtain ⟨c, hc, -⟩ := bind_eq_ok h
    have hcomp := compares_of_strcmp reg_nonzero hc
    refine ⟨hcomp, fun hcond => hsplit.mpr ?_⟩
    rw [memoryHandler_eq hcomp, if_pos hcond] at h
    obtain ⟨min, hmin, h⟩ := bind_eq_ok h
    obtain ⟨size, hsize, -⟩ := bind_eq_ok h
    exact ⟨dtbReadLong_isOk_iff.mp ⟨min, hmin⟩, dtbReadLong_isOk_iff.mp ⟨size, hsize⟩⟩
  · rintro ⟨hcomp, hmapped⟩
    rw [memoryHandler_eq hcomp]
    by_cases hcond : Holds m call.pname (reg ++ [0]) ∧ call.plen = 16
    · obtain ⟨hbase, hsize⟩ := hsplit.mp (hmapped hcond)
      obtain ⟨min, hmin⟩ := dtbReadLong_isOk_iff.mpr hbase
      obtain ⟨size, hsize⟩ := dtbReadLong_isOk_iff.mpr hsize
      rw [if_pos hcond, hmin, ok_bind, hsize]
      exact ⟨_, rfl⟩
    · rw [if_neg hcond]
      exact ⟨_, rfl⟩

theorem uartHandler_isOk_iff : (∃ r, uartHandler shl m p call = .ok r) ↔
    m.Compares call.pname reg ∧
      if Holds m call.pname (reg ++ [0]) then Mapped m call.propVal 8
      else m.Compares call.pname clockFrequency ∧
        (Holds m call.pname (clockFrequency ++ [0]) → Mapped m call.propVal 4) := by
  constructor
  · rintro ⟨r, h⟩
    obtain ⟨c, hc, -⟩ := bind_eq_ok h
    have hcomp := compares_of_strcmp reg_nonzero hc
    refine ⟨hcomp, ?_⟩
    rw [uartHandler_eq hcomp] at h
    by_cases hreg : Holds m call.pname (reg ++ [0])
    · rw [if_pos hreg] at h ⊢
      obtain ⟨addr, haddr, -⟩ := bind_eq_ok h
      exact dtbReadLong_isOk_iff.mp ⟨addr, haddr⟩
    · rw [if_neg hreg] at h ⊢
      obtain ⟨d, hd, h⟩ := bind_eq_ok h
      refine ⟨compares_of_strcmp clockFrequency_nonzero hd, fun hclock => ?_⟩
      rw [if_pos ((strcmp_eq_zero_iff clockFrequency_nonzero hd).mpr hclock)] at h
      obtain ⟨n, hn, -⟩ := bind_eq_ok h
      exact uint_isOk_iff.mp ⟨n, hn⟩
  · rintro ⟨hcomp, h⟩
    rw [uartHandler_eq hcomp]
    by_cases hreg : Holds m call.pname (reg ++ [0])
    · rw [if_pos hreg] at h ⊢
      obtain ⟨addr, haddr⟩ := dtbReadLong_isOk_iff.mpr h
      rw [haddr]
      exact ⟨_, rfl⟩
    · rw [if_neg hreg] at h ⊢
      obtain ⟨hcomp', hmapped⟩ := h
      obtain ⟨d, hd, hiff⟩ := strcmp_spec clockFrequency_nonzero hcomp'
      rw [hd, ok_bind]
      by_cases hclock : d = 0
      · obtain ⟨n, hn⟩ := uint_isOk_iff.mpr (hmapped (hiff.mp hclock))
        rw [if_pos hclock, hn]
        exact ⟨_, rfl⟩
      · rw [if_neg hclock]
        exact ⟨_, rfl⟩

/-! ### The model -/

theorem familyFits_iff : FamilyFits v ↔ (familyOf v).length ≤ PLT_STRMAX := by
  constructor
  · intro h
    rcases comma_cases v with ⟨heq, hback⟩ | ⟨-, hnil, -⟩
    · exact h (familyOf v) (manufacturerOf v) heq hback
    · rw [hnil]
      exact Nat.zero_le PLT_STRMAX
  · intro h front back heq hback
    rwa [(parts_of_comma heq hback).1] at h

/-- The copies of the model are inside the record when its first part
fits. -/
theorem storeModel_isOk_iff (hnull : m 0 = none) (hv : Holds m call.propVal v.encode) :
    (∃ r, storeModel m p call (lastAt (chr ',') v.bytes call.propVal 0) = .ok r) ↔
      FamilyFits v := by
  rw [storeModel_eq hnull hv, familyFits_iff]
  by_cases h : (familyOf v).length ≤ PLT_STRMAX
  · rw [if_pos h]
    exact iff_of_true ⟨_, rfl⟩ h
  · rw [if_neg h]
    exact iff_of_false nofun h

/-- A node of the root: the value of `model` has to end, and to fit. -/
theorem baseHandler_returns (hnull : m 0 = none) (hcomp : m.Compares call.pname model)
    (h : Holds m call.pname (model ++ [0]) →
      ∃ v : CString, Holds m call.propVal v.encode ∧ FamilyFits v) :
    ∃ n r, ∀ fuel ≥ n, baseHandler m fuel p call = .ok r := by
  obtain ⟨c, hc, hiff⟩ := strcmp_spec model_nonzero hcomp
  -- Only `model` has a value that is read, and its end bounds the search.
  by_cases hzero : c = 0
  · obtain ⟨v, hv, hfits⟩ := h (hiff.mp hzero)
    obtain ⟨r, hr⟩ := (storeModel_isOk_iff (p := p) hnull hv).mpr hfits
    refine ⟨v.bytes.length + 1, r, fun fuel hfuel => ?_⟩
    have hch : chr ',' ≠ 0 := by decide
    rw [baseHandler, hc, ok_bind, if_pos hzero, strrchr,
      strrchrLoop_of_holds hch v.nonzero hv hfuel, ok_bind, hr]
  · refine ⟨0, (.ok, p), fun fuel _ => ?_⟩
    rw [baseHandler, hc, ok_bind, if_neg hzero]
    rfl

theorem legible_of_baseHandler (hnull : m 0 = none) (h : baseHandler m fuel p call = .ok r) :
    m.Compares call.pname model ∧ (Holds m call.pname (model ++ [0]) →
      ∃ v : CString, Holds m call.propVal v.encode ∧ FamilyFits v) := by
  obtain ⟨c, hc, h⟩ := bind_eq_ok h
  refine ⟨compares_of_strcmp model_nonzero hc, fun hmodel => ?_⟩
  rw [if_pos ((strcmp_eq_zero_iff model_nonzero hc).mpr hmodel)] at h
  obtain ⟨x, hx, h⟩ := bind_eq_ok h
  obtain ⟨v, hv, hlen⟩ := holds_of_strrchrLoop hx
  have hch : chr ',' ≠ 0 := by decide
  cases (strrchrLoop_of_holds hch v.nonzero hv hlen).symm.trans hx
  exact ⟨v, hv, (storeModel_isOk_iff hnull hv).mp ⟨r, h⟩⟩

/-! ### One property -/

theorem handleProp_returns (hnull : m 0 = none) (hname : Holds m call.name s.encode)
    (h : Legible m s call.pname call.propVal call.plen) :
    ∃ n r, ∀ fuel ≥ n, handleProp shl m fuel p call = .ok r := by
  simp only [handleProp_eq hname]
  rw [Legible] at h
  by_cases hmemory : memoryAt <+: s.bytes
  · simp only [if_pos hmemory] at h ⊢
    obtain ⟨r, hr⟩ := memoryHandler_isOk_iff.mpr h
    exact ⟨0, r, fun _ _ => hr⟩
  simp only [if_neg hmemory] at h ⊢
  by_cases huart : uartAt <+: s.bytes
  · simp only [if_pos huart] at h ⊢
    obtain ⟨r, hr⟩ := uartHandler_isOk_iff.mpr h
    exact ⟨0, r, fun _ _ => hr⟩
  simp only [if_neg huart] at h ⊢
  by_cases hbase : s.bytes = []
  · simp only [if_pos hbase] at h ⊢
    exact baseHandler_returns hnull h.1 h.2
  · simp only [if_neg hbase]
    exact ⟨0, (.syserr, p), fun _ _ => rfl⟩

theorem legible_of_handleProp (hnull : m 0 = none) (hname : Holds m call.name s.encode)
    (h : handleProp shl m fuel p call = .ok r) :
    Legible m s call.pname call.propVal call.plen := by
  rw [handleProp_eq hname] at h
  rw [Legible]
  by_cases hmemory : memoryAt <+: s.bytes
  · rw [if_pos hmemory] at h ⊢
    exact memoryHandler_isOk_iff.mp ⟨r, h⟩
  rw [if_neg hmemory] at h ⊢
  by_cases huart : uartAt <+: s.bytes
  · rw [if_pos huart] at h ⊢
    exact uartHandler_isOk_iff.mp ⟨r, h⟩
  rw [if_neg huart] at h ⊢
  by_cases hbase : s.bytes = []
  · rw [if_pos hbase] at h ⊢
    exact legible_of_baseHandler hnull h
  · rw [if_neg hbase]
    trivial

/-! ### The structure block -/

/-- The walk from the token at `index` on stays inside the memory, when
`name` is the node that it is in. -/
inductive Walkable (m : Bytes) (structBase stringBase : Ulong64) :
    Uint → Option CString → Prop
  /-- A token that ends the walk: `FDT_END`, or an unknown one. -/
  | stop {index : Uint} {name : Option CString} (x : Uint)
      (h : Holds m (tokptr structBase index) (be32 x))
      (hstop : x ∉ [FDT_BEGIN_NODE, FDT_PROP, FDT_END_NODE, FDT_NOP]) :
      Walkable m structBase stringBase index name
  | nop {index : Uint} {name : Option CString}
      (h : Holds m (tokptr structBase index) (be32 FDT_NOP))
      (next : Walkable m structBase stringBase (index + 1) name) :
      Walkable m structBase stringBase index name
  | endNode {index : Uint} {name : Option CString}
      (h : Holds m (tokptr structBase index) (be32 FDT_END_NODE))
      (next : Walkable m structBase stringBase (index + 1) none) :
      Walkable m structBase stringBase index name
  /-- The name of a node ends inside the memory. -/
  | beginNode {index : Uint} {name : Option CString} (s : CString)
      (h : Holds m (tokptr structBase index) (be32 FDT_BEGIN_NODE ++ s.encode))
      (next : Walkable m structBase stringBase
        (index + (1 + c2ioff (BitVec.ofNat 32 (s.bytes.length + 1)))) (some s)) :
      Walkable m structBase stringBase index name
  /-- A property belongs to a node. The words that it takes are counted
  in a `uint`, so with a length near 2^32 they are few. -/
  | prop {index : Uint} (s : CString) (plen nameoff : Uint)
      (h : Holds m (tokptr structBase index) (be32 FDT_PROP ++ (be32 plen ++ be32 nameoff)))
      (hprop : Legible m s (stringBase + nameoff.setWidth 64)
        (tokptr structBase index + 4 + 8) plen)
      (next : Walkable m structBase stringBase (index + (1 + c2ioff (8 + plen))) (some s)) :
      Walkable m structBase stringBase index (some s)

/-- One round of the loop at a token `x`. -/
theorem parseLoop_succ {x : Uint} (h : Holds m (tokptr structBase index) (be32 x)) :
    Platform.parseLoop shl m fuel structBase stringBase (rounds + 1) index ptr p =
      if x = FDT_BEGIN_NODE then do
        let len ← m.strlen fuel (tokptr structBase index + 4)
        Platform.parseLoop shl m fuel structBase stringBase rounds
          (index + (1 + c2ioff ((1 + len).setWidth 32))) (tokptr structBase index + 4) p
      else if x = FDT_PROP then do
        let plen ← m.uint (tokptr structBase index + 4)
        let nameoff ← m.uint (tokptr structBase index + 4 + 4)
        let r ← handleProp shl m fuel p
          (propCall structBase stringBase ptr index (be32ToCpu plen) (be32ToCpu nameoff))
        Platform.parseLoop shl m fuel structBase stringBase rounds (index +
          (1 + c2ioff ((8 + (be32ToCpu plen).setWidth 64 : Ulong64).setWidth 32))) ptr r.2
      else if x = FDT_END_NODE then
        Platform.parseLoop shl m fuel structBase stringBase rounds (index + 1) 0 p
      else if x = FDT_NOP then
        Platform.parseLoop shl m fuel structBase stringBase rounds (index + 1) ptr p
      else if x = FDT_END then .ok (.ok, p)
      else .ok (.syserr, p) := by
  obtain ⟨n, hn, rfl⟩ := uint_of_holds h
  unfold tokptr at hn
  rw [Platform.parseLoop, parseTokens, hn]
  rfl

/-- The index after the name of a node, whatever its length. -/
theorem setWidth_strlen (n : Nat) :
    (1 + (0 + BitVec.ofNat 64 n) : Ulong64).setWidth 32 = BitVec.ofNat 32 (n + 1) := by
  have hone : (1 : Ulong64).toNat = 1 := rfl
  have hzero : (0 : Ulong64).toNat = 0 := rfl
  apply BitVec.eq_of_toNat_eq
  simp only [BitVec.toNat_add, BitVec.toNat_setWidth, BitVec.toNat_ofNat, hone, hzero]
  omega

theorem setWidth_plen (plen : Uint) :
    (8 + plen.setWidth 64 : Ulong64).setWidth 32 = 8 + plen := by
  have height : (8 : Ulong64).toNat = 8 := rfl
  have height' : (8 : Uint).toNat = 8 := rfl
  apply BitVec.eq_of_toNat_eq
  simp only [BitVec.toNat_add, BitVec.toNat_setWidth, height, height']
  omega

/-- A loop returns the same from some bound of its rounds and of the
strings that it reads on. -/
def Returns (f : Nat → Nat → Except Fault (Syscall × Platform)) : Prop :=
  ∃ n r, ∀ fuel ≥ n, ∀ rounds ≥ n, f fuel rounds = .ok r

/-- So it does after one round more. -/
theorem Returns.round {f g : Nat → Nat → Except Fault (Syscall × Platform)} (h : Returns f)
    (k : Nat) (hround : ∀ fuel ≥ k, ∀ rounds, g fuel (rounds + 1) = f fuel rounds) :
    Returns g := by
  obtain ⟨n, r, hr⟩ := h
  refine ⟨n + k + 1, r, fun fuel hfuel rounds hrounds => ?_⟩
  obtain ⟨rounds, rfl⟩ : ∃ j, rounds = j + 1 := ⟨rounds - 1, by omega⟩
  rw [hround fuel (by omega), hr fuel (by omega) rounds (by omega)]

/-- On a structure block of the grammar, the loop ends without a fault.
The induction is on the derivation, which bounds the rounds. -/
theorem parseLoop_returns (hnull : m 0 = none)
    (h : Walkable m structBase stringBase index name) :
    ∀ {ptr : Ulong64} {p : Platform}, NameAt m ptr name → Returns fun fuel rounds =>
      Platform.parseLoop shl m fuel structBase stringBase rounds index ptr p := by
  induction h with
  | stop x h hstop =>
    intro ptr p _
    simp only [mem_cons, not_mem_nil, or_false, not_or] at hstop
    obtain ⟨hbegin, hprop, hend, hnop⟩ := hstop
    have hdone : Returns fun _ _ => if x = FDT_END then .ok (.ok, p) else .ok (.syserr, p) := by
      refine ⟨0, if x = FDT_END then (.ok, p) else (.syserr, p), fun _ _ _ _ => ?_⟩
      split <;> rfl
    refine hdone.round 0 fun fuel _ rounds => ?_
    rw [parseLoop_succ h, if_neg hbegin, if_neg hprop, if_neg hend, if_neg hnop]
  | nop h next ih =>
    intro ptr p hname
    refine (ih (p := p) hname).round 0 fun fuel _ rounds => ?_
    rw [parseLoop_succ h]
    rfl
  | endNode h next ih =>
    intro ptr p _
    refine (ih (p := p) rfl).round 0 fun fuel _ rounds => ?_
    rw [parseLoop_succ h]
    rfl
  | @beginNode index name s h next ih =>
    intro ptr p _
    obtain ⟨htok, hs⟩ := holds_append.mp h
    have hs' : NameAt m (tokptr structBase index + 4) (some s) := hs
    refine (ih (p := p) hs').round (s.bytes.length + 1) fun fuel hfuel rounds => ?_
    have hstart : tokptr structBase index + 4 + 0 = tokptr structBase index + 4 :=
      BitVec.add_zero _
    have hlen : m.strlen fuel (tokptr structBase index + 4) =
        .ok (0 + BitVec.ofNat 64 s.bytes.length) := by
      refine strlenLoop_eq s.bytes s.nonzero ?_ hfuel
      rw [hstart]
      exact hs
    rw [parseLoop_succ htok, if_pos rfl, hlen, ok_bind, setWidth_strlen]
  | @prop index s plen nameoff h hprop next ih =>
    intro ptr p hname
    obtain ⟨htok, h⟩ := holds_append.mp h
    obtain ⟨hplen, hoff⟩ := holds_append.mp h
    obtain ⟨n1, hn1, rfl⟩ := uint_of_holds hplen
    obtain ⟨n2, hn2, rfl⟩ := uint_of_holds hoff
    have hn1' : m.uint (tokptr structBase index + 4) = .ok n1 := hn1
    have hn2' : m.uint (tokptr structBase index + 4 + 4) = .ok n2 := hn2
    obtain ⟨k, r, hr⟩ : ∃ k r, ∀ fuel ≥ k, handleProp shl m fuel p (propCall structBase stringBase
        ptr index (be32ToCpu n1) (be32ToCpu n2)) = .ok r := handleProp_returns hnull hname hprop
    refine (ih (p := r.2) hname).round k fun fuel hfuel rounds => ?_
    have hne : FDT_PROP ≠ FDT_BEGIN_NODE := by decide
    rw [parseLoop_succ htok, if_neg hne, if_pos rfl, hn1', ok_bind, hn2', ok_bind, hr fuel hfuel,
      ok_bind, setWidth_plen]

/-- When the loop ends without a fault, it went over a structure block of
the grammar. The induction is on the rounds. -/
theorem walkable_of_parseLoop (hnull : m 0 = none) (rounds : Nat) :
    ∀ {index : Uint} {ptr : Ulong64} {name : Option CString} {p : Platform},
      NameAt m ptr name →
      Platform.parseLoop shl m fuel structBase stringBase rounds index ptr p = .ok r →
      Walkable m structBase stringBase index name := by
  induction rounds with
  | zero =>
    intro index ptr name p _ h
    cases h
  | succ rounds ih =>
    intro index ptr name p hname h
    obtain ⟨n, hn, -⟩ := bind_eq_ok h
    have htok : Holds m (tokptr structBase index) (be32 (be32ToCpu n)) := holds_of_uint hn
    rw [parseLoop_succ htok] at h
    generalize be32ToCpu n = x at htok h
    by_cases hbegin : x = FDT_BEGIN_NODE
    · subst hbegin
      obtain ⟨len, hlen, h⟩ := bind_eq_ok h
      obtain ⟨s, hs, rfl⟩ := holds_of_strlenLoop hlen
      have hstart : tokptr structBase index + 4 + 0 = tokptr structBase index + 4 :=
        BitVec.add_zero _
      rw [hstart] at hs
      rw [setWidth_strlen] at h
      have hs' : NameAt m (tokptr structBase index + 4) (some s) := hs
      exact .beginNode s (holds_append.mpr ⟨htok, hs⟩) (ih hs' h)
    rw [if_neg hbegin] at h
    by_cases hprop : x = FDT_PROP
    · subst hprop
      rw [if_pos rfl] at h
      obtain ⟨n1, hn1, h⟩ := bind_eq_ok h
      obtain ⟨n2, hn2, h⟩ := bind_eq_ok h
      obtain ⟨r', hr', h⟩ := bind_eq_ok h
      cases name with
      | none =>
        -- Without a node, `handleProp` reads from `NULL`.
        have hptr : ptr = 0 := hname
        have hread : m ptr = none := hptr ▸ hnull
        rw [handleProp_null hread] at hr'
        cases hr'
      | some s =>
        rw [setWidth_plen] at h
        have howner : Holds m ptr s.encode := hname
        exact .prop s _ _ (holds_append.mpr ⟨htok, holds_append.mpr
          ⟨holds_of_uint hn1, holds_of_uint hn2⟩⟩) (legible_of_handleProp hnull howner hr')
          (ih hname h)
    rw [if_neg hprop] at h
    by_cases hend : x = FDT_END_NODE
    · subst hend
      rw [if_pos rfl] at h
      have hnone : NameAt m 0 none := rfl
      exact .endNode htok (ih hnone h)
    rw [if_neg hend] at h
    by_cases hnop : x = FDT_NOP
    · subst hnop
      rw [if_pos rfl] at h
      exact .nop htok (ih hname h)
    · refine .stop x htok ?_
      simp only [mem_cons, not_mem_nil, or_false, not_or]
      exact ⟨hbegin, hprop, hend, hnop⟩

/-! ### The blob -/

/-- The header says where a walkable structure block is. -/
def Readable (m : Bytes) (dtbAddr : Ulong64) : Prop :=
  ∃ offStruct offStrings, Holds m (dtbAddr + 8) (be32 offStruct ++ be32 offStrings) ∧
    Walkable m ((dtbAddr.setWidth 32 + offStruct).setWidth 64)
      (dtbAddr + offStrings.setWidth 64) 0 none

theorem parseDtbNodes_returns_iff {dtbAddr : Ulong64} (hnull : m 0 = none) :
    (∃ n r, ∀ fuel ≥ n, Platform.parseDtbNodes shl m fuel p dtbAddr = .ok r) ↔
      Readable m dtbAddr := by
  have hname : NameAt m 0 none := rfl
  have hnext : dtbAddr + 8 + BitVec.ofNat 64 4 = dtbAddr + 12 := BitVec.add_assoc ..
  constructor
  · rintro ⟨n, r, h⟩
    have h := h n (Nat.le_refl n)
    obtain ⟨n1, hn1, h⟩ := bind_eq_ok h
    obtain ⟨n2, hn2, h⟩ := bind_eq_ok h
    refine ⟨_, _, holds_append.mpr ⟨holds_of_uint hn1, ?_⟩, walkable_of_parseLoop hnull n hname h⟩
    show Holds m (dtbAddr + 8 + BitVec.ofNat 64 4) _
    rw [hnext]
    exact holds_of_uint hn2
  · rintro ⟨offStruct, offStrings, hheader, hwalk⟩
    obtain ⟨hstruct, hstrings⟩ := holds_append.mp hheader
    have hstrings' : Holds m (dtbAddr + 12) (be32 offStrings) := hnext ▸ hstrings
    obtain ⟨n1, hn1, rfl⟩ := uint_of_holds hstruct
    obtain ⟨n2, hn2, rfl⟩ := uint_of_holds hstrings'
    have hloop : Returns fun fuel rounds => Platform.parseLoop shl m fuel _ _ rounds 0 0 p :=
      parseLoop_returns hnull hwalk hname
    obtain ⟨n, r, hr⟩ := hloop
    refine ⟨n, r, fun fuel hfuel => ?_⟩
    rw [Platform.parseDtbNodes, hn1, ok_bind, hn2, ok_bind]
    exact hr fuel hfuel fuel hfuel

/-! ### Device trees -/

/-- The value of a property is what its handler expects. -/
def Expected (s : CString) (q : Property) : Prop :=
  if memoryAt <+: s.bytes then True
  else if uartAt <+: s.bytes then
    (q.name.bytes = reg → 8 ≤ q.value.length) ∧
      (q.name.bytes = clockFrequency → 4 ≤ q.value.length)
  else if s.bytes = [] then
    q.name.bytes = model → ∃ v : CString, v.encode <+: q.value ∧ FamilyFits v
  else True

/-- The handler then finds what it reads in the value. -/
theorem legible_of_expected {q : Property} {pname propVal : Ulong64} {plen : Uint}
    (hname : Holds m pname q.name.encode) (hval : Holds m propVal q.value)
    (hplen : plen.toNat = q.value.length) (h : Expected s q) : Legible m s pname propVal plen := by
  have hnonzero := q.name.nonzero
  rw [Legible]
  rw [Expected] at h
  by_cases hmemory : memoryAt <+: s.bytes
  · rw [if_pos hmemory]
    refine ⟨compares_of_holds reg_nonzero hname, fun hcond => ?_⟩
    have hlen : 16 = q.value.length := by
      rw [← hplen, hcond.2]
      rfl
    rw [hlen]
    exact hval.mapped
  rw [if_neg hmemory] at h ⊢
  by_cases huart : uartAt <+: s.bytes
  · rw [if_pos huart] at h ⊢
    refine ⟨compares_of_holds reg_nonzero hname, ?_⟩
    by_cases hreg : Holds m pname (reg ++ [0])
    · rw [if_pos hreg]
      exact hval.mapped.mono (h.1 (bytes_unique hnonzero reg_nonzero hname hreg))
    · rw [if_neg hreg]
      refine ⟨compares_of_holds clockFrequency_nonzero hname, fun hclock => ?_⟩
      exact hval.mapped.mono (h.2 (bytes_unique hnonzero clockFrequency_nonzero hname hclock))
  rw [if_neg huart] at h ⊢
  by_cases hbase : s.bytes = []
  · rw [if_pos hbase] at h ⊢
    refine ⟨compares_of_holds model_nonzero hname, fun hmodel => ?_⟩
    obtain ⟨v, ⟨rest, hrest⟩, hfits⟩ := h (bytes_unique hnonzero model_nonzero hname hmodel)
    rw [← hrest] at hval
    exact ⟨v, (holds_append.mp hval).1, hfits⟩
  · rw [if_neg hbase]
    trivial

/-- The tokens of a structure block are a derivation of the grammar, when
every property has an owner and an expected value. -/
theorem walkable_of_tokens (ts : List Token) (hnamed : Named m stringBase ts) :
    ∀ {index : Uint} {name : Option CString},
      Holds m (tokptr structBase index) (ts.flatMap Token.encode ++ be32 FDT_END) →
      4 * index.toNat + (ts.flatMap Token.encode).length < 2 ^ 32 →
      (∀ x ∈ walk name (ts.filterMap Token.item), ∃ s, x.1 = some s ∧ Expected s x.2) →
      Walkable m structBase stringBase index name := by
  induction ts with
  | nil =>
    intro index name h _ _
    exact .stop FDT_END h (by decide)
  | cons t ts ih =>
    intro index name h hsize hprops
    rw [flatMap_cons, append_assoc] at h
    rw [flatMap_cons, length_append, t.length_encode] at hsize
    obtain ⟨ht, hrest⟩ := holds_append.mp h
    rw [t.length_encode, ← tokptr_add t.words (by omega)] at hrest
    have hindex : (index + BitVec.ofNat 32 t.words).toNat = index.toNat + t.words := by
      rw [BitVec.toNat_add, BitVec.toNat_ofNat]
      omega
    have hnext : ∀ {name : Option CString},
        (∀ x ∈ walk name (ts.filterMap Token.item), ∃ s, x.1 = some s ∧ Expected s x.2) →
        Walkable m structBase stringBase (index + BitVec.ofNat 32 t.words) name :=
      ih (fun off q hq => hnamed off q (mem_cons_of_mem t hq)) hrest (by omega)
    cases t with
    | beginNode nodeName =>
      simp only [Token.words] at hsize
      obtain ⟨htok, hname⟩ := holds_append.mp ht
      refine .beginNode nodeName (holds_append.mpr ⟨htok, (holds_append.mp hname).1⟩) ?_
      rw [← setWidth_strlen, words_beginNode _ (by omega)]
      exact hnext hprops
    | prop nameoff q =>
      simp only [Token.words] at hsize
      obtain ⟨s, hs, hexp⟩ := hprops _ mem_cons_self
      obtain rfl : name = some s := hs
      obtain ⟨htok, ht⟩ := holds_append.mp ht
      obtain ⟨hplen, ht⟩ := holds_append.mp ht
      obtain ⟨hoff, hval⟩ := holds_append.mp ht
      rw [BitVec.add_assoc] at hval
      have hlen : (BitVec.ofNat 32 q.value.length).toNat = q.value.length := by
        rw [BitVec.toNat_ofNat]
        exact Nat.mod_eq_of_lt (by omega)
      refine .prop s _ nameoff
        (holds_append.mpr ⟨htok, holds_append.mpr ⟨hplen, hoff⟩⟩) ?_ ?_
      · exact legible_of_expected (hnamed nameoff q mem_cons_self) (holds_append.mp hval).1
          hlen hexp
      · rw [← setWidth_plen, words_prop _ (by omega)]
        exact hnext fun x hx => hprops x (mem_cons_of_mem _ hx)
    | endNode => exact .endNode ht (hnext hprops)
    | nop => exact .nop ht (hnext hprops)

/-- The blob of a device tree is readable, when the values that the
handlers look into are what they expect. -/
theorem readable_of_describes {b : Blob} {t : Node} (ht : b.Describes t) {dtbAddr : Ulong64}
    (hm : Holds m dtbAddr b.encode) (hbase : dtbAddr.toNat + b.offDtStruct < 2 ^ 32)
    (hexp : ∀ x ∈ t.properties, Expected x.1 x.2) : Readable m dtbAddr := by
  have hfits := b.fits
  obtain ⟨hoffStruct, hoffStrings⟩ := b.offsets hm
  obtain ⟨hstructure, hnamed⟩ := b.parts hm hbase
  have hnext : dtbAddr + 8 + BitVec.ofNat 64 4 = dtbAddr + 12 := BitVec.add_assoc ..
  have hzero : (0 : Uint).toNat = 0 := rfl
  refine ⟨_, _, holds_append.mpr ⟨hoffStruct, ?_⟩,
    walkable_of_tokens b.tokens hnamed hstructure (by omega) ?_⟩
  · show Holds m (dtbAddr + 8 + BitVec.ofNat 64 4) _
    rw [hnext]
    exact hoffStrings
  · rw [ht, walk_flatten]
    intro x hx
    obtain ⟨y, hy, rfl⟩ := mem_map.mp hx
    exact ⟨y.1, rfl, hexp y hy⟩

/-! ### Blobs that are not readable -/

/-- A header of version 17, and a structure block right after it. -/
def rawBlob (block : List Byte) : List Byte :=
  [FDT_MAGIC, BitVec.ofNat 32 (40 + block.length), 40, 40, 40, 17, 16, 0, 0,
    BitVec.ofNat 32 block.length].flatMap be32 ++ block

/-- The memory with such a blob and nothing else. -/
def rawMemory (block : List Byte) : Bytes := Lib.place 0x80000000 (rawBlob block)

/-- The walk over it starts after the header. -/
theorem parseLoop_of_rawMemory {block : List Byte} (hlen : block.length < 2 ^ 32)
    (h : Platform.parseDtbNodes shl (rawMemory block) fuel p 0x80000000 = .ok r) :
    Platform.parseLoop shl (rawMemory block) fuel 0x80000028 0x80000028 fuel 0 0 p = .ok r := by
  have hholds : Holds (rawMemory block) 0x80000000 (rawBlob block) := by
    refine Lib.holds_place ?_
    have : (rawBlob block).length = 40 + block.length := length_append
    omega
  have hheader := (holds_append.mp hholds).1
  obtain ⟨n1, hn1, hx1⟩ := uint_of_holds (holds_field (n := 2) hheader rfl)
  obtain ⟨n2, hn2, hx2⟩ := uint_of_holds (holds_field (n := 3) hheader rfl)
  have hn1' : (rawMemory block).uint (0x80000000 + 8) = .ok n1 := hn1
  have hn2' : (rawMemory block).uint (0x80000000 + 12) = .ok n2 := hn2
  rw [Platform.parseDtbNodes, hn1', ok_bind, hn2', ok_bind, hx1, hx2] at h
  exact h

/-- A structure block without an end. -/
theorem parseDtbNodes_truncated :
    Platform.parseDtbNodes shl (rawMemory (be32 FDT_NOP)) fuel p 0x80000000 ≠ .ok r := by
  intro h
  have h := parseLoop_of_rawMemory (by decide) h
  have htok : Holds (rawMemory (be32 FDT_NOP)) (tokptr 0x80000028 0) (be32 FDT_NOP) := by
    decide +kernel
  have hend : rawMemory (be32 FDT_NOP) (tokptr 0x80000028 1) = none := by decide +kernel
  cases fuel with
  | zero => cases h
  | succ rounds =>
    rw [parseLoop_succ htok] at h
    cases rounds with
    | zero => cases h
    | succ rounds =>
      obtain ⟨n, hn, -⟩ := bind_eq_ok h
      obtain ⟨b, hb, -⟩ := bind_eq_ok hn
      cases (byte_of_none hend).symm.trans hb

/-- A property before any node. -/
theorem parseDtbNodes_orphan :
    Platform.parseDtbNodes shl (rawMemory (be32 FDT_PROP ++ (be32 0 ++ (be32 0 ++ be32 FDT_END))))
      fuel p 0x80000000 ≠ .ok r := by
  intro h
  have h := parseLoop_of_rawMemory (by decide) h
  have htok : Holds (rawMemory (be32 FDT_PROP ++ (be32 0 ++ (be32 0 ++ be32 FDT_END))))
      (tokptr 0x80000028 0) (be32 FDT_PROP) := by decide +kernel
  have hnull : rawMemory (be32 FDT_PROP ++ (be32 0 ++ (be32 0 ++ be32 FDT_END))) 0 = none := by
    decide +kernel
  cases fuel with
  | zero => cases h
  | succ rounds =>
    have hne : FDT_PROP ≠ FDT_BEGIN_NODE := by decide
    rw [parseLoop_succ htok, if_neg hne, if_pos rfl] at h
    obtain ⟨n1, -, h⟩ := bind_eq_ok h
    obtain ⟨n2, -, h⟩ := bind_eq_ok h
    obtain ⟨r', hr', -⟩ := bind_eq_ok h
    have hread : rawMemory (be32 FDT_PROP ++ (be32 0 ++ (be32 0 ++ be32 FDT_END)))
        (propCall 0x80000028 0x80000028 0 0 (be32ToCpu n1) (be32ToCpu n2)).name = none := hnull
    cases (handleProp_null hread).symm.trans hr'

end Xinu.Dtb

namespace Xinu

open Lib (Holds place)
open Dtb

/-- No object has the address `NULL`. -/
theorem place_null {blob : List Byte} {dtbAddr : Ulong64} (hpos : dtbAddr ≠ 0)
    (hfit : dtbAddr.toNat + blob.length ≤ 2 ^ 64) : place dtbAddr blob 0 = none := by
  have hne : dtbAddr.toNat ≠ 0 := fun h => hpos (BitVec.eq_of_toNat_eq h)
  have hdist : (0 - dtbAddr).toNat = 2 ^ 64 - dtbAddr.toNat := by
    have hzero : (0 : Ulong64).toNat = 0 := rfl
    rw [BitVec.toNat_sub, hzero]
    omega
  rw [place, hdist]
  exact List.getElem?_eq_none (by omega)

/-- The array `blob` is at the address `dtbAddr`, and nothing else can be
read. Then `parseDtbNodes` ends, with `OK` or `SYSERR` and without a read
outside of the array, if and only if the blob is readable. -/
theorem parseDtbNodes_ends_iff (shl : Uint → Uint) (p : Platform) {blob : List Byte}
    {dtbAddr : Ulong64} (hpos : dtbAddr ≠ 0) (hfit : dtbAddr.toNat + blob.length ≤ 2 ^ 64) :
    (∃ n r, ∀ fuel ≥ n, Platform.parseDtbNodes shl (place dtbAddr blob) fuel p dtbAddr = .ok r) ↔
      Readable (place dtbAddr blob) dtbAddr :=
  parseDtbNodes_returns_iff (place_null hpos hfit)

/-- The blob of `regTree` at the start of the memory of the board. -/
theorem parseDtbNodes_ends_regBlob : ∃ n r, ∀ fuel ≥ n,
    Platform.parseDtbNodes id (place 0x80000000 regBlob.encode) fuel .zero 0x80000000 = .ok r := by
  have hlen := length_regBlob
  have ht : regBlob.Describes regTree := rfl
  refine (parseDtbNodes_ends_iff id .zero (by decide) (by rw [hlen]; decide)).mpr ?_
  refine readable_of_describes ht (Lib.holds_place (by rw [hlen]; decide)) (by decide) ?_
  intro x hx
  rcases List.mem_cons.mp hx with rfl | hx
  · rw [Expected, if_neg (by decide), if_neg (by decide), if_pos rfl]
    intro h
    exact absurd h (by decide)
  · obtain rfl := List.mem_singleton.mp hx
    rw [Expected, if_neg (by decide), if_neg (by decide), if_neg (by decide)]
    trivial

/-- Two arrays with the magic number: a structure block without an end,
and one with a property before any node. -/
theorem parseDtbNodes_outside :
    (be32 FDT_MAGIC <+: rawBlob (be32 FDT_NOP) ∧ ∀ shl fuel p r,
      Platform.parseDtbNodes shl (place 0x80000000 (rawBlob (be32 FDT_NOP))) fuel p 0x80000000 ≠
        .ok r) ∧
    (be32 FDT_MAGIC <+: rawBlob (be32 FDT_PROP ++ (be32 0 ++ (be32 0 ++ be32 FDT_END))) ∧
      ∀ shl fuel p r, Platform.parseDtbNodes shl (place 0x80000000
        (rawBlob (be32 FDT_PROP ++ (be32 0 ++ (be32 0 ++ be32 FDT_END))))) fuel p 0x80000000 ≠
          .ok r) :=
  ⟨⟨List.prefix_append _ _, fun _ _ _ _ => parseDtbNodes_truncated⟩,
    List.prefix_append _ _, fun _ _ _ _ => parseDtbNodes_orphan⟩

end Xinu
