import Mathlib.Data.List.DropRight
import Mathlib.Data.List.GetD
import Xinu.Proofs.Machine.Platform

/-!
# `Xinu.Proofs.Machine.Model`: the two names of the platform

`baseHandler` cuts the value of `model` at its last comma and copies the
parts to two buffers of `PLT_STRMAX` bytes. The copy of the first part has
the length of that part as its limit and not the size of the buffer, so it
writes behind the buffer when the part is longer, and it writes no `NUL`
at all. The copy of the second part is limited to the buffer, and leaves
no room for a `NUL` when the part fills it.

`storeModel_eq` has the record after the copies. `baseHandler_stores_iff`
says for which values both names are there as C strings.
-/

namespace Xinu.Dtb

open List

open Lib (Holds holds_append place holds_place)
open Bytes

variable {m : Bytes} {fuel : Nat} {p : Platform} {call : PropCall} {v : CString}

/-! ### The parts of the value -/

/-- What stands before the last comma: nothing, if there is none. -/
def familyOf (v : CString) : List Byte := (v.bytes.rdropWhile (· ≠ chr ',')).dropLast

/-- What stands after the last comma: everything, if there is none. -/
def manufacturerOf (v : CString) : List Byte := v.bytes.rtakeWhile (· ≠ chr ',')

theorem parts_of_comma {front back : List Byte} (h : v.bytes = front ++ chr ',' :: back)
    (hback : chr ',' ∉ back) : familyOf v = front ∧ manufacturerOf v = back := by
  have hall : ∀ c ∈ back.reverse, decide (c ≠ chr ',') = true := fun c hc =>
    decide_eq_true fun heq => hback (heq ▸ mem_reverse.mp hc)
  have hrev : v.bytes.reverse = back.reverse ++ chr ',' :: front.reverse := by
    rw [h, reverse_append, reverse_cons, append_assoc]
    rfl
  -- From the end, the first comma is the last one.
  have hdrop : (chr ',' :: front.reverse).dropWhile (· ≠ chr ',') = chr ',' :: front.reverse :=
    dropWhile_cons_of_neg (by decide)
  have htake : (chr ',' :: front.reverse).takeWhile (· ≠ chr ',') = [] :=
    takeWhile_cons_of_neg (by decide)
  constructor
  · rw [familyOf, List.rdropWhile, hrev, dropWhile_append_of_pos hall, hdrop,
      reverse_cons, reverse_reverse, dropLast_concat]
  · rw [manufacturerOf, List.rtakeWhile, hrev, takeWhile_append_of_pos hall, htake,
      append_nil, reverse_reverse]

theorem parts_of_notMem (h : chr ',' ∉ v.bytes) :
    familyOf v = [] ∧ manufacturerOf v = v.bytes := by
  have hall : ∀ c ∈ v.bytes, decide (c ≠ chr ',') = true := fun c hc =>
    decide_eq_true fun heq => h (heq ▸ hc)
  constructor
  · rw [familyOf, rdropWhile_eq_nil_iff.mpr hall]
    rfl
  · exact rtakeWhile_eq_self_iff.mpr hall

/-- Cases on the last comma, with the parts. -/
theorem comma_cases (v : CString) :
    (v.bytes = familyOf v ++ chr ',' :: manufacturerOf v ∧ chr ',' ∉ manufacturerOf v) ∨
    (chr ',' ∉ v.bytes ∧ familyOf v = [] ∧ manufacturerOf v = v.bytes) := by
  by_cases hcomma : chr ',' ∈ v.bytes
  · obtain ⟨back, front, heq, hback⟩ := eq_append_cons_of_mem (mem_reverse.mpr hcomma)
    have hv : v.bytes = front.reverse ++ chr ',' :: back.reverse := by
      have hrev := congrArg List.reverse heq
      simpa using hrev
    have hback' : chr ',' ∉ back.reverse := fun h => hback (mem_reverse.mp h)
    obtain ⟨hfamily, hmanufacturer⟩ := parts_of_comma hv hback'
    rw [hfamily, hmanufacturer]
    exact Or.inl ⟨hv, hback'⟩
  · exact Or.inr ⟨hcomma, parts_of_notMem hcomma⟩

theorem mem_of_mem_manufacturerOf {c : Byte} (h : c ∈ manufacturerOf v) : c ∈ v.bytes := by
  rcases comma_cases v with ⟨hv, -⟩ | ⟨-, -, hall⟩
  · rw [hv]
    exact mem_append_right _ (mem_cons_of_mem _ h)
  · rwa [hall] at h

theorem mem_of_mem_familyOf {c : Byte} (h : c ∈ familyOf v) : c ∈ v.bytes := by
  rcases comma_cases v with ⟨hv, -⟩ | ⟨-, hnil, -⟩
  · rw [hv]
    exact mem_append_left _ h
  · rw [hnil] at h
    cases h

/-! ### The copies -/

/-- The record after the copies. -/
def withModel (p : Platform) (v : CString) : Platform :=
  { p with
    family := fun i => (familyOf v).getD i (p.family i)
    manufacturer := fun i => (manufacturerOf v).getD i 0 }

/-- A copy with the size of the buffer as its limit fills it. -/
theorem store_padded (b : Buffer) (l : List Byte) :
    b.store (l.take PLT_STRMAX ++ List.replicate (PLT_STRMAX - l.length) 0) =
      .ok fun i => l.getD i 0 := by
  have hlen : (l.take PLT_STRMAX ++ List.replicate (PLT_STRMAX - l.length) (0 : Byte)).length =
      PLT_STRMAX := by
    rw [length_append, length_take, length_replicate]
    omega
  rw [Buffer.store, if_pos hlen.le]
  congr 1
  funext i
  rw [getD_eq_getElem _ _ (hlen.symm ▸ i.isLt)]
  by_cases hi : i.val < l.length
  · rw [getD_eq_getElem _ _ hi, getElem_append_left (by rw [length_take]; omega),
      getElem_take]
  · have hge : (l.take PLT_STRMAX).length ≤ i.val := by
      rw [length_take]
      omega
    rw [getElem_append_right hge, getElem_replicate,
      getD_eq_default _ _ (Nat.le_of_not_lt hi)]

/-- The copies are inside the record when the first part fits. -/
theorem storeModel_eq (hnull : m 0 = none) (hv : Holds m call.propVal v.encode) :
    storeModel m p call (lastAt (chr ',') v.bytes call.propVal 0) =
      if (familyOf v).length ≤ PLT_STRMAX then .ok (.ok, withModel p v)
      else .error .outOfBounds := by
  rcases comma_cases v with ⟨heq, hback⟩ | ⟨hcomma, hfront, hback⟩
  · have hlt := length_lt_of_holds hv
    have hlen : v.bytes.length = (familyOf v).length + ((manufacturerOf v).length + 1) := by
      conv_lhs => rw [heq, length_append, length_cons]
    have hplace : lastAt (chr ',') v.bytes call.propVal 0 =
        call.propVal + BitVec.ofNat 64 (familyOf v).length := by
      conv_lhs => rw [heq, lastAt_append (familyOf v) (manufacturerOf v) hback]
    -- The two parts of the string in memory.
    have hsplit : Holds m call.propVal (familyOf v ++ chr ',' :: (manufacturerOf v ++ [0])) := by
      rw [CString.encode, heq, append_assoc, cons_append] at hv
      exact hv
    obtain ⟨-, hat, hback'⟩ := holds_append.mp hsplit
    -- `strrchr` answers 0 for no comma, and nothing is mapped there.
    have hne : call.propVal + BitVec.ofNat 64 (familyOf v).length ≠ 0 := by
      intro h
      rw [h, hnull] at hat
      cases hat
    have hdiff : (call.propVal + BitVec.ofNat 64 (familyOf v).length - call.propVal).toNat =
        (familyOf v).length := by
      rw [BitVec.add_comm, BitVec.add_sub_cancel, BitVec.toNat_ofNat]
      exact Nat.mod_eq_of_lt (by omega)
    have hcopy : v.bytes.take (familyOf v).length ++
        List.replicate ((familyOf v).length - v.bytes.length) 0 = familyOf v := by
      rw [Nat.sub_eq_zero_of_le (by omega), replicate_zero, append_nil]
      conv_lhs => rw [heq, take_left]
    rw [hplace, storeModel, if_pos hne, hdiff, strncpy_of_holds v.nonzero hv, ok_bind, hcopy,
      Buffer.store]
    by_cases hfits : (familyOf v).length ≤ PLT_STRMAX
    · rw [if_pos hfits, if_pos hfits, ok_bind,
        strncpy_of_holds (fun c hc => v.nonzero c (mem_of_mem_manufacturerOf hc)) hback', ok_bind,
        store_padded]
      rfl
    · rw [if_neg hfits, if_neg hfits]
      rfl
  · have hfits : (familyOf v).length ≤ PLT_STRMAX := by
      rw [hfront]
      exact Nat.zero_le PLT_STRMAX
    rw [lastAt_of_notMem hcomma, storeModel, if_neg (not_not_intro rfl),
      strncpy_of_holds v.nonzero hv, ok_bind, store_padded, if_pos hfits, withModel, hfront, hback]
    rfl

/-- The value of `model` is copied. -/
theorem baseHandler_eq (hnull : m 0 = none) (hmodel : Holds m call.pname (model ++ [0]))
    (hv : Holds m call.propVal v.encode) (hfuel : v.bytes.length < fuel) :
    baseHandler m fuel p call =
      if (familyOf v).length ≤ PLT_STRMAX then .ok (.ok, withModel p v)
      else .error .outOfBounds := by
  obtain ⟨c, hc, hiff⟩ := strcmp_spec model_nonzero (compares_of_holds model_nonzero hmodel)
  have hch : chr ',' ≠ 0 := by decide
  rw [baseHandler, hc, ok_bind, if_pos (hiff.mpr hmodel), strrchr,
    strrchrLoop_of_holds hch v.nonzero hv hfuel, ok_bind, storeModel_eq hnull hv]

/-! ### C strings in the record -/

/-- The buffer starts with the characters. -/
def Starts (b : Buffer) (l : List Byte) : Prop :=
  ∀ i : Fin PLT_STRMAX, i.val < l.length → b i = l.getD i 0

/-- The buffer has the characters and a `NUL` after them. -/
def HasText (b : Buffer) (l : List Byte) : Prop :=
  ∀ i : Fin PLT_STRMAX, i.val ≤ l.length → b i = l.getD i 0

/-- As much of a string as fits into a buffer with a `NUL`. -/
def fitting (l : List Byte) : List Byte := l.take (PLT_STRMAX - 1)

/-- Both buffers are zero. -/
def ZeroFilled (p : Platform) : Prop :=
  ∀ i, p.family i = 0 ∧ p.manufacturer i = 0

/-- The record `p'` is `p` with the two parts of the value. -/
structure StoresModel (p p' : Platform) (v : CString) : Prop where
  frame : p' = { p with family := p'.family, manufacturer := p'.manufacturer }
  family : Starts p'.family (fitting (familyOf v))
  manufacturer : Starts p'.manufacturer (fitting (manufacturerOf v))
  terminated : ZeroFilled p → HasText p'.family (fitting (familyOf v)) ∧
    HasText p'.manufacturer (fitting (manufacturerOf v))

theorem getD_fitting {l : List Byte} {i : Nat} {b : Byte} (h : i < (fitting l).length) :
    (fitting l).getD i 0 = l.getD i b := by
  have hlen : i < l.length := by
    rw [fitting, length_take] at h
    omega
  rw [getD_eq_getElem _ _ h, getD_eq_getElem _ _ hlen]
  exact getElem_take

theorem starts_fitting (l : List Byte) (b : Buffer) :
    Starts (fun i => l.getD i (b i)) (fitting l) :=
  fun _ hi => (getD_fitting hi).symm

/-- In a buffer of zeros there is a `NUL` after the characters exactly when
they leave room for it. -/
theorem hasText_fitting_iff {l : List Byte} {b : Buffer} (hl : ∀ c ∈ l, c ≠ 0)
    (hb : ∀ i, b i = 0) :
    HasText (fun i => l.getD i (b i)) (fitting l) ↔ l.length < PLT_STRMAX := by
  have hmax : PLT_STRMAX = 18 := rfl
  constructor
  · intro h
    by_contra hge
    -- The last byte of the buffer is a character.
    have hlen : (fitting l).length = 17 := by
      rw [fitting, length_take]
      omega
    have hlast := h ⟨17, by decide⟩ hlen.ge
    simp only at hlast
    rw [getD_eq_default (fitting l) _ hlen.le, getD_eq_getElem l _ (by omega)] at hlast
    exact hl _ (getElem_mem _) hlast
  · intro h i hi
    have hall : fitting l = l := take_of_length_le (by omega)
    rw [hall] at hi ⊢
    by_cases hlt : i.val < l.length
    · simp only [getD_eq_getElem _ _ hlt]
    · simp only [getD_eq_default _ _ (Nat.le_of_not_lt hlt), hb]

/-- The two parts of the value of `model` get into the record, inside their
buffers and with a `NUL` each if the buffers were zero, exactly when the
first part is not longer than the buffer and, for buffers of zeros, both
parts are shorter. -/
theorem baseHandler_stores_iff (hnull : m 0 = none) (hmodel : Holds m call.pname (model ++ [0]))
    (hv : Holds m call.propVal v.encode) (hfuel : v.bytes.length < fuel) :
    (∃ p', baseHandler m fuel p call = .ok (.ok, p') ∧ StoresModel p p' v) ↔
      (familyOf v).length ≤ PLT_STRMAX ∧ (ZeroFilled p →
        (familyOf v).length < PLT_STRMAX ∧ (manufacturerOf v).length < PLT_STRMAX) := by
  have hfamily : ∀ c ∈ familyOf v, c ≠ 0 := fun c hc => v.nonzero c (mem_of_mem_familyOf hc)
  have hmanufacturer : ∀ c ∈ manufacturerOf v, c ≠ 0 := fun c hc =>
    v.nonzero c (mem_of_mem_manufacturerOf hc)
  rw [baseHandler_eq hnull hmodel hv hfuel]
  by_cases hfits : (familyOf v).length ≤ PLT_STRMAX
  · rw [if_pos hfits]
    constructor
    · rintro ⟨p', hp, hstores⟩
      obtain rfl : withModel p v = p' := congrArg Prod.snd (Except.ok.inj hp)
      refine ⟨hfits, fun hzero => ?_⟩
      obtain ⟨hf, hm⟩ := hstores.terminated hzero
      exact ⟨(hasText_fitting_iff hfamily fun i => (hzero i).1).mp hf,
        (hasText_fitting_iff hmanufacturer fun _ => rfl).mp hm⟩
    · rintro ⟨-, hshort⟩
      refine ⟨withModel p v, rfl, ⟨rfl, starts_fitting _ _, starts_fitting _ fun _ => 0, ?_⟩⟩
      intro hzero
      exact ⟨(hasText_fitting_iff hfamily fun i => (hzero i).1).mpr (hshort hzero).1,
        (hasText_fitting_iff hmanufacturer fun _ => rfl).mpr (hshort hzero).2⟩
  · rw [if_neg hfits]
    refine iff_of_false ?_ fun h => hfits h.1
    rintro ⟨p', hp, -⟩
    cases hp

/-- A memory with the name `model` at address 16 and its value at address
32. -/
def modelMemory (v : CString) : Bytes := fun x =>
  if x < 32 then place 16 (model ++ [0]) x else place 32 v.encode x

def modelCall : PropCall := ⟨8, 16, 32, 0⟩

/-- The model `ab,c`. -/
def shortModel : CString := ⟨literal ['a', 'b', ',', 'c'], by decide +kernel⟩

theorem baseHandler_stores_short :
    ∃ p', baseHandler (modelMemory shortModel) 5 .zero modelCall = .ok (.ok, p') ∧
      StoresModel .zero p' shortModel :=
  (baseHandler_stores_iff (by decide +kernel) (by decide +kernel) (by decide +kernel)
    (by decide +kernel)).mpr ⟨by decide +kernel, fun _ => by decide +kernel⟩

/-- A model of 19 characters and a comma. -/
def longFamily : CString :=
  ⟨literal ['s', 'i', 'f', 'i', 'v', 'e', '-', 'h', 'i', 'f', 'i', 'v', 'e', '-', 'f',
    'u', '7', '4',
    '0', ','], by decide +kernel⟩

/-- A model of 18 characters without a comma. -/
def longManufacturer : CString :=
  ⟨literal ['s', 'i', 'f', 'i', 'v', 'e', '-', 'h', 'i', 'f', 'i', 'v', 'e', '-', 'f',
    'u', '7', '4'],
    by decide +kernel⟩

/-- The first one is written behind its buffer. The second one leaves no
`NUL` in a buffer of zeros. -/
theorem baseHandler_long :
    baseHandler (modelMemory longFamily) 21 .zero modelCall = .error .outOfBounds ∧
    ∃ p', baseHandler (modelMemory longManufacturer) 19 .zero modelCall = .ok (.ok, p') ∧
      ∀ i, p'.manufacturer i ≠ 0 := by
  constructor
  · rw [baseHandler_eq (v := longFamily) (by decide +kernel) (by decide +kernel)
      (by decide +kernel) (by decide +kernel)]
    exact if_neg (by decide +kernel)
  · rw [baseHandler_eq (v := longManufacturer) (by decide +kernel) (by decide +kernel)
      (by decide +kernel) (by decide +kernel), if_pos (by decide +kernel)]
    exact ⟨_, rfl, by decide +kernel⟩

end Xinu.Dtb
