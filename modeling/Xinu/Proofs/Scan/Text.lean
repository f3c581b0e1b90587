import Xinu.Abstract.Fields
import Xinu.Proofs.Print.Layout
import Xinu.Proofs.Scan.Read

/-!
# `Xinu.Proofs.Scan.Text`: one conversion of a format

Every `ScanText` is read as the specification that it spells
(`parseSpec_text`), and every `SetText` as its set
(`buildStopcharTab_text`). `convert` is what `_doscan` does at one
conversion (`read_doscanLoop_conversion`). It takes the field of the
conversion, and the outcome tells whether that matched (`read_convert`,
`succeeds_iff`, `fails_iff`).
-/

namespace Xinu

open Function List

open Lib (Prog Last)

variable {c : Byte}

/-! ### Reading a specification -/

theorem isdigit_eq_isDecimal : ∀ c : Byte, isdigit c = isDecimal c := by
  decide +kernel

/-- The width of an input field is read as that of an output field. -/
theorem parseMaxlen_eq_printDigits (f : List Byte) : ∀ n, parseMaxlen n f = printDigits n f := by
  induction f with
  | nil => exact fun n => rfl
  | cons c f ih =>
    intro n
    have hdigit : isdigit c = true ↔ chr '0' ≤ c ∧ c ≤ chr '9' := by
      rw [isdigit_eq_isDecimal, isDecimal, decide_eq_true_iff]
    rw [parseMaxlen, printDigits, ih]
    simp only [hdigit]

/-- What follows the width and the size. -/
structure Specifier (c : Byte) : Prop where
  decimal : isDecimal c = false
  long : c ≠ chr 'l'
  short : c ≠ chr 'h'
  star : c ≠ chr '*'
  percent : c ≠ chr '%'

theorem parseSize_text (size : IntegerSize) (hc : Specifier c) (f : List Byte) :
    parseSize (size.text ++ c :: f) = (size, c :: f) := by
  cases size with
  | short => rfl
  | regular => exact (if_neg hc.long).trans (if_neg hc.short)
  | long => rfl

namespace ScanText
variable (t : ScanText)

/-- `maxlen`. -/
def maxlen : Uint :=
  if BitVec.ofNat 32 (decimalValue t.width) = 0 then UNLIMITED_LENGTH
  else BitVec.ofNat 32 (decimalValue t.width)

/-- The size modifier or the specifier, where the width ends. -/
theorem peek_size (hc : Specifier c) (f : List Byte) :
    isDecimal (peek (t.size.text ++ c :: f)) = false ∧
      peek (t.size.text ++ c :: f) ≠ chr '*' ∧ peek (t.size.text ++ c :: f) ≠ chr '%' := by
  cases t.size with
  | short => exact (by decide : isDecimal (chr 'h') = false ∧ chr 'h' ≠ chr '*' ∧ chr 'h' ≠ chr '%')
  | regular => exact ⟨hc.decimal, hc.star, hc.percent⟩
  | long => exact (by decide : isDecimal (chr 'l') = false ∧ chr 'l' ≠ chr '*' ∧ chr 'l' ≠ chr '%')

/-- The width does not start with a `*` or a `%`. -/
theorem peek_width (hc : Specifier c) (f : List Byte) :
    peek (t.width ++ (t.size.text ++ c :: f)) ≠ chr '*' ∧
      peek (t.width ++ (t.size.text ++ c :: f)) ≠ chr '%' := by
  have hdigits := t.widthDigits
  cases hw : t.width with
  | nil => exact (t.peek_size hc f).2
  | cons d l =>
    rw [hw] at hdigits
    have hd : isDecimal d = true := hdigits d mem_cons_self
    refine ⟨fun h => ?_, fun h => ?_⟩
    · rw [show d = chr '*' from h] at hd
      exact absurd hd (by decide)
    · rw [show d = chr '%' from h] at hd
      exact absurd hd (by decide)

theorem peek_text (hc : Specifier c) (f : List Byte) :
    peek (t.text ++ c :: f) ≠ chr '%' := by
  rw [text, append_assoc, append_assoc]
  cases t.star with
  | true => exact (by decide : chr '*' ≠ chr '%')
  | false => exact (t.peek_width hc f).2

/-- A specification is read part by part, whatever follows its
specifier. -/
theorem parseSpec_text (hc : Specifier c) (f : List Byte) :
    parseSpec (t.text ++ c :: f) =
      if c = chr '[' then some (⟨t.star, t.maxlen, t.size, c, (buildStopcharTab f).1⟩,
        (buildStopcharTab f).2)
      else if isupper c then some (⟨t.star, t.maxlen, .long, tolower c, fun _ => false⟩, f)
      else some (⟨t.star, t.maxlen, t.size, c, fun _ => false⟩, f) := by
  have hwidth : parseMaxlen 0 (t.width ++ (t.size.text ++ c :: f)) =
      (BitVec.ofNat 32 (decimalValue t.width), t.size.text ++ c :: f) := by
    rw [parseMaxlen_eq_printDigits]
    exact printDigits_append t.widthDigits (t.peek_size hc f).1 0
  have hstar : parseSpec (t.text ++ c :: f) =
      parseConversion t.star (t.width ++ (t.size.text ++ c :: f)) := by
    rw [text, append_assoc, append_assoc]
    cases t.star with
    | true => exact if_pos rfl
    | false => exact if_neg (t.peek_width hc f).1
  rw [hstar, parseConversion]
  simp only [hwidth, parseSize_text t.size hc f]
  rfl

end ScanText

/-! ### Reading a set -/

/-- The end of a set: its bracket, or the end of the format. -/
def EndsSet (rest g : List Byte) : Prop := rest = chr ']' :: g ∨ rest = [] ∧ g = []

theorem table_cons {fill : Bool} {tab : Byte → Bool} {l : List Byte} :
    (fun d => if d ∈ l then fill else update tab c fill d) =
      fun d => if d ∈ c :: l then fill else tab d := by
  funext d
  by_cases hd : d = c
  · rw [hd, update_self, ite_self, if_pos mem_cons_self]
  · rw [update_of_ne hd]
    simp only [mem_cons, hd, false_or]

/-- The table of a set, from its second character on. -/
theorem stopcharLoop_text {fill : Bool} {rest g : List Byte} (hrest : EndsSet rest g)
    (l : List Byte) : ∀ tab : Byte → Bool, chr ']' ∉ l →
    stopcharLoop fill false tab (l ++ rest) = (fun c => if c ∈ l then fill else tab c, g) := by
  induction l with
  | nil =>
    intro tab hl
    have htab : (fun c => if c ∈ ([] : List Byte) then fill else tab c) = tab := by
      funext c
      exact if_neg not_mem_nil
    rw [htab, nil_append]
    rcases hrest with rfl | ⟨rfl, rfl⟩
    · exact if_pos ⟨rfl, rfl⟩
    · rfl
  | cons c l ih =>
    intro tab hl
    rw [mem_cons, not_or] at hl
    rw [cons_append, stopcharLoop, if_neg fun h => hl.1 h.1.symm, ih _ hl.2, table_cons]

/-- The first character belongs to the set, even if it is a bracket. -/
theorem stopcharLoop_first {fill : Bool} {rest g l : List Byte} (hrest : EndsSet rest g)
    (hl : chr ']' ∉ l.tail) (hempty : l = [] → rest = []) :
    stopcharLoop fill true (fun _ => !fill) (l ++ rest) =
      (fun c => if c ∈ l then fill else !fill, g) := by
  cases l with
  | nil =>
    have hnil := hempty rfl
    rcases hrest with rfl | ⟨rfl, rfl⟩
    · cases hnil
    · congr 1
  | cons c l =>
    rw [cons_append, stopcharLoop, if_neg fun h => Bool.noConfusion h.2,
      stopcharLoop_text hrest l _ hl, table_cons]

/-- The table of a set stops at all other characters, and the format goes
on after the closing bracket. -/
theorem buildStopcharTab_text (s : SetText) {f : List Byte} (hf : s.closed = false → f = []) :
    buildStopcharTab (s.text ++ f) = (fun c => !s.member c, f) := by
  have hend : EndsSet ((if s.closed then [chr ']'] else []) ++ f) f := by
    cases hclosed : s.closed with
    | true => exact Or.inl rfl
    | false => exact Or.inr ⟨hf hclosed, hf hclosed⟩
  have hempty : s.chars = [] → (if s.closed then [chr ']'] else []) ++ f = [] := by
    intro hnil
    cases hclosed : s.closed with
    | true => exact absurd hnil (s.nonempty hclosed)
    | false => exact hf hclosed
  have hloop := fun fill => @stopcharLoop_first fill _ _ _ hend s.bracket hempty
  rw [SetText.text, append_assoc, append_assoc, buildStopcharTab]
  cases hinverted : s.inverted with
  | true =>
    rw [if_pos rfl]
    refine (hloop true).trans ?_
    congr 1
    funext c
    simp [SetText.member, hinverted]
  | false =>
    have hcaret : peek (s.chars ++ ((if s.closed then [chr ']'] else []) ++ f)) ≠ chr '^' := by
      cases hchars : s.chars with
      | nil =>
        rw [hempty hchars]
        decide
      | cons c l =>
        have hc := s.caret hinverted
        rw [hchars] at hc
        exact hc
    refine (if_neg hcaret).trans ((hloop false).trans ?_)
    congr 1
    funext c
    simp [SetText.member, hinverted]

/-! ### One conversion -/

section Convert
variable {abi : Abi} (limit : Nat) (ap : Nat → abi.Ulong) (spec : Spec) (st : ScanState abi)

/-- What `_doscan` does at a conversion specification: it returns, or goes
on with the next directive. -/
def convert : Prog Byte (Scanned abi ⊕ ScanState abi) := do
  let field ← scanNumberOrString limit (pointer ap spec st ≠ 0) spec
  return (st.record spec.star (pointer ap spec st) field).conclude st.arg (pointer ap spec st) field

/-- The loop of `_doscan` at a conversion specification. -/
theorem read_doscanLoop_conversion {fuel : Nat} {f g : List Byte} (hf : peek f ≠ chr '%')
    (hspec : parseSpec f = some (spec, g)) (last : Last Byte) (x : List Byte) :
    (doscanLoop limit ap (fuel + 1) (chr '%' :: f) st).read last x =
      ((convert limit ap spec st).read last x).bind fun r =>
        Sum.elim (fun scanned => some (scanned, r.2))
          (fun st => (doscanLoop limit ap fuel g st).read r.2.1 r.2.2) r.1 := by
  rw [doscanLoop, if_pos ⟨rfl, hf⟩, hspec, convert, Prog.read_bind, Prog.read_bind,
    Option.bind_assoc]
  congr 1
  funext r
  have hret : ∀ out : Scanned abi ⊕ ScanState abi,
      (pure out : Prog Byte (Scanned abi ⊕ ScanState abi)).read r.2.1 r.2.2 = some (out, r.2) :=
    fun _ => rfl
  simp only [pointer, hret, Option.bind_some]
  split
  · next h => rw [h]; rfl
  · next h => rw [h]; rfl

variable {limit ap spec st} {x : List Byte}

/-- What a conversion leaves, and the outcome. -/
theorem read_convert (hlimit : x.length + 2 ≤ limit) (last : Last Byte) : ∃ last',
    (convert limit ap spec st).read last x =
      some (outcome ap spec st (spec.take x), last', (spec.take x : Taken abi).rest) := by
  obtain ⟨last', hrun, -⟩ := @read_scanNumberOrString abi limit spec (pointer ap spec st ≠ 0) x
    last hlimit
  exact ⟨last', Prog.read_bind_of_eq hrun⟩

theorem counted_outcome (t : Taken abi) : counted (outcome ap spec st t) =
    st.nmatch + if pointer ap spec st ≠ 0 ∧ t.matched = true then 1 else 0 := by
  by_cases hptr : pointer ap spec st = 0
  · have hzero : (if pointer ap spec st ≠ 0 ∧ t.matched = true then 1 else 0) = 0 :=
      if_neg fun h => h.1 hptr
    rw [hzero, outcome_of_null hptr]
    cases t.eof <;> rfl
  · have hcount : counted (outcome ap spec st t) = (st.took (pointer ap spec st) t).nmatch := by
      rw [outcome_of_ptr hptr]
      cases t.eof <;> cases t.matched <;> rfl
    rw [hcount, ScanState.nmatch, ScanState.took]
    cases t.matched with
    | true => simp [ScanState.nmatch, show ¬pointer ap spec st = 0#_ from hptr]
    | false => simp [ScanState.nmatch]

theorem isRight_outcome (t : Taken abi) : (outcome ap spec st t).isRight = true ↔
    t.eof = false ∧ (pointer ap spec st ≠ 0 → t.matched = true) := by
  by_cases hptr : pointer ap spec st = 0
  · rw [outcome_of_null hptr]
    cases t.eof <;> simp [hptr]
  · rw [outcome_of_ptr hptr]
    cases t.eof <;> cases t.matched <;> simp [show ¬pointer ap spec st = 0#_ from hptr]

theorem storedBy_outcome (hptr : pointer ap spec st ≠ 0) (t : Taken abi) :
    storedBy (outcome ap spec st t) =
      st.stores ++ (t.data.map fun data => ⟨st.arg, pointer ap spec st, data⟩).toList := by
  rw [outcome_of_ptr hptr]
  cases t.eof <;> cases t.matched <;> rfl

/-- With a pointer, the count tells whether a conversion has matched. -/
theorem succeeds_iff (t : Taken abi) (hrest : t.eof = true → t.rest = []) :
    Succeeds st (pointer ap spec st) t.rest (outcome ap spec st t) ↔
      (pointer ap spec st ≠ 0 → t.matched = true) := by
  rw [Succeeds, counted_outcome, isRight_outcome]
  by_cases hptr : pointer ap spec st = 0
  · cases heof : t.eof with
    | true => simp [hptr, hrest heof]
    | false => simp [hptr]
  · have hnull : ¬pointer ap spec st = 0#_ := hptr
    cases heof : t.eof with
    | true => cases t.matched <;> simp [hnull, hrest heof]
    | false => cases t.matched <;> simp [hnull]

theorem fails_iff (t : Taken abi) : Fails st (outcome ap spec st t) ↔
    if pointer ap spec st = 0 then t.eof = true else t.matched = false := by
  have hleft : (outcome ap spec st t).isLeft = true ↔ ¬(outcome ap spec st t).isRight = true := by
    cases outcome ap spec st t <;> simp
  rw [Fails, counted_outcome, hleft, isRight_outcome]
  by_cases hptr : pointer ap spec st = 0
  · rw [if_pos hptr]
    cases t.eof <;> simp [hptr]
  · rw [if_neg hptr]
    have hnull : ¬pointer ap spec st = 0#_ := hptr
    cases t.matched <;> simp [hnull]

/-- A conversion leaves `rest`, with an outcome that is `good`. -/
def Performs (limit : Nat) (ap : Nat → abi.Ulong) (spec : Spec) (st : ScanState abi)
    (x rest : List Byte) (good : Scanned abi ⊕ ScanState abi → Prop) : Prop :=
  ∀ last, ∃ out last', (convert limit ap spec st).read last x = some (out, last', rest) ∧ good out

theorem performs_iff (hlimit : x.length + 2 ≤ limit) {rest : List Byte}
    {good : Scanned abi ⊕ ScanState abi → Prop} : Performs limit ap spec st x rest good ↔
      (spec.take x : Taken abi).rest = rest ∧ good (outcome ap spec st (spec.take x)) := by
  constructor
  · intro h
    obtain ⟨out, last', hread, hgood⟩ := h .fresh
    obtain ⟨last0, hconv⟩ := @read_convert abi limit ap spec st x hlimit .fresh
    obtain ⟨rfl, -, rfl⟩ : outcome ap spec st (spec.take x) = out ∧ last0 = last' ∧
        (spec.take x : Taken abi).rest = rest := by
      simpa using hconv.symm.trans hread
    exact ⟨rfl, hgood⟩
  · rintro ⟨hrest, hgood⟩ last
    obtain ⟨last', hconv⟩ := @read_convert abi limit ap spec st x hlimit last
    rw [hrest] at hconv
    exact ⟨_, last', hconv, hgood⟩

end Convert

end Xinu
