import Xinu.Lib.Layout
import Xinu.Proofs.Scan.Width
import Xinu.System.Atol

/-!
# `Xinu.Proofs.Scan.Atol`: what `atol` and `atoi` read

The string of `sscanf` in memory delivers its characters, and only the
string and its `NUL` are read (`delivers_memory`). So `atol` returns what
`%ld` stores (`atol_eq`). That is the number at the start of the string,
except that a width of 2^32 - 1 characters is no width to the scanner:
digits beyond that are not read (`atol_iff`).
-/

namespace Xinu

open List BitVec

open Lib (Prog Last Delivers Holds)

/-! ### A string in memory -/

section Memory
variable {abi : Abi} {m : abi.Ulong → Option Byte}

/-- The pointer of `sscanf` is inside its string, or at the `NUL`. -/
def AtMemory (m : abi.Ulong → Option Byte) (l : Last Byte) (x : List Byte)
    (s : Except Fault abi.Ulong) : Prop :=
  ∃ p, s = .ok p ∧ (∀ c ∈ x, c ≠ 0) ∧ Holds m p (x ++ [0]) ∧
    ∀ c, l = .char c → c ≠ 0 ∧ m (p - 1) = some c

theorem delivers_memory : Delivers ⟨InMemory.sgetch m, InMemory.sungetch m⟩ (AtMemory m) where
  cons l c x s h := by
    obtain ⟨p, rfl, hnonzero, hholds, -⟩ := h
    have hc : c ≠ 0 := hnonzero c mem_cons_self
    have hload : InMemory.sgetch m (.ok p) = (some c, .ok (p + 1)) := by
      rw [InMemory.sgetch, hholds.1]
      exact if_neg hc
    show (InMemory.sgetch m (.ok p)).1 = some c ∧
      AtMemory m (.char c) x (InMemory.sgetch m (.ok p)).2
    rw [hload]
    refine ⟨rfl, p + 1, rfl, fun d hd => hnonzero d (mem_cons_of_mem c hd), hholds.2, ?_⟩
    rintro d ⟨rfl⟩
    exact ⟨hc, by rw [add_sub_cancel]; exact hholds.1⟩
  nil l s h := by
    obtain ⟨p, rfl, hnonzero, hholds, -⟩ := h
    have hload : InMemory.sgetch m (.ok p) = (none, .ok p) := by
      rw [InMemory.sgetch, hholds.1]
      exact if_pos rfl
    show (InMemory.sgetch m (.ok p)).1 = none ∧ AtMemory m .eof [] (InMemory.sgetch m (.ok p)).2
    rw [hload]
    exact ⟨rfl, p, rfl, CString.nonzero_nil, hholds, fun d hd => by cases hd⟩
  put c x s h := by
    obtain ⟨p, rfl, hnonzero, hholds, hlast⟩ := h
    obtain ⟨hc, hload⟩ := hlast c rfl
    refine ⟨.ok (p - 1), ?_, p - 1, rfl, ?_, ⟨hload, ?_⟩, fun d hd => by cases hd⟩
    · show InMemory.sungetch m (.ok p) = some (.ok (p - 1))
      rw [InMemory.sungetch, hload]
    · intro d hd
      rcases mem_cons.mp hd with rfl | hd
      · exact hc
      · exact hnonzero d hd
    · rw [sub_add_cancel]
      exact hholds

/-- `sscanf` on a string in memory. It reads nothing but the string and
its `NUL`, since nothing else need be mapped. -/
theorem sscanf_memory {limit : Nat} (s format : CString) (ap : Nat → abi.Ulong) {str : abi.Ulong}
    (hs : Holds m str s.encode) (h : s.bytes.length + 2 ≤ limit) :
    InMemory.sscanf m limit str format ap =
      .ok (scanList ap (directives format) ⟨0, 0, [], []⟩ s.bytes).1 := by
  obtain ⟨l, hread, -⟩ := read_doscan format ap s.bytes h
  have hstart : AtMemory m .fresh s.bytes (.ok str) :=
    ⟨str, rfl, s.nonzero, hs, fun d hd => by cases hd⟩
  obtain ⟨_, hrun, p, rfl, -⟩ := delivers_memory.run_eq _ hstart hread
  rw [InMemory.sscanf, hrun]

end Memory

/-! ### The number -/

theorem isDigitOf_ten : isDigitOf 10 = isDecimal := by
  have hall : ∀ c : Byte, isDigitOf 10 c = isDecimal c := by decide +kernel
  exact funext hall

/-- A row of decimal digits is pushed as its value. -/
theorem digitsValue_eq {abi : Abi} (l : List Byte) (hl : ∀ c ∈ l, isDecimal c = true) :
    (digitsValue 10 l : abi.Ulong) = BitVec.ofNat _ (decimalValue l) := by
  have hdigit : ∀ c : Byte, isDecimal c = true →
      (digit 10 (tolower c)).getD 0 = c.toNat - 48 := by decide +kernel
  -- The fold is compared from any number on.
  have key : ∀ n : Nat, l.foldl (pushDigit 10) (BitVec.ofNat _ n : abi.Ulong) =
      BitVec.ofNat _ (l.foldl (fun n c => n * 10 + (c.toNat - 48)) n) := by
    induction l with
    | nil => exact fun n => rfl
    | cons c l ih =>
      intro n
      have hc := hdigit c (hl c mem_cons_self)
      rw [foldl_cons, foldl_cons, pushDigit, hc, ← ofNat_mul, ← ofNat_add]
      exact ih (fun d hd => hl d (mem_cons_of_mem c hd)) _
  exact key 0

section Number
variable {abi : Abi} (spec : Spec)

/-- What the pointer of a number gets. -/
theorem data_takeNumber {y l : List Byte} (hl : run (isDigitOf spec.base)
      (max 1 (spec.maxlen.toNat - (signOf y).length)) (afterSign y) = l) :
    (spec.takeNumber y : Taken abi).data =
      if l = [] then none else some (storeNumber spec.size
        (if peek y = chr '-' then -digitsValue spec.base l else digitsValue spec.base l)) := by
  subst hl
  cases y with
  | nil => exact (if_pos run_nil).symm
  | cons c z =>
    cases hc : isSign c with
    | true =>
      rw [Spec.takeNumber, if_pos hc, afterSign, signOf_cons hc, Spec.takeDigits]
      simp only [Option.some_inj]
      rfl
    | false =>
      have hminus : c ≠ chr '-' := by
        rintro rfl
        cases hc
      rw [Spec.takeNumber, hc, if_neg Bool.false_ne_true, afterSign, signOf_cons_of_not hc,
        Spec.takeDigits]
      show _ = if _ then none else some (storeNumber spec.size (if c = chr '-' then _ else _))
      rw [if_neg hminus]
      rfl

end Number

/-- The digits of the number at the start of a string, after white space
and a sign. -/
def leadingDigits (s : List Byte) : List Byte :=
  (afterSign (s.dropWhile isspace)).takeWhile isDecimal

/-- A number, negated if there is a minus sign in the string. -/
def signed {abi : Abi} (s : List Byte) (n : abi.Ulong) : abi.Ulong :=
  if peek (s.dropWhile isspace) = chr '-' then -n else n

section Atol
variable {abi : Abi} {m : abi.Ulong → Option Byte} {limit : Nat}

/-- How many digits are read. -/
def digitRoom (s : List Byte) : Nat := 2 ^ 32 - 1 - (signOf (s.dropWhile isspace)).length

/-- The specification `%ld`. -/
def longSpec : Spec := ⟨false, UNLIMITED_LENGTH, .long, chr 'd', fun _ => false⟩

theorem directives_longFormat : directives longFormat = [.conversion longSpec] := rfl

/-- One conversion stores what it took. -/
theorem stores_scanList {ap : Nat → abi.Ulong} {spec : Spec} (hstar : spec.star = false)
    (hptr : ap 0 ≠ 0) (x : List Byte) :
    (scanList ap [.conversion spec] ⟨0, 0, [], []⟩ x).1.stores =
      ((spec.take x : Taken abi).data.map fun data => ⟨0, ap 0, data⟩).toList := by
  rw [scanList_ptr hstar hptr]
  simp only
  split
  · rfl
  · split
    · rfl
    · rfl

/-- `atol` converts the digits that it has room for. -/
theorem atol_eq (s : CString) {n nptr : abi.Ulong} (hs : Holds m nptr s.encode) (hn : n ≠ 0)
    (h : s.bytes.length + 2 ≤ limit) :
    atol m limit n nptr = .ok (signed s.bytes
      (BitVec.ofNat _ (decimalValue ((leadingDigits s.bytes).take (digitRoom s.bytes))))) := by
  have hsign := length_signOf_le (s.bytes.dropWhile isspace)
  have hroom : max 1 (longSpec.maxlen.toNat - (signOf (s.bytes.dropWhile isspace)).length) =
      digitRoom s.bytes := by
    have hmax : longSpec.maxlen.toNat = 2 ^ 32 - 1 := rfl
    rw [hmax, digitRoom]
    omega
  have hrun : run (isDigitOf longSpec.base) (digitRoom s.bytes)
      (afterSign (s.bytes.dropWhile isspace)) =
        (leadingDigits s.bytes).take (digitRoom s.bytes) := by
    rw [run_eq_take, leadingDigits, show longSpec.base = 10 from rfl, isDigitOf_ten]
  have hdecimal : ∀ c ∈ (leadingDigits s.bytes).take (digitRoom s.bytes), isDecimal c = true :=
    fun c hc => mem_takeWhile_imp (mem_of_mem_take hc)
  rw [← hroom] at hrun
  have hdata := @data_takeNumber abi longSpec _ _ hrun
  rw [hroom, show longSpec.base = 10 from rfl, digitsValue_eq _ hdecimal] at hdata
  rw [atol, sscanf_memory s longFormat _ hs h, directives_longFormat, ok_bind,
    stores_scanList rfl hn, take_number (by decide), hdata]
  by_cases hempty : (leadingDigits s.bytes).take (digitRoom s.bytes) = []
  · rw [if_pos hempty, hempty, signed]
    show Except.ok (0 : abi.Ulong) = .ok (if _ then -BitVec.ofNat _ 0 else BitVec.ofNat _ 0)
    rw [neg_zero, ite_self]
    rfl
  · rw [if_neg hempty]
    rfl

/-- The number at the start of a string. -/
def leadingNumber (s : List Byte) : Int :=
  if peek (s.dropWhile isspace) = chr '-' then -decimalValue (leadingDigits s)
  else decimalValue (leadingDigits s)

/-- The number, modulo the size of a `long`. -/
theorem ofInt_leadingNumber (s : List Byte) :
    (BitVec.ofInt abi.bits (leadingNumber s)) =
      signed s (BitVec.ofNat abi.bits (decimalValue (leadingDigits s))) := by
  rw [leadingNumber, signed]
  split
  · rw [ofInt_neg, ofInt_natCast]
  · rw [ofInt_natCast]

theorem signed_inj {s : List Byte} {n n' : abi.Ulong} : signed s n = signed s n' ↔ n = n' := by
  rw [signed, signed]
  split
  · exact BitVec.neg_inj
  · exact Iff.rfl

/-- `atol` and `atoi` return the number at the start of the string, and
read nothing but the string and its `NUL`, exactly if the digits that do
not fit into 2^32 - 1 characters make no difference. -/
theorem atol_iff (s : CString) {n nptr : abi.Ulong} (hs : Holds m nptr s.encode) (hn : n ≠ 0) :
    (∃ bound, ∀ limit, bound ≤ limit →
      atol m limit n nptr = .ok (BitVec.ofInt abi.bits (leadingNumber s.bytes)) ∧
      atoi m limit n nptr = .ok ((BitVec.ofInt abi.bits (leadingNumber s.bytes)).setWidth 32)) ↔
    decimalValue (leadingDigits s.bytes) % 2 ^ abi.bits =
      decimalValue ((leadingDigits s.bytes).take
        (2 ^ 32 - 1 - (signOf (s.bytes.dropWhile isspace)).length)) % 2 ^ abi.bits := by
  have heq : BitVec.ofInt abi.bits (leadingNumber s.bytes) = signed s.bytes (BitVec.ofNat _
      (decimalValue ((leadingDigits s.bytes).take (digitRoom s.bytes)))) ↔
      decimalValue (leadingDigits s.bytes) % 2 ^ abi.bits =
        decimalValue ((leadingDigits s.bytes).take (digitRoom s.bytes)) % 2 ^ abi.bits := by
    rw [ofInt_leadingNumber, signed_inj, ← toNat_inj, toNat_ofNat, toNat_ofNat]
  constructor
  · rintro ⟨bound, h⟩
    have hlimit := (h (max bound (s.bytes.length + 2)) (Nat.le_max_left ..)).1
    rw [atol_eq s hs hn (Nat.le_max_right ..)] at hlimit
    exact heq.mp (Except.ok.inj hlimit).symm
  · intro h
    refine ⟨s.bytes.length + 2, fun limit hlimit => ?_⟩
    have hatol := atol_eq s hs hn hlimit
    rw [← heq.mpr h] at hatol
    refine ⟨hatol, ?_⟩
    rw [atoi, hatol]
    rfl

end Atol

/-! ### Long strings -/

/-- The string `12`. -/
def twelve : CString := ⟨[chr '1', chr '2'], by decide⟩

theorem atol_twelve :
    Holds (Lib.place (0x1000 : Abi.Ulong .lp64) twelve.encode) 0x1000 twelve.encode ∧
    ∃ bound, ∀ limit, bound ≤ limit →
      atol (Lib.place (0x1000 : Abi.Ulong .lp64) twelve.encode) limit 0x2000 0x1000 = .ok 12 ∧
      atoi (Lib.place (0x1000 : Abi.Ulong .lp64) twelve.encode) limit 0x2000 0x1000 = .ok 12 := by
  have hholds : Holds (Lib.place (0x1000 : Abi.Ulong .lp64) twelve.encode) 0x1000
    twelve.encode := by
    decide
  exact ⟨hholds, (atol_iff twelve hholds (by decide : (0x2000 : Abi.Ulong .lp64) ≠ 0)).mpr rfl⟩

/-- A one after `k` zeroes. -/
def zeroesOne (k : Nat) : CString where
  bytes := List.replicate k (chr '0') ++ [chr '1']
  nonzero := by
    intro b hb
    rcases mem_append.mp hb with hb | hb
    · rw [eq_of_mem_replicate hb]
      decide
    · rw [mem_singleton.mp hb]
      decide

theorem decimalValue_replicate (k : Nat) : decimalValue (List.replicate k (chr '0')) = 0 := by
  rw [decimalValue]
  induction k with
  | zero => rfl
  | succ k ih =>
    rw [List.replicate_succ, foldl_cons]
    exact ih

/-- The whole string is the digits of the number one. -/
theorem leading_zeroesOne (k : Nat) :
    signOf ((zeroesOne k).bytes.dropWhile isspace) = [] ∧
      leadingDigits (zeroesOne k).bytes = (zeroesOne k).bytes ∧
      leadingNumber (zeroesOne k).bytes = 1 := by
  have hmem : ∀ b ∈ (zeroesOne k).bytes,
      isDecimal b = true ∧ isspace b = false ∧ isSign b = false ∧ b ≠ chr '-' := by
    intro b hb
    rcases mem_append.mp hb with hb | hb
    · rw [eq_of_mem_replicate hb]
      decide
    · rw [mem_singleton.mp hb]
      decide
  have hvalue : decimalValue (zeroesOne k).bytes = 1 := by
    have hzero := decimalValue_replicate k
    rw [decimalValue] at hzero
    rw [decimalValue, zeroesOne, foldl_append, hzero]
    rfl
  cases hbytes : (zeroesOne k).bytes with
  | nil => exact absurd hbytes (append_ne_nil_of_right_ne_nil _ (cons_ne_nil _ _))
  | cons c l =>
    rw [hbytes] at hmem hvalue
    obtain ⟨-, hspace, hsign, hminus⟩ := hmem c mem_cons_self
    have hdrop : (c :: l).dropWhile isspace = c :: l :=
      dropWhile_cons_of_neg (by rw [hspace]; decide)
    have hdigits : leadingDigits (c :: l) = c :: l := by
      rw [leadingDigits, hdrop, afterSign, signOf_cons_of_not hsign]
      exact takeWhile_eq_self_iff.mpr fun b hb => (hmem b hb).1
    refine ⟨?_, hdigits, ?_⟩
    · rw [hdrop]
      exact signOf_cons_of_not hsign
    · have hpeek : peek (c :: l) ≠ chr '-' := hminus
      rw [leadingNumber, hdrop, if_neg hpeek, hdigits, hvalue]
      rfl

theorem atol_zeroes_of_eq {k : Nat} (hk : k = 2 ^ 32 - 1) :
    (∃ bound, ∀ limit, bound ≤ limit →
      atol (Lib.place (0x1000 : Abi.Ulong .lp64) (zeroesOne k).encode) limit 0x2000 0x1000 =
        .ok 0) ∧
    leadingNumber (zeroesOne k).bytes = 1 := by
  obtain ⟨hsign, hdigits, hnumber⟩ := leading_zeroesOne k
  have hlen : (zeroesOne k).encode.length ≤ 2 ^ 64 := by
    rw [CString.encode, zeroesOne, length_append, length_append, length_replicate]
    simp only [length_singleton]
    omega
  -- The first `k` characters are zeroes.
  have htake : decimalValue ((leadingDigits (zeroesOne k).bytes).take
      (digitRoom (zeroesOne k).bytes)) = 0 := by
    rw [hdigits, digitRoom, hsign, length_nil, Nat.sub_zero, ← hk, zeroesOne,
      take_left' length_replicate]
    exact decimalValue_replicate k
  have hholds : Holds (Lib.place (0x1000 : Abi.Ulong .lp64) (zeroesOne k).encode) 0x1000
      (zeroesOne k).encode := Lib.holds_place hlen
  refine ⟨⟨(zeroesOne k).bytes.length + 2, fun limit hlimit => ?_⟩, hnumber⟩
  rw [atol_eq (zeroesOne k) hholds (by decide) hlimit, htake, signed]
  show Except.ok (if _ then -0#64 else 0#64) = .ok 0
  rw [neg_zero, ite_self]
  rfl

/-- The last digit of 2^32 is not read. -/
theorem atol_zeroes :
    (∃ bound, ∀ limit, bound ≤ limit →
      atol (Lib.place (0x1000 : Abi.Ulong .lp64) (zeroesOne (2 ^ 32 - 1)).encode) limit 0x2000
        0x1000 = .ok 0) ∧
    leadingNumber (zeroesOne (2 ^ 32 - 1)).bytes = 1 :=
  atol_zeroes_of_eq rfl

end Xinu
