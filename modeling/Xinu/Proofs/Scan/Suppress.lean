import Mathlib.Data.Nat.Count
import Xinu.Proofs.Scan.Format

/-!
# `Xinu.Proofs.Scan.Suppress`: conversions with and without assignment

The scan of a format and that of the format with stars take the same
fields as long as no chosen conversion fails to match. One that fails ends
the scan if it has a pointer, and with a `*` the scan goes on
(`tracks_scanList`). And when the input ends in the scan and only
suppressed conversions matched, the result is `EOF` and not zero.
`transparent_iff` says that there is no other difference.
-/

namespace Xinu

open List

open Lib (Prog Last)

/-! ### The two scans -/

/-- The result for a reason to stop and a number of matches. -/
def tally (stop : Stop) (n : Nat) : Int := if stop = .eof ∧ n = 0 then EOF else n

section Scans
variable {abi : Abi} {ap ap' : Nat → abi.Ulong} {choose : Nat → Bool}

/-- The number of arguments before argument `n` that are kept. -/
def kept (choose : Nat → Bool) (n : Nat) : Nat := Nat.count (fun i => choose i = false) n

theorem kept_succ (n : Nat) : kept choose (n + 1) = kept choose n + if choose n then 0 else 1 := by
  rw [kept, Nat.count_succ]
  cases choose n <;> rfl

/-- The stores as the caller sees them. -/
def written (stores : List (Store abi)) : List (abi.Ulong × Stored abi) :=
  stores.map fun s => (s.ptr, s.data)

/-- A scan and the one that hides the chosen conversions. -/
structure Hides (choose : Nat → Bool) (matched matched' : List Nat)
    (stores stores' : List (Store abi)) : Prop where
  matched : matched'.length = matched.countP fun n => choose n = false
  stores : written stores' = written (stores.filter fun s => choose s.arg = false)

/-- The states of the two scans between two directives. -/
structure HidesState (choose : Nat → Bool) (st st' : ScanState abi) : Prop
    extends Hides choose st.matched st'.matched st.stores st'.stores where
  directives : st'.directives = st.directives
  arg : st'.arg = kept choose st.arg

/-- The ends of the two scans. -/
structure HidesEnd (choose : Nat → Bool) (r r' : Scanned abi × List Byte) : Prop
    extends Hides choose r.1.matched r'.1.matched r.1.stores r'.1.stores where
  directives : r'.1.directives = r.1.directives
  stop : r'.1.stop = r.1.stop
  rest : r'.2 = r.2

/-- A scan does not take directives back. -/
theorem directives_le_scanList : ∀ (ds : List Directive) (st : ScanState abi) (x : List Byte),
    st.directives ≤ (scanList ap ds st x).1.directives := by
  intro ds
  induction ds with
  | nil => exact fun st x => Nat.le_refl _
  | cons d ds ih =>
    intro st x
    have hnext : ∀ y, st.directives ≤ (scanList ap ds st.next y).1.directives := fun y =>
      Nat.le_trans (Nat.le_succ _) (ih st.next y)
    cases d with
    | truncated => exact Nat.le_refl _
    | space =>
      rw [scanList]
      split
      · exact Nat.le_refl _
      · exact hnext _
    | literal c =>
      cases x with
      | nil => exact Nat.le_refl _
      | cons d x =>
        rw [scanList]
        split
        · exact Nat.le_refl _
        · exact hnext x
    | conversion spec =>
      -- What a conversion does to the state, it does not do to the count.
      have hcount : ∀ (st' : ScanState abi) y, st'.directives = st.directives →
          st.directives ≤ (scanList ap ds st'.next y).1.directives := by
        intro st' y hst'
        have hle := ih st'.next y
        have hnext' : st'.next.directives = st'.directives + 1 := rfl
        omega
      by_cases hptr : (if spec.star then 0 else ap st.arg) = 0
      · rw [scanList_null hptr]
        simp only
        split
        · exact Nat.le_refl _
        · exact hcount _ _ rfl
      · have hstar : spec.star = false := Bool.eq_false_iff.mpr fun h => hptr (if_pos h)
        rw [scanList_ptr hstar (by rwa [hstar] at hptr)]
        simp only
        split
        · exact Nat.le_refl _
        · split
          · exact hcount _ _ rfl
          · exact Nat.le_refl _

/-- The scan that hides the chosen conversions tracks the other one. It
goes further when the other one ends at a chosen conversion. -/
structure Tracks (choose : Nat → Bool) (m : Match) (r r' : Scanned abi × List Byte) : Prop where
  hides : (∀ n ∈ m.failed, choose n = false) → HidesEnd choose r r'
  further : ∀ n ∈ m.failed, choose n = true → r.1.directives < r'.1.directives

section Tracks
variable {st st' : ScanState abi} {x : List Byte}

section
variable (h : HidesState choose st st')
include h

theorem HidesState.next : HidesState choose st.next st'.next :=
  ⟨h.toHides, congrArg (· + 1) h.directives, h.arg⟩

theorem HidesState.returns (stop : Stop) (result result' : Int) :
    HidesEnd choose (st.returns stop result, x) (st'.returns stop result', x) :=
  ⟨h.toHides, h.directives, rfl, rfl⟩

/-- Both scans end, and not because a conversion fails. -/
theorem HidesState.tracks (stop : Stop) (result result' : Int)
    {matched : List Nat} : Tracks choose ⟨matched, stop, none⟩ (st.returns stop result, x)
      (st'.returns stop result', x) :=
  ⟨fun _ => h.returns stop result result', nofun⟩

/-- Neither of them stores anything. -/
theorem HidesState.skipped (star : Bool) (hstar : star = true) :
    HidesState choose (st.skipped star) (st'.skipped star) := by
  subst hstar
  exact ⟨h.toHides, h.directives, h.arg⟩

/-- A conversion that is kept. -/
theorem HidesState.took (hkeep : choose st.arg = false) (ptr : abi.Ulong) (t : Taken abi) :
    HidesState choose (st.took ptr t) (st'.took ptr t) := by
  refine ⟨⟨?_, ?_⟩, h.directives, ?_⟩
  · simp only [ScanState.took]
    split
    · rw [length_append, countP_append, h.matched]
      simp [hkeep]
    · exact h.matched
  · simp only [ScanState.took, written, filter_append, map_append]
    rw [show st'.stores.map _ = _ from h.stores]
    cases t.data <;> simp [written, hkeep]
  · simp only [ScanState.took, kept_succ, hkeep, h.arg]
    rfl

/-- A chosen conversion. -/
theorem HidesState.hide (hchoose : choose st.arg = true)
    (ptr : abi.Ulong) (t : Taken abi) : HidesState choose (st.took ptr t) (st'.skipped true) := by
  refine ⟨⟨?_, ?_⟩, h.directives, ?_⟩
  · simp only [ScanState.took, ScanState.skipped]
    split
    · rw [countP_append, h.matched]
      simp [hchoose]
    · exact h.matched
  · simp only [ScanState.took, ScanState.skipped, filter_append]
    rw [h.stores]
    cases t.data <;> simp [written, hchoose]
  · simp only [ScanState.took, ScanState.skipped, kept_succ, hchoose, h.arg]
    rfl

end

section Conversion
variable {spec : Spec} {ds : List Directive}
  (ih : ∀ {st st' : ScanState abi} (x : List Byte), HidesState choose st st' →
    Tracks choose (matchFormat abi st.arg ds x) (scanList ap ds st x)
      (scanList ap' (starChosen choose st.arg ds) st' x))
  (h : HidesState choose st st') (hstar : spec.star = false) (hap : ap st.arg ≠ 0)
include ih h hstar hap

/-- A conversion that is kept gets the same pointer. -/
theorem tracks_kept (hchoose : choose st.arg = false)
    (hap' : ap' (kept choose st.arg) = ap st.arg) :
    Tracks choose (matchFormat abi st.arg (.conversion spec :: ds) x)
      (scanList ap (.conversion spec :: ds) st x)
      (scanList ap' (.conversion { spec with star := false } ::
        starChosen choose (st.arg + 1) ds) st' x) := by
  have hptr : ap' st'.arg = ap st.arg := h.arg ▸ hap'
  have h1 := h.took hchoose (ap st.arg) (spec.take x)
  have htake : ({ spec with star := false } : Spec).take x = (spec.take x : Taken abi) := rfl
  rw [scanList_ptr hstar hap, scanList_ptr rfl (hptr ▸ hap), hptr, matchFormat]
  simp only [hstar, Bool.false_eq_true, if_false, htake]
  cases heof : (spec.take x : Taken abi).eof with
  | true => cases (spec.take x : Taken abi).matched <;> exact h1.tracks .eof _ _
  | false =>
    cases hmatched : (spec.take x : Taken abi).matched with
    | true =>
      have hrest := ih (spec.take x : Taken abi).rest h1.next
      exact ⟨hrest.hides, hrest.further⟩
    | false =>
      refine ⟨fun _ => ⟨h1.toHides, h1.directives, rfl, rfl⟩, fun n hn hbad => ?_⟩
      cases hn
      rw [hchoose] at hbad
      cases hbad

/-- A chosen conversion gets a star. -/
theorem tracks_hidden (hchoose : choose st.arg = true) :
    Tracks choose (matchFormat abi st.arg (.conversion spec :: ds) x)
      (scanList ap (.conversion spec :: ds) st x)
      (scanList ap' (.conversion { spec with star := true } ::
        starChosen choose (st.arg + 1) ds) st' x) := by
  have h1 := h.hide hchoose (ap st.arg) (spec.take x)
  have htake : ({ spec with star := true } : Spec).take x = (spec.take x : Taken abi) := rfl
  rw [scanList_ptr hstar hap, scanList_null rfl, matchFormat]
  simp only [hstar, Bool.false_eq_true, if_false, htake]
  cases heof : (spec.take x : Taken abi).eof with
  | true => cases (spec.take x : Taken abi).matched <;> exact h1.tracks .eof _ _
  | false =>
    cases hmatched : (spec.take x : Taken abi).matched with
    | true =>
      have hrest := ih (spec.take x : Taken abi).rest h1.next
      exact ⟨hrest.hides, hrest.further⟩
    | false =>
      -- Only the scan with the star goes on.
      refine ⟨fun hgood => ?_, fun n hn _ => ?_⟩
      · have hkeep := hgood st.arg rfl
        rw [hchoose] at hkeep
        cases hkeep
      · refine Nat.lt_of_lt_of_le ?_ (directives_le_scanList ..)
        exact Nat.lt_succ_of_le (Nat.le_of_eq h1.directives.symm)

end Conversion

end Tracks

theorem tracks_scanList (hap : ∀ n, ap n ≠ 0)
    (hap' : ∀ n, choose n = false → ap' (kept choose n) = ap n) :
    ∀ (ds : List Directive) {st st' : ScanState abi} (x : List Byte), HidesState choose st st' →
      Tracks choose (matchFormat abi st.arg ds x) (scanList ap ds st x)
        (scanList ap' (starChosen choose st.arg ds) st' x) := by
  -- By induction on the directives. The two scans stay at the same place of
  -- the input, and only their arguments and stores differ.
  intro ds
  induction ds with
  | nil => exact fun x h => h.tracks .done _ _
  | cons d ds ih =>
    intro st st' x h
    cases d with
    | truncated => exact h.tracks .truncated _ _
    | space =>
      rw [starChosen, scanList, scanList, matchFormat]
      · split
        · exact h.tracks .eof _ _
        · exact ih _ h.next
      · intro spec hspec
        cases hspec
    | literal c =>
      rw [starChosen]
      · cases x with
        | nil => exact h.tracks .eof _ _
        | cons d x =>
          rw [scanList, scanList, matchFormat]
          split
          · exact h.tracks .mismatch _ _
          · exact ih x h.next
      · intro spec hspec
        cases hspec
    | conversion spec =>
      cases hstar : spec.star with
      | true =>
        -- A conversion that has a star anyway.
        have h1 := h.skipped true rfl
        rw [starChosen, if_pos hstar, scanList_null (by rw [hstar]; rfl),
          scanList_null (by rw [hstar]; rfl), matchFormat]
        simp only [hstar, if_true]
        split
        · exact h1.tracks .eof _ _
        · exact ih _ h1.next
      | false =>
        rw [starChosen, if_neg (by rw [hstar]; decide)]
        cases hchoose : choose st.arg with
        | false => exact tracks_kept ih h hstar (hap _) hchoose (hap' _ hchoose)
        | true => exact tracks_hidden ih h hstar (hap _) hchoose

/-! ### The result -/

/-- The result is the number of matches, or `EOF` if the input ended
before there was one. -/
theorem result_scanList : ∀ (ds : List Directive) (st : ScanState abi) (x : List Byte),
    (scanList ap ds st x).1.result =
      tally (scanList ap ds st x).1.stop (scanList ap ds st x).1.matched.length := by
  -- Every return passes `nmatch` on, or `EOF` instead of zero at the end of
  -- the input.
  have heof : ∀ st : ScanState abi, st.orEof = tally .eof st.matched.length := fun st => by
    simp [ScanState.orEof, ScanState.nmatch, tally]
  intro ds
  induction ds with
  | nil => exact fun st x => rfl
  | cons d ds ih =>
    intro st x
    cases d with
    | truncated => rfl
    | space =>
      rw [scanList]
      split
      · exact heof st
      · exact ih _ _
    | literal c =>
      cases x with
      | nil => exact heof st
      | cons d x =>
        rw [scanList]
        split
        · rfl
        · exact ih _ _
    | conversion spec =>
      by_cases hptr : (if spec.star then 0 else ap st.arg) = 0
      · rw [scanList_null hptr]
        simp only
        split
        · exact heof _
        · exact ih _ _
      · have hstar : spec.star = false := Bool.eq_false_iff.mpr fun h => hptr (if_pos h)
        rw [scanList_ptr hstar (by rwa [hstar] at hptr)]
        simp only
        split
        · exact heof _
        · split
          · exact ih _ _
          · rfl

/-- A scan with pointers matches the conversions that the input matches,
and stops when it does. -/
theorem match_scanList (hap : ∀ n, ap n ≠ 0) :
    ∀ (ds : List Directive) (st : ScanState abi) (x : List Byte),
      (scanList ap ds st x).1.stop = (matchFormat abi st.arg ds x).stop ∧
      (scanList ap ds st x).1.matched = st.matched ++ (matchFormat abi st.arg ds x).matched := by
  intro ds
  induction ds with
  | nil => exact fun st x => ⟨rfl, (append_nil _).symm⟩
  | cons d ds ih =>
    intro st x
    cases d with
    | truncated => exact ⟨rfl, (append_nil _).symm⟩
    | space =>
      rw [scanList, matchFormat]
      split
      · exact ⟨rfl, (append_nil _).symm⟩
      · exact ih _ _
    | literal c =>
      cases x with
      | nil => exact ⟨rfl, (append_nil _).symm⟩
      | cons d x =>
        rw [scanList, matchFormat]
        split
        · exact ⟨rfl, (append_nil _).symm⟩
        · exact ih _ _
    | conversion spec =>
      cases hstar : spec.star with
      | true =>
        rw [scanList_null (by rw [hstar]; rfl), matchFormat]
        simp only [hstar, if_true]
        split
        · exact ⟨rfl, (append_nil _).symm⟩
        · exact ih _ _
      | false =>
        rw [scanList_ptr hstar (hap _), matchFormat]
        simp only [hstar, Bool.false_eq_true, if_false]
        -- The end of the input is reported before a mismatch is.
        cases heof : (spec.take x : Taken abi).eof with
        | true => cases hmatched : (spec.take x : Taken abi).matched <;>
            simp [ScanState.returns, ScanState.took, hmatched]
        | false =>
          cases hmatched : (spec.take x : Taken abi).matched with
          | true =>
            obtain ⟨hstop, hlist⟩ := ih (st.took (ap st.arg) (spec.take x)).next
              (spec.take x : Taken abi).rest
            refine ⟨hstop, hlist.trans ?_⟩
            simp [ScanState.next, ScanState.took, hmatched, Match.cons]
          | false => simp [ScanState.returns, ScanState.took, hmatched]

end Scans

/-- The two scans differ only in what the chosen conversions store and
count. `r` is what the first one returns and leaves of the input, `r'` the
one with the stars. -/
structure Transparent {abi : Abi} (choose : Nat → Bool) (r r' : Scanned abi × List Byte) :
    Prop where
  consumed : r'.2 = r.2
  directive : r'.1.directives = r.1.directives
  reason : r'.1.stop = r.1.stop
  stores : written r'.1.stores = written (r.1.stores.filter fun s => choose s.arg = false)
  result : r'.1.result = if r.1.result = EOF then EOF
    else r.1.result - (r.1.matched.countP fun n => choose n = true)

/-- The input does not match a chosen conversion that it gets to. -/
def Match.FailsChosen (m : Match) (choose : Nat → Bool) : Prop :=
  ∃ n ∈ m.failed, choose n = true

/-- The input ends in the scan, and it has matched chosen conversions and
no others. -/
def Match.EndsChosen (m : Match) (choose : Nat → Bool) : Prop :=
  m.stop = .eof ∧ m.matched ≠ [] ∧ ∀ n ∈ m.matched, choose n = true

theorem tally_hide {stop : Stop} {matched : List Nat} {choose : Nat → Bool} :
    (tally stop (matched.countP fun n => choose n = false) =
      if tally stop matched.length = EOF then EOF
      else tally stop matched.length - (matched.countP fun n => choose n = true)) ↔
    ¬(stop = .eof ∧ matched ≠ [] ∧ ∀ n ∈ matched, choose n = true) := by
  have hsum : matched.length = (matched.countP fun n => choose n = true) +
      matched.countP fun n => choose n = false := by
    rw [length_eq_countP_add_countP fun n => decide (choose n = true)]
    simp
  have hall : (∀ n ∈ matched, choose n = true) ↔
      (matched.countP fun n => choose n = false) = 0 := by
    simp [countP_eq_zero]
  have hnil : matched ≠ [] ↔ matched.length ≠ 0 := length_eq_zero_iff.not.symm
  rw [hall, hnil, hsum]
  -- What is left is about two numbers: `k` chosen and `k'` other matches.
  generalize (matched.countP fun n => choose n = true) = k
  generalize (matched.countP fun n => choose n = false) = k'
  have hEOF : EOF = -2 := rfl
  by_cases hstop : stop = .eof
  · by_cases hk' : k' = 0
    · by_cases hk : k = 0
      · simp [tally, hstop, hk, hk']
      · simp [tally, hstop, hk, hk', hEOF]
    · simp [tally, hstop, hk', hEOF]
      omega
  · simp [tally, hstop, hEOF]
    omega

/-- Putting stars into conversions is transparent, unless the input gets
to one of them that it does not match, or ends when only such conversions
have matched. -/
theorem transparent_iff {abi : Abi} {limit : Nat} (format : CString) (choose : Nat → Bool)
    (x : List Byte) {ap ap' : Nat → abi.Ulong} (hlimit : x.length + 2 ≤ limit)
    (hap : ∀ n, ap n ≠ 0) (hap' : ∀ n, choose n = false → ap' (kept choose n) = ap n) :
    ∃ o last rest o' last' rest',
      (doscan limit format ap).read .fresh x = some (o, last, rest) ∧
      (doscan limit (suppress choose format) ap').read .fresh x = some (o', last', rest') ∧
      (Transparent choose (o, rest) (o', rest') ↔
        ¬(matchFormat abi 0 (directives format) x).FailsChosen choose ∧
        ¬(matchFormat abi 0 (directives format) x).EndsChosen choose) := by
  obtain ⟨last, hrun, -⟩ := read_doscan format ap x hlimit
  obtain ⟨last', hrun', -⟩ := read_doscan (suppress choose format) ap' x hlimit
  refine ⟨_, last, _, _, last', _, hrun, hrun', ?_⟩
  rw [directives_suppress]
  have hstart : HidesState choose (⟨0, 0, [], []⟩ : ScanState abi) ⟨0, 0, [], []⟩ :=
    ⟨⟨rfl, rfl⟩, rfl, rfl⟩
  have htracks := tracks_scanList hap hap' (directives format) x hstart
  obtain ⟨hstop, hmatched⟩ := match_scanList hap (directives format) ⟨0, 0, [], []⟩ x
  have hresult := @result_scanList abi ap (directives format) ⟨0, 0, [], []⟩ x
  have hresult' := @result_scanList abi ap' (starChosen choose 0 (directives format))
    ⟨0, 0, [], []⟩ x
  simp only [nil_append] at hmatched
  generalize scanList ap (directives format) ⟨0, 0, [], []⟩ x = r at *
  generalize scanList ap' (starChosen choose 0 (directives format)) ⟨0, 0, [], []⟩ x = r' at *
  generalize matchFormat abi 0 (directives format) x = m at *
  -- Where the scans go together, only the result is left to compare.
  have hrest : ¬m.FailsChosen choose → HidesEnd choose r r' := fun hgood =>
    htracks.hides fun n hn => Bool.eq_false_iff.mpr fun hchoose => hgood ⟨n, hn, hchoose⟩
  have htally : HidesEnd choose r r' → ((r'.1.result = if r.1.result = EOF then EOF
      else r.1.result - (r.1.matched.countP fun n => choose n = true)) ↔ ¬m.EndsChosen choose) := by
    intro h
    rw [hresult, hresult', h.matched, h.stop, tally_hide, hstop, hmatched]
    rfl
  constructor
  · intro ht
    have hgood : ¬m.FailsChosen choose := by
      rintro ⟨n, hn, hchoose⟩
      exact absurd ht.directive (htracks.further n hn hchoose).ne'
    exact ⟨hgood, (htally (hrest hgood)).mp ht.result⟩
  · rintro ⟨hgood, hend⟩
    have h := hrest hgood
    exact ⟨h.rest, h.directives, h.stop, h.stores, (htally h).mpr hend⟩

/-! ### `%d%s` with and without a star -/

/-- The first conversion. -/
def chooseFirst (n : Nat) : Bool := n = 0

/-- Where a number and a string are stored. -/
def twoPointers (n : Nat) : Abi.lp64.Ulong := if n = 0 then 0x1000 else 0x2000

example : (suppress chooseFirst numberAndString).bytes =
    [chr '%', chr '*', chr 'd', chr '%', chr 's'] := by decide

theorem twoPointers_ne_zero (n : Nat) : twoPointers n ≠ 0 := by
  unfold twoPointers
  split <;> decide

/-- The pointer for the string alone. -/
def stringPointer (_ : Nat) : Abi.lp64.Ulong := 0x2000

theorem stringPointer_kept (n : Nat) (h : chooseFirst n = false) :
    stringPointer (kept chooseFirst n) = twoPointers n :=
  (if_neg (of_decide_eq_false h)).symm

theorem transparent_twoFields : ∃ o last rest o' last' rest',
    (doscan 7 numberAndString twoPointers).read .fresh twoFields.bytes = some (o, last, rest) ∧
    (doscan 7 (suppress chooseFirst numberAndString) stringPointer).read .fresh twoFields.bytes =
      some (o', last', rest') ∧
    Transparent chooseFirst (o, rest) (o', rest') := by
  have hmatch : matchFormat .lp64 0 (directives numberAndString) twoFields.bytes =
      ⟨[0, 1], .eof, none⟩ := by decide +kernel
  obtain ⟨o, last, rest, o', last', rest', hrun, hrun', hiff⟩ := transparent_iff numberAndString
    chooseFirst twoFields.bytes (show twoFields.bytes.length + 2 ≤ 7 by decide)
    twoPointers_ne_zero stringPointer_kept
  refine ⟨o, last, rest, o', last', rest', hrun, hrun', hiff.mpr ⟨?_, ?_⟩⟩
  · rw [hmatch]
    rintro ⟨n, hn, -⟩
    cases hn
  · rw [hmatch]
    rintro ⟨-, -, hall⟩
    exact absurd (hall 1 (by decide)) (by decide)

/-- The string `abc`. -/
def letters : CString := ⟨[chr 'a', chr 'b', chr 'c'], by decide⟩

/-- On `abc`, the format `%d%s` stops at its first conversion with result
zero. With a star there, the second one is reached and stores the
string. -/
theorem suppress_goes_on : ∃ o last rest o' last' rest',
    (doscan 5 numberAndString twoPointers).read .fresh letters.bytes = some (o, last, rest) ∧
    (doscan 5 (suppress chooseFirst numberAndString) stringPointer).read .fresh letters.bytes =
      some (o', last', rest') ∧
    o.result = 0 ∧ o.stores = [] ∧ o'.result = 1 ∧
    o'.stores = [⟨0, 0x2000, .chars letters.bytes true⟩] ∧
    ¬Transparent chooseFirst (o, rest) (o', rest') := by
  refine ⟨_, _, _, _, _, _, rfl, rfl, by decide, by decide, by decide, by decide, fun h => ?_⟩
  exact absurd h.directive (by decide)

end Xinu
