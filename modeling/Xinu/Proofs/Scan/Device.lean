import Xinu.Proofs.Scan.Read

/-!
# `Xinu.Proofs.Scan.Device`: where `fscanf` leaves its device

`fscanf` keeps the character that was put back in a buffer of its own call,
and it drops a character that is not the literal of the format. So the
device is at the first character that no directive consumed exactly when
the scan ends without one of these two (`scanEnding` is `clean`), and
otherwise this one character is lost (`fscanfOn_eq`).

`rest_scanList` compares the two descriptions of the list, what the scan
leaves and what it does not consume. `dev_of_atDevice` adds the buffer.
-/

namespace Xinu

open Lib (Last)

variable {abi : Abi}

/-- What a scan leaves of the list is what it does not consume, but for the
character that is not the literal. -/
theorem rest_scanList (ap : Nat → abi.Ulong) (ds : List Directive) :
    ∀ (st : ScanState abi) (put : Bool) (x : List Byte),
      if scanEnding ap ds st.arg put x = .literal then
        ∃ d, unconsumed ap ds st.arg x = d :: (scanList ap ds st x).2
      else unconsumed ap ds st.arg x = (scanList ap ds st x).2 := by
  -- Between two directives there is no mismatch, whatever was put back.
  have hbetween : ∀ put, Ending.between put ≠ .literal := by decide
  induction ds with
  | nil =>
    intro st put x
    exact (if_neg (hbetween put)).mpr rfl
  | cons d ds ih =>
    intro st put x
    cases d with
    | truncated => exact (if_neg (hbetween put)).mpr rfl
    | space =>
      rw [scanEnding, unconsumed, scanList]
      cases x.dropWhile isspace with
      | nil => rfl
      | cons c y => exact ih st.next true (c :: y)
    | literal c =>
      cases x with
      | nil => rfl
      | cons d y =>
        rw [scanEnding, unconsumed, scanList]
        by_cases h : d ≠ c
        · rw [if_pos h, if_pos h, if_pos h]
          exact ⟨d, rfl⟩
        · rw [if_neg h, if_neg h, if_neg h]
          exact ih st.next false y
    | conversion spec =>
      rw [scanList_conversion, scanEnding, unconsumed]
      rcases @outcome_cases abi ap spec st x with ⟨st', hout, hgoes, harg⟩ | ⟨scanned, hout, hgoes⟩
      · rw [hout, hgoes, if_pos rfl, if_pos rfl, ← harg]
        exact ih st' _ _
      · rw [hout, hgoes, if_neg Bool.false_ne_true, if_neg Bool.false_ne_true, if_neg (hbetween _)]
        rfl

/-- A character that was put back is in the buffer and not in the
device. -/
theorem dev_of_atDevice {last : Last Byte} {x : List Byte} {buf : ChBuf}
    (h : AtDevice last x buf) :
    if last.isPut = true then x = buf.c :: buf.dev else x = buf.dev := by
  cases last with
  | put => exact h.2
  | char c => exact h.2.2
  | fresh | eof => exact h.2

/-- `fscanf` returns, and the device has everything left that no directive
consumed, or all but the first character of it. -/
theorem fscanfOn_eq {limit : Nat} (format : CString) (ap : Nat → abi.Ulong) (dev : List Byte)
    (junk : Byte) (h : dev.length + 2 ≤ limit) :
    ∃ scanned left, fscanfOn limit dev junk format ap = some (scanned, left) ∧
      if scanEnding ap (directives format) 0 false dev = .clean then
        unconsumed ap (directives format) 0 dev = left
      else ∃ c, unconsumed ap (directives format) 0 dev = c :: left := by
  obtain ⟨last, hread, hput⟩ := read_doscan format ap dev h
  have hdevice : AtDevice .fresh dev ⟨dev, false, junk⟩ := ⟨rfl, rfl⟩
  obtain ⟨buf, hrun, hbuf⟩ := Lib.Delivers.run_eq delivers_device _ hdevice hread
  have hleft := dev_of_atDevice hbuf
  have hrest := rest_scanList ap (directives format) ⟨0, 0, [], []⟩ false dev
  refine ⟨_, buf.dev, by rw [fscanfOn, hrun]; rfl, ?_⟩
  -- In the buffer, dropped, or neither.
  cases hend : scanEnding ap (directives format) 0 false dev with
  | clean =>
    rw [if_neg (by rw [hput, hend]; decide)] at hleft
    rw [if_neg (by rw [hend]; decide)] at hrest
    rw [if_pos rfl, hrest, hleft]
  | lookahead =>
    rw [if_pos (by rw [hput, hend])] at hleft
    rw [if_neg (by rw [hend]; decide)] at hrest
    rw [if_neg (by decide)]
    exact ⟨buf.c, hrest.trans hleft⟩
  | literal =>
    rw [if_neg (by rw [hput, hend]; decide)] at hleft
    rw [if_pos hend, hleft] at hrest
    rw [if_neg (by decide)]
    exact hrest

/-- After `fscanf`, `fgetc` delivers the first character that no directive
consumed, and a second `fscanf` goes on there, exactly when the scan ends
with no character put back and no literal mismatched. -/
theorem fscanf_leaves_iff {limit : Nat} (format : CString) (ap : Nat → abi.Ulong)
    (dev : List Byte) (junk : Byte) (h : dev.length + 2 ≤ limit) :
    (∃ scanned left, fscanfOn limit dev junk format ap = some (scanned, left) ∧
      fgetc left = ((unconsumed ap (directives format) 0 dev).head?,
        (unconsumed ap (directives format) 0 dev).tail) ∧
      ∀ limit' junk' format' ap', @fscanfOn abi limit' left junk' format' ap' =
        fscanfOn limit' (unconsumed ap (directives format) 0 dev) junk' format' ap') ↔
    scanEnding ap (directives format) 0 false dev = .clean := by
  obtain ⟨scanned, left, hrun, hleft⟩ := fscanfOn_eq format ap dev junk h
  constructor
  · rintro ⟨scanned', left', hrun', hget, -⟩
    obtain ⟨-, rfl⟩ : scanned = scanned' ∧ left = left' := by simpa [hrun] using hrun'
    by_contra hend
    rw [if_neg hend] at hleft
    obtain ⟨c, hc⟩ := hleft
    -- The list that is left would have to be its own tail with `c` before it.
    rw [hc] at hget
    have hhead : left.head? = some c := congrArg Prod.fst hget
    have htail : left.tail = left := congrArg Prod.snd hget
    cases left with
    | nil => cases hhead
    | cons d l => exact List.cons_ne_self d l htail.symm
  · intro hend
    rw [if_pos hend] at hleft
    rw [hleft]
    exact ⟨scanned, left, hrun, rfl, fun _ _ _ _ => rfl⟩

/-- The device input `12,34`. -/
def commaList : List Byte := [chr '1', chr '2', chr ',', chr '3', chr '4']

/-- The format `%d,`. -/
def numberComma : CString := ⟨[chr '%', chr 'd', chr ','], by decide⟩

theorem fscanf_leaves_comma :
    (∃ scanned left, fscanfOn 7 commaList 0 numberComma (pointers .lp64) = some (scanned, left) ∧
      fgetc left = ((unconsumed (pointers .lp64) (directives numberComma) 0 commaList).head?,
        (unconsumed (pointers .lp64) (directives numberComma) 0 commaList).tail) ∧
      ∀ limit' junk' format' ap', @fscanfOn .lp64 limit' left junk' format' ap' =
        fscanfOn limit' (unconsumed (pointers .lp64) (directives numberComma) 0 commaList)
          junk' format' ap') :=
  (fscanf_leaves_iff numberComma _ commaList 0 (by decide)).mpr (by decide +kernel)

theorem numberOnly_nonzero : ∀ b ∈ [chr '%', chr 'd'], b ≠ 0 := by decide

/-- The format `%d`. -/
def numberOnly : CString := ⟨[chr '%', chr 'd'], numberOnly_nonzero⟩

/-- After `%d` on `12,34` the comma is lost. -/
theorem fscanfOn_commaList :
    (fscanfOn 7 commaList 0 numberOnly (pointers .lp64)).map (fun r => fgetc r.2) =
      some (some (chr '3'), [chr '4']) ∧
    unconsumed (pointers .lp64) (directives numberOnly) 0 commaList =
      [chr ',', chr '3', chr '4'] := by decide +kernel

end Xinu
