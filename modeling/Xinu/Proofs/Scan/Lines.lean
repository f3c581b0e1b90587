import Xinu.Proofs.Library.Bounded
import Xinu.System.Stdio

/-!
# `Xinu.Proofs.Scan.Lines`: `fgets` loses nothing

One call of `fgets` stores the next line of the device with a `NUL` after
it (`fgets_eq`), and a line ends at the first newline, at the size limit or
at the end of the device (`IsLine`). At the end of the device it returns
`NULL` and stores nothing (`fgets_nil`).

So the calls up to the first `NULL` return lines that make up the whole
stream, one after the other (`getLines_spec`, `getLines_eq`).
-/

namespace Xinu.Stdio

open Function List

open Lib (Mapped add_one_add_ofNat overlay overlay_cons overlay_of_le toNat_ofNat_add_sub
  update_overlay_append)

/-- `line` is the first line of a stream that goes on with `rest`, for a
limit of `k` characters. -/
structure IsLine (k : Nat) (line rest : List Byte) : Prop where
  ne_nil : line ≠ []
  length_le : line.length ≤ k
  /-- There is no newline before the last character. -/
  newline : chr '\n' ∉ line.dropLast
  ends : line.getLast? = some (chr '\n') ∨ line.length = k ∨ rest = []

/-- The memories after calls that store these lines one after the other. -/
def stored (s : Ulong64) : Bytes → List (List Byte) → List Bytes
  | _, [] => []
  | m, line :: lines =>
    overlay s (line ++ [0]) m :: stored s (overlay s (line ++ [0]) m) lines

/-! ### Lines -/

/-- The characters that the loop of `fgets` takes. -/
def firstLine : Nat → List Byte → List Byte
  | 0, _ => []
  | _ + 1, [] => []
  | k + 1, c :: dev => if c = chr '\n' then [c] else c :: firstLine k dev

section Line
variable {k : Nat} {c : Byte} {dev line rest : List Byte}

theorem firstLine_prefix_dev (k : Nat) (dev : List Byte) : firstLine k dev <+: dev := by
  induction k generalizing dev with
  | zero => exact nil_prefix
  | succ k ih =>
    cases dev with
    | nil => exact nil_prefix
    | cons c dev =>
      rw [firstLine]
      by_cases hc : c = chr '\n'
      · rw [if_pos hc]
        exact ⟨dev, rfl⟩
      · rw [if_neg hc, cons_prefix_cons]
        exact ⟨rfl, ih dev⟩

theorem length_firstLine_le (k : Nat) (dev : List Byte) : (firstLine k dev).length ≤ k := by
  induction k generalizing dev with
  | zero => exact Nat.le_refl 0
  | succ k ih =>
    cases dev with
    | nil => exact Nat.zero_le _
    | cons c dev =>
      rw [firstLine]
      by_cases hc : c = chr '\n'
      · rw [if_pos hc]
        exact Nat.succ_le_succ (Nat.zero_le k)
      · rw [if_neg hc]
        exact Nat.succ_le_succ (ih dev)

theorem firstLine_ne_nil (hk : 0 < k) (hdev : dev ≠ []) : firstLine k dev ≠ [] := by
  obtain ⟨k, rfl⟩ := Nat.exists_eq_succ_of_ne_zero (Nat.ne_of_gt hk)
  obtain ⟨c, dev, rfl⟩ := exists_cons_of_ne_nil hdev
  rw [firstLine]
  by_cases hc : c = chr '\n'
  · rw [if_pos hc]
    exact cons_ne_nil c []
  · rw [if_neg hc]
    exact cons_ne_nil c _

/-- A character that is no newline goes in front of a line. -/
theorem isLine_cons (hc : c ≠ chr '\n') (h : IsLine k line rest) :
    IsLine (k + 1) (c :: line) rest where
  ne_nil := cons_ne_nil c line
  length_le := Nat.succ_le_succ h.length_le
  newline := by
    rw [dropLast_cons_of_ne_nil h.ne_nil, mem_cons, not_or]
    exact ⟨Ne.symm hc, h.newline⟩
  ends := by
    rcases h.ends with hlast | hlen | hrest
    · left
      rw [getLast?_cons, hlast]
      rfl
    · exact Or.inr (Or.inl (congrArg (· + 1) hlen))
    · exact Or.inr (Or.inr hrest)

/-- A single character is a line where it has to end. -/
theorem isLine_singleton (hk : 0 < k) (h : c = chr '\n' ∨ k = 1 ∨ rest = []) :
    IsLine k [c] rest where
  ne_nil := cons_ne_nil c []
  length_le := hk
  newline := not_mem_nil
  ends := by
    rcases h with rfl | rfl | rfl
    · exact Or.inl rfl
    · exact Or.inr (Or.inl rfl)
    · exact Or.inr (Or.inr rfl)

theorem firstLine_isLine (hk : 0 < k) (hdev : dev ≠ []) :
    IsLine k (firstLine k dev) (dev.drop (firstLine k dev).length) := by
  obtain ⟨k, rfl⟩ := Nat.exists_eq_succ_of_ne_zero (Nat.ne_of_gt hk)
  induction k generalizing dev with
  | zero =>
    obtain ⟨c, dev, rfl⟩ := exists_cons_of_ne_nil hdev
    have hline : firstLine 1 (c :: dev) = [c] := by
      rw [firstLine, firstLine, ite_self]
    rw [hline]
    exact isLine_singleton hk (Or.inr (Or.inl rfl))
  | succ k ih =>
    obtain ⟨c, dev, rfl⟩ := exists_cons_of_ne_nil hdev
    rw [firstLine]
    by_cases hc : c = chr '\n'
    · rw [if_pos hc]
      exact isLine_singleton hk (Or.inl hc)
    · rw [if_neg hc, length_cons, drop_succ_cons]
      by_cases hend : dev = []
      · -- The stream ends without a newline.
        rw [hend]
        exact isLine_singleton hk (Or.inr (Or.inr rfl))
      · exact isLine_cons hc (ih hend (Nat.succ_pos k))

end Line

/-! ### One call -/

section Call
variable {s : Ulong64} {n : BitVec 32} {m : Bytes} {c : Byte} {dev : List Byte} {k : Nat}
  {st : LineState}

/-- A character is kept as an `int`, which is never `EOF`. -/
theorem toNat_ne_EOF (c : Byte) : (c.toNat : Int) ≠ EOF := by
  rw [EOF]
  omega

theorem ofInt_toNat (c : Byte) : BitVec.ofInt 8 (c.toNat : Int) = c := by
  rw [BitVec.ofInt_natCast, BitVec.ofNat_toNat, BitVec.setWidth_eq]

theorem fgetc_cons : fgetc (c :: dev) = ((c.toNat : Int), dev) := by
  have hc : ¬((c.toNat : Int) = -1 ∨ (c.toNat : Int) = EOF) :=
    not_or.mpr ⟨by omega, toNat_ne_EOF c⟩
  show (if (c.toNat : Int) = -1 ∨ (c.toNat : Int) = EOF then (EOF, dev)
    else (((BitVec.ofInt 8 (c.toNat : Int)).toNat : Int), dev)) = _
  rw [if_neg hc, ofInt_toNat]

theorem fgetsLoop_nil (hdev : st.dev = []) :
    fgetsLoop (k + 1) st = .ok { st with c := EOF, dev := [] } := by
  rw [fgetsLoop, hdev]
  rfl

/-- One round of the loop stores one character. -/
theorem fgetsLoop_cons (hdev : st.dev = c :: dev) (h : Mapped st.m st.cs (k + 1)) :
    fgetsLoop (k + 1) st =
      (if c = chr '\n' then
        .ok ⟨c.toNat, st.cs + 1, update st.m st.cs (some c), dev⟩
      else fgetsLoop k ⟨c.toNat, st.cs + 1, update st.m st.cs (some c), dev⟩) := by
  obtain ⟨-, -, hstore, -⟩ := Strings.store_of_mapped (b := c) h
  have hnewline : ((chr '\n').toNat : Int) = c.toNat ↔ c = chr '\n' := by
    rw [Int.natCast_inj, BitVec.toNat_inj, eq_comm]
  rw [fgetsLoop, hdev, fgetc_cons]
  simp only [if_pos (toNat_ne_EOF c), ofInt_toNat, hstore, ok_bind, hnewline]
  rfl

/-- The loop stores the first line. -/
theorem fgetsLoop_eq : ∀ {k : Nat} {st : LineState}, k ≤ 2 ^ 64 → Mapped st.m st.cs k →
    ∃ c, fgetsLoop k st = .ok ⟨c, st.cs + BitVec.ofNat 64 (firstLine k st.dev).length,
      overlay st.cs (firstLine k st.dev) st.m, st.dev.drop (firstLine k st.dev).length⟩ := by
  intro k
  induction k with
  | zero =>
    intro st _ _
    have hcs : st.cs + BitVec.ofNat 64 (firstLine 0 st.dev).length = st.cs :=
      BitVec.add_zero st.cs
    rw [hcs]
    exact ⟨st.c, rfl⟩
  | succ k ih =>
    intro st hk h
    cases hdev : st.dev with
    | nil =>
      have hcs : st.cs + BitVec.ofNat 64 (firstLine (k + 1) []).length = st.cs :=
        BitVec.add_zero st.cs
      rw [hcs]
      exact ⟨EOF, fgetsLoop_nil hdev⟩
    | cons c dev =>
      obtain ⟨d, hd, -, hrest⟩ := Strings.store_of_mapped (b := c) h
      rw [fgetsLoop_cons hdev h, firstLine]
      by_cases hc : c = chr '\n'
      · have hone : [c].length ≤ 2 ^ 64 := Nat.le_trans (Nat.succ_le_succ (Nat.zero_le k)) hk
        refine ⟨c.toNat, ?_⟩
        rw [if_pos hc, if_pos hc, overlay_cons hone hd]
        rfl
      · obtain ⟨c', hloop⟩ := @ih ⟨c.toNat, st.cs + 1,
          update st.m st.cs (some c), dev⟩ (Nat.le_of_succ_le hk) hrest
        have hlen : (c :: firstLine k dev).length ≤ 2 ^ 64 :=
          Nat.le_trans (Nat.succ_le_succ (length_firstLine_le k dev)) hk
        refine ⟨c', ?_⟩
        rw [if_neg hc, if_neg hc, hloop, overlay_cons hlen hd, add_one_add_ofNat, length_cons,
          drop_succ_cons]

/-- The number of rounds, and the bytes of the buffer. -/
theorem toNat_eq_rounds (hn : 2 ≤ n.toInt) :
    n.toNat = (n.toInt - 1).toNat + 1 ∧ 0 < (n.toInt - 1).toNat ∧ n.toNat ≤ 2 ^ 64 := by
  have hlt := n.isLt
  rw [BitVec.toInt_eq_toNat_cond] at hn ⊢
  split at hn <;> omega

theorem add_ofNat_ne_self {j : Nat} (hpos : 0 < j) (hlt : j < 2 ^ 64) :
    s + BitVec.ofNat 64 j ≠ s := by
  intro heq
  have hzero := toNat_ofNat_add_sub (a := s) hlt
  rw [heq, BitVec.sub_self] at hzero
  exact absurd hzero (Nat.ne_of_lt hpos)

/-- A device at its end gives `NULL`. -/
theorem fgets_nil (hn : 2 ≤ n.toInt) : fgets s n m [] = .ok (none, m, []) := by
  obtain ⟨-, hpos, -⟩ := toNat_eq_rounds hn
  obtain ⟨k, hk⟩ := Nat.exists_eq_succ_of_ne_zero (Nat.ne_of_gt hpos)
  rw [fgets, hk, fgetsLoop_nil rfl, ok_bind]
  exact if_pos ⟨rfl, rfl⟩

/-- A call stores the first line with a `NUL` after it. -/
theorem fgets_eq (hn : 2 ≤ n.toInt) (hm : Mapped m s n.toNat) (hdev : dev ≠ []) :
    ∃ line rest, dev = line ++ rest ∧ IsLine (n.toNat - 1) line rest ∧
      fgets s n m dev = .ok (some s, overlay s (line ++ [0]) m, rest) := by
  obtain ⟨hrounds, hpos, hle⟩ := toNat_eq_rounds hn
  generalize hk : (n.toInt - 1).toNat = k at hrounds hpos
  rw [hrounds] at hm hle
  obtain ⟨c, hloop⟩ := @fgetsLoop_eq k ⟨EOF, s, m, dev⟩ (Nat.le_of_succ_le hle)
    (hm.mono (Nat.le_succ k))
  have hsplit := prefix_iff_eq_append.mp (firstLine_prefix_dev k dev)
  refine ⟨firstLine k dev, dev.drop (firstLine k dev).length, hsplit.symm, ?_, ?_⟩
  · rw [hrounds, Nat.add_sub_cancel]
    exact firstLine_isLine hpos hdev
  · have hlen := length_firstLine_le k dev
    have hlt : (firstLine k dev).length < 2 ^ 64 := Nat.lt_of_le_of_lt hlen hle
    -- `cs` has moved, so the test for `NULL` fails also where the loop ended with `EOF`.
    have hmoved : s + BitVec.ofNat 64 (firstLine k dev).length ≠ s :=
      add_ofNat_ne_self (length_pos_of_ne_nil (firstLine_ne_nil hpos hdev)) hlt
    -- The `NUL` goes to the byte after the line, which is mapped and not part of it.
    obtain ⟨l, hl, hholds⟩ := hm
    have hend := hholds.get (n := (firstLine k dev).length) (by omega)
    have hnul : (firstLine k dev ++ [(0 : Byte)]).length ≤ 2 ^ 64 := by
      rw [length_append]
      exact hlt
    have hkept : overlay s (firstLine k dev) m (s + BitVec.ofNat 64 (firstLine k dev).length) = _ :=
      overlay_of_le (Nat.le_of_eq (toNat_ofNat_add_sub hlt).symm)
    rw [fgets, hk, hloop, ok_bind, if_neg (fun h => hmoved h.2),
      Qsort.store_of_eq (hkept.trans hend), ok_bind, update_overlay_append hnul hend]
    rfl

end Call

/-! ### All calls -/

section Calls
variable {s : Ulong64} {n : BitVec 32} {m : Bytes} {dev : List Byte}

/-- Each call takes the next line. -/
theorem getLines_spec (hn : 2 ≤ n.toInt) : ∀ {fuel : Nat} {m : Bytes} {dev : List Byte},
    Mapped m s n.toNat → dev.length < fuel →
    ∃ lines : List (List Byte),
      getLines s n fuel m dev =
        .ok ((stored s m lines).map (s, ·), (stored s m lines).getLastD m) ∧
      lines.flatten = dev ∧
      ∀ before line after, lines = before ++ line :: after →
        IsLine (n.toNat - 1) line after.flatten := by
  intro fuel
  induction fuel with
  | zero =>
    intro m dev _ hfuel
    exact absurd hfuel (Nat.not_lt_zero _)
  | succ fuel ih =>
    intro m dev hm hfuel
    by_cases hdev : dev = []
    · refine ⟨[], ?_, hdev.symm, ?_⟩
      · rw [getLines, hdev, fgets_nil hn]
        rfl
      · intro before line after h
        exact absurd h.symm (append_ne_nil_of_right_ne_nil _ (cons_ne_nil _ _))
    · obtain ⟨line, rest, hsplit, hline, hcall⟩ := fgets_eq hn hm hdev
      -- A line has at least one character, so each call leaves less of the stream.
      have hshorter : rest.length < fuel := by
        have hpos := length_pos_of_ne_nil hline.ne_nil
        rw [hsplit, length_append] at hfuel
        omega
      have hm' : Mapped (overlay s (line ++ [0]) m) s n.toNat := Mapped.overlay hm
      obtain ⟨lines, hlines, hflatten, hall⟩ := ih hm' hshorter
      refine ⟨line :: lines, ?_, ?_, ?_⟩
      · rw [getLines, hcall, ok_bind]
        simp only [hlines, ok_bind]
        rw [stored, map_cons, getLastD_cons]
        rfl
      · rw [flatten_cons, hflatten, hsplit]
      · intro before line' after h
        cases before with
        | nil =>
          obtain ⟨rfl, rfl⟩ := List.cons.inj h
          rw [hflatten]
          exact hline
        | cons b before => exact hall before line' after (List.cons.inj h).2

/-- The calls up to the first `NULL` return the stream line by line. Each
stores its line, which is a C string, and the `NUL`, and these are not more
than `n` bytes. The last call stores nothing. -/
theorem getLines_eq (s : Ulong64) (n : BitVec 32) (m : Bytes) (dev : List Byte)
    (hn : 2 ≤ n.toInt) (hm : Mapped m s n.toNat) (hdev : ∀ c ∈ dev, c ≠ 0) :
    ∃ lines : List (List Byte),
      getLines s n (dev.length + 1) m dev =
        .ok ((stored s m lines).map (s, ·), (stored s m lines).getLastD m) ∧
      lines.flatten = dev ∧
      (∀ line ∈ lines, (line ++ [(0 : Byte)]).length ≤ n.toNat ∧ ∀ c ∈ line, c ≠ 0) ∧
      ∀ before line after, lines = before ++ line :: after →
        IsLine (n.toNat - 1) line after.flatten := by
  obtain ⟨lines, hlines, hflatten, hall⟩ := getLines_spec hn hm (Nat.lt_succ_self dev.length)
  refine ⟨lines, hlines, hflatten, ?_, hall⟩
  intro line hline
  obtain ⟨before, after, hsplit⟩ := append_of_mem hline
  have hle := (hall before line after hsplit).length_le
  obtain ⟨hrounds, -, -⟩ := toNat_eq_rounds hn
  constructor
  · rw [length_append, length_singleton]
    omega
  · intro c hc
    refine hdev c ?_
    rw [← hflatten]
    exact mem_flatten_of_mem hline hc

/-- Three characters and a newline through a buffer of three bytes. -/
theorem getLines_three : ∃ lines : List (List Byte),
    getLines 0x1000 3 5 (Lib.place 0x1000 [0, 0, 0]) (literal ['a', 'b', 'c', '\n']) =
      .ok ((stored 0x1000 (Lib.place 0x1000 [0, 0, 0]) lines).map (0x1000, ·),
        (stored 0x1000 (Lib.place 0x1000 [0, 0, 0]) lines).getLastD (Lib.place 0x1000 [0, 0, 0])) ∧
    lines.flatten = literal ['a', 'b', 'c', '\n'] := by
  obtain ⟨lines, hlines, hflatten, -⟩ := getLines_eq 0x1000 3 (Lib.place 0x1000 [0, 0, 0])
    (literal ['a', 'b', 'c', '\n']) (by decide) ⟨[0, 0, 0], rfl, by decide⟩ (by decide)
  exact ⟨lines, hlines, hflatten⟩

end Calls

end Xinu.Stdio
