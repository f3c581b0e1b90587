import Xinu.Proofs.Config.Parse

/-!
# `Xinu.Proofs.Config.Emit`: lines and numbers

The line for a device pads its name to twelve characters and puts the
number directly behind it. A longer name runs into the number, and the
line defines another name (`define?_deviceLine_of_le`).

The loop over the devices numbers those of each type from zero, and leaves
their number in the symbol of the type (`defineDevs_eq`).
-/

namespace Xinu.Config

open Lib List

/-! ### Words -/

/-- A text that is one word of a line. -/
def IsWord (w : List Char) : Prop := w ≠ [] ∧ ∀ c ∈ w, c ≠ ' ' ∧ c ≠ '/'

theorem IsWord.append {v w : List Char} (hv : IsWord v) (hw : IsWord w) : IsWord (v ++ w) :=
  ⟨by simp [hv.1], fun c hc => (mem_append.mp hc).elim (hv.2 c) (hw.2 c)⟩

theorem isWord_decimal (n : Nat) : IsWord (decimal n) := by
  refine ⟨Nat.toDigits_ne_nil, fun c hc => ?_⟩
  have hdigit := Nat.isDigit_of_mem_toDigits (by decide) (by decide) hc
  constructor <;> rintro rfl <;> cases hdigit

theorem isIdentChar_ne {c : Char} (h : isIdentChar c = true) : c ≠ ' ' ∧ c ≠ '/' := by
  constructor <;> rintro rfl <;> cases h

theorem Ident.forall_name (id : Ident) : ∀ c ∈ id.name, isIdentChar c = true := by
  intro c hc
  have hvalid := id.valid
  obtain ⟨c0, l, htext⟩ : ∃ c0 l, id.text = c0 :: l := by
    cases htext : id.text with
    | nil =>
      rw [htext] at hvalid
      cases hvalid
    | cons c0 l => exact ⟨c0, l, rfl⟩
  have hmem := mem_of_mem_take hc
  rw [htext, isIdent, Bool.and_eq_true] at hvalid
  rw [htext] at hmem
  rcases mem_cons.mp hmem with rfl | hmem
  · have h := hvalid.1
    simp only [isIdentChar, Char.isAlphanum, Bool.or_eq_true] at h ⊢
    tauto
  · exact all_eq_true.mp hvalid.2 c hmem

theorem Ident.name_ne_nil (id : Ident) : id.name ≠ [] := by
  intro h
  have hvalid := id.valid
  rcases take_eq_nil_iff.mp h with h | h
  · exact absurd h (by decide)
  · rw [h] at hvalid
    cases hvalid

theorem Ident.isWord_name (id : Ident) : IsWord id.name :=
  ⟨id.name_ne_nil, fun c hc => isIdentChar_ne (id.forall_name c hc)⟩

theorem toUpper_ne {c : Char} (h : c ≠ ' ' ∧ c ≠ '/') : c.toUpper ≠ ' ' ∧ c.toUpper ≠ '/' := by
  unfold Char.toUpper
  split
  next hlower =>
    have h97 : 97 ≤ c.val.toNat := UInt32.le_iff_toNat_le.mp hlower.1
    have h122 : c.val.toNat ≤ 122 := UInt32.le_iff_toNat_le.mp hlower.2
    have hval : (c.val + ('A'.val - 'a'.val)).toNat = c.val.toNat - 32 := by
      rw [UInt32.toNat_add, show ('A'.val - 'a'.val).toNat = 2 ^ 32 - 32 from rfl]
      omega
    constructor <;> intro heq
    · have hblank : ' '.val.toNat = 32 := rfl
      rw [← heq, hval] at hblank
      omega
    · have hslash : '/'.val.toNat = 47 := rfl
      rw [← heq, hval] at hslash
      omega
  next => exact h

theorem isWord_sizeName {t : List Char} (ht : IsWord t) : IsWord (sizeName t) := by
  refine ⟨cons_ne_nil _ _, fun c hc => ?_⟩
  rcases mem_cons.mp hc with rfl | hc
  · decide
  · obtain ⟨c0, hc0, rfl⟩ := mem_map.mp hc
    exact toUpper_ne (ht.2 c0 hc0)

/-- The next word of a line, after any number of blanks. -/
theorem word_eq {w : List Char} (hw : IsWord w) (k : Nat) {rest : List Char}
    (hrest : ∀ c ∈ rest.head?, c = ' ') :
    word (List.replicate k ' ' ++ (w ++ rest)) = (w, rest) := by
  have hblank : ∀ c ∈ List.replicate k ' ', decide (c = ' ') = true := fun c hc =>
    decide_eq_true (eq_of_mem_replicate hc)
  have hdrop : (List.replicate k ' ' ++ (w ++ rest)).dropWhile (· = ' ') = w ++ rest := by
    rw [dropWhile_append_of_pos hblank]
    obtain ⟨c, w, rfl⟩ := exists_cons_of_ne_nil hw.1
    exact dropWhile_cons_of_neg (by simpa using (hw.2 c mem_cons_self).1)
  have hword : ∀ c ∈ w, decide (c ≠ ' ') = true := fun c hc => decide_eq_true (hw.2 c hc).1
  rw [word, hdrop, takeWhile_append_of_pos hword, dropWhile_append_of_pos hword]
  cases rest with
  | nil => simp
  | cons c l =>
    obtain rfl : c = ' ' := hrest c rfl
    simp

theorem head?_replicate {k : Nat} (l : List Char) (hk : 0 < k) :
    ∀ c ∈ (List.replicate k ' ' ++ l).head?, c = ' ' := by
  obtain ⟨k, rfl⟩ := Nat.exists_eq_succ_of_ne_zero hk.ne'
  simp [replicate_succ]

/-! ### Lines -/

/-- A comment or nothing. -/
def IsComment (l : List Char) : Prop := l = [] ∨ ∃ r, l = '/' :: r

theorem takeWhile_comment {l comment : List Char} (hl : ∀ c ∈ l, c ≠ '/')
    (hc : IsComment comment) : (l ++ comment).takeWhile (· ≠ '/') = l := by
  rw [takeWhile_append_of_pos fun c hcl => decide_eq_true (hl c hcl)]
  rcases hc with rfl | ⟨r, rfl⟩
  · simp
  · simp

/-- A line defines the word after the directive, as the next one. -/
theorem define?_line {name rest comment : List Char} (hname : IsWord name)
    (hrest : ∀ c ∈ rest.head?, c = ' ') (hslash : ∀ c ∈ rest, c ≠ '/')
    (hc : IsComment comment) :
    define? ("#define ".toList ++ (name ++ (rest ++ comment))) = some (name, (word rest).1) := by
  have hline : ("#define ".toList ++ (name ++ (rest ++ comment))).takeWhile (· ≠ '/') =
      "#define ".toList ++ (name ++ rest) := by
    rw [← append_assoc, ← append_assoc, ← append_assoc]
    refine takeWhile_comment ?_ hc
    simp only [forall_mem_append]
    exact ⟨⟨by simp, fun c h => (hname.2 c h).2⟩, hslash⟩
  have hdirective : word ("#define ".toList ++ (name ++ rest)) =
      ("#define".toList, ' ' :: (name ++ rest)) := by
    rw [show "#define ".toList = "#define".toList ++ [' '] by decide, append_assoc]
    have hw : IsWord "#define".toList := ⟨by decide, by simp⟩
    have hblank : ∀ c ∈ (' ' :: (name ++ rest)).head?, c = ' ' := by simp
    generalize "#define".toList = directive at hw
    exact word_eq hw 0 hblank
  have hword : word (' ' :: (name ++ rest)) = (name, rest) := word_eq hname 1 hrest
  simp only [define?, hline, hdirective, hword, if_true]

theorem replicate_ne_slash (k : Nat) : ∀ c ∈ List.replicate k ' ', c ≠ '/' := by
  intro c hc
  rw [eq_of_mem_replicate hc]
  decide

/-- A line with blanks and a number after the name. -/
theorem define?_number {name comment : List Char} (hname : IsWord name) {k : Nat} (hk : 0 < k)
    (n m : Nat) (hc : IsComment comment) :
    define? ("#define ".toList ++ (name ++ ((List.replicate k ' ' ++ (decimal n ++
      List.replicate m ' ')) ++ comment))) = some (name, decimal n) := by
  have hend : ∀ c ∈ (List.replicate m ' ').head?, c = ' ' := by
    intro c hc
    exact eq_of_mem_replicate (mem_of_mem_head? hc)
  rw [define?_line hname (head?_replicate _ hk) ?_ hc, word_eq (isWord_decimal n) k hend]
  simp only [forall_mem_append]
  exact ⟨replicate_ne_slash _, fun c h => ((isWord_decimal n).2 c h).2, replicate_ne_slash _⟩

/-- The text behind the number of a device. -/
theorem comment_eq : "       /* type ".toList = List.replicate 7 ' ' ++
    '/' :: "* type ".toList := by
  decide

/-- The line of a device with a short name defines it as its number. -/
theorem define?_deviceLine {name : List Char} (hname : IsWord name) (hlen : name.length < 12)
    (i : Nat) (tname : List Char) : define? (deviceLine name i tname) = some (name, decimal i) := by
  have hline : deviceLine name i tname = "#define ".toList ++ (name ++
      ((List.replicate (12 - name.length) ' ' ++ (decimal i ++ List.replicate 7 ' ')) ++
        '/' :: ("* type ".toList ++ (padded 8 tname ++ " */".toList)))) := by
    have htext := comment_eq
    unfold deviceLine padded
    generalize "#define ".toList = directive, "       /* type ".toList = text,
      "* type ".toList = text', " */".toList = close at htext ⊢
    simp only [htext, append_assoc, cons_append]
  rw [hline]
  exact define?_number hname (by omega) i 7 (Or.inr ⟨_, rfl⟩)

/-- With a longer name, the number becomes part of the name. -/
theorem define?_deviceLine_of_le {name : List Char} (hname : IsWord name)
    (hlen : 12 ≤ name.length) (i : Nat) (tname : List Char) :
    define? (deviceLine name i tname) = some (name ++ decimal i, []) := by
  have hline : deviceLine name i tname = "#define ".toList ++ ((name ++ decimal i) ++
      (List.replicate 7 ' ' ++ '/' :: ("* type ".toList ++ (padded 8 tname ++ " */".toList)))) := by
    have htext := comment_eq
    have hpad := Nat.sub_eq_zero_of_le hlen
    unfold deviceLine padded
    generalize "#define ".toList = directive, "       /* type ".toList = text,
      "* type ".toList = text', " */".toList = close at htext ⊢
    simp only [htext, hpad, append_assoc, cons_append, replicate_zero, nil_append]
  rw [hline, define?_line (hname.append (isWord_decimal i)) (by simp) (replicate_ne_slash 7)
    (Or.inr ⟨_, rfl⟩)]
  rfl

theorem define?_sizeLine {e : SymEnt} (hname : IsWord e.name) :
    define? (sizeLine e) = some (sizeName e.name, decimal e.occurs) := by
  have hline : sizeLine e = "#define ".toList ++ (sizeName e.name ++
      ((List.replicate 1 ' ' ++ (decimal e.occurs ++ List.replicate 0 ' ')) ++ [])) := by
    have htext : "#define N".toList = "#define ".toList ++ ['N'] := by decide
    unfold sizeLine sizeName
    generalize "#define N".toList = text, "#define ".toList = directive at htext ⊢
    simp [htext]
  rw [hline]
  exact define?_number (isWord_sizeName hname) Nat.one_pos e.occurs 0 (Or.inl rfl)

theorem define?_ndevs (n : Nat) :
    define? ("#define NDEVS ".toList ++ decimal n) = some ("NDEVS".toList, decimal n) := by
  have hline : "#define NDEVS ".toList ++ decimal n = "#define ".toList ++ ("NDEVS".toList ++
      ((List.replicate 1 ' ' ++ (decimal n ++ List.replicate 0 ' ')) ++ [])) := by
    have htext : "#define NDEVS ".toList = "#define ".toList ++ ("NDEVS".toList ++ [' ']) := by
      decide
    generalize "#define NDEVS ".toList = text, "#define ".toList = directive,
      "NDEVS".toList = name at htext ⊢
    simp [htext]
  rw [hline]
  exact define?_number ⟨by decide, by simp⟩ Nat.one_pos n 0 (Or.inl rfl)

/-! ### The loop over the devices -/

/-- The number of references to a symbol so far. -/
def occursOf (symtab : List SymEnt) (i : Nat) : Nat := (symtab[i]?.map SymEnt.occurs).getD 0

theorem symName_bumpOccurs (symtab : List SymEnt) (k : Nat) :
    symName (bumpOccurs symtab k) = symName symtab := by
  funext i
  rw [symName, symName, bumpOccurs, getElem?_modify]
  cases symtab[i]? with
  | none => rfl
  | some e => by_cases hk : k = i <;> simp [hk]

theorem occursOf_bumpOccurs {symtab : List SymEnt} {k : Nat} (hk : k < symtab.length) :
    occursOf (bumpOccurs symtab k) =
      Function.update (occursOf symtab) k (occursOf symtab k + 1) := by
  funext i
  rw [occursOf, bumpOccurs, getElem?_modify]
  by_cases hi : k = i
  · subst hi
    simp [occursOf, hk]
  · simp [occursOf, hi, Ne.symm hi]

/-- The loop writes the lines in order, numbers the devices of each type,
and leaves their number in the symbol of the type. -/
theorem defineDevs_eq (i : Nat) (symtab : List SymEnt) {devs : List DevEnt}
    (hdevs : ∀ s ∈ devs, s.tnum < symtab.length) :
    defineDevs i symtab devs =
      (devs.mapIdx fun j s => deviceLine ((s.name.map (symName symtab)).getD []) (i + j)
        (symName symtab s.tnum),
      List.zipWith (fun s m => { s with minor := m }) devs
        (number (occursOf symtab) (devs.map DevEnt.tnum)),
      symtab.mapIdx fun t e => { e with occurs := e.occurs + (devs.map DevEnt.tnum).count t }) := by
  induction devs generalizing i symtab with
  | nil =>
    have hsame : (symtab.mapIdx fun t e =>
        { e with occurs := e.occurs + ([].map DevEnt.tnum).count t }) = symtab :=
      mapIdx_eq_iff.mpr fun t => by cases symtab[t]? <;> rfl
    rw [hsame]
    rfl
  | cons s devs ih =>
    have hs := hdevs s mem_cons_self
    have hlen : (bumpOccurs symtab s.tnum).length = symtab.length := by simp [bumpOccurs]
    rw [defineDevs, ih (i + 1) (bumpOccurs symtab s.tnum) fun s' hs' =>
      hlen ▸ hdevs s' (mem_cons_of_mem _ hs')]
    rw [mapIdx_cons, map_cons, number, zipWith_cons_cons, occursOf_bumpOccurs hs,
      symName_bumpOccurs]
    -- The minor number of `s` is the counter before it is bumped.
    refine Prod.ext ?_ (Prod.ext rfl ?_)
    · simp only [Nat.add_zero, Nat.add_assoc, Nat.add_comm 1]
    · refine ext_getElem? fun t => ?_
      rw [getElem?_mapIdx, getElem?_mapIdx, bumpOccurs, getElem?_modify]
      cases symtab[t]? with
      | none => rfl
      | some e =>
        by_cases ht : s.tnum = t
        · simp [ht]
          omega
        · simp [ht, count_cons_of_ne ht]

end Xinu.Config
