import Xinu.Proofs.Scan.Read

/-!
# `Xinu.Proofs.Scan.Format`: putting stars into a format

`suppress` puts a `*` into chosen conversions of a format. The directives
of the new format are the old ones with the chosen conversions starred
(`directives_suppress`), because a conversion specification can be read
without what follows it (`parseConversion_append`).
-/

namespace Xinu

open List

variable {f g : List Byte} {spec : Spec}

/-! ### Reading a specification without what follows -/

/-- The digits end at a character that is none. -/
theorem parseMaxlen_append {c : Byte} {v : Uint} (hg : g.head? = some c) :
    ∀ {m : Uint}, parseMaxlen m f = (v, g) →
    ∃ text, f = text ++ g ∧ ∀ g', g'.head? = some c → parseMaxlen m (text ++ g') = (v, g') := by
  induction f with
  | nil =>
    intro m h
    obtain ⟨-, rfl⟩ := Prod.mk.inj h
    cases hg
  | cons d f ih =>
    intro m h
    rw [parseMaxlen] at h
    split at h
    next hd =>
      obtain ⟨text, rfl, htext⟩ := ih h
      refine ⟨d :: text, rfl, fun g' hg' => ?_⟩
      rw [cons_append, parseMaxlen, if_pos hd]
      exact htext g' hg'
    next hd =>
      obtain ⟨rfl, rfl⟩ := Prod.mk.inj h
      refine ⟨[], rfl, fun g' hg' => ?_⟩
      obtain ⟨g', rfl⟩ := head?_eq_some_iff.mp (hg'.trans hg.symm)
      rw [nil_append, parseMaxlen, if_neg hd]

theorem parseSize_append {c : Byte} {size : IntegerSize} (h : parseSize f = (size, c :: g)) :
    ∃ text, f = text ++ c :: g ∧ ∀ g', parseSize (text ++ c :: g') = (size, c :: g') := by
  cases f with
  | nil => cases h
  | cons d f =>
    by_cases hl : d = chr 'l'
    · have hsize : ∀ l, parseSize (d :: l) = (.long, l) := fun l => if_pos hl
      obtain ⟨rfl, rfl⟩ := Prod.mk.inj ((hsize f).symm.trans h)
      exact ⟨[d], rfl, fun g' => hsize _⟩
    by_cases hh : d = chr 'h'
    · have hsize : ∀ l, parseSize (d :: l) = (.short, l) := fun l =>
        (if_neg hl).trans (if_pos hh)
      obtain ⟨rfl, rfl⟩ := Prod.mk.inj ((hsize f).symm.trans h)
      exact ⟨[d], rfl, fun g' => hsize _⟩
    · have hsize : ∀ l, parseSize (d :: l) = (.regular, d :: l) := fun l =>
        (if_neg hl).trans (if_neg hh)
      obtain ⟨rfl, hcons⟩ := Prod.mk.inj ((hsize f).symm.trans h)
      obtain ⟨rfl, rfl⟩ := List.cons.inj hcons
      exact ⟨[], rfl, hsize⟩

/-- A set ends at its bracket, or with the format. -/
theorem stopcharLoop_append {fill : Bool} {tab' : Byte → Bool} :
    ∀ {first : Bool} {tab : Byte → Bool}, stopcharLoop fill first tab f = (tab', g) →
    ∃ text, f = text ++ g ∧ ∀ g', (g = [] → g' = []) →
      stopcharLoop fill first tab (text ++ g') = (tab', g') := by
  induction f with
  | nil =>
    intro first tab h
    obtain ⟨rfl, rfl⟩ := Prod.mk.inj h
    refine ⟨[], rfl, fun g' hg => ?_⟩
    rw [hg rfl]
    rfl
  | cons c f ih =>
    intro first tab h
    rw [stopcharLoop] at h
    split at h
    next hc =>
      obtain ⟨rfl, rfl⟩ := Prod.mk.inj h
      exact ⟨[c], rfl, fun g' _ => by rw [singleton_append, stopcharLoop, if_pos hc]⟩
    next hc =>
      obtain ⟨text, rfl, htext⟩ := ih h
      refine ⟨c :: text, rfl, fun g' hg => ?_⟩
      rw [cons_append, stopcharLoop, if_neg hc]
      exact htext g' hg

theorem buildStopcharTab_append {tab : Byte → Bool} (h : buildStopcharTab f = (tab, g)) :
    ∃ text, f = text ++ g ∧ ∀ g', (g = [] → g' = []) →
      buildStopcharTab (text ++ g') = (tab, g') := by
  cases f with
  | nil =>
    obtain ⟨rfl, rfl⟩ := Prod.mk.inj h
    refine ⟨[], rfl, fun g' hg => ?_⟩
    rw [hg rfl]
    rfl
  | cons c f =>
    by_cases hc : c = chr '^'
    · have hbuild : ∀ l, buildStopcharTab (c :: l) = stopcharLoop true true (fun _ => false) l :=
        fun l => if_pos hc
      rw [hbuild] at h
      obtain ⟨text, rfl, htext⟩ := stopcharLoop_append h
      exact ⟨c :: text, rfl, fun g' hg => (hbuild _).trans (htext g' hg)⟩
    · -- The first character is in the set, even if it is a bracket.
      have hbuild : ∀ l, buildStopcharTab (c :: l) =
          stopcharLoop false false (Function.update (fun _ => true) c false) l := by
        intro l
        refine (if_neg hc).trans ?_
        rw [stopcharLoop, if_neg (by simp)]
      rw [hbuild] at h
      obtain ⟨text, rfl, htext⟩ := stopcharLoop_append h
      exact ⟨c :: text, rfl, fun g' hg => (hbuild _).trans (htext g' hg)⟩

/-- A conversion specification can be read without what follows it. The
star is not part of it. -/
theorem parseConversion_append {star : Bool} (h : parseConversion star f = some (spec, g)) :
    ∃ text, text ≠ [] ∧ f = text ++ g ∧ ∀ star' g', (g = [] → g' = []) →
      parseConversion star' (text ++ g') = some ({ spec with star := star' }, g') := by
  unfold parseConversion at h
  simp only at h
  split at h
  · cases h
  next c f2 hf2 =>
    obtain ⟨text2, hf1, htext2⟩ := parseSize_append (Prod.ext rfl hf2 : parseSize _ = (_, c :: f2))
    -- The digits stop at the same character whatever follows the specification.
    obtain ⟨d, hd⟩ : ∃ d, ∀ l, (text2 ++ c :: l).head? = some d := by
      cases text2 with
      | nil => exact ⟨c, fun l => rfl⟩
      | cons d l => exact ⟨d, fun l => rfl⟩
    obtain ⟨text1, hf, htext1⟩ := parseMaxlen_append (hd f2) (Prod.ext rfl hf1)
    have hparse : ∀ star' l, parseConversion star' (text1 ++ (text2 ++ c :: l)) =
        if c = chr '[' then some (⟨star', if (parseMaxlen 0 f).1 = 0 then UNLIMITED_LENGTH
          else (parseMaxlen 0 f).1, (parseSize (parseMaxlen 0 f).2).1, c, (buildStopcharTab l).1⟩,
          (buildStopcharTab l).2)
        else if isupper c then some (⟨star', if (parseMaxlen 0 f).1 = 0 then UNLIMITED_LENGTH
          else (parseMaxlen 0 f).1, .long, tolower c, fun _ => false⟩, l)
        else some (⟨star', if (parseMaxlen 0 f).1 = 0 then UNLIMITED_LENGTH
          else (parseMaxlen 0 f).1, (parseSize (parseMaxlen 0 f).2).1, c, fun _ => false⟩, l) := by
      intro star' l
      unfold parseConversion
      simp only [htext1 _ (hd l), htext2 l]
    split at h
    next hc =>
      obtain ⟨rfl, rfl⟩ := Prod.mk.inj (Option.some.inj h)
      have hset : buildStopcharTab f2 = ((buildStopcharTab f2).1, (buildStopcharTab f2).2) := rfl
      obtain ⟨text3, hf3, htext3⟩ := buildStopcharTab_append hset
      refine ⟨text1 ++ (text2 ++ c :: text3), by simp, ?_, fun star' g' hg => ?_⟩
      · rw [hf, append_assoc, append_assoc, cons_append, ← hf3]
      · rw [append_assoc, append_assoc, cons_append, hparse, if_pos hc,
          htext3 g' hg]
    next hc =>
      split at h
      next hup =>
        obtain ⟨rfl, rfl⟩ := Prod.mk.inj (Option.some.inj h)
        refine ⟨text1 ++ (text2 ++ [c]), by simp, by simpa using hf, fun star' g' _ => ?_⟩
        rw [append_assoc, append_assoc, singleton_append, hparse, if_neg hc,
          if_pos hup]
      next hup =>
        obtain ⟨rfl, rfl⟩ := Prod.mk.inj (Option.some.inj h)
        refine ⟨text1 ++ (text2 ++ [c]), by simp, by simpa using hf, fun star' g' _ => ?_⟩
        rw [append_assoc, append_assoc, singleton_append, hparse, if_neg hc,
          if_neg hup]

theorem star_of_parseConversion {star : Bool}
    (h : parseConversion star f = some (spec, g)) : spec.star = star := by
  obtain ⟨text, -, rfl, htext⟩ := parseConversion_append h
  have heq := (Prod.mk.inj (Option.some.inj (h.symm.trans (htext star g id)))).1
  exact congrArg Spec.star heq

/-- The same for the specification with its star. -/
theorem parseSpec_append (h : parseSpec f = some (spec, g)) :
    ∃ text, text ≠ [] ∧ f = text ++ g ∧ ∀ g', (g = [] → g' = []) →
      parseSpec (text ++ g') = some (spec, g') ∧ (spec.star = false →
        parseSpec (chr '*' :: (text ++ g')) = some ({ spec with star := true }, g')) := by
  have hstarred : ∀ l, parseSpec (chr '*' :: l) = parseConversion true l := fun l => if_pos rfl
  cases f with
  | nil => cases h
  | cons c f =>
    by_cases hc : c = chr '*'
    · -- The star belongs to the text, and there is no room for a second one.
      subst hc
      rw [hstarred] at h
      obtain ⟨text, -, rfl, htext⟩ := parseConversion_append h
      have hstar := star_of_parseConversion h
      refine ⟨chr '*' :: text, cons_ne_nil _ _, rfl, fun g' hg => ⟨?_, fun hfalse => ?_⟩⟩
      · rw [cons_append, hstarred, htext true g' hg, ← hstar]
      · rw [hstar] at hfalse
        cases hfalse
    · have hplain : ∀ l, parseSpec (c :: l) = parseConversion false (c :: l) := fun l => if_neg hc
      rw [hplain] at h
      obtain ⟨text, hne, hf, htext⟩ := parseConversion_append h
      have hstar := star_of_parseConversion h
      obtain ⟨d, text, rfl⟩ := exists_cons_of_ne_nil hne
      obtain ⟨rfl, rfl⟩ := List.cons.inj hf
      refine ⟨c :: text, hne, rfl, fun g' hg => ⟨?_, fun _ => ?_⟩⟩
      · rw [cons_append, hplain]
        exact (htext false g' hg).trans (by rw [← hstar])
      · rw [hstarred]
        exact htext true g' hg

/-! ### Putting in the stars -/

/-- Put a `*` into the chosen conversions. A conversion is chosen by the
number of its argument. -/
def suppressLoop (choose : Nat → Bool) : Nat → Nat → List Byte → List Byte
  | 0, _, f => f
  | _ + 1, _, [] => []
  | fuel + 1, n, c :: f =>
    if c = chr '%' ∧ peek f ≠ chr '%' then
      match parseSpec f with
      | none => c :: f
      | some (spec, g) =>
        let text := f.take (f.length - g.length)
        if spec.star then c :: (text ++ suppressLoop choose fuel n g)
        else if choose n then c :: chr '*' :: (text ++ suppressLoop choose fuel (n + 1) g)
        else c :: (text ++ suppressLoop choose fuel (n + 1) g)
    else if c = chr '%' then c :: c :: suppressLoop choose fuel n f.tail
    else if isspace c then
      c :: (f.takeWhile isspace ++ suppressLoop choose fuel n (f.dropWhile isspace))
    else c :: suppressLoop choose fuel n f

/-- The directives with the chosen conversions starred. -/
def starChosen (choose : Nat → Bool) : Nat → List Directive → List Directive
  | _, [] => []
  | n, .conversion spec :: ds =>
    if spec.star then .conversion spec :: starChosen choose n ds
    else .conversion { spec with star := choose n } :: starChosen choose (n + 1) ds
  | n, d :: ds => d :: starChosen choose n ds

section Suppress
variable {choose : Nat → Bool}

/-- The stars come after the first character. -/
theorem head?_suppressLoop (fuel n : Nat) (f : List Byte) :
    (suppressLoop choose fuel n f).head? = f.head? := by
  cases fuel with
  | zero => rfl
  | succ fuel =>
    cases f with
    | nil => rfl
    | cons c f =>
      rw [suppressLoop]
      split
      · split
        · rfl
        · split
          · rfl
          · split <;> rfl
      · split
        · rfl
        · split <;> rfl

theorem dropWhile_takeWhile_append {p : Byte → Bool}
    (hg : g.head? = (f.dropWhile p).head?) : (f.takeWhile p ++ g).dropWhile p = g := by
  rw [dropWhile_append_of_pos fun c hc => mem_takeWhile_imp hc]
  cases g with
  | nil => rfl
  | cons c g =>
    have hc := head?_dropWhile_not p f
    rw [← hg] at hc
    exact dropWhile_cons_of_neg (by simpa using hc)

theorem suppressLoop_nil (fuel n : Nat) : suppressLoop choose fuel n [] = [] := by
  cases fuel <;> rfl

theorem directivesLoop_conversion {fuel : Nat} {c : Byte}
    (hc : c = chr '%' ∧ peek f ≠ chr '%') (hspec : parseSpec f = some (spec, g)) :
    directivesLoop (fuel + 1) (c :: f) = .conversion spec :: directivesLoop fuel g := by
  rw [directivesLoop, if_pos hc, hspec]

section Step
variable {fuel : Nat} (ih : ∀ {fuel' n : Nat} {f : List Byte}, f.length < fuel →
  (suppressLoop choose fuel n f).length < fuel' →
  directivesLoop fuel' (suppressLoop choose fuel n f) =
    starChosen choose n (directivesLoop fuel f))
  {fuel' n : Nat} {c : Byte} {f : List Byte} (h : f.length < fuel)
  (h' : (suppressLoop choose (fuel + 1) n (c :: f)).length < fuel' + 1)
include ih h h'

/-- At a conversion specification. The new one is read up to where the old
one ends. -/
theorem directivesLoop_suppress_spec {g : List Byte}
    (hconv : c = chr '%' ∧ peek f ≠ chr '%') (hspec : parseSpec f = some (spec, g)) :
    directivesLoop (fuel' + 1) (suppressLoop choose (fuel + 1) n (c :: f)) =
      starChosen choose n (directivesLoop (fuel + 1) (c :: f)) := by
  obtain ⟨text, hne, rfl, htext⟩ := parseSpec_append hspec
  have hlen := length_parseSpec hspec
  have htake : (text ++ g).take ((text ++ g).length - g.length) = text := by simp
  have hconv' : ∀ l, c = chr '%' ∧ peek (text ++ l) ≠ chr '%' := by
    obtain ⟨d, text, rfl⟩ := exists_cons_of_ne_nil hne
    exact fun l => hconv
  have hnil : ∀ n, g = [] → suppressLoop choose fuel n g = [] := by
    rintro n rfl
    exact suppressLoop_nil fuel n
  rw [directivesLoop_conversion hconv hspec, starChosen]
  rw [suppressLoop, if_pos hconv, hspec] at h' ⊢
  simp only [htake] at h' ⊢
  split at h'
  next hstar =>
    simp only [length_cons, length_append] at h'
    rw [if_pos hstar, if_pos hstar,
      directivesLoop_conversion (hconv' _) (htext _ (hnil n)).1, ih (by omega) (by omega)]
  next hstar =>
    have hstar' : spec.star = false := Bool.eq_false_iff.mpr hstar
    rw [if_neg hstar, if_neg hstar]
    split at h'
    next hchoose =>
      simp only [length_cons, length_append] at h'
      have hspec' := (htext _ (hnil (n + 1))).2 hstar'
      have hnot : ∀ l, peek (chr '*' :: l) ≠ chr '%' := fun l =>
        show chr '*' ≠ chr '%' by decide
      rw [if_pos hchoose, directivesLoop_conversion ⟨hconv.1, hnot _⟩ hspec',
        ih (by omega) (by omega), hchoose]
    next hchoose =>
      simp only [length_cons, length_append] at h'
      rw [if_neg hchoose, directivesLoop_conversion (hconv' _) (htext _ (hnil (n + 1))).1,
        ih (by omega) (by omega), Bool.eq_false_iff.mpr hchoose, ← hstar']

/-- At any other character. -/
theorem directivesLoop_suppress_char (hconv : ¬(c = chr '%' ∧ peek f ≠ chr '%')) :
    directivesLoop (fuel' + 1) (suppressLoop choose (fuel + 1) n (c :: f)) =
      starChosen choose n (directivesLoop (fuel + 1) (c :: f)) := by
  rw [directivesLoop, if_neg hconv]
  rw [suppressLoop, if_neg hconv] at h' ⊢
  by_cases hpercent : c = chr '%'
  · -- A literal percent sign.
    subst hpercent
    have hspace : isspace (chr '%') = false := by decide
    simp only [if_true, hspace, Bool.false_eq_true, if_false] at h' ⊢
    simp only [length_cons] at h'
    rw [directivesLoop, if_neg (by simp [peek])]
    simp only [if_true, hspace, Bool.false_eq_true, if_false, tail_cons]
    rw [starChosen, ih (by rw [length_tail]; omega) (by omega)]
    intro spec hspec
    cases hspec
  · have hconv' : ∀ l, ¬(c = chr '%' ∧ peek l ≠ chr '%') := fun l hl => hpercent hl.1
    simp only [if_neg hpercent] at h' ⊢
    split
    next hspace =>
      have hdrop := (dropWhile_suffix isspace (l := f)).length_le
      simp only [if_pos hspace, length_cons, length_append] at h'
      rw [directivesLoop, if_neg (hconv' _)]
      simp only [if_neg hpercent, if_pos hspace]
      rw [dropWhile_takeWhile_append (head?_suppressLoop ..), starChosen,
        ih (by omega) (by omega)]
      intro spec hspec
      cases hspec
    next hspace =>
      simp only [if_neg hspace, length_cons] at h'
      rw [directivesLoop, if_neg (hconv' _)]
      simp only [if_neg hpercent, if_neg hspace]
      rw [starChosen, ih (by omega) (by omega)]
      intro spec hspec
      cases hspec

end Step

/-- The directives of the new format. -/
theorem directivesLoop_suppressLoop : ∀ {fuel fuel' n : Nat} {f : List Byte}, f.length < fuel →
    (suppressLoop choose fuel n f).length < fuel' →
    directivesLoop fuel' (suppressLoop choose fuel n f) =
      starChosen choose n (directivesLoop fuel f) := by
  intro fuel
  induction fuel with
  | zero => exact fun h => absurd h (Nat.not_lt_zero _)
  | succ fuel ih =>
    intro fuel' n f h h'
    obtain ⟨fuel', rfl⟩ : ∃ k, fuel' = k + 1 := ⟨fuel' - 1, by omega⟩
    cases f with
    | nil => rfl
    | cons c f =>
      rw [length_cons] at h
      by_cases hconv : c = chr '%' ∧ peek f ≠ chr '%'
      · cases hspec : parseSpec f with
        | none =>
          have htrunc : ∀ k, directivesLoop (k + 1) (c :: f) = [.truncated] := by
            intro k
            rw [directivesLoop, if_pos hconv, hspec]
          rw [suppressLoop, if_pos hconv, hspec, htrunc, htrunc]
          rfl
        | some s => exact directivesLoop_suppress_spec ih (by omega) h' hconv hspec
      · exact directivesLoop_suppress_char ih (by omega) h' hconv

/-- The stars are all that is new. -/
theorem mem_suppressLoop {b : Byte} : ∀ {fuel n : Nat} {f : List Byte},
    b ∈ suppressLoop choose fuel n f → b ∈ f ∨ b = chr '*' := by
  intro fuel
  induction fuel with
  | zero => exact fun h => Or.inl h
  | succ fuel ih =>
    intro n f h
    cases f with
    | nil => cases h
    | cons c f =>
      -- A character of what is left of the format.
      have hrest : ∀ {n g}, b ∈ suppressLoop choose fuel n g → g ⊆ f → b ∈ c :: f ∨ b = chr '*' :=
        fun hb hg => (ih hb).imp_left fun hb => mem_cons_of_mem c (hg hb)
      rw [suppressLoop] at h
      split at h
      · split at h
        · exact Or.inl h
        next spec g hspec =>
          obtain ⟨text, -, rfl, -⟩ := parseSpec_append hspec
          have htake : (text ++ g).take ((text ++ g).length - g.length) = text := by simp
          have hsub : g ⊆ text ++ g := subset_append_right _ _
          have hmem : ∀ {n}, b ∈ text ++ suppressLoop choose fuel n g →
              b ∈ c :: (text ++ g) ∨ b = chr '*' := fun hb =>
            (mem_append.mp hb).elim
              (fun hb => Or.inl (mem_cons_of_mem c (mem_append_left g hb)))
              fun hb => hrest hb hsub
          rw [htake] at h
          split at h
          · exact (mem_cons.mp h).elim (fun hb => Or.inl (hb ▸ mem_cons_self)) hmem
          · split at h
            · rcases mem_cons.mp h with rfl | h
              · exact Or.inl mem_cons_self
              · exact (mem_cons.mp h).elim Or.inr hmem
            · exact (mem_cons.mp h).elim (fun hb => Or.inl (hb ▸ mem_cons_self)) hmem
      · split at h
        · rcases mem_cons.mp h with rfl | h
          · exact Or.inl mem_cons_self
          · exact (mem_cons.mp h).elim (fun hb => Or.inl (hb ▸ mem_cons_self))
              fun hb => hrest hb (tail_sublist f).subset
        · split at h
          · rcases mem_cons.mp h with rfl | h
            · exact Or.inl mem_cons_self
            · rcases mem_append.mp h with h | h
              · exact Or.inl (mem_cons_of_mem c ((takeWhile_subset isspace) h))
              · exact hrest h (dropWhile_suffix isspace).subset
          · exact (mem_cons.mp h).elim (fun hb => Or.inl (hb ▸ mem_cons_self))
              fun hb => hrest hb (List.Subset.refl f)

/-- The format with the chosen conversions replaced by their `*` forms. -/
def suppress (choose : Nat → Bool) (format : CString) : CString where
  bytes := suppressLoop choose (format.bytes.length + 1) 0 format.bytes
  nonzero b hb := (mem_suppressLoop hb).elim (format.nonzero b) fun h => h ▸ by decide

theorem directives_suppress (choose : Nat → Bool) (format : CString) :
    directives (suppress choose format) = starChosen choose 0 (directives format) :=
  directivesLoop_suppressLoop (Nat.lt_succ_self _) (Nat.lt_succ_self _)

end Suppress

end Xinu
