import Mathlib.Algebra.Order.Ring.Nat
import Mathlib.Data.List.Forall2
import Mathlib.Logic.Function.Basic

/-!
# `Xinu.Lib.Records`: lists of records

What a program does with lists of declarations: keep a second list in step
with the first, let the last value count, and number the members of each
class from zero.
-/

namespace Xinu.Lib

open Function List

/-! ### Lists in step -/

section Step
variable {α β : Type} {R : α → β → Prop} {l1 : List α} {l2 : List β} {a : α} {b : β}

theorem forall₂_concat (h : List.Forall₂ R l1 l2) (hab : R a b) :
    List.Forall₂ R (l1 ++ [a]) (l2 ++ [b]) :=
  rel_append h (.cons hab .nil)

theorem forall₂_concat_iff :
    List.Forall₂ R (l1 ++ [a]) (l2 ++ [b]) ↔ List.Forall₂ R l1 l2 ∧ R a b := by
  rw [← List.forall₂_reverse_iff, reverse_concat, reverse_concat, List.forall₂_cons,
    List.forall₂_reverse_iff]
  exact and_comm

/-- The first list has a last member when the second has one. -/
theorem exists_concat_of_forall₂ (h : List.Forall₂ R l1 (l2 ++ [b])) :
    ∃ l a, l1 = l ++ [a] ∧ List.Forall₂ R l l2 ∧ R a b := by
  rcases eq_nil_or_concat l1 with rfl | ⟨l, a, rfl⟩
  · exact absurd h.length_eq (by simp)
  · rw [concat_eq_append] at h ⊢
    exact ⟨l, a, rfl, forall₂_concat_iff.mp h⟩

variable (h : List.Forall₂ R l1 l2)
include h

/-- Two lists that are in step with a third are in step with each
other. -/
theorem forall₂_of_forall₂_of_forall₂ {γ : Type} {S : γ → β → Prop} {l3 : List γ}
    (h' : List.Forall₂ S l3 l2) :
    List.Forall₂ (fun c a => ∃ b, S c b ∧ R a b) l3 l1 := by
  induction h generalizing l3 with
  | nil =>
    cases h'
    exact .nil
  | cons hR _ ih =>
    obtain ⟨c, l, hS, hl, rfl⟩ := List.forall₂_cons_right_iff.mp h'
    exact .cons ⟨_, hS, hR⟩ (ih hl)

theorem mapIdx_eq_of_forall₂ {γ : Type} {f : Nat → α → γ} {g : Nat → β → γ}
    (hfg : ∀ i a b, R a b → f i a = g i b) :
    l1.mapIdx f = l2.mapIdx g := by
  induction h generalizing f g with
  | nil => rfl
  | cons hR _ ih =>
    rw [mapIdx_cons, mapIdx_cons, hfg 0 _ _ hR, ih fun i => hfg (i + 1)]

theorem map_eq_of_forall₂ {γ : Type} {f : α → γ} {g : β → γ}
    (hfg : ∀ a b, R a b → f a = g b) : l1.map f = l2.map g := by
  induction h with
  | nil => rfl
  | cons hR _ ih => rw [map_cons, map_cons, hfg _ _ hR, ih]

/-- A relation that only depends on the member of the first list. -/
theorem forall₂_mapIdx_iff {γ : Type} {f : Nat → β → γ} {S : α → γ → Prop} {P : α → Prop}
    (hf : ∀ i a b, R a b → (S a (f i b) ↔ P a)) :
    List.Forall₂ S l1 (l2.mapIdx f) ↔ ∀ a ∈ l1, P a := by
  induction h generalizing f with
  | nil => simp
  | cons hR _ ih =>
    rw [mapIdx_cons, List.forall₂_cons, hf 0 _ _ hR, ih fun i => hf (i + 1),
      forall_mem_cons]

/-- Equivalent tests find members that belong together. -/
theorem find?_of_forall₂ {p : α → Bool} {q : β → Bool}
    (hpq : ∀ a b, R a b → p a = q b) (ha : l1.find? p = some a) :
    ∃ b, l2.find? q = some b ∧ R a b := by
  induction h with
  | nil => cases ha
  | @cons a' b' l1 l2 hR _ ih =>
    rw [find?_cons] at ha ⊢
    rw [← hpq a' b' hR]
    cases hp : p a' with
    | true =>
      rw [hp] at ha
      exact ⟨b', rfl, Option.some.inj ha ▸ hR⟩
    | false =>
      rw [hp] at ha
      exact ih ha

end Step

/-! ### Members with their index -/

section Index
variable {α β γ : Type} {f : Nat → α → β} {l : List α}

theorem map_mapIdx (g : β → γ) (f : Nat → α → β) (l : List α) :
    (l.mapIdx f).map g = l.mapIdx fun i a => g (f i a) := by
  refine ext_getElem? fun i => ?_
  rw [getElem?_map, getElem?_mapIdx, getElem?_mapIdx, Option.map_map]
  rfl

theorem mapIdx_const (g : α → β) (l : List α) : (l.mapIdx fun _ a => g a) = l.map g := by
  refine ext_getElem? fun i => ?_
  rw [getElem?_map, getElem?_mapIdx]

theorem mapIdx_eq_mapIdx_iff_forall {g : Nat → α → β} {P : α → Prop}
    (hfg : ∀ i a, a ∈ l → (f i a = g i a ↔ P a)) : l.mapIdx f = l.mapIdx g ↔ ∀ a ∈ l, P a := by
  rw [mapIdx_eq_mapIdx_iff]
  constructor
  · intro h a ha
    obtain ⟨i, hi, rfl⟩ := getElem_of_mem ha
    exact (hfg i _ ha).mp (h i hi)
  · intro h i hi
    exact (hfg i _ (getElem_mem hi)).mpr (h _ (getElem_mem hi))

end Index

/-! ### The last value -/

section Last
variable {α β : Type} {f : α → Option β}

/-- The last value that a member of the list gives. -/
def lastOf (f : α → Option β) (l : List α) : Option β := (l.filterMap f).getLast?

theorem lastOf_cons (a : α) (l : List α) : lastOf f (a :: l) = (lastOf f l).or (f a) := by
  unfold lastOf
  cases h : f a with
  | none => rw [filterMap_cons_none h, Option.or_none]
  | some b =>
    rw [filterMap_cons_some h, getLast?_cons]
    cases (List.filterMap f l).getLast? <;> rfl

end Last

/-! ### Numbering by class -/

section Numbering
variable {κ : Type} [DecidableEq κ]

/-- Number the members of each class in order, from the given number of
the class on. -/
def number (c : κ → Nat) : List κ → List Nat
  | [] => []
  | k :: l => c k :: number (update c k (c k + 1)) l

theorem length_number (c : κ → Nat) (l : List κ) : (number c l).length = l.length := by
  induction l generalizing c with
  | nil => rfl
  | cons k l ih => rw [number, length_cons, length_cons, ih]

/-- The numbers of one class. -/
def numbersOf (k : κ) (l : List κ) (ns : List Nat) : List Nat :=
  ((l.zip ns).filter fun p => p.1 = k).map Prod.snd

/-- They are consecutive. -/
theorem numbersOf_number (c : κ → Nat) (k : κ) (l : List κ) :
    numbersOf k l (number c l) = List.range' (c k) (l.count k) := by
  induction l generalizing c with
  | nil => rfl
  | cons k' l ih =>
    have hrest := ih (update c k' (c k' + 1))
    unfold numbersOf at hrest ⊢
    rw [number, zip_cons_cons]
    by_cases h : k' = k
    · subst h
      rw [filter_cons_of_pos (by simp), map_cons, hrest, update_self,
        count_cons_self, range'_succ]
    · rw [filter_cons_of_neg (by simpa using h), hrest, update_of_ne (Ne.symm h),
        count_cons_of_ne h]

/-- Classes may be renamed, if the renaming keeps the class apart from the
others of the list. -/
theorem numbersOf_map {κ' : Type} [DecidableEq κ'] (f : κ → κ') (k : κ) {l : List κ}
    (hf : ∀ a ∈ l, f a = f k ↔ a = k) (ns : List Nat) :
    numbersOf (f k) (l.map f) ns = numbersOf k l ns := by
  unfold numbersOf
  rw [zip_map_left, filter_map, map_map]
  refine congrArg (List.map Prod.snd) (filter_congr fun p hp => ?_)
  exact decide_eq_decide.mpr (hf p.1 (of_mem_zip hp).1)

end Numbering

theorem count_map_of_iff {κ κ' : Type} [BEq κ] [LawfulBEq κ] [BEq κ'] [LawfulBEq κ'] (f : κ → κ')
    (k : κ) {l : List κ} (hf : ∀ a ∈ l, f a = f k ↔ a = k) : (l.map f).count (f k) = l.count k := by
  rw [List.count, List.count, countP_map]
  exact countP_congr fun a ha => by simpa using hf a ha

end Xinu.Lib
