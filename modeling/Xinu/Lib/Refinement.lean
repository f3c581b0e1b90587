import Xinu.Lib.Runs

/-!
# `Xinu.Lib.Refinement`: what is visible of a run

Some actions of a machine are visible and make an event, the others are
silent. The events of a run are `l.filterMap vis` for its list `l` of
actions. One machine refines another when every run of the first has the
events of some run of the second: the rule is `Run.simulates`.
`Run.history` is the rule for invariants that speak of the events so far.

`record` runs a machine along a given list of actions, like `follow`, and
keeps the states in which they were taken.
-/

namespace Xinu.Lib

open List

section Refinement
variable {S A E T B F X : Type} {guard : S → A → Prop} {exec : S → A → Except E S}
  {guard' : T → B → Prop} {exec' : T → B → Except F T}
  {vis : S × A → Option X} {vis' : T × B → Option X}

/-- A run of one action. -/
theorem Run.single {s s' : S} {a : A} (hguard : guard s a) (hexec : exec s a = .ok s') :
    Run guard exec s [(s, a)] s' := .cons hguard hexec (.nil s')

/-- Forward simulation. -/
theorem Run.simulates (R : S → T → Prop)
    (hstep : ∀ s a s1 t, R s t → guard s a → exec s a = .ok s1 →
      ∃ l t1, Run guard' exec' t l t1 ∧ l.filterMap vis' = (vis (s, a)).toList ∧ R s1 t1)
    {s s' : S} {t : T} {l : List (S × A)} (hrun : Run guard exec s l s') (hR : R s t) :
    ∃ l' t', Run guard' exec' t l' t' ∧ l'.filterMap vis' = l.filterMap vis ∧ R s' t' := by
  induction hrun generalizing t with
  | nil s => exact ⟨[], t, .nil t, rfl, hR⟩
  | @cons s s1 s' a l hguard hexec _ ih =>
    obtain ⟨l1, t1, hrun1, hl1, hR1⟩ := hstep s a s1 t hR hguard hexec
    obtain ⟨l2, t2, hrun2, hl2, hR2⟩ := ih hR1
    refine ⟨l1 ++ l2, t2, hrun1.append hrun2, ?_, hR2⟩
    rw [filterMap_append, hl1, hl2]
    cases hvis : vis (s, a) <;> simp [hvis]

/-- What holds at the start and is kept by every action, with the events
so far, holds at the end of every run. -/
theorem Run.history {P : S → List X → Prop}
    (hstep : ∀ s τ a s1, P s τ → guard s a → exec s a = .ok s1 → P s1 (τ ++ (vis (s, a)).toList))
    {s s' : S} {l : List (S × A)} (hrun : Run guard exec s l s') (h0 : P s []) :
    P s' (l.filterMap vis) := by
  suffices h : ∀ τ, P s τ → P s' (τ ++ l.filterMap vis) by simpa using h [] h0
  clear h0
  induction hrun with
  | nil s => intro τ hτ; simpa using hτ
  | @cons s s1 s' a l hguard hexec _ ih =>
    intro τ hτ
    have h := ih _ (hstep s τ a s1 hτ hguard hexec)
    cases hvis : vis (s, a) <;> simpa [hvis] using h

/-- Each event is allowed after those before it. -/
def Follows (D : List X → X → Prop) (τ : List X) : Prop :=
  ∀ τ1 e τ2, τ = τ1 ++ e :: τ2 → D τ1 e

section Follows
variable {D : List X → X → Prop} {τ τ' : List X} {e : X}

theorem Follows.nil : Follows D [] := by
  intro τ1 e τ2 h
  simp at h

theorem Follows.of_append (h : Follows D (τ ++ τ')) : Follows D τ := by
  intro τ1 e τ2 hτ
  exact h τ1 e (τ2 ++ τ') (by rw [hτ, List.append_assoc, List.cons_append])

theorem Follows.snoc (h : Follows D τ) (he : D τ e) : Follows D (τ ++ [e]) := by
  intro τ1 e' τ2 hτ
  rcases τ2.eq_nil_or_concat with rfl | ⟨τ2, e2, rfl⟩
  · obtain ⟨rfl, heq⟩ := append_inj' hτ rfl
    exact singleton_inj.mp heq ▸ he
  · rw [concat_eq_append, ← List.cons_append, ← List.append_assoc] at hτ
    exact h τ1 e' τ2 (append_inj' hτ rfl).1

end Follows

/-- The run along the given actions: `none` when one of them may not be
taken or does not return. -/
def record (guard : S → A → Prop) [∀ s a, Decidable (guard s a)] (exec : S → A → Except E S)
    (s : S) : List A → Option (List (S × A) × S)
  | [] => some ([], s)
  | a :: l =>
    if guard s a then
      match exec s a with
      | .ok s1 => (record guard exec s1 l).map fun r => ((s, a) :: r.1, r.2)
      | .error _ => none
    else none

theorem Run.of_record [∀ s a, Decidable (guard s a)] {s s' : S} {l : List A} {r : List (S × A)}
    (h : record guard exec s l = some (r, s')) : Run guard exec s r s' := by
  induction l generalizing s r with
  | nil =>
    cases h
    exact .nil _
  | cons a l ih =>
    rw [record] at h
    split at h
    · rename_i hguard
      split at h
      · rename_i s1 hexec
        obtain ⟨⟨r', s2⟩, hr', heq⟩ := Option.map_eq_some_iff.mp h
        cases heq
        exact .cons hguard hexec (ih hr')
      · cases h
    · cases h

/-- A run that passes a test. -/
theorem Run.exists_of_record (guard : S → A → Prop) [∀ s a, Decidable (guard s a)]
    (exec : S → A → Except E S) (s : S) (l : List A) (test : List (S × A) × S → Bool)
    (h : (record guard exec s l).any test = true) :
    ∃ r s', Run guard exec s r s' ∧ test (r, s') = true := by
  obtain ⟨⟨r, s'⟩, hr, htest⟩ := (Option.any_eq_true ..).mp h
  exact ⟨r, s', .of_record hr, htest⟩

end Refinement

end Xinu.Lib
