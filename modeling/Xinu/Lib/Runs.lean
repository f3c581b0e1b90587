import Mathlib.Data.List.Basic
import Mathlib.Logic.Relation

/-!
# `Xinu.Lib.Runs`: runs of a machine

A machine is a type of states with actions. `guard s a` says that action
`a` may be taken in state `s`, and `exec s a` is what it leads to, if it
returns. `Reaches` is the reachability of a state from an initial one,
and `Reaches.induction` is the rule for invariants.

`follow` runs a machine along a given list of actions, so that a
particular run can be evaluated. What it leads to is reachable.

`Run` keeps the actions of a run, and `Run.bounded` is the rule for what
has to happen within a number of them.
-/

namespace Xinu.Lib

section Runs
variable {S A E : Type} {init : S → Prop} {guard : S → A → Prop} {exec : S → A → Except E S}

/-- One action that may be taken and returns. -/
def Step (guard : S → A → Prop) (exec : S → A → Except E S) (s s' : S) : Prop :=
  ∃ a, guard s a ∧ exec s a = .ok s'

/-- The states of the runs that start in an initial state. -/
def Reaches (init : S → Prop) (guard : S → A → Prop) (exec : S → A → Except E S) (s : S) : Prop :=
  ∃ s0, init s0 ∧ Relation.ReflTransGen (Step guard exec) s0 s

theorem Reaches.step {s s' : S} {a : A} (h : Reaches init guard exec s) (hguard : guard s a)
    (hexec : exec s a = .ok s') : Reaches init guard exec s' := by
  obtain ⟨s0, h0, hrun⟩ := h
  exact ⟨s0, h0, hrun.tail ⟨a, hguard, hexec⟩⟩

/-- What holds initially and is kept by every action holds in every state
of every run. -/
theorem Reaches.induction {P : S → Prop} {s : S} (h : Reaches init guard exec s)
    (hinit : ∀ s, init s → P s)
    (hstep : ∀ s a s', P s → guard s a → exec s a = .ok s' → P s') : P s := by
  obtain ⟨s0, h0, hrun⟩ := h
  induction hrun with
  | refl => exact hinit s0 h0
  | tail _ hs ih =>
    obtain ⟨a, hguard, hexec⟩ := hs
    exact hstep _ a _ ih hguard hexec

/-- A weaker guard and more initial states reach more. -/
theorem Reaches.mono {init' : S → Prop} {guard' : S → A → Prop} {s : S}
    (h : Reaches init guard exec s) (hinit : ∀ s, init s → init' s)
    (hguard : ∀ s a, guard s a → guard' s a) : Reaches init' guard' exec s := by
  refine h.induction (P := Reaches init' guard' exec) ?_ ?_
  · intro s hs
    exact ⟨s, hinit s hs, .refl⟩
  · intro s a s' hs ha hexec
    exact hs.step (hguard s a ha) hexec

/-- The state after the given actions: `none` when one of them may not be
taken or does not return. -/
def follow (guard : S → A → Prop) [∀ s a, Decidable (guard s a)] (exec : S → A → Except E S)
    (s : S) : List A → Option S
  | [] => some s
  | a :: l =>
    if guard s a then
      match exec s a with
      | .ok s => follow guard exec s l
      | .error _ => none
    else none

theorem Reaches.follow [∀ s a, Decidable (guard s a)] {s s' : S} {l : List A}
    (h : Reaches init guard exec s) (hrun : follow guard exec s l = some s') :
    Reaches init guard exec s' := by
  induction l generalizing s with
  | nil => exact Option.some.inj hrun ▸ h
  | cons a l ih =>
    rw [Lib.follow] at hrun
    split at hrun
    · rename_i hguard
      split at hrun
      · rename_i s1 hexec
        exact ih (h.step hguard hexec) hrun
      · cases hrun
    · cases hrun

/-! ### Runs with their steps -/

/-- A run from `s` to `s'`. The list holds its actions, each with the
state in which it was taken. -/
inductive Run (guard : S → A → Prop) (exec : S → A → Except E S) : S → List (S × A) → S → Prop where
  | nil (s : S) : Run guard exec s [] s
  | cons {s s1 s' : S} {a : A} {l : List (S × A)} (hguard : guard s a) (hexec : exec s a = .ok s1)
      (hrun : Run guard exec s1 l s') : Run guard exec s ((s, a) :: l) s'

theorem Run.append {s s1 s' : S} {l l1 : List (S × A)} (h : Run guard exec s l s1)
    (h1 : Run guard exec s1 l1 s') : Run guard exec s (l ++ l1) s' := by
  induction h with
  | nil s => exact h1
  | cons hguard hexec _ ih => exact .cons hguard hexec (ih h1)

/-- `follow` makes a run of the given actions. -/
theorem Run.of_follow [∀ s a, Decidable (guard s a)] {s s' : S} {l : List A}
    (h : follow guard exec s l = some s') : ∃ r, Run guard exec s r s' ∧ r.map Prod.snd = l := by
  induction l generalizing s with
  | nil => exact ⟨[], Option.some.inj h ▸ .nil s, rfl⟩
  | cons a l ih =>
    rw [Lib.follow] at h
    split at h
    · rename_i hguard
      split at h
      · rename_i s1 hexec
        obtain ⟨r, hrun, hr⟩ := ih h
        exact ⟨(s, a) :: r, .cons hguard hexec hrun, by rw [List.map_cons, hr]⟩
      · cases h
    · cases h

/-- The rule for bounded waiting. `wait s n` says that something waits in
`s` for at most `n` ticks. If every action ends the wait or uses up the
ticks that it makes, then a run with `n` ticks has ended the wait within
them. -/
theorem Run.bounded (wait : S → Nat → Prop) {done : S → Prop} {tick : S × A → Bool}
    (hpos : ∀ s n, wait s n → 0 < n)
    (hstep : ∀ s a s' n, wait s n → guard s a → exec s a = .ok s' →
      done s' ∨ ∃ m, wait s' m ∧ m + (tick (s, a)).toNat ≤ n)
    {s s' : S} {l : List (S × A)} {n : Nat} (hrun : Run guard exec s l s') (hwait : wait s n)
    (hn : n ≤ l.countP tick) :
    ∃ l1 s1, l1 <+: l ∧ Run guard exec s l1 s1 ∧ done s1 ∧ l1.countP tick ≤ n := by
  induction hrun generalizing n with
  | nil s =>
    have := hpos s n hwait
    simp only [List.countP_nil] at hn
    omega
  | @cons s s1 s' a l hguard hexec hrun ih =>
    -- The bound goes down by the ticks of the action, and so do the ticks that
    -- are left in the run.
    have hcount : ∀ l, ((s, a) :: l).countP tick = l.countP tick + (tick (s, a)).toNat := by
      intro l
      cases htick : tick (s, a) <;> simp [htick]
    rcases hstep s a s1 n hwait hguard hexec with hdone | ⟨m, hwait', hm⟩
    · refine ⟨[(s, a)], s1, ⟨l, rfl⟩, .cons hguard hexec (.nil s1), hdone, ?_⟩
      have := hpos s n hwait
      have := Bool.toNat_le (tick (s, a))
      rw [hcount, List.countP_nil]
      omega
    · rw [hcount] at hn
      obtain ⟨l1, s2, ⟨rest, hl⟩, hrun1, hdone, hle⟩ := ih hwait' (by omega)
      refine ⟨(s, a) :: l1, s2, ⟨rest, by rw [← hl]; rfl⟩, .cons hguard hexec hrun1, hdone, ?_⟩
      rw [hcount]
      omega

end Runs

end Xinu.Lib
