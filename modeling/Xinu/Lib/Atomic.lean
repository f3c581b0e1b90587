import Mathlib.Data.List.Perm.Basic
import Mathlib.Logic.Function.Basic
import Xinu.Lib.Refinement

/-!
# `Xinu.Lib.Atomic`: objects whose calls are done at one instant

Cores call the operations `K` of an object with states `S`. What an
operation does is a relation `effect k s r s'`: it may find the object in
`s`, return `r` and leave `s'`. In the machine `Atomic` a call is done at
one instant between the call and its return, and the callers see the
calls and the returns only.

`Atomic.exists_sequential` is what the callers know: once all calls have
returned, their results and the object are those of making the calls one
after the other in some order.
-/

namespace Xinu.Lib

open Function List

/-- What the callers see. -/
inductive Event (C K R : Type) where
  | call (c : C) (k : K)
  | ret (c : C) (k : K) (result : R)
deriving DecidableEq

/-- A call that has returned, with its result. -/
def Event.returned {C K R : Type} : Event C K R → Option (C × K × R)
  | .call _ _ => none
  | .ret c k r => some (c, k, r)

/-- The object, and for each core its call, with the result once the call
is done. -/
structure Atomic (C K R S : Type) where
  state : S
  running : C → Option (K × Option R)

namespace Atomic

inductive Action (C K R S : Type) where
  | call (c : C) (k : K)
  /-- The call of the core is done: it returns `r` and leaves `s`. -/
  | commit (c : C) (k : K) (r : R) (s : S)
  | ret (c : C)

section Machine
variable {C K R S : Type} [DecidableEq C] {effect : K → S → R → S → Prop}

def Permitted (effect : K → S → R → S → Prop) (t : Atomic C K R S) : Action C K R S → Prop
  | .call c _ => t.running c = none
  | .commit c k r s => t.running c = some (k, none) ∧ effect k t.state r s
  | .ret c => ∃ k r, t.running c = some (k, some r)

def exec (t : Atomic C K R S) : Action C K R S → Except Empty (Atomic C K R S)
  | .call c k => .ok { t with running := update t.running c (some (k, none)) }
  | .commit c k r s => .ok ⟨s, update t.running c (some (k, some r))⟩
  | .ret c => .ok { t with running := update t.running c none }

def event : Atomic C K R S × Action C K R S → Option (Event C K R)
  | (_, .call c k) => some (.call c k)
  | (t, .ret c) =>
    match t.running c with
    | some (k, some r) => some (.ret c k r)
    | _ => none
  | _ => none

end Machine

end Atomic

section Sequential
variable {C K R S : Type} {effect : K → S → R → S → Prop}

/-- The calls of the list, made one after the other. -/
inductive Sequential (effect : K → S → R → S → Prop) (s : S) : List (C × K × R) → S → Prop where
  | nil : Sequential effect s [] s
  | snoc {s1 s2 : S} {l : List (C × K × R)} {c : C} {k : K} {r : R}
      (h : Sequential effect s l s1) (heff : effect k s1 r s2) :
      Sequential effect s (l ++ [(c, k, r)]) s2

variable [DecidableEq C]

/-- The calls that are done so far, in the order in which they were done:
those that have returned, and those of `waiting`, which have not. -/
structure Done (effect : K → S → R → S → Prop) (s : S) (t : Atomic C K R S)
    (τ : List (Event C K R)) (l waiting : List (C × K × R)) : Prop where
  sequential : Sequential effect s l t.state
  perm : l.Perm (τ.filterMap Event.returned ++ waiting)
  mem_iff : ∀ c k r, (c, k, r) ∈ waiting ↔ t.running c = some (k, some r)
  nodup : waiting.Nodup

namespace Done
variable {s : S} {t : Atomic C K R S} {τ : List (Event C K R)} {l waiting : List (C × K × R)}

theorem call (h : Done effect s t τ l waiting) {c : C} (k : K) (hc : t.running c = none) :
    Done effect s { t with running := update t.running c (some (k, none)) }
      (τ ++ [.call c k]) l waiting where
  sequential := h.sequential
  perm := by
    rw [filterMap_append]
    simpa [filterMap_cons, Event.returned] using h.perm
  mem_iff d k' r := by
    by_cases hd : d = c
    · subst hd
      simp [h.mem_iff, hc]
    · simp [h.mem_iff, update_of_ne hd]
  nodup := h.nodup

theorem commit (h : Done effect s t τ l waiting) {c : C} {k : K} {r : R} {s' : S}
    (hc : t.running c = some (k, none)) (heff : effect k t.state r s') :
    Done effect s ⟨s', update t.running c (some (k, some r))⟩
      τ (l ++ [(c, k, r)]) ((c, k, r) :: waiting) where
  sequential := .snoc h.sequential heff
  perm := (perm_append_singleton _ _).trans ((h.perm.cons _).trans perm_middle.symm)
  mem_iff d k' r' := by
    by_cases hd : d = c
    · subst hd
      simp [h.mem_iff, hc, eq_comm]
    · simp [h.mem_iff, hd]
  nodup := by
    refine nodup_cons.mpr ⟨fun hmem => ?_, h.nodup⟩
    -- The core `c` would have a result already.
    have hres := (h.mem_iff c k r).mp hmem
    rw [hc] at hres
    cases hres

theorem ret (h : Done effect s t τ l waiting) {c : C} {k : K} {r : R}
    (hc : t.running c = some (k, some r)) :
    ∃ waiting', Done effect s { t with running := update t.running c none }
      (τ ++ [.ret c k r]) l waiting' := by
  obtain ⟨w1, w2, rfl⟩ := append_of_mem ((h.mem_iff c k r).mpr hc)
  have hmid : (w1 ++ (c, k, r) :: w2).Perm ((c, k, r) :: (w1 ++ w2)) := perm_middle
  obtain ⟨hout, hnodup⟩ := nodup_cons.mp (hmid.nodup_iff.mp h.nodup)
  refine ⟨w1 ++ w2, h.sequential, ?_, fun d k' r' => ?_, hnodup⟩
  · refine (h.perm.trans (hmid.append_left _)).trans ?_
    rw [filterMap_append, List.append_assoc]
    exact .refl _
  · have hmem := h.mem_iff d k' r'
    rw [hmid.mem_iff, mem_cons] at hmem
    by_cases hd : d = c
    · subst hd
      simp only [update_self, reduceCtorEq, iff_false]
      intro hin
      -- No other entry is of the core `c`.
      have heq := hc.symm.trans (hmem.mp (.inr hin))
      cases heq
      exact hout hin
    · simpa only [update_of_ne hd, Prod.mk.injEq, hd, false_and, false_or] using hmem

/-- One action of the atomic machine. -/
theorem step {t' : Atomic C K R S} (h : ∃ l waiting, Done effect s t τ l waiting)
    (a : Atomic.Action C K R S) (hguard : t.Permitted effect a) (hexec : t.exec a = .ok t') :
    ∃ l waiting, Done effect s t' (τ ++ (Atomic.event (t, a)).toList) l waiting := by
  obtain ⟨l, waiting, h⟩ := h
  cases a with
  | call c k => cases hexec; exact ⟨l, waiting, h.call k hguard⟩
  | commit c k r s' =>
    cases hexec
    exact ⟨_, _, by simpa [Atomic.event] using h.commit hguard.1 hguard.2⟩
  | ret c =>
    cases hexec
    obtain ⟨k, r, hc⟩ := hguard
    obtain ⟨waiting', h'⟩ := h.ret hc
    exact ⟨l, waiting', by simpa [Atomic.event, hc] using h'⟩

end Done

/-- When all calls have returned, their results and the object are those
of the calls made one after the other in some order. -/
theorem Atomic.exists_sequential {s : S} {t : Atomic C K R S}
    {l : List (Atomic C K R S × Atomic.Action C K R S)}
    (hrun : Run (Atomic.Permitted effect) Atomic.exec ⟨s, fun _ => none⟩ l t)
    (hidle : ∀ c, t.running c = none) :
    ∃ order, Sequential effect s order t.state ∧
      order.Perm ((l.filterMap Atomic.event).filterMap Event.returned) := by
  have hstart : ∃ l waiting, Done (C := C) effect s ⟨s, fun _ => none⟩ [] l waiting :=
    ⟨[], [], .nil, .refl _, by simp, nodup_nil⟩
  obtain ⟨order, waiting, h⟩ := hrun.history
    (P := fun t τ => ∃ l waiting, Done effect s t τ l waiting)
    (fun t τ a t1 h hg he => Done.step h a hg he) hstart
  obtain rfl : waiting = [] := by
    rw [eq_nil_iff_forall_not_mem]
    rintro ⟨c, k, r⟩ hmem
    have := (h.mem_iff c k r).mp hmem
    rw [hidle c] at this
    cases this
  exact ⟨order, h.sequential, by simpa using h.perm⟩

end Sequential

end Xinu.Lib
