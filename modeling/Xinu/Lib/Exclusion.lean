import Xinu.Lib.Multicore

/-!
# `Xinu.Lib.Exclusion`: locks made of atomic calls

Two routines `acq` and `rel` on one word, the first of which waits while
the word is `locked`. Between the return of `acq` and its next call of
one of the two a core holds the lock. `Words.exclusion` says that at most
one core does so, if only `acq` and `rel` use the word and only a core
that holds the lock calls `rel`.
-/

namespace Xinu.Lib.Multicore

open Function List

variable {C K : Type} {w : Nat} [DecidableEq C] [DecidableEq K] {Q : Contract K w} {acq rel : K}
  {locked : BitVec w} {t t' : Words C K w} {τ τ' : List (Event C K (BitVec w))} {c d : C} {k : K}

/-- What an event does to the fact that core `c` holds the lock. -/
def holdStep (acq rel : K) (c : C) (held : Bool) : Event C K (BitVec w) → Bool
  | .call d k => if d = c ∧ (k = acq ∨ k = rel) then false else held
  | .ret d k _ => if d = c ∧ k = acq then true else held

/-- After the events `τ`, core `c` has returned from `acq` and has since
called neither of the two. -/
def Holds (acq rel : K) (c : C) (τ : List (Event C K (BitVec w))) : Prop :=
  τ.foldl (holdStep acq rel c) false = true

instance : Decidable (Holds acq rel c τ) := inferInstanceAs (Decidable (_ = true))

/-- The word of the lock is used by `acq` and `rel` only, and `rel` is
called only by a core that holds the lock. -/
def Allowed (Q : Contract K w) (acq rel : K) (τ : List (Event C K (BitVec w))) :
    Event C K (BitVec w) → Prop
  | .call c k => Q.addr k = Q.addr acq → k = acq ∨ (k = rel ∧ Holds acq rel c τ)
  | .ret _ _ _ => True

theorem holds_call : Holds acq rel d (τ ++ [.call c k]) ↔
    Holds acq rel d τ ∧ (d = c → k ≠ acq ∧ k ≠ rel) := by
  rw [Holds, foldl_append, foldl_cons, foldl_nil, holdStep, Holds]
  grind

theorem holds_ret {r : BitVec w} : Holds acq rel d (τ ++ [.ret c k r]) ↔
    Holds acq rel d τ ∨ (d = c ∧ k = acq) := by
  rw [Holds, foldl_append, foldl_cons, foldl_nil, holdStep, Holds]
  grind

/-- The core has the lock: it holds it, it has taken it and not returned
yet, or it is about to give it back. -/
def Owner (acq rel : K) (t : Words C K w) (τ : List (Event C K (BitVec w))) (c : C) : Prop :=
  Holds acq rel c τ ∨ (∃ r, t.running c = some (acq, some r)) ∨ t.running c = some (rel, none)

/-- There is at most one owner, and while there is one the word is
`locked`. A core in one of the two routines does not hold the lock. -/
structure Exclusive (Q : Contract K w) (acq rel : K) (locked : BitVec w) (t : Words C K w)
    (τ : List (Event C K (BitVec w))) : Prop where
  locked : ∀ c, Owner acq rel t τ c → t.state (Q.addr acq) = locked
  unique : ∀ c d, Owner acq rel t τ c → Owner acq rel t τ d → c = d
  calls : ∀ c k st, t.running c = some (k, st) → Q.addr k = Q.addr acq →
    (k = acq ∨ k = rel) ∧ ¬ Holds acq rel c τ

namespace Exclusive

/-- Nothing goes wrong when no core becomes an owner and the word stays. -/
theorem mono (h : Exclusive Q acq rel locked t τ)
    (hmem : t'.state (Q.addr acq) = t.state (Q.addr acq))
    (howner : ∀ c, Owner acq rel t' τ' c → Owner acq rel t τ c)
    (hcalls : ∀ c k st, t'.running c = some (k, st) → Q.addr k = Q.addr acq →
      (k = acq ∨ k = rel) ∧ ¬ Holds acq rel c τ') :
    Exclusive Q acq rel locked t' τ' where
  locked c hc := hmem.trans (h.locked c (howner c hc))
  unique c d hc hd := h.unique c d (howner c hc) (howner d hd)
  calls := hcalls

theorem call (hne : acq ≠ rel) (haddr : Q.addr rel = Q.addr acq)
    (h : Exclusive Q acq rel locked t τ) (hallowed : Allowed Q acq rel τ (.call c k)) :
    Exclusive Q acq rel locked
      { t with running := update t.running c (some (k, none)) } (τ ++ [.call c k]) := by
  refine h.mono rfl ?_ ?_
  · intro d hd
    simp only [Owner, holds_call] at hd ⊢
    by_cases hdc : d = c
    · subst hdc
      rcases hd with hd | ⟨r, hd⟩ | hd
      · exact .inl hd.1
      · simp at hd
      · -- A release is called by the holder.
        obtain rfl : k = rel := by simpa using hd
        rcases hallowed haddr with heq | ⟨-, hholds⟩
        · exact absurd heq.symm hne
        · exact .inl hholds
    · simpa only [update_of_ne hdc, hdc, false_imp_iff, and_true] using hd
  · intro d k' st hd hk'
    rw [holds_call]
    by_cases hdc : d = c
    · subst hdc
      obtain ⟨rfl, -⟩ : k = k' ∧ none = st := by simpa using hd
      have hk : k = acq ∨ k = rel := (hallowed hk').imp_right And.left
      exact ⟨hk, fun hholds => hk.elim (hholds.2 rfl).1 (hholds.2 rfl).2⟩
    · simp only [update_of_ne hdc] at hd
      obtain ⟨hk, hholds⟩ := h.calls d k' st hd hk'
      exact ⟨hk, fun hand => hholds hand.1⟩

theorem ret {r : BitVec w} (h : Exclusive Q acq rel locked t τ)
    (hc : t.running c = some (k, some r)) :
    Exclusive Q acq rel locked { t with running := update t.running c none }
      (τ ++ [.ret c k r]) := by
  refine h.mono rfl ?_ ?_
  · intro d hd
    simp only [Owner, holds_ret] at hd ⊢
    by_cases hdc : d = c
    · subst hdc
      simp only [update_self, reduceCtorEq, exists_false, or_false, true_and] at hd
      exact hd.imp_right fun hk : k = acq => .inl ⟨r, hk ▸ hc⟩
    · simpa only [update_of_ne hdc, hdc, false_and, or_false] using hd
  · intro d k' st hd hk'
    by_cases hdc : d = c
    · subst hdc
      simp at hd
    · simp only [update_of_ne hdc] at hd
      obtain ⟨hk, hholds⟩ := h.calls d k' st hd hk'
      rw [holds_ret]
      exact ⟨hk, fun hor => hor.elim hholds fun hand => hdc hand.1⟩

/-- The lock is taken only when the word says that nobody has it. -/
theorem commit (hne : acq ≠ rel) (hacq : ∀ x r y, Q.Effect acq x r y → x ≠ locked ∧ y = locked)
    {r y : BitVec w} (h : Exclusive Q acq rel locked t τ) (hc : t.running c = some (k, none))
    (heff : Q.Effect k (t.state (Q.addr k)) r y) :
    Exclusive Q acq rel locked ⟨update t.state (Q.addr k) y,
      update t.running c (some (k, some r))⟩ τ := by
  generalize ht' : (⟨update t.state (Q.addr k) y,
    update t.running c (some (k, some r))⟩ : Words C K w) = t'
  have hself : t'.running c = some (k, some r) := by rw [← ht']; exact update_self ..
  have hrun : ∀ d ≠ c, t'.running d = t.running d := fun d hd => by
    rw [← ht']; exact update_of_ne hd _ _
  have hcalls : ∀ d k' st, t'.running d = some (k', st) → Q.addr k' = Q.addr acq →
      (k' = acq ∨ k' = rel) ∧ ¬ Holds acq rel d τ := by
    intro d k' st hd hk'
    by_cases hdc : d = c
    · subst hdc
      rw [hself] at hd
      cases hd
      exact h.calls d k none hc hk'
    · exact h.calls d k' st (hrun d hdc ▸ hd) hk'
  -- For the other cores nothing changes.
  have hother : ∀ d ≠ c, Owner acq rel t' τ d → Owner acq rel t τ d := fun d hd ho => by
    rwa [Owner, hrun d hd] at ho
  by_cases ha : Q.addr k = Q.addr acq
  · obtain ⟨rfl | rfl, hholds⟩ := h.calls c k none hc ha
    · obtain ⟨hfree, rfl⟩ := hacq _ _ _ heff
      have hmine : ∀ d, Owner k rel t' τ d → d = c := fun d hd => by
        by_contra hdc
        exact hfree (h.locked d (hother d hdc hd))
      refine ⟨fun d _ => ?_, fun d e hd he => (hmine d hd).trans (hmine e he).symm, hcalls⟩
      rw [← ht']
      exact update_self ..
    · -- The owner gives the lock back, and there was no other.
      have hnone : ∀ d, ¬ Owner acq k t' τ d := fun d hd => by
        by_cases hdc : d = c
        · subst hdc
          simp only [Owner, hself, hholds, Option.some.injEq, Prod.mk.injEq, hne.symm, false_and,
            exists_false, reduceCtorEq, and_false, or_self] at hd
        · exact hdc (h.unique d c (hother d hdc hd) (.inr (.inr hc)))
      exact ⟨fun d hd => absurd hd (hnone d), fun d _ hd => absurd hd (hnone d), hcalls⟩
  · -- The call works on another word.
    refine h.mono ?_ (fun d hd => ?_) hcalls
    · rw [← ht']
      exact update_of_ne (Ne.symm ha) _ _
    by_cases hdc : d = c
    · subst hdc
      rcases hd with hd | ⟨r', hd⟩ | hd
      · exact .inl hd
      · rw [hself] at hd
        cases hd
        exact absurd rfl ha
      · rw [hself] at hd
        cases hd
    · exact hother d hdc hd

end Exclusive

/-- Mutual exclusion. At most one core holds the lock, and then the word
is `locked`. -/
theorem Words.exclusion (hne : acq ≠ rel) (haddr : Q.addr rel = Q.addr acq)
    (hacq : ∀ x r y, Q.Effect acq x r y → x ≠ locked ∧ y = locked) {mem : BitVec w → BitVec w}
    {l : List (Words C K w × Atomic.Action C K (BitVec w) (BitVec w → BitVec w))}
    (hrun : Run (Atomic.Permitted Q.effect) Atomic.exec ⟨mem, fun _ => none⟩ l t)
    (hallowed : Follows (Allowed Q acq rel) (l.filterMap Atomic.event))
    (hc : Holds acq rel c (l.filterMap Atomic.event))
    (hd : Holds acq rel d (l.filterMap Atomic.event)) :
    c = d ∧ t.state (Q.addr acq) = locked := by
  have h : Exclusive Q acq rel locked t (l.filterMap Atomic.event) := by
    refine hrun.history (P := fun t τ => Follows (Allowed Q acq rel) τ →
      Exclusive Q acq rel locked t τ) ?_ ?_ hallowed
    · intro t τ a t1 h hguard hexec hallowed
      have h := h hallowed.of_append
      cases a with
      | call c k => cases hexec; exact h.call hne haddr (hallowed τ _ [] rfl)
      | commit c k r mem' =>
        cases hexec
        obtain ⟨hc, y, heff, rfl⟩ := hguard
        simpa [Atomic.event] using h.commit hne hacq hc heff
      | ret c =>
        cases hexec
        obtain ⟨k, r, hc⟩ := hguard
        simpa [Atomic.event, hc] using h.ret hc
    · have hnone : ∀ c : C, ¬ Owner acq rel ⟨mem, fun _ => none⟩ [] c := by simp [Owner, Holds]
      exact fun _ => ⟨fun c hc => absurd hc (hnone c), fun c _ hc => absurd hc (hnone c),
        fun _ _ _ hc => absurd hc.symm (Option.some_ne_none _)⟩
  exact ⟨h.unique c d (.inl hc) (.inl hd), h.locked c (.inl hc)⟩

end Xinu.Lib.Multicore
