import Mathlib.Data.List.Basic
import Mathlib.Logic.Function.Basic
import Mathlib.Tactic.Linarith
import Mathlib.Tactic.Ring

/-!
# `Xinu.Lib.Aging`: three queues with aging

A scheduler with three first-in first-out queues serves the highest
nonempty one. A client of a lower queue is not left there: every `q`
calls the first client of the middle queue moves to the end of the high
one, and every `q` times that happens the first client of the low queue
moves to the end of the middle one.

`Due q n x p t` says that client `p` is in some queue of `x` and will be
served within `t` calls, when no more than `n` clients wait. What comes
between two calls does not matter as long as `p` keeps its place
(`Due.keeps`). One call serves `p` or leaves it due one call earlier
(`Due.serve`), and a client that waits is due within
`(q * q + q + 1) * n` calls (`Due.of_mem`).
-/

namespace Xinu.Lib

open Function List

/-- The three queues. -/
inductive Level where
  | low
  | med
  | high
deriving DecidableEq

/-- The queues, and how many calls are left until the next promotion to
the high queue, and how many of these promotions until the next one to
the middle queue. -/
structure Levels (α : Type) where
  queue : Level → List α
  medTicks : Nat
  lowTicks : Nat

namespace Levels

variable {α : Type} {q n t : Nat} {x y z : Levels α} {p r : α} {i : Level}

/-! ### The algorithm -/

/-- The first client of `lo` moves to the end of `hi`. -/
def promote (f : Level → List α) (lo hi : Level) : Level → List α :=
  match f lo with
  | [] => f
  | r :: l => update (update f lo l) hi (f hi ++ [r])

/-- The promotions to the middle queue. -/
def ageLow (q : Nat) (x : Levels α) : Levels α :=
  if x.lowTicks ≤ 1 then { x with queue := promote x.queue .low .med, lowTicks := q }
  else { x with lowTicks := x.lowTicks - 1 }

/-- The promotions of one call. -/
def age (q : Nat) (x : Levels α) : Levels α :=
  if x.medTicks ≤ 1 then
    { ageLow q { x with queue := promote x.queue .med .high } with medTicks := q }
  else { x with medTicks := x.medTicks - 1 }

/-- The queue that is served. -/
def top (x : Levels α) : Level :=
  if x.queue .high ≠ [] then .high else if x.queue .med ≠ [] then .med else .low

/-- The client that is served, and the queues without it. -/
def serve (x : Levels α) : Option (α × Levels α) :=
  match x.queue x.top with
  | [] => none
  | r :: l => some (r, { x with queue := update x.queue x.top l })

/-- The number of waiting clients. -/
def size (x : Levels α) : Nat :=
  (x.queue .high).length + (x.queue .med).length + (x.queue .low).length

/-- The counters are between `1` and `q`. -/
structure Ticking (q : Nat) (x : Levels α) : Prop where
  med : 1 ≤ x.medTicks ∧ x.medTicks ≤ q
  low : 1 ≤ x.lowTicks ∧ x.lowTicks ≤ q

/-- The promotions to the middle queue do not look at the other
counter. -/
theorem ageLow_medTicks {f : Level → List α} {m m' k l : Nat} :
    { ageLow q ⟨f, m, l⟩ with medTicks := k } = { ageLow q ⟨f, m', l⟩ with medTicks := k } := by
  unfold ageLow
  simp only
  split <;> rfl

theorem Ticking.age (h : x.Ticking q) : (x.age q).Ticking q := by
  obtain ⟨⟨hm, hmq⟩, hl, hlq⟩ := h
  unfold Levels.age
  split
  · refine ⟨⟨by simp only; omega, le_rfl⟩, ?_⟩
    simp only [ageLow]
    split
    · exact ⟨by simp only; omega, le_rfl⟩
    · exact ⟨by simp only; omega, by simp only; omega⟩
  · exact ⟨⟨by simp only; omega, by simp only; omega⟩, hl, hlq⟩

theorem Ticking.serve (h : x.Ticking q) (hs : x.serve = some (r, y)) : y.Ticking q := by
  unfold Levels.serve at hs
  split at hs
  · cases hs
  · obtain ⟨-, rfl⟩ := Prod.mk.inj (Option.some.inj hs)
    exact ⟨h.med, h.low⟩

/-! ### When a client is served -/

section Due
variable [DecidableEq α]

/-- Client `p` waits, and is served within `t` calls. In the high queue it
is served after those ahead of it. In the others it first has to be
promoted, and may then find `n - 1` clients ahead of it. -/
inductive Due (q n : Nat) (x : Levels α) (p : α) (t : Nat) : Prop where
  | high (hp : p ∈ x.queue .high) (ht : (x.queue .high).idxOf p + 1 ≤ t)
  | med (hp : p ∈ x.queue .med) (ht : x.medTicks + q * (x.queue .med).idxOf p + n ≤ t)
  | low (hp : p ∈ x.queue .low) (ht : x.medTicks + q * (x.lowTicks - 1) +
      q * q * (x.queue .low).idxOf p + (q + 1) * n ≤ t)

/-- Between two calls, clients may join the queues and others than `p` may
leave them. -/
structure Keeps (p : α) (x y : Levels α) : Prop where
  medTicks : y.medTicks = x.medTicks
  lowTicks : y.lowTicks = x.lowTicks
  place : ∀ i, p ∈ x.queue i → p ∈ y.queue i ∧ (y.queue i).idxOf p ≤ (x.queue i).idxOf p

theorem Keeps.of_append (hm : y.medTicks = x.medTicks) (hl : y.lowTicks = x.lowTicks)
    (h : ∀ i, ∃ l, y.queue i = x.queue i ++ l) : Keeps p x y where
  medTicks := hm
  lowTicks := hl
  place i hp := by
    obtain ⟨l, hl⟩ := h i
    rw [hl, idxOf_append_of_mem hp]
    exact ⟨mem_append_left _ hp, le_rfl⟩

theorem Due.keeps (h : Due q n x p t) (hk : Keeps p x y) : Due q n y p t := by
  cases h with
  | high hp ht =>
    obtain ⟨hp', hle⟩ := hk.place .high hp
    exact .high hp' (by omega)
  | med hp ht =>
    obtain ⟨hp', hle⟩ := hk.place .med hp
    refine .med hp' ?_
    rw [hk.medTicks]
    have := Nat.mul_le_mul_left q hle
    omega
  | low hp ht =>
    obtain ⟨hp', hle⟩ := hk.place .low hp
    refine .low hp' ?_
    rw [hk.medTicks, hk.lowTicks]
    have := Nat.mul_le_mul_left (q * q) hle
    omega

/-- Who waits has not been served yet. -/
theorem Due.pos (h : Due q n x p t) (hx : x.Ticking q) : 0 < t := by
  have := hx.med.1
  cases h with
  | high hp ht => omega
  | med hp ht => omega
  | low hp ht => omega

/-- Who waits in a list has less than its length ahead. -/
theorem idxOf_le {l : List α} {m : Nat} (hp : p ∈ l) (hl : l.length ≤ m) : l.idxOf p + 1 ≤ m :=
  (idxOf_lt_length_iff.mpr hp).trans_le hl

/-- Who is moved to the end of a list has no more than the list ahead. -/
theorem idxOf_append_self {l : List α} : (l ++ [p]).idxOf p ≤ l.length := by
  by_cases hp : p ∈ l
  · rw [idxOf_append_of_mem hp]
    exact idxOf_le_length
  · rw [idxOf_append_of_notMem hp]
    simp

/-- Nobody falls back when another client leaves. -/
theorem idxOf_erase_le {l : List α} (hr : r ≠ p) : (l.erase r).idxOf p ≤ l.idxOf p := by
  induction l with
  | nil => exact le_rfl
  | cons x l ih =>
    by_cases hxr : x = r
    · rw [hxr, erase_cons_head, idxOf_cons_ne _ hr]
      exact Nat.le_succ _
    · rw [erase_cons_tail (by simpa using hxr)]
      by_cases hxp : x = p
      · rw [hxp, idxOf_cons_self, idxOf_cons_self]
      · rw [idxOf_cons_ne _ hxp, idxOf_cons_ne _ hxp]
        exact Nat.succ_le_succ ih

theorem Due.of_mem (hx : x.Ticking q) (hn : x.size ≤ n) (hp : p ∈ x.queue i) :
    Due q n x p ((q * q + q + 1) * n) := by
  obtain ⟨⟨-, hm⟩, hl⟩ := hx
  unfold size at hn
  -- `m` is the number of promotions or services that have to come first.
  obtain ⟨m, hm1, hmn⟩ : ∃ m, (x.queue i).idxOf p = m ∧ m + 1 ≤ n := by
    refine ⟨_, rfl, idxOf_le hp ?_⟩
    cases i <;> omega
  obtain ⟨d, rfl⟩ := Nat.exists_eq_add_of_le' hmn
  cases i with
  | high =>
    refine .high hp ?_
    rw [hm1]
    nlinarith
  | med =>
    refine .med hp ?_
    rw [hm1]
    nlinarith
  | low =>
    refine .low hp ?_
    rw [hm1]
    obtain ⟨e, he⟩ := Nat.exists_eq_add_of_le' hl.1
    have hel : e + 1 ≤ q := he ▸ hl.2
    have := Nat.mul_le_mul_left q hel
    rw [he, Nat.add_sub_cancel]
    nlinarith

/-! ### One call -/

/-- After the promotions of a call, `p` is due in `t` more calls, this one
aside, or will be if this call serves the high queue. -/
def Soon (q n : Nat) (x : Levels α) (p : α) (t : Nat) : Prop :=
  (p ∈ x.queue .high ∧ (x.queue .high).idxOf p ≤ t) ∨ Due q n x p t

theorem Soon.keeps (h : Soon q n x p t) (hk : Keeps p x y) : Soon q n y p t := by
  rcases h with ⟨hp, ht⟩ | hdue
  · obtain ⟨hp', hle⟩ := hk.place .high hp
    exact Or.inl ⟨hp', hle.trans ht⟩
  · exact Or.inr (hdue.keeps hk)

omit [DecidableEq α] in
/-- Where `promote` puts the clients. -/
theorem promote_apply {f : Level → List α} {lo hi : Level} (hne : lo ≠ hi) :
    promote f lo hi lo = (f lo).tail ∧ promote f lo hi hi = f hi ++ (f lo).take 1 ∧
    ∀ j, j ≠ lo → j ≠ hi → promote f lo hi j = f j := by
  unfold promote
  cases hl : f lo with
  | nil => simp [hl]
  | cons r l =>
    refine ⟨?_, ?_, ?_⟩
    · simp [update_of_ne hne]
    · simp
    · intro j hlo hhi
      simp [update_of_ne hlo, update_of_ne hhi]

/-- A client that is not first moves up by one. -/
theorem idxOf_tail {l : List α} (hp : p ∈ l) (hfirst : l.head? ≠ some p) :
    p ∈ l.tail ∧ l.idxOf p = l.tail.idxOf p + 1 := by
  cases l with
  | nil => cases hp
  | cons r l =>
    have hne : r ≠ p := fun heq => hfirst (by simp [heq])
    refine ⟨?_, idxOf_cons_ne _ hne⟩
    rcases mem_cons.mp hp with rfl | hp
    · exact absurd rfl hne
    · exact hp

omit [DecidableEq α] in
theorem take_one_of_head? {l : List α} (h : l.head? = some p) : l.take 1 = [p] := by
  cases l with
  | nil => cases h
  | cons r l =>
    cases h
    rfl

section Last
variable (hone : x.medTicks = 1)
include hone

omit [DecidableEq α] in
/-- A call that promotes to the high queue, but not to the middle one. -/
theorem age_of_lt (hlow : 1 < x.lowTicks) : (x.age q).medTicks = q ∧
    (x.age q).lowTicks = x.lowTicks - 1 ∧
    (x.age q).queue .high = x.queue .high ++ (x.queue .med).take 1 ∧
    (x.age q).queue .med = (x.queue .med).tail ∧ (x.age q).queue .low = x.queue .low := by
  obtain ⟨hmed, hhigh, hother⟩ := promote_apply (f := x.queue) (show Level.med ≠ .high by decide)
  rw [age, if_pos hone.le, ageLow, if_neg (Nat.not_le.mpr hlow)]
  exact ⟨rfl, rfl, hhigh, hmed, hother .low (by decide) (by decide)⟩

omit [DecidableEq α] in
/-- A call with both promotions. -/
theorem age_of_le (hlow : x.lowTicks ≤ 1) : (x.age q).medTicks = q ∧ (x.age q).lowTicks = q ∧
    (x.age q).queue .high = x.queue .high ++ (x.queue .med).take 1 ∧
    (x.age q).queue .med = (x.queue .med).tail ++ (x.queue .low).take 1 ∧
    (x.age q).queue .low = (x.queue .low).tail := by
  obtain ⟨hmed, hhigh, hother⟩ := promote_apply (f := x.queue) (show Level.med ≠ .high by decide)
  obtain ⟨hlow', hmed', hother'⟩ := promote_apply (f := promote x.queue .med .high)
    (show Level.low ≠ .med by decide)
  rw [hother .low (by decide) (by decide)] at hlow' hmed'
  rw [hmed] at hmed'
  rw [age, if_pos hone.le, ageLow, if_pos hlow]
  exact ⟨rfl, rfl, (hother' .high (by decide) (by decide)).trans hhigh, hmed', hlow'⟩

omit [DecidableEq α] in
/-- What the two kinds of call have in common. -/
theorem age_last : (x.age q).medTicks = q ∧
    (x.age q).queue .high = x.queue .high ++ (x.queue .med).take 1 ∧
    ∃ l, (x.age q).queue .med = (x.queue .med).tail ++ l := by
  rcases Nat.lt_or_ge 1 x.lowTicks with hlow | hlow
  · obtain ⟨hm, -, hhigh, hmed, -⟩ := age_of_lt (q := q) hone hlow
    exact ⟨hm, hhigh, [], by rw [hmed, append_nil]⟩
  · obtain ⟨hm, -, hhigh, hmed, -⟩ := age_of_le (q := q) hone hlow
    exact ⟨hm, hhigh, _, hmed⟩

theorem soon_of_high (hp : p ∈ x.queue .high) (ht : (x.queue .high).idxOf p ≤ t) :
    Soon q n (x.age q) p t := by
  obtain ⟨-, hhigh, -⟩ := age_last (q := q) hone
  refine Or.inl ⟨?_, ?_⟩
  · rw [hhigh]
    exact mem_append_left _ hp
  · rw [hhigh, idxOf_append_of_mem hp]
    exact ht

theorem soon_of_med (hn : x.size ≤ n) (hp : p ∈ x.queue .med)
    (ht : q * (x.queue .med).idxOf p + n ≤ t) : Soon q n (x.age q) p t := by
  obtain ⟨hm, hhigh, l, hmed⟩ := age_last (q := q) hone
  by_cases hfirst : (x.queue .med).head? = some p
  · -- It is promoted, and no more than `n - 1` clients are ahead of it.
    rw [take_one_of_head? hfirst] at hhigh
    have hlen : 0 < (x.queue .med).length := length_pos_of_mem hp
    have hend : (x.queue .high ++ [p]).idxOf p ≤ (x.queue .high).length := idxOf_append_self
    unfold size at hn
    refine Or.inl ⟨?_, ?_⟩
    · rw [hhigh]
      exact mem_append_right _ (mem_singleton_self p)
    · rw [hhigh]
      omega
  · obtain ⟨hp', hidx⟩ := idxOf_tail hp hfirst
    rw [hidx, Nat.mul_add, Nat.mul_one] at ht
    refine Or.inr (.med ?_ ?_)
    · rw [hmed]
      exact mem_append_left _ hp'
    · rw [hm, hmed, idxOf_append_of_mem hp']
      omega

theorem soon_of_low (hn : x.size ≤ n) (hp : p ∈ x.queue .low)
    (ht : q * (x.lowTicks - 1) + q * q * (x.queue .low).idxOf p + (q + 1) * n ≤ t) :
    Soon q n (x.age q) p t := by
  rcases Nat.lt_or_ge 1 x.lowTicks with hlow | hlow
  · -- The low queue is not due in this period: only its counter goes down.
    obtain ⟨hm, hl', -, -, hlow'⟩ := age_of_lt (q := q) hone hlow
    refine Or.inr (.low ?_ ?_)
    · rw [hlow']
      exact hp
    · obtain ⟨d, hd⟩ : ∃ d, x.lowTicks - 1 = d + 1 := ⟨x.lowTicks - 2, by omega⟩
      rw [hd, Nat.mul_add, Nat.mul_one] at ht
      rw [hm, hl', hlow', hd, Nat.add_sub_cancel]
      omega
  · obtain ⟨hm, hl', -, hmed, hlow'⟩ := age_of_le (q := q) hone hlow
    by_cases hfirst : (x.queue .low).head? = some p
    · -- It joins the middle queue with a full period ahead.
      rw [take_one_of_head? hfirst] at hmed
      have hlen : 0 < (x.queue .low).length := length_pos_of_mem hp
      have hend : ((x.queue .med).tail ++ [p]).idxOf p ≤ (x.queue .med).tail.length :=
        idxOf_append_self
      rw [length_tail] at hend
      unfold size at hn
      have hbound : ((x.queue .med).tail ++ [p]).idxOf p + 1 ≤ n := by omega
      refine Or.inr (.med ?_ ?_)
      · rw [hmed]
        exact mem_append_right _ (mem_singleton_self p)
      · have hmul := Nat.mul_le_mul_left q hbound
        rw [Nat.mul_add, Nat.mul_one] at hmul
        rw [Nat.add_mul, Nat.one_mul] at ht
        rw [hm, hmed]
        omega
    · -- It moves up one place, which is worth `q * q` calls.
      obtain ⟨hp', hidx⟩ := idxOf_tail hp hfirst
      rw [hidx, Nat.mul_add, Nat.mul_one] at ht
      refine Or.inr (.low ?_ ?_)
      · rw [hlow']
        exact hp'
      · have hperiod : q + q * (q - 1) = q * q := by
          cases q with
          | zero => rfl
          | succ q =>
            rw [Nat.add_sub_cancel]
            ring
        rw [hm, hl', hlow', hperiod]
        omega

end Last

theorem Due.age (h : Due q n x p (t + 1)) (hx : x.Ticking q) (hn : x.size ≤ n) :
    Soon q n (x.age q) p t := by
  by_cases hlast : x.medTicks ≤ 1
  · have hone : x.medTicks = 1 := le_antisymm hlast hx.med.1
    cases h with
    | high hp ht => exact soon_of_high hone hp (by omega)
    | med hp ht => exact soon_of_med hone hn hp (by omega)
    | low hp ht => exact soon_of_low hone hn hp (by omega)
  · rw [Levels.age, if_neg hlast]
    cases h with
    | high hp ht => exact Or.inl ⟨hp, Nat.le_of_succ_le_succ ht⟩
    | med hp ht => exact Or.inr (.med hp (by simp only; omega))
    | low hp ht => exact Or.inr (.low hp (by simp only; omega))

/-- The call serves `p` or leaves it due within `t` calls. -/
theorem Soon.serve (h : Soon q n x p t) (hs : x.serve = some (r, y)) : r = p ∨ Due q n y p t := by
  unfold Levels.serve at hs
  split at hs
  · cases hs
  · rename_i r' l hl
    obtain ⟨rfl, rfl⟩ := Prod.mk.inj (Option.some.inj hs)
    by_cases hr : r' = p
    · exact Or.inl hr
    · have hfirst : (x.queue x.top).head? ≠ some p := by
        rw [hl]
        simpa using hr
      have htail : (x.queue x.top).tail = l := by
        rw [hl]
        rfl
      rcases h with ⟨hp, ht⟩ | hdue
      · -- The call serves the high queue, and `p` moves up in it.
        have htop : x.top = .high := if_pos (ne_nil_of_mem hp)
        rw [htop] at hfirst htail ⊢
        obtain ⟨hp', hidx⟩ := idxOf_tail hp hfirst
        rw [htail] at hp' hidx
        exact Or.inr (.high (by simpa using hp') (by simp; omega))
      · -- Serving never moves anyone back.
        refine Or.inr (hdue.keeps ⟨rfl, rfl, ?_⟩)
        intro j hp
        show p ∈ update x.queue x.top l j ∧
          (update x.queue x.top l j).idxOf p ≤ (x.queue j).idxOf p
        by_cases hj : j = x.top
        · subst hj
          obtain ⟨hp', hidx⟩ := idxOf_tail hp hfirst
          rw [htail] at hp' hidx
          rw [update_self]
          exact ⟨hp', by omega⟩
        · rw [update_of_ne hj]
          exact ⟨hp, le_rfl⟩

end Due

end Levels

end Xinu.Lib
