import Mathlib.Algebra.BigOperators.Group.Finset.Piecewise
import Mathlib.Algebra.Order.Ring.Nat
import Mathlib.Data.List.Pairwise
import Mathlib.Order.Nat
import Mathlib.Tactic.Common

/-!
# `Xinu.Lib.Spans`: separated lists of address ranges

A free list describes a set of addresses as a list of half-open ranges.
The list is *separated* when the ranges are nonempty and each one ends
strictly before the next one starts, so that no two of them could be
joined. A separated list is a normal form for the set it covers
(`Separated.ext`). That is the reason why returning ranges in any order
rebuilds the same list.

Two operations:

* `firstFit n l` takes `n` addresses from the first range that has
  them. The covered set loses exactly the returned range
  (`covers_firstFit`).
* `insertSpan b l` puts a range back and joins it with the neighbours it
  touches. The covered set gains exactly `b` (`covers_insertSpan`).

Both keep a separated list separated, inside its bounds and on its
alignment grid, and both account for the total length. The second undoes
the first (`insertSpan_firstFit`). Over several
regions, whatever is not free is taken: `sum_total_add_total` is the
balance of the two.
-/

namespace Xinu.Lib

open Function List

variable {s : Span} {a : Nat} {pre post : List Span}

/-- The addresses `start, …, start + len - 1`. -/
structure Span where
  start : Nat
  len : Nat
deriving DecidableEq, Repr

namespace Span

/-- The first address past the range. -/
def stop (s : Span) : Nat := s.start + s.len

@[simp] theorem stop_mk (a n : Nat) : (Span.mk a n).stop = a + n := rfl

/-- The address `a` lies in the range. -/
def Contains (s : Span) (a : Nat) : Prop := s.start ≤ a ∧ a < s.stop

instance (s : Span) (a : Nat) : Decidable (s.Contains a) :=
  inferInstanceAs (Decidable (_ ∧ _))

/-- No address lies in both ranges. -/
def Disjoint (s t : Span) : Prop := ∀ a, s.Contains a → ¬ t.Contains a

/-- Both ends of the range lie on the grid of step `k`. -/
def OnGrid (k : Nat) (s : Span) : Prop := k ∣ s.start ∧ k ∣ s.len

/-- The range lies between `lo` and `hi`. -/
def Within (lo hi : Nat) (s : Span) : Prop := lo ≤ s.start ∧ s.stop ≤ hi

instance (lo hi : Nat) (s : Span) : Decidable (s.Within lo hi) :=
  inferInstanceAs (Decidable (_ ∧ _))

theorem contains_start (hs : 0 < s.len) : s.Contains s.start :=
  ⟨Nat.le_refl _, by unfold stop; omega⟩

theorem Disjoint.symm {s t : Span} (h : s.Disjoint t) : t.Disjoint s :=
  fun a ht hs => h a hs ht

/-- A nonempty range whose addresses all lie in another range lies
within it. -/
theorem within_of_contains {s t : Span} (hs : 0 < s.len) (h : ∀ a, s.Contains a → t.Contains a) :
    s.Within t.start t.stop := by
  have hlast := h (s.stop - 1) ⟨by unfold stop; omega, by unfold stop; omega⟩
  refine ⟨(h s.start (contains_start hs)).1, ?_⟩
  have := hlast.2
  unfold stop at this ⊢
  omega

theorem Within.contains {s t : Span} (h : s.Within t.start t.stop)
    (ha : s.Contains a) : t.Contains a :=
  ⟨Nat.le_trans h.1 ha.1, Nat.lt_of_lt_of_le ha.2 h.2⟩

end Span

/-- The ranges are nonempty, in increasing order, and never touch. -/
structure Separated (l : List Span) : Prop where
  pos : ∀ s ∈ l, 0 < s.len
  gap : l.Pairwise fun s t => s.stop < t.start

/-- Some range of the list contains the address. -/
def Covers (l : List Span) (a : Nat) : Prop := ∃ s ∈ l, s.Contains a

/-- The sum of the lengths. -/
def total (l : List Span) : Nat := (l.map Span.len).sum

/-- Take `n` addresses from the first range that is long enough. A range
of exactly that length leaves the list, a longer one keeps its tail. -/
def firstFit (n : Nat) : List Span → Option (Nat × List Span)
  | [] => none
  | s :: l =>
    if s.len = n then some (s.start, l)
    else if n < s.len then some (s.start, ⟨s.start + n, s.len - n⟩ :: l)
    else (firstFit n l).map fun r => (r.1, s :: r.2)

/-- Put `b` in front of the list, joined with the first range when the
two touch. -/
def absorb (b : Span) : List Span → List Span
  | [] => [b]
  | s :: l => if b.stop = s.start then ⟨b.start, b.len + s.len⟩ :: l else b :: s :: l

/-- Put `b` at its place in the list, joined with the ranges it
touches. -/
def insertSpan (b : Span) : List Span → List Span
  | [] => [b]
  | s :: l =>
    if b.start ≤ s.start then absorb b (s :: l)
    else if s.stop = b.start then absorb ⟨s.start, s.len + b.len⟩ l
    else s :: insertSpan b l

/-! ### Separated lists -/

@[simp] theorem separated_nil : Separated [] := ⟨by simp, List.Pairwise.nil⟩

theorem separated_cons {l : List Span} :
    Separated (s :: l) ↔ 0 < s.len ∧ (∀ t ∈ l, s.stop < t.start) ∧ Separated l := by
  constructor
  · rintro ⟨hpos, hgap⟩
    rw [pairwise_cons] at hgap
    exact ⟨hpos s mem_cons_self, hgap.1,
      fun t ht => hpos t (mem_cons_of_mem _ ht), hgap.2⟩
  · rintro ⟨hs, hlt, hpos, hgap⟩
    refine ⟨fun t ht => ?_, pairwise_cons.mpr ⟨hlt, hgap⟩⟩
    rcases mem_cons.mp ht with rfl | ht
    · exact hs
    · exact hpos t ht

/-- A separated list stays separated without one of its ranges. -/
theorem Separated.erase (h : Separated (pre ++ s :: post)) :
    Separated (pre ++ post) := by
  have hsub : (pre ++ post).Sublist (pre ++ s :: post) :=
    (sublist_cons_self s post).append_left pre
  exact ⟨fun t ht => h.pos t (hsub.subset ht), h.gap.sublist hsub⟩

/-- A range with room on both sides may be added in between. -/
theorem Separated.add_between (h : Separated (pre ++ post))
    (hs : 0 < s.len) (hpre : ∀ t ∈ pre, t.stop < s.start) (hpost : ∀ t ∈ post, s.stop < t.start) :
    Separated (pre ++ s :: post) := by
  obtain ⟨hgpre, hgpost, hcross⟩ := pairwise_append.mp h.gap
  refine ⟨fun t ht => ?_, pairwise_append.mpr
    ⟨hgpre, pairwise_cons.mpr ⟨hpost, hgpost⟩, fun t ht u hu => ?_⟩⟩
  · simp only [mem_append, mem_cons] at ht
    rcases ht with ht | rfl | ht
    · exact h.pos t (mem_append_left _ ht)
    · exact hs
    · exact h.pos t (mem_append_right _ ht)
  · rcases mem_cons.mp hu with rfl | hu
    · exact hpre t ht
    · exact hcross t ht u hu

/-- A separated list stays separated when one of its ranges loses its
first `n` addresses. -/
theorem Separated.shrink {n : Nat} (h : Separated (pre ++ s :: post)) (hn : n < s.len) :
    Separated (pre ++ ⟨s.start + n, s.len - n⟩ :: post) := by
  obtain ⟨-, hmid, hcross⟩ := pairwise_append.mp h.gap
  refine h.erase.add_between ?_ (fun t ht => ?_) fun t ht => ?_
  · show 0 < s.len - n
    omega
  · have := hcross t ht s mem_cons_self
    show t.stop < s.start + n
    omega
  · have := (pairwise_cons.mp hmid).1 t ht
    unfold Span.stop at this ⊢
    simp only
    omega

@[simp] theorem covers_nil : ¬ Covers [] a := by simp [Covers]

@[simp] theorem covers_cons {l : List Span} :
    Covers (s :: l) a ↔ s.Contains a ∨ Covers l a := by simp [Covers]

@[simp] theorem total_nil : total [] = 0 := rfl

@[simp] theorem total_cons {l : List Span} : total (s :: l) = s.len + total l := rfl

/-- A separated list between two addresses is no longer in total than
the distance between them. -/
theorem Separated.total_le {hi : Nat} : ∀ {l : List Span}, Separated l → ∀ lo ≤ hi,
    (∀ s ∈ l, s.Within lo hi) → lo + total l ≤ hi
  | [], _, _, hle, _ => by simpa using hle
  | s :: l, h, lo, _, hw => by
    obtain ⟨hs, hlt, hl⟩ := separated_cons.mp h
    obtain ⟨hws, hwl⟩ := forall_mem_cons.mp hw
    have hrec := hl.total_le s.stop hws.2 fun t ht =>
      ⟨Nat.le_of_lt (hlt t ht), (hwl t ht).2⟩
    have hlo := hws.1
    rw [total_cons]
    unfold Span.stop at hrec
    omega

/-- A separated list has at most as many ranges as addresses. -/
theorem Separated.length_le_total : ∀ {l : List Span}, Separated l → l.length ≤ total l
  | [], _ => Nat.le_refl _
  | s :: l, h => by
    obtain ⟨hs, -, hl⟩ := separated_cons.mp h
    have hrec := hl.length_le_total
    rw [length_cons, total_cons]
    omega

/-- A separated list that covers only addresses of a range is no longer
in total than the range. -/
theorem Separated.total_le_len {l : List Span} {t : Span} (h : Separated l)
    (hin : ∀ a, Covers l a → t.Contains a) : total l ≤ t.len := by
  have hle := h.total_le t.start (Nat.le_add_right t.start t.len) fun s hs =>
    Span.within_of_contains (h.pos s hs) fun a ha => hin a ⟨s, hs, ha⟩
  omega

/-- Every covered address of a separated list lies at or after the start
of its first range. -/
theorem Separated.start_le_of_covers {l : List Span} (h : Separated (s :: l))
    (ha : Covers (s :: l) a) : s.start ≤ a := by
  obtain ⟨-, hlt, -⟩ := separated_cons.mp h
  obtain ⟨t, ht, hta, -⟩ := ha
  rcases mem_cons.mp ht with rfl | ht
  · exact hta
  · have := hlt t ht
    unfold Span.stop at this
    omega

/-- The address where the first range ends is not covered. -/
theorem Separated.not_covers_stop {l : List Span} (h : Separated (s :: l)) :
    ¬ Covers (s :: l) s.stop := by
  obtain ⟨-, hlt, -⟩ := separated_cons.mp h
  rintro ⟨t, ht, hta, hts⟩
  rcases mem_cons.mp ht with rfl | ht
  · omega
  · have := hlt t ht
    omega

/-- A separated list is determined by the addresses it covers. The
induction peels the first range off both lists: its start is the least
covered address, its end the least uncovered one after that. -/
theorem Separated.ext : ∀ {l l' : List Span}, Separated l → Separated l' →
    (∀ a, Covers l a ↔ Covers l' a) → l = l'
  | [], [], _, _, _ => rfl
  | [], t :: l', _, h', hc => by
    have ht := (separated_cons.mp h').1
    exact absurd ((hc t.start).mpr (covers_cons.mpr (Or.inl ⟨le_rfl, by unfold Span.stop; omega⟩)))
      covers_nil
  | s :: l, [], h, _, hc => by
    have hs := (separated_cons.mp h).1
    exact absurd ((hc s.start).mp (covers_cons.mpr (Or.inl ⟨le_rfl, by unfold Span.stop; omega⟩)))
      covers_nil
  | s :: l, t :: l', h, h', hc => by
    obtain ⟨hs, hslt, hl⟩ := separated_cons.mp h
    obtain ⟨ht, htlt, hl'⟩ := separated_cons.mp h'
    have hs0 : s.Contains s.start := ⟨le_rfl, by unfold Span.stop; omega⟩
    have ht0 : t.Contains t.start := ⟨le_rfl, by unfold Span.stop; omega⟩
    have hstart : s.start = t.start := by
      have h1 := h'.start_le_of_covers ((hc _).mp (covers_cons.mpr (Or.inl hs0)))
      have h2 := h.start_le_of_covers ((hc _).mpr (covers_cons.mpr (Or.inl ht0)))
      omega
    have hstop : s.stop = t.stop := by
      -- Were one end smaller, it would be covered by the other list.
      have h1 : ¬ t.Contains s.stop := fun hin =>
        h.not_covers_stop ((hc _).mpr (covers_cons.mpr (Or.inl hin)))
      have h2 : ¬ s.Contains t.stop := fun hin =>
        h'.not_covers_stop ((hc _).mp (covers_cons.mpr (Or.inl hin)))
      unfold Span.Contains at h1 h2
      unfold Span.stop at h1 h2 ⊢
      omega
    have hst : s = t := by
      cases s
      cases t
      simp only [Span.stop, Span.mk.injEq] at hstart hstop ⊢
      omega
    subst hst
    have hrest : ∀ a, Covers l a ↔ Covers l' a := by
      intro a
      have hboth := hc a
      simp only [covers_cons] at hboth
      by_cases hin : s.Contains a
      · -- The first range meets neither tail.
        have hno : ∀ m : List Span, (∀ t ∈ m, s.stop < t.start) → ¬ Covers m a := by
          rintro m hm ⟨t, htm, hta⟩
          have h1 := hm t htm
          have h2 := hin.2
          have h3 := hta.1
          omega
        exact iff_of_false (hno l hslt) (hno l' htlt)
      · simpa [hin] using hboth
    rw [hl.ext hl' hrest]

/-! ### Taking a range -/

/-- What `firstFit` returns: the list splits at the chosen range, whose
length is enough, and every earlier range is too short. -/
theorem firstFit_eq_some {n p : Nat} : ∀ {l l' : List Span}, firstFit n l = some (p, l') →
    ∃ pre s post, l = pre ++ s :: post ∧ s.start = p ∧ n ≤ s.len ∧
      (∀ t ∈ pre, t.len < n) ∧
      l' = pre ++ (if s.len = n then post else ⟨s.start + n, s.len - n⟩ :: post)
  | [], l', h => by simp [firstFit] at h
  | s :: l, l', h => by
    unfold firstFit at h
    split at h
    · rename_i hlen
      obtain ⟨rfl, rfl⟩ : s.start = p ∧ l = l' := by simpa using h
      exact ⟨[], s, l, rfl, rfl, Nat.le_of_eq hlen.symm, by simp, by simp [hlen]⟩
    · rename_i hlen
      split at h
      · rename_i hlt
        obtain ⟨rfl, rfl⟩ : s.start = p ∧ _ = l' := by simpa using h
        exact ⟨[], s, l, rfl, rfl, Nat.le_of_lt hlt, by simp, by simp [hlen]⟩
      · rename_i hge
        obtain ⟨⟨q, m⟩, hm, hq⟩ := Option.map_eq_some_iff.mp h
        obtain ⟨rfl, rfl⟩ : q = p ∧ s :: m = l' := by simpa using hq
        obtain ⟨pre, t, post, rfl, hp, hn, hpre, rfl⟩ := firstFit_eq_some hm
        refine ⟨s :: pre, t, post, rfl, hp, hn, ?_, rfl⟩
        intro u hu
        rcases mem_cons.mp hu with rfl | hu
        · omega
        · exact hpre u hu

/-- `firstFit` fails exactly when every range is too short. -/
theorem firstFit_eq_none {n : Nat} : ∀ {l : List Span},
    firstFit n l = none ↔ ∀ s ∈ l, s.len < n
  | [] => by simp [firstFit]
  | s :: l => by
    unfold firstFit
    split
    · simp; omega
    · split
      · simp; omega
      · simp only [Option.map_eq_none_iff, firstFit_eq_none, forall_mem_cons]
        constructor
        · exact fun h => ⟨by omega, h⟩
        · exact fun h => h.2

section FirstFit
variable {n p : Nat} {l l' : List Span}

/-- The range `firstFit` takes was covered. -/
theorem covers_of_firstFit (h : firstFit n l = some (p, l'))
    (ha : (Span.mk p n).Contains a) : Covers l a := by
  obtain ⟨pre, s, post, rfl, rfl, hn, -, -⟩ := firstFit_eq_some h
  refine ⟨s, by simp, ha.1, ?_⟩
  have := ha.2
  unfold Span.stop at this ⊢
  simp only at this
  omega

/-- `firstFit` removes exactly the range it returns. -/
theorem covers_firstFit (hl : Separated l) (h : firstFit n l = some (p, l')) :
    Covers l' a ↔ Covers l a ∧ ¬ (Span.mk p n).Contains a := by
  obtain ⟨pre, s, post, rfl, rfl, hn, -, rfl⟩ := firstFit_eq_some h
  -- Every other range lies strictly to one side of the chosen one.
  have hpre : ∀ t ∈ pre, t.stop < s.start := fun t ht =>
    (pairwise_append.mp hl.gap).2.2 t ht s mem_cons_self
  have hpost : ∀ t ∈ post, s.stop < t.start :=
    (pairwise_cons.mp (pairwise_append.mp hl.gap).2.1).1
  have hout : ∀ t, t ∈ pre ∨ t ∈ post → t.Contains a →
      ¬ (Span.mk s.start n).Contains a := by
    intro t ht hta hin
    have h1 := hta.1
    have h2 := hta.2
    have h3 := hin.1
    have h4 := hin.2
    simp only [Span.stop_mk] at h3 h4
    rcases ht with ht | ht
    · have := hpre t ht
      omega
    · have := hpost t ht
      unfold Span.stop at this
      omega
  have hself : s.Contains a ∧ ¬ (Span.mk s.start n).Contains a ↔
      (Span.mk (s.start + n) (s.len - n)).Contains a := by
    simp only [Span.Contains, Span.stop]
    omega
  have hmid : Covers (if s.len = n then post else ⟨s.start + n, s.len - n⟩ :: post) a ↔
      (s.Contains a ∧ ¬ (Span.mk s.start n).Contains a) ∨ Covers post a := by
    rw [hself]
    split
    · rename_i heq
      have hno : ¬ (Span.mk (s.start + n) (s.len - n)).Contains a := by
        simp only [Span.Contains, Span.stop]
        omega
      simp [hno]
    · simp
  have hsplit : ∀ m : List Span, Covers (pre ++ m) a ↔ Covers pre a ∨ Covers m a := by
    intro m
    simp only [Covers, mem_append, or_and_right, exists_or]
  rw [hsplit, hmid, hsplit, covers_cons]
  constructor
  · rintro (⟨t, ht, hta⟩ | ⟨hs, hn'⟩ | ⟨t, ht, hta⟩)
    · exact ⟨Or.inl ⟨t, ht, hta⟩, hout t (Or.inl ht) hta⟩
    · exact ⟨Or.inr (Or.inl hs), hn'⟩
    · exact ⟨Or.inr (Or.inr ⟨t, ht, hta⟩), hout t (Or.inr ht) hta⟩
  · rintro ⟨hpre' | hs | hpost', hn'⟩
    · exact Or.inl hpre'
    · exact Or.inr (Or.inl ⟨hs, hn'⟩)
    · exact Or.inr (Or.inr hpost')

/-- `firstFit` keeps a list separated. -/
theorem separated_firstFit (hl : Separated l) (h : firstFit n l = some (p, l')) :
    Separated l' := by
  obtain ⟨pre, s, post, rfl, rfl, hn, -, rfl⟩ := firstFit_eq_some h
  split
  · exact hl.erase
  · exact hl.shrink (by omega)

/-- `firstFit` takes `n` from the total length. -/
theorem total_firstFit (h : firstFit n l = some (p, l')) : total l' + n = total l := by
  obtain ⟨pre, s, post, rfl, rfl, hn, -, rfl⟩ := firstFit_eq_some h
  split
  · simp only [total, map_append, sum_append, map_cons, sum_cons]
    omega
  · simp only [total, map_append, sum_append, map_cons, sum_cons]
    omega

/-- `firstFit` of a multiple of the grid step stays on the grid. -/
theorem onGrid_firstFit {k : Nat} (hl : ∀ s ∈ l, s.OnGrid k) (hn : k ∣ n)
    (h : firstFit n l = some (p, l')) : k ∣ p ∧ ∀ s ∈ l', s.OnGrid k := by
  obtain ⟨pre, s, post, rfl, rfl, hle, -, rfl⟩ := firstFit_eq_some h
  have hs := hl s (by simp)
  refine ⟨hs.1, fun t ht => ?_⟩
  split at ht
  · exact hl t (by simp only [mem_append, mem_cons] at ht ⊢; tauto)
  · simp only [mem_append, mem_cons] at ht
    rcases ht with ht | rfl | ht
    · exact hl t (by simp [ht])
    · exact ⟨Nat.dvd_add hs.1 hn, Nat.dvd_sub hs.2 hn⟩
    · exact hl t (by simp [ht])

end FirstFit

/-! ### Returning a range -/

/-- The range touches the others at most at its ends. -/
def Apart (b : Span) (l : List Span) : Prop := ∀ s ∈ l, s.stop ≤ b.start ∨ b.stop ≤ s.start

/-- A nonempty range none of whose addresses is covered stands apart
from the list. -/
theorem apart_of_not_covers {b : Span} {l : List Span} (hl : Separated l) (hb : 0 < b.len)
    (h : ∀ a, b.Contains a → ¬ Covers l a) : Apart b l := by
  intro s hs
  have hpos := hl.pos s hs
  by_contra hcon
  -- The larger of the two starts would lie in both ranges.
  refine h (max b.start s.start) ?_ ⟨s, hs, ?_⟩ <;>
    simp only [Span.Contains, Span.stop] at hcon ⊢ <;> omega

/-- A list of ranges that all start after `b` takes `b` in front. -/
theorem insertSpan_of_lt {b : Span} {l : List Span} (h : ∀ s ∈ l, b.start ≤ s.start) :
    insertSpan b l = absorb b l := by
  cases l with
  | nil => rfl
  | cons s l => simp [insertSpan, h s mem_cons_self]

/-- Ranges that end before `b` starts stay where they are. -/
theorem insertSpan_append {b : Span} {post : List Span} :
    ∀ {pre : List Span}, (∀ s ∈ pre, s.stop < b.start) →
      insertSpan b (pre ++ post) = pre ++ insertSpan b post
  | [], _ => rfl
  | s :: pre, h => by
    have hs := h s mem_cons_self
    have h1 : ¬ b.start ≤ s.start := by
      unfold Span.stop at hs
      omega
    simp only [List.cons_append, insertSpan, if_neg h1, if_neg (Nat.ne_of_lt hs)]
    rw [insertSpan_append fun t ht => h t (mem_cons_of_mem _ ht)]

/-- A range that touches the last earlier one extends it. -/
theorem insertSpan_touching {b q : Span}
    (hpre : ∀ s ∈ pre, s.stop < b.start) (hq : q.stop = b.start) (hlen : 0 < q.len) :
    insertSpan b (pre ++ q :: post) = pre ++ absorb ⟨q.start, q.len + b.len⟩ post := by
  rw [insertSpan_append hpre]
  have h1 : ¬ b.start ≤ q.start := by
    unfold Span.stop at hq
    omega
  simp only [insertSpan, if_neg h1, if_pos hq]

section Insert
variable {b : Span} {l : List Span}

/-- `absorb` covers what it was given. -/
theorem covers_absorb : Covers (absorb b l) a ↔ b.Contains a ∨ Covers l a := by
  cases l with
  | nil => simp [absorb]
  | cons s l =>
    simp only [absorb]
    split
    · rename_i hstop
      have hjoin : (Span.mk b.start (b.len + s.len)).Contains a ↔
          b.Contains a ∨ s.Contains a := by
        simp only [Span.Contains, Span.stop] at hstop ⊢
        omega
      simp only [covers_cons, hjoin, or_assoc]
    · simp only [covers_cons]

/-- `insertSpan` adds exactly the range it is given. -/
theorem covers_insertSpan :
    Covers (insertSpan b l) a ↔ b.Contains a ∨ Covers l a := by
  induction l with
  | nil => simp [insertSpan]
  | cons s l ih =>
    unfold insertSpan
    split
    · exact covers_absorb
    · split
      · rename_i hstop
        have hjoin : (Span.mk s.start (s.len + b.len)).Contains a ↔
            b.Contains a ∨ s.Contains a := by
          simp only [Span.Contains, Span.stop] at hstop ⊢
          omega
        rw [covers_absorb, hjoin, covers_cons, or_assoc]
      · rw [covers_cons, ih, covers_cons]
        tauto

/-- `absorb` in front of later ranges keeps the list separated. -/
theorem separated_absorb (hl : Separated l) (hb : 0 < b.len)
    (h : ∀ s ∈ l, b.stop ≤ s.start) : Separated (absorb b l) := by
  cases l with
  | nil => exact separated_cons.mpr ⟨hb, by simp, separated_nil⟩
  | cons s l =>
    obtain ⟨hs, hlt, hl'⟩ := separated_cons.mp hl
    have hbs := h s mem_cons_self
    simp only [absorb]
    split
    · rename_i hstop
      refine separated_cons.mpr ⟨?_, fun t ht => ?_, hl'⟩
      · show 0 < b.len + s.len
        omega
      · have := hlt t ht
        simp only [Span.stop] at hstop this ⊢
        omega
    · refine separated_cons.mpr ⟨hb, fun t ht => ?_, hl⟩
      rcases mem_cons.mp ht with rfl | ht
      · omega
      · have := hlt t ht
        unfold Span.stop at this hbs ⊢
        omega

/-- Ranges at or after `x` that get a range at or after `x` still start
at or after `x`. -/
theorem start_le_of_mem_insertSpan {x : Nat} (hb : x ≤ b.start) (hl : ∀ s ∈ l, x ≤ s.start) :
    ∀ s ∈ insertSpan b l, x ≤ s.start := by
  have habsorb : ∀ (c : Span) (m : List Span), x ≤ c.start → (∀ s ∈ m, x ≤ s.start) →
      ∀ s ∈ absorb c m, x ≤ s.start := by
    intro c m hc hm
    cases m with
    | nil => simpa [absorb] using hc
    | cons t m =>
      simp only [absorb]
      split
      · exact forall_mem_cons.mpr ⟨hc, fun u hu => hm u (mem_cons_of_mem _ hu)⟩
      · exact forall_mem_cons.mpr ⟨hc, hm⟩
  induction l with
  | nil => simpa [insertSpan] using hb
  | cons s l ih =>
    obtain ⟨hs, hl'⟩ := forall_mem_cons.mp hl
    unfold insertSpan
    split
    · exact habsorb b _ hb hl
    · split
      · exact habsorb _ l hs hl'
      · exact forall_mem_cons.mpr ⟨hs, ih hl'⟩

/-- `insertSpan` of a range that stands apart keeps the list
separated. -/
theorem separated_insertSpan (hl : Separated l) (hb : 0 < b.len) (hap : Apart b l) :
    Separated (insertSpan b l) := by
  induction l with
  | nil => exact separated_cons.mpr ⟨hb, by simp, separated_nil⟩
  | cons s l ih =>
    obtain ⟨hs, hlt, hl'⟩ := separated_cons.mp hl
    obtain ⟨hap', hapl⟩ := forall_mem_cons.mp hap
    unfold insertSpan
    split
    · rename_i hle
      refine separated_absorb hl hb fun t ht => ?_
      have hbs : b.stop ≤ s.start := by
        unfold Span.stop at hap' ⊢
        omega
      rcases mem_cons.mp ht with rfl | ht
      · exact hbs
      · have := hlt t ht
        unfold Span.stop at this hbs ⊢
        omega
    · rename_i hle
      have hsb : s.stop ≤ b.start := by
        unfold Span.stop at hap' ⊢
        omega
      split
      · rename_i hstop
        refine separated_absorb hl' ?_ fun t ht => ?_
        · show 0 < s.len + b.len
          omega
        · have h1 := hlt t ht
          have h2 := hapl t ht
          simp only [Span.stop] at hstop h1 h2 ⊢
          omega
      · rename_i hstop
        refine separated_cons.mpr ⟨hs, ?_, ih hl' hapl⟩
        exact start_le_of_mem_insertSpan (by omega) fun t ht => hlt t ht

/-- `insertSpan` adds the length of the range to the total. -/
theorem total_insertSpan : total (insertSpan b l) = b.len + total l := by
  have habsorb : ∀ (c : Span) (m : List Span), total (absorb c m) = c.len + total m := by
    intro c m
    cases m with
    | nil => rfl
    | cons t m =>
      simp only [absorb]
      split
      · simp only [total_cons]
        omega
      · rfl
  induction l with
  | nil => rfl
  | cons s l ih =>
    unfold insertSpan
    split
    · exact habsorb b _
    · split
      · rw [habsorb]
        simp only [total_cons]
        omega
      · rw [total_cons, ih, total_cons]
        omega

end Insert

/-- The range `firstFit` took stands apart from what is left. -/
theorem apart_firstFit {n p : Nat} {l l' : List Span} (hl : Separated l) (hn : 0 < n)
    (h : firstFit n l = some (p, l')) : Apart ⟨p, n⟩ l' :=
  apart_of_not_covers (separated_firstFit hl h) hn fun _ ha hcov =>
    ((covers_firstFit hl h).mp hcov).2 ha

/-- Returning the range that `firstFit` took gives the list back. Both
lists are separated and cover the same addresses. -/
theorem insertSpan_firstFit {n p : Nat} {l l' : List Span} (hl : Separated l) (hn : 0 < n)
    (h : firstFit n l = some (p, l')) : insertSpan ⟨p, n⟩ l' = l := by
  have hl' := separated_firstFit hl h
  refine (separated_insertSpan hl' hn (apart_firstFit hl hn h)).ext hl fun a => ?_
  rw [covers_insertSpan, covers_firstFit hl h]
  constructor
  · rintro (ha | ha)
    · exact covers_of_firstFit h ha
    · exact ha.1
  · intro ha
    by_cases hin : (Span.mk p n).Contains a
    · exact Or.inl hin
    · exact Or.inr ⟨ha, hin⟩

/-! ### The balance of free and taken ranges -/

section Balance
variable {ι : Type} [Fintype ι] [DecidableEq ι] {region : ι → Span}

/-- Regions that are divided into free ranges and taken blocks have as
many addresses as the two together. -/
theorem sum_total_add_total (hpos : ∀ n, 0 < (region n).len)
    (hregion : ∀ m n, m ≠ n → (region m).Disjoint (region n)) (blocks : List Span)
    {free : ι → List Span} (hfree : ∀ n, Separated (free n)) (hlen : ∀ b ∈ blocks, 0 < b.len)
    (hdis : blocks.Pairwise Span.Disjoint)
    (hin : ∀ b ∈ blocks, ∃ n, b.Within (region n).start (region n).stop)
    (hcov : ∀ n a, Covers (free n) a ↔ (region n).Contains a ∧ ¬ Covers blocks a) :
    ∑ n, total (free n) + total blocks = ∑ n, (region n).len := by
  -- Give the blocks back one after the other, until the regions are free.
  induction blocks generalizing free with
  | nil =>
    have hwhole : ∀ n, free n = [region n] := fun n =>
      (hfree n).ext (separated_cons.mpr ⟨hpos n, by simp, separated_nil⟩) fun a => by
        rw [hcov]
        simp
    simp [hwhole]
  | cons b blocks ih =>
    obtain ⟨hb, hlen⟩ := forall_mem_cons.mp hlen
    obtain ⟨hfirst, hdis⟩ := pairwise_cons.mp hdis
    obtain ⟨⟨m, hm⟩, hin⟩ := forall_mem_cons.mp hin
    have hap : Apart b (free m) := apart_of_not_covers (hfree m) hb fun a ha hcovers =>
      ((hcov m a).mp hcovers).2 (covers_cons.mpr (Or.inl ha))
    -- The block lies in region `m`, so its free ranges alone grow.
    have hfree' : ∀ n, Separated (update free m (insertSpan b (free m)) n) := by
      intro n
      by_cases hn : n = m
      · subst hn
        rw [update_self]
        exact separated_insertSpan (hfree n) hb hap
      · rw [update_of_ne hn]
        exact hfree n
    have hcov' : ∀ n a, Covers (update free m (insertSpan b (free m)) n) a ↔
        (region n).Contains a ∧ ¬ Covers blocks a := by
      intro n a
      by_cases hn : n = m
      · subst hn
        rw [update_self, covers_insertSpan, hcov, covers_cons]
        have hinside : b.Contains a → (region n).Contains a := hm.contains
        have hother : b.Contains a → ¬ Covers blocks a := fun ha ⟨s, hs, hsa⟩ =>
          hfirst s hs a ha hsa
        tauto
      · rw [update_of_ne hn, hcov, covers_cons]
        have hother : (region n).Contains a → ¬ b.Contains a := fun ha hba =>
          hregion n m hn a ha (hm.contains hba)
        tauto
    have hback := ih hfree' hlen hdis hin hcov'
    have hupd : (fun n => total (update free m (insertSpan b (free m)) n)) =
        update (fun n => total (free n)) m (b.len + total (free m)) := by
      rw [← total_insertSpan]
      exact comp_update total free m _
    have hsum := Finset.sum_update_of_mem (Finset.mem_univ m) (fun n => total (free n))
      (b.len + total (free m))
    have hsplit := Finset.sum_eq_add_sum_sdiff_singleton_of_mem (Finset.mem_univ m)
      fun n => total (free n)
    rw [← hupd] at hsum
    rw [total_cons, ← hback, hsum, hsplit]
    omega

end Balance

end Xinu.Lib
