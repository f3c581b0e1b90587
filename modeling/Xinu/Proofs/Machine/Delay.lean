import Xinu.System.Timer

/-!
# `Xinu.Proofs.Machine.Delay`: how long `udelay` waits

`udelay` compares readings of a counter that wraps around. If its target
does not wrap, it returns at a reading outside of the range from `start`
to `target`, and the counter has then gone on by the delay.

If the target wraps, the first loop waits for the counter to wrap, and
takes a reading that is not greater than `start` for that. A reading that
is still equal to `start` ends the loop as well. The second loop then ends
at the next reading, unless the counter has wrapped by then. This is the
only way to return early (`udelay_elapsed_iff`).

A counter that goes on is waited for to the end: its steps are too small to
jump over the range that a loop waits for (`udelay_returns`).
-/

namespace Xinu.Timer

open BitVec

/-- The readings of a counter that only advances, with less than
`2 ^ 32 - delay` from one to the next. -/
structure Advances (counter : Nat → Nat) (delay : Nat) : Prop where
  le : ∀ i, counter i ≤ counter (i + 1)
  lt : ∀ i, counter (i + 1) - counter i < 2 ^ 32 - delay

/-- The number of ticks that `udelay` has to wait for. -/
def ticks (clkfreq us : Ulong) : Nat := clkfreq.toNat / 1000 * us.toNat

section
variable {counter : Nat → Nat} {cond : Ulong → Bool} {delay fuel i j n : Nat}

theorem Advances.mono (h : Advances counter delay) (hij : i ≤ j) : counter i ≤ counter j :=
  monotone_nat_of_le_succ h.le hij

/-- A loop ends at the first reading that does not meet its condition. -/
theorem spin_eq_ok (h : spin counter cond fuel i = .ok n) :
    ∃ j, i ≤ j ∧ n = j + 1 ∧ cond (clkcount counter j) = false ∧
      ∀ k, i ≤ k → k < j → cond (clkcount counter k) = true := by
  induction fuel generalizing i with
  | zero => cases h
  | succ fuel ih =>
    rw [spin] at h
    by_cases hi : cond (clkcount counter i) = true
    · rw [if_pos hi] at h
      obtain ⟨j, hij, hn, hj, hall⟩ := ih h
      refine ⟨j, Nat.le_of_succ_le hij, hn, hj, fun k hik hkj => ?_⟩
      rcases Nat.eq_or_lt_of_le hik with rfl | hlt
      · exact hi
      · exact hall k hlt hkj
    · rw [if_neg hi] at h
      refine ⟨i, Nat.le_refl i, (Except.ok.inj h).symm, Bool.eq_false_of_not_eq_true hi, ?_⟩
      intro k hik hki
      exact absurd hik (Nat.not_le.mpr hki)

/-- A loop ends if some reading does not meet its condition. -/
theorem spin_returns (hij : i ≤ j) (hj : cond (clkcount counter j) = false) (hfuel : j - i < fuel) :
    ∃ n, i < n ∧ spin counter cond fuel i = .ok n := by
  induction fuel generalizing i with
  | zero => exact absurd hfuel (Nat.not_lt_zero _)
  | succ fuel ih =>
    rw [spin]
    by_cases hi : cond (clkcount counter i) = true
    · rcases Nat.eq_or_lt_of_le hij with rfl | hlt
      · rw [hj] at hi
        cases hi
      · obtain ⟨n, hin, hn⟩ := ih hlt (by omega)
        refine ⟨n, Nat.lt_of_succ_lt hin, ?_⟩
        rw [if_pos hi, hn]
    · exact ⟨i + 1, Nat.lt_succ_self i, if_neg hi⟩

/-- More fuel makes no difference. -/
theorem spin_mono {fuel' : Nat} (h : spin counter cond fuel i = .ok n) (hle : fuel ≤ fuel') :
    spin counter cond fuel' i = .ok n := by
  induction fuel generalizing i fuel' with
  | zero => cases h
  | succ fuel ih =>
    cases fuel' with
    | zero => exact absurd hle (Nat.not_succ_le_zero fuel)
    | succ fuel' =>
      rw [spin] at h ⊢
      by_cases hi : cond (clkcount counter i) = true
      · rw [if_pos hi] at h ⊢
        exact ih h (Nat.le_of_succ_le_succ hle)
      · rw [if_neg hi] at h ⊢
        exact h

end

/-! ### The comparisons -/

/-- The conditions of the loops, for readings as numbers. -/
def between (start target : Nat) (count : Ulong) : Bool :=
  start ≤ count.toNat ∧ count.toNat < target

def above (start : Nat) (count : Ulong) : Bool := start < count.toNat

def below (target : Nat) (count : Ulong) : Bool := count.toNat < target

section
variable {counter : Nat → Nat} {clkfreq us : Ulong} {fuel n : Nat}

theorem toNat_clkcount (i : Nat) : (clkcount counter i).toNat = counter i % 2 ^ 32 :=
  toNat_ofNat ..

theorem toNat_delay (h : ticks clkfreq us < 2 ^ 32) :
    (clkfreq / 1000 * us).toNat = ticks clkfreq us := by
  rw [toNat_mul, toNat_udiv]
  exact Nat.mod_eq_of_lt h

/-- Where the target is, and whether it comes before `start`. -/
theorem toNat_target (counter : Nat → Nat) (h : ticks clkfreq us < 2 ^ 32) :
    (clkcount counter 0 + clkfreq / 1000 * us).toNat =
      (counter 0 % 2 ^ 32 + ticks clkfreq us) % 2 ^ 32 := by
  rw [toNat_add, toNat_clkcount, toNat_delay h]

/-- The target does not wrap: one loop, which ends outside of the range. -/
theorem udelay_unwrapped (h : counter 0 % 2 ^ 32 + ticks clkfreq us < 2 ^ 32) :
    udelay counter fuel clkfreq us =
      spin counter
        (between (counter 0 % 2 ^ 32) (counter 0 % 2 ^ 32 + ticks clkfreq us)) fuel 1 := by
  have htarget := toNat_target counter (Nat.lt_of_le_of_lt (Nat.le_add_left ..) h)
  rw [Nat.mod_eq_of_lt h] at htarget
  have hle : clkcount counter 0 + clkfreq / 1000 * us ≥ clkcount counter 0 := by
    rw [ge_iff_le, le_def, htarget, toNat_clkcount]
    exact Nat.le_add_right ..
  rw [udelay, if_pos hle]
  congr 1
  funext count
  rw [between, Bool.eq_iff_iff, Bool.and_eq_true, decide_eq_true_iff, decide_eq_true_iff,
    decide_eq_true_iff, lt_def, ge_iff_le, le_def, htarget, toNat_clkcount]
  exact and_comm

/-- The target wraps: one loop that should end after the counter wrapped,
and one that ends at the target. -/
theorem udelay_wrapped (hd : ticks clkfreq us < 2 ^ 32)
    (h : 2 ^ 32 ≤ counter 0 % 2 ^ 32 + ticks clkfreq us) :
    udelay counter fuel clkfreq us = (do
      let i ← spin counter (above (counter 0 % 2 ^ 32)) fuel 1
      spin counter (below (counter 0 % 2 ^ 32 + ticks clkfreq us - 2 ^ 32)) fuel i) := by
  have htarget := toNat_target counter hd
  have hmod : (counter 0 % 2 ^ 32 + ticks clkfreq us) % 2 ^ 32 =
      counter 0 % 2 ^ 32 + ticks clkfreq us - 2 ^ 32 := by omega
  rw [hmod] at htarget
  have hlt : ¬clkcount counter 0 + clkfreq / 1000 * us ≥ clkcount counter 0 := by
    rw [ge_iff_le, le_def, htarget, toNat_clkcount]
    omega
  have hfirst : (fun count : Ulong => decide (count > clkcount counter 0)) =
      above (counter 0 % 2 ^ 32) := by
    funext count
    rw [above, Bool.eq_iff_iff, decide_eq_true_iff, decide_eq_true_iff, gt_iff_lt, lt_def,
      toNat_clkcount]
  have hsecond : (fun count : Ulong =>
        decide (count < clkcount counter 0 + clkfreq / 1000 * us)) =
      below (counter 0 % 2 ^ 32 + ticks clkfreq us - 2 ^ 32) := by
    funext count
    rw [below, Bool.eq_iff_iff, decide_eq_true_iff, decide_eq_true_iff, lt_def, htarget]
  rw [udelay, if_neg hlt, hfirst, hsecond]

/-! ### Never early -/

/-- The readings that make `udelay` return early: the target wraps, the
second reading is the same as the first one, and the counter has not
wrapped at the third. -/
def Stalls (counter : Nat → Nat) (delay : Nat) : Prop :=
  2 ^ 32 ≤ counter 0 % 2 ^ 32 + delay ∧ counter 1 = counter 0 ∧
    counter 2 < counter 0 + (2 ^ 32 - counter 0 % 2 ^ 32)

instance (counter : Nat → Nat) (delay : Nat) : Decidable (Stalls counter delay) :=
  inferInstanceAs (Decidable (_ ∧ _ ∧ _))

theorem le_elapsed_unwrapped (hmono : ∀ i, counter i ≤ counter (i + 1))
    (h : counter 0 % 2 ^ 32 + ticks clkfreq us < 2 ^ 32)
    (hret : udelay counter fuel clkfreq us = .ok n) :
    ticks clkfreq us ≤ counter (n - 1) - counter 0 := by
  rw [udelay_unwrapped h] at hret
  obtain ⟨j, -, rfl, hj, -⟩ := spin_eq_ok hret
  have h0 : counter 0 ≤ counter j := monotone_nat_of_le_succ hmono (Nat.zero_le j)
  rw [between, decide_eq_false_iff_not, toNat_clkcount] at hj
  rw [Nat.add_sub_cancel]
  omega

theorem le_elapsed_wrapped (hmono : ∀ i, counter i ≤ counter (i + 1))
    (hd : ticks clkfreq us < 2 ^ 32) (h : 2 ^ 32 ≤ counter 0 % 2 ^ 32 + ticks clkfreq us)
    (hstalls : ¬Stalls counter (ticks clkfreq us))
    (hret : udelay counter fuel clkfreq us = .ok n) :
    ticks clkfreq us ≤ counter (n - 1) - counter 0 := by
  rw [udelay_wrapped hd h] at hret
  obtain ⟨i', hfirst, hsecond⟩ := bind_eq_ok hret
  obtain ⟨i, hi, rfl, hi', hbefore⟩ := spin_eq_ok hfirst
  obtain ⟨j, hij, rfl, hj, -⟩ := spin_eq_ok hsecond
  have hmono' : Monotone counter := monotone_nat_of_le_succ hmono
  have h1 := hmono' hi
  have h2 : counter 2 ≤ counter j := hmono' (Nat.le_trans (Nat.succ_le_succ hi) hij)
  have h0 : counter 0 ≤ counter 1 := hmono 0
  have hle : counter i ≤ counter j := hmono' (Nat.le_of_succ_le hij)
  rw [above, decide_eq_false_iff_not, toNat_clkcount] at hi'
  rw [below, decide_eq_false_iff_not, toNat_clkcount] at hj
  rw [Nat.add_sub_cancel]
  by_contra hearly
  -- Between the wrap and the target the second loop goes on, so the counter
  -- has not wrapped, and the first loop ended at a reading equal to `start`.
  exact hstalls ⟨h, by omega, by omega⟩

/-- With such readings it does return early, at the third one. -/
theorem udelay_of_stalls (hd : ticks clkfreq us < 2 ^ 32)
    (hmono : ∀ i, counter i ≤ counter (i + 1)) (h : Stalls counter (ticks clkfreq us)) :
    udelay counter 1 clkfreq us = .ok 3 ∧ counter 2 - counter 0 < ticks clkfreq us := by
  obtain ⟨hwrap, h1, h2⟩ := h
  have hle : counter 0 ≤ counter 2 := Nat.le_trans (hmono 0) (hmono 1)
  have hfirst : spin counter (above (counter 0 % 2 ^ 32)) 1 1 = .ok 2 := by
    refine if_neg ?_
    rw [above, decide_eq_true_iff, toNat_clkcount, h1]
    exact Nat.lt_irrefl _
  have hsecond : spin counter (below (counter 0 % 2 ^ 32 + ticks clkfreq us - 2 ^ 32)) 1 2 =
      .ok 3 := by
    refine if_neg ?_
    rw [below, decide_eq_true_iff, toNat_clkcount]
    omega
  refine ⟨?_, by omega⟩
  rw [udelay_wrapped hd hwrap, hfirst, ok_bind, hsecond]

/-- `udelay` waits at least as long as it should, except for readings that
make it return early. -/
theorem udelay_elapsed_iff (counter : Nat → Nat) (clkfreq us : Ulong)
    (hd : ticks clkfreq us < 2 ^ 32) (hadv : Advances counter (ticks clkfreq us)) :
    (∀ fuel n, udelay counter fuel clkfreq us = .ok n →
      ticks clkfreq us ≤ counter (n - 1) - counter 0) ↔
    ¬Stalls counter (ticks clkfreq us) := by
  constructor
  · intro h hstalls
    obtain ⟨hret, hearly⟩ := udelay_of_stalls hd hadv.le hstalls
    exact absurd (h 1 3 hret) (Nat.not_le.mpr hearly)
  · intro hstalls fuel n hret
    rcases Nat.lt_or_ge (counter 0 % 2 ^ 32 + ticks clkfreq us) (2 ^ 32) with h | h
    · exact le_elapsed_unwrapped hadv.le h hret
    · exact le_elapsed_wrapped hadv.le hd h hstalls hret

/-- A delay of 1000 ticks from just before the counter wraps. -/
theorem udelay_elapsed_wrapped :
    udelay (fun i => 2 ^ 32 - 1 + 500 * i) 1 1000000 1 = .ok 3 ∧
    ticks 1000000 1 ≤ (2 ^ 32 - 1 + 500 * 2) - (2 ^ 32 - 1 + 500 * 0) := by
  have hret : udelay (fun i => 2 ^ 32 - 1 + 500 * i) 1 1000000 1 = .ok 3 := by decide
  have hticks : ticks 1000000 1 = 1000 := by decide
  have hadv : Advances (fun i => 2 ^ 32 - 1 + 500 * i) (ticks 1000000 1) := by
    rw [hticks]
    exact ⟨fun i => by omega, fun i => by omega⟩
  exact ⟨hret, (udelay_elapsed_iff _ 1000000 1 (by decide) hadv).mpr (by decide) 1 3 hret⟩

/-- The same delay where the second reading comes before the next tick. It
ends after one tick. -/
theorem udelay_early :
    Advances (fun i => 2 ^ 32 - 2 + (i - 1)) (ticks 1000000 1) ∧ ticks 1000000 1 = 1000 ∧
    udelay (fun i => 2 ^ 32 - 2 + (i - 1)) 1 1000000 1 = .ok 3 ∧
    (2 ^ 32 - 2 + (2 - 1)) - (2 ^ 32 - 2 + (0 - 1)) = 1 := by
  have hticks : ticks 1000000 1 = 1000 := by decide
  refine ⟨?_, hticks, by decide, by decide⟩
  rw [hticks]
  exact ⟨fun i => by omega, fun i => by omega⟩

/-! ### It returns -/

/-- A counter that goes on comes to any value with a step that is not too
long. -/
theorem Advances.exists_crossing {delay i bound : Nat} (h : Advances counter delay)
    (hgoes : ∃ j, bound ≤ counter j) (hi : counter i < bound) :
    ∃ j, i < j ∧ bound ≤ counter j ∧ counter j < bound + (2 ^ 32 - delay) := by
  classical
  have hj := Nat.find_spec hgoes
  generalize hfind : Nat.find hgoes = j at hj
  have hij : i < j := by
    by_contra hle
    exact absurd (Nat.le_trans hj (h.mono (Nat.not_lt.mp hle))) (Nat.not_le.mpr hi)
  obtain ⟨k, rfl⟩ := Nat.exists_eq_succ_of_ne_zero (Nat.ne_of_gt (Nat.zero_lt_of_lt hij))
  have hk : ¬bound ≤ counter k := Nat.find_min hgoes (by omega)
  have hstep := h.lt k
  exact ⟨k + 1, hij, hj, by omega⟩

/-- Some reading is outside of the range of the only loop. -/
theorem exists_not_between (h : Advances counter (ticks clkfreq us))
    (hgoes : ∀ bound, ∃ j, bound ≤ counter j) :
    ∃ j, 1 ≤ j ∧ between (counter 0 % 2 ^ 32) (counter 0 % 2 ^ 32 + ticks clkfreq us)
      (clkcount counter j) = false := by
  rcases Nat.eq_zero_or_pos (ticks clkfreq us) with hzero | hpos
  · exact ⟨1, Nat.le_refl 1, decide_eq_false (by omega)⟩
  · obtain ⟨j, hj, hle, hlt⟩ := h.exists_crossing
      (hgoes (counter 0 + ticks clkfreq us)) (Nat.lt_add_of_pos_right hpos)
    refine ⟨j, hj, decide_eq_false ?_⟩
    rw [toNat_clkcount]
    omega

/-- Some reading ends the first of the two loops, at the latest after the
counter wrapped. -/
theorem exists_not_above (h : Advances counter (ticks clkfreq us))
    (hgoes : ∀ bound, ∃ j, bound ≤ counter j)
    (hwrap : 2 ^ 32 ≤ counter 0 % 2 ^ 32 + ticks clkfreq us) :
    ∃ j, 1 ≤ j ∧ above (counter 0 % 2 ^ 32) (clkcount counter j) = false := by
  obtain ⟨j, hj, hle, hlt⟩ := h.exists_crossing
    (hgoes (counter 0 + (2 ^ 32 - counter 0 % 2 ^ 32))) (i := 0) (by omega)
  refine ⟨j, hj, decide_eq_false ?_⟩
  rw [toNat_clkcount]
  omega

/-- From any reading on, some reading ends the second one. -/
theorem exists_not_below (hd : ticks clkfreq us < 2 ^ 32)
    (h : Advances counter (ticks clkfreq us)) (hgoes : ∀ bound, ∃ j, bound ≤ counter j) (i : Nat) :
    ∃ k, i ≤ k ∧
      below (counter 0 % 2 ^ 32 + ticks clkfreq us - 2 ^ 32) (clkcount counter k) = false := by
  by_cases hnow : counter i % 2 ^ 32 < counter 0 % 2 ^ 32 + ticks clkfreq us - 2 ^ 32
  · -- The next time the counter passes the target it is read before it wraps.
    obtain ⟨k, hk, hle, hlt⟩ := h.exists_crossing (i := i) (hgoes (counter i -
      counter i % 2 ^ 32 + (counter 0 % 2 ^ 32 + ticks clkfreq us - 2 ^ 32))) (by omega)
    refine ⟨k, Nat.le_of_lt hk, decide_eq_false ?_⟩
    rw [toNat_clkcount]
    omega
  · refine ⟨i, Nat.le_refl i, decide_eq_false ?_⟩
    rw [toNat_clkcount]
    exact hnow

/-- If the counter goes on, `udelay` returns. -/
theorem udelay_returns (hd : ticks clkfreq us < 2 ^ 32) (h : Advances counter (ticks clkfreq us))
    (hgoes : ∀ bound, ∃ j, bound ≤ counter j) :
    ∃ fuel n, udelay counter fuel clkfreq us = .ok n := by
  rcases Nat.lt_or_ge (counter 0 % 2 ^ 32 + ticks clkfreq us) (2 ^ 32) with hwrap | hwrap
  · obtain ⟨j, hj, hout⟩ := exists_not_between h hgoes
    obtain ⟨n, -, hn⟩ := spin_returns hj hout (Nat.lt_succ_self (j - 1))
    exact ⟨_, n, (udelay_unwrapped hwrap).trans hn⟩
  · obtain ⟨j, hj, hfirst⟩ := exists_not_above h hgoes hwrap
    obtain ⟨i, -, hi⟩ := spin_returns hj hfirst (Nat.lt_succ_self (j - 1))
    obtain ⟨k, hk, hsecond⟩ := exists_not_below hd h hgoes i
    obtain ⟨n, -, hn⟩ := spin_returns hk hsecond (Nat.lt_succ_self (k - i))
    -- Each loop has its own number of readings, and the fuel has to do for both.
    refine ⟨max (j - 1 + 1) (k - i + 1), n, ?_⟩
    rw [udelay_wrapped hd hwrap, spin_mono hi (Nat.le_max_left ..), ok_bind]
    exact spin_mono hn (Nat.le_max_right ..)

end

theorem udelay_returns_wrapped :
    ∃ fuel n, udelay (fun i => 2 ^ 32 - 1 + 500 * i) fuel 1000000 1 = .ok n := by
  have hticks : ticks 1000000 1 = 1000 := by decide
  refine udelay_returns (by decide) ?_ fun bound => ⟨bound, by omega⟩
  rw [hticks]
  exact ⟨fun i => by omega, fun i => by omega⟩

end Xinu.Timer
