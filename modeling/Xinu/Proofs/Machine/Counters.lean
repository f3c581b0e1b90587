import Mathlib.Tactic.Ring
import Xinu.Lib.Exclusion
import Xinu.Proofs.Machine.Atomic

/-!
# `Xinu.Proofs.Machine.Counters`: counters and locks on several cores

What the kernel uses the routines on shared words for. `numproc` is
counted up by `create` and down by `kill` on all cores: no update is lost
(`counter_exact`). `newqueue` takes its slots from `nextqueue`: no two
calls get the same number (`tickets_exact`). The spinlocks keep the cores
out of each other's sections (`arm_lock_exclusion`).
-/

namespace Xinu.Arm

open Lib.Multicore Function List

section Sequential
variable {C : Type} {mem mem' : Ulong → Ulong} {l : List (C × Routine × Ulong)} {var : Ulong}

/-- The number of calls of `k` in the list. -/
def calls (k : Routine) (l : List (C × Routine × Ulong)) : Nat := l.countP fun x => x.2.1 = k

/-- The results of the calls of `k` in the list. -/
def results (k : Routine) (l : List (C × Routine × Ulong)) : List Ulong :=
  (l.filter fun x => x.2.1 = k).map fun x => x.2.2

theorem calls_snoc (k k' : Routine) (c : C) (r : Ulong) :
    calls k (l ++ [(c, k', r)]) = calls k l + if k' = k then 1 else 0 := by
  simp [calls, countP_append, countP_singleton]

theorem ofNat_succ (n : Nat) : BitVec.ofNat 32 (n + 1) = BitVec.ofNat 32 n + 1 :=
  BitVec.ofNat_add n 1

/-- One call after the other, the word has gone up by the increments and
down by the decrements. -/
theorem counter_of_sequential (h : Lib.Sequential spec.effect mem l mem')
    (honly : ∀ x ∈ l, spec.addr x.2.1 = var →
      x.2.1 = .atomicIncrement var ∨ x.2.1 = .atomicDecrement var) :
    mem' var = mem var + BitVec.ofNat 32 (calls (.atomicIncrement var) l)
      - BitVec.ofNat 32 (calls (.atomicDecrement var) l) := by
  induction h with
  | nil => simp [calls]
  | @snoc mem' _ l c k r h heff ih =>
    obtain ⟨y, heff, rfl⟩ := heff
    have ih := ih fun x hx => honly x (mem_append_left _ hx)
    rw [calls_snoc, calls_snoc]
    by_cases ha : spec.addr k = var
    · rcases honly (c, k, r) (by simp) ha with rfl | rfl <;> obtain ⟨rfl, -⟩ := heff
      all_goals
        rw [ha, update_self, ih, if_pos rfl, if_neg nofun, ofNat_succ, Nat.add_zero]
        ring
    · have hinc : k ≠ .atomicIncrement var := by rintro rfl; exact ha rfl
      have hdec : k ≠ .atomicDecrement var := by rintro rfl; exact ha rfl
      rw [update_of_ne (Ne.symm ha), ih, if_neg hinc, if_neg hdec]
      rfl

/-- One increment after the other, each returns the next number. -/
theorem tickets_of_sequential (h : Lib.Sequential spec.effect mem l mem')
    (honly : ∀ x ∈ l, spec.addr x.2.1 = var → x.2.1 = .atomicIncrement var) :
    mem' var = mem var + BitVec.ofNat 32 (calls (.atomicIncrement var) l) ∧
      results (.atomicIncrement var) l
        = (List.range (calls (.atomicIncrement var) l)).map
          fun i => mem var + BitVec.ofNat 32 (i + 1) := by
  induction h with
  | nil => simp [calls, results]
  | @snoc mem' _ l c k r h heff ih =>
    obtain ⟨y, heff, rfl⟩ := heff
    obtain ⟨ihmem, ihres⟩ := ih fun x hx => honly x (mem_append_left _ hx)
    rw [calls_snoc]
    by_cases ha : spec.addr k = var
    · obtain rfl : k = .atomicIncrement var := honly (c, k, r) (by simp) ha
      obtain ⟨rfl, rfl⟩ := heff
      rw [ha, update_self, ihmem, if_pos rfl, range_succ, map_append, ← ihres]
      have hnext : mem var + BitVec.ofNat 32 (calls (.atomicIncrement var) l) + 1
          = mem var + BitVec.ofNat 32 (calls (.atomicIncrement var) l + 1) := by
        rw [ofNat_succ, add_assoc]
      refine ⟨hnext, ?_⟩
      rw [map_singleton, ← hnext]
      simp [results]
    · have hinc : k ≠ .atomicIncrement var := by rintro rfl; exact ha rfl
      rw [update_of_ne (Ne.symm ha), if_neg hinc, Nat.add_zero, ← ihres]
      exact ⟨ihmem, by simp [results, hinc]⟩

end Sequential

section Runs
variable {C : Type} [DecidableEq C] {s s' : State C Routine Reg 32}
  {l : List (State C Routine Reg 32 × Move C Routine Reg 32)}

/-- The calls of a run that have returned, each with its core and its
result. -/
def returns (l : List (State C Routine Reg 32 × Move C Routine Reg 32)) :
    List (C × Routine × Ulong) :=
  (l.filterMap (State.event program)).filterMap Lib.Event.returned

/-- When all calls have returned, they might as well have been made one
after the other. -/
theorem exists_order (hidle : ∀ c, s.running c = none)
    (hrun : Lib.Run (State.Permitted program) (State.exec program) s l s')
    (hidle' : ∀ c, s'.running c = none) :
    ∃ order, Lib.Sequential spec.effect s.mem order s'.mem ∧ order.Perm (returns l) := by
  obtain ⟨l', t', hrun', hev, hmem, hrunning⟩ :=
    refines sound_routine hidle hrun
  obtain ⟨order, hseq, hperm⟩ :=
    Lib.Atomic.exists_sequential hrun' fun c => (hrunning c).mpr (hidle' c)
  exact ⟨order, hmem ▸ hseq, by rw [returns, ← hev]; exact hperm⟩

/-- No update is lost: a counter that the cores increment and decrement
has gone up by the number of increments and down by the number of
decrements. -/
theorem counter_exact (hidle : ∀ c, s.running c = none)
    (hrun : Lib.Run (State.Permitted program) (State.exec program) s l s')
    (hidle' : ∀ c, s'.running c = none) (var : Ulong)
    (honly : ∀ x ∈ returns l, spec.addr x.2.1 = var →
      x.2.1 = .atomicIncrement var ∨ x.2.1 = .atomicDecrement var) :
    s'.mem var = s.mem var + BitVec.ofNat 32 (calls (.atomicIncrement var) (returns l))
      - BitVec.ofNat 32 (calls (.atomicDecrement var) (returns l)) := by
  obtain ⟨order, hseq, hperm⟩ := exists_order hidle hrun hidle'
  have h := counter_of_sequential hseq fun x hx => honly x (hperm.subset hx)
  rwa [calls, hperm.countP_eq, calls, hperm.countP_eq] at h

theorem counter_exact_raced : ∃ l s',
    Lib.Run (State.Permitted program) (State.exec program) rest l s' ∧ s'.mem 8 = 2 := by
  obtain ⟨l, s', hrun, hev, hidle'⟩ := exists_raced
  have hret : returns l = racedEvents.filterMap Lib.Event.returned := congrArg _ hev
  have h := counter_exact (fun _ => rfl) hrun hidle' 8 (by rw [hret]; decide)
  exact ⟨l, s', hrun, h.trans (by rw [hret]; decide)⟩

/-- No number is given out twice: the increments of a counter that is
only incremented return, in some order, the numbers that follow its first
value. -/
theorem tickets_exact (hidle : ∀ c, s.running c = none)
    (hrun : Lib.Run (State.Permitted program) (State.exec program) s l s')
    (hidle' : ∀ c, s'.running c = none) (var : Ulong)
    (honly : ∀ x ∈ returns l, spec.addr x.2.1 = var → x.2.1 = .atomicIncrement var) :
    (results (.atomicIncrement var) (returns l)).Perm
      ((List.range (calls (.atomicIncrement var) (returns l))).map
        fun i => s.mem var + BitVec.ofNat 32 (i + 1)) := by
  obtain ⟨order, hseq, hperm⟩ := exists_order hidle hrun hidle'
  obtain ⟨-, h⟩ := tickets_of_sequential hseq fun x hx => honly x (hperm.subset hx)
  rw [calls, hperm.countP_eq] at h
  have hres := (hperm.filter fun x => decide (x.2.1 = .atomicIncrement var)).map fun x => x.2.2
  exact hres.symm.trans (.of_eq h)

theorem tickets_exact_raced : ∃ l s',
    Lib.Run (State.Permitted program) (State.exec program) rest l s' ∧
      (results (.atomicIncrement 8) (returns l)).Perm [1, 2] := by
  obtain ⟨l, s', hrun, hev, hidle'⟩ := exists_raced
  have hret : returns l = racedEvents.filterMap Lib.Event.returned := congrArg _ hev
  refine ⟨l, s', hrun, (tickets_exact (fun _ => rfl) hrun hidle' 8 (by rw [hret]; decide)).trans ?_⟩
  rw [hret]
  exact .of_eq (by decide)

/-- Two cores do not hold a lock at the same time. -/
theorem arm_lock_exclusion (hidle : ∀ c, s.running c = none)
    (hrun : Lib.Run (State.Permitted program) (State.exec program) s l s') {lock : Ulong}
    (hallowed : Lib.Follows (Allowed spec (.lockAcquire lock) (.lockRelease lock))
      (l.filterMap (State.event program))) {c d : C}
    (hc : Holds (.lockAcquire lock) (.lockRelease lock) c (l.filterMap (State.event program)))
    (hd : Holds (.lockAcquire lock) (.lockRelease lock) d (l.filterMap (State.event program))) :
    c = d ∧ s'.mem lock = SPINLOCK_LOCKED := by
  obtain ⟨l', t', hrun', hev, hmem, -⟩ := refines sound_routine hidle hrun
  rw [← hev] at hallowed hc hd
  have hne : Routine.lockAcquire lock ≠ .lockRelease lock := nofun
  have hacq : ∀ x r y, spec.Effect (.lockAcquire lock) x r y →
      x ≠ SPINLOCK_LOCKED ∧ y = SPINLOCK_LOCKED := fun x r y h => ⟨h.1, h.2.1⟩
  rw [← hmem]
  exact Words.exclusion hne rfl hacq hrun' hallowed hc hd

end Runs

/-- Core `false` takes the lock at 8, core `true` tries to and has to
wait. -/
def waited : List (Move Bool Routine Reg 32) :=
  [.call false (.lockAcquire 8) ⟨0, fun _ => 8, (0, 0)⟩,
    .call true (.lockAcquire 8) ⟨0, fun _ => 8, (0, 0)⟩]
  ++ List.replicate 2 (.step true) ++ List.replicate 9 (.step false) ++ [.ret false]
  ++ List.replicate 20 (.step true)

/-- The calls and results of `waited`. -/
def waitedEvents : List (Lib.Event Bool Routine Ulong) :=
  [.call false (.lockAcquire 8), .call true (.lockAcquire 8), .ret false (.lockAcquire 8) 8]

theorem arm_lock_exclusion_waited : ∃ l s',
    Lib.Run (State.Permitted program) (State.exec program) rest l s' ∧
      (∀ c, Holds (.lockAcquire 8) (.lockRelease 8) c (l.filterMap (State.event program)) →
        false = c ∧ s'.mem 8 = SPINLOCK_LOCKED) := by
  obtain ⟨l, s', hrun, h⟩ := Lib.Run.exists_of_record (State.Permitted program)
    (State.exec program) rest waited
    (fun x => decide (x.1.filterMap (State.event program) = waitedEvents)) (by decide +kernel)
  have hev : l.filterMap (State.event program) = waitedEvents := of_decide_eq_true h
  refine ⟨l, s', hrun, fun c hc => ?_⟩
  refine arm_lock_exclusion (fun _ => rfl) hrun ?_ (by rw [hev]; decide) hc
  rw [hev]
  exact ((Lib.Follows.nil.snoc fun _ => .inl rfl).snoc fun _ => .inl rfl).snoc trivial

end Xinu.Arm
