import Xinu.System.Atomic

/-!
# `Xinu.Proofs.Machine.Atomic`: the routines on shared words are atomic

For each routine there is a table of assertions, one per instruction. A
core that has loaded its word exclusively knows that the word still has
the loaded value as long as it has the reservation, so at a store that
succeeds the word goes from the loaded value to the new one in one step.
That step is where the call is done. `_atomic_lock_check` of a lock in
use is done at the load.

With `Lib.Multicore.refines` this gives `arm_routines_linearize`.
-/

namespace Xinu.Arm

open Lib.Multicore Reg

/-- While there is a reservation, it is on `var`, where `x` stands. -/
def Linked (link : Option (Ulong × Ulong)) (var x : Ulong) : Prop :=
  ∀ p, link = some p → p = (var, x)

theorem Linked.none (var x : Ulong) : Linked none var x := nofun

theorem Linked.self (var x : Ulong) : Linked (some (var, x)) var x := by
  intro p hp
  exact (Option.some.inj hp).symm

/-! ### The end of a round

Each loop ends with an exclusive store, a test of its status in `r` and a
jump to the start. -/

section Round
variable {f : Frame Reg 32} {link : Option (Ulong × Ulong)} {st : Option Ulong} {again : Prop}
  {result : Ulong}

/-- The store has failed and there is another round, or the call is done. -/
def Stored (r : Reg) (f : Frame Reg 32) (st : Option Ulong) (again : Prop) (result : Ulong) :
    Prop :=
  (f.regs r = 1 ∧ again) ∨ (f.regs r = 0 ∧ st = some result)

/-- The same after the test. -/
def Tested (f : Frame Reg 32) (st : Option Ulong) (again : Prop) (result : Ulong) : Prop :=
  (f.flags = (1, 0) ∧ again) ∨ (f.flags = (0, 0) ∧ st = some result)

theorem Stored.cmpi {r : Reg} (h : Stored r f st again result) :
    Tested { f.next with flags := (f.regs r, 0) } st again result :=
  h.imp (And.imp_left (congrArg (·, 0))) (And.imp_left (congrArg (·, 0)))

theorem Tested.bne (Inv : Assert Reg 32) (h : Tested f st again result)
    (hagain : again → Inv { f with pc := 0 } link st)
    (hdone : st = some result → Inv f.next link st) :
    Inv (Local.exec f (.bc .ne 0)) link st := by
  obtain ⟨pc, regs, flags⟩ := f
  rcases h with ⟨hflags, h⟩ | ⟨hflags, h⟩
  · obtain rfl : flags = (1, 0) := hflags
    exact hagain h
  · obtain rfl : flags = (0, 0) := hflags
    exact hdone h

end Round

/-! ### The routines -/

/-- The assertions of `atomicAdd`. -/
def AddInv (value var : Ulong) : Assert Reg 32 := fun f link st =>
  match f.pc with
  | 0 | 1 => st = none ∧ f.regs r0 = var
  | 2 => (st = none ∧ f.regs r0 = var) ∧ Linked link var (f.regs r1)
  | 3 => (st = none ∧ f.regs r0 = var) ∧ ∃ x, Linked link var x ∧ f.regs r1 = x + value
  | 4 => Stored r2 f st (st = none ∧ f.regs r0 = var) (f.regs r1)
  | 5 => Tested f st (st = none ∧ f.regs r0 = var) (f.regs r1)
  | 6 => st = some (f.regs r1)
  | 7 | 8 => st = some (f.regs r0)
  | _ => False

/-- A routine that is `atomicAdd value` adds `value`. -/
theorem sound_atomicAdd {k : Routine} {value : Ulong} (hcode : program.code k = atomicAdd value)
    (heff : ∀ x, spec.Effect k x (x + value) (x + value)) :
    Sound program spec k (AddInv value k.addr) where
  call := by
    rintro ⟨pc, regs, flags⟩ link rfl h
    exact ⟨rfl, h.1⟩
  lose := by
    rintro ⟨pc, regs, flags⟩ link st h
    match pc with
    | 0 | 1 | 4 | 5 | 6 | 7 | 8 => exact h
    | 2 => exact ⟨h.1, .none _ _⟩
    | 3 =>
      obtain ⟨h, x, -, hx⟩ := h
      exact ⟨h, x, .none _ _, hx⟩
  step := by
    rintro ⟨pc, regs, flags⟩ link st o h hop
    rw [hcode] at hop
    match pc with
    | 0 | 6 | 7 | 8 => cases hop; exact h
    | 1 =>
      cases hop
      intro x
      exact ⟨st, .inl ⟨rfl, rfl⟩, h, h.2 ▸ .self _ x⟩
    | 2 => cases hop; exact ⟨h.1, regs r1, h.2, rfl⟩
    | 3 =>
      cases hop
      obtain ⟨⟨rfl, hr⟩, x, hlink, hx⟩ := h
      refine ⟨?_, .inl ⟨rfl, rfl, hr⟩⟩
      intro y hy
      obtain rfl : y = x := congrArg Prod.snd (hlink _ hy)
      refine ⟨some (y + value), .inr ⟨rfl, hr, y + value, ?_, rfl⟩,
        .inr ⟨rfl, congrArg some hx.symm⟩⟩
      rw [hx]
      exact heff y
    | 4 => cases hop; exact Stored.cmpi h
    | 5 => cases hop; exact Tested.bne (AddInv value k.addr) h id id

/-- The assertions of `atomicIncrementMod`. -/
def IncrementModInv (var mod : Ulong) : Assert Reg 32 := fun f link st =>
  let again := st = none ∧ f.regs r0 = var ∧ f.regs r1 = mod
  match f.pc with
  | 0 | 1 => again
  | 2 => again ∧ Linked link var (f.regs r2)
  | 3 => again ∧ ∃ x, Linked link var x ∧ f.regs r2 = x + 1
  | 4 => again ∧ ∃ x, Linked link var x ∧ f.regs r2 = x + 1 ∧ f.flags = (x + 1, mod)
  | 5 => again ∧ ∃ x, Linked link var x ∧ f.regs r2 = if mod.sle (x + 1) then 0 else x + 1
  | 6 => Stored r3 f st again (f.regs r2)
  | 7 => Tested f st again (f.regs r2)
  | 8 => st = some (f.regs r2)
  | 9 | 10 => st = some (f.regs r0)
  | _ => False

theorem sound_atomicIncrementMod (var mod : Ulong) :
    Sound program spec (.atomicIncrementMod var mod) (IncrementModInv var mod) where
  call := by
    rintro ⟨pc, regs, flags⟩ link rfl h
    exact ⟨rfl, h.1, h.2 var mod rfl⟩
  lose := by
    rintro ⟨pc, regs, flags⟩ link st h
    match pc with
    | 0 | 1 | 6 | 7 | 8 | 9 | 10 => exact h
    | 2 => exact ⟨h.1, .none _ _⟩
    | 3 | 4 | 5 =>
      obtain ⟨h, x, -, hx⟩ := h
      exact ⟨h, x, .none _ _, hx⟩
  step := by
    rintro ⟨pc, regs, flags⟩ link st o h hop
    match pc with
    | 0 | 8 | 9 | 10 => cases hop; exact h
    | 1 =>
      cases hop
      intro x
      exact ⟨st, .inl ⟨rfl, rfl⟩, h, h.2.1 ▸ .self _ x⟩
    | 2 => cases hop; exact ⟨h.1, regs r2, h.2, rfl⟩
    | 3 =>
      cases hop
      obtain ⟨h, x, hlink, hx⟩ := h
      exact ⟨h, x, hlink, hx, congrArg₂ Prod.mk hx h.2.2⟩
    | 4 =>
      cases hop
      obtain ⟨h, x, hlink, hx, hflags⟩ := h
      obtain rfl : flags = (x + 1, mod) := hflags
      -- The word wraps when the comparison says so, and the register is
      -- left alone otherwise.
      cases hge : mod.sle (x + 1) with
      | true =>
        rw [Obliged, Local.exec, if_pos (show Cond.holds (x + 1) mod .ge = true from hge)]
        exact ⟨h, x, hlink, by rw [if_pos hge]; rfl⟩
      | false =>
        have hlt : ¬ mod.sle (x + 1) = true := hge ▸ Bool.false_ne_true
        rw [Obliged, Local.exec, if_neg (show ¬ Cond.holds (x + 1) mod .ge = true from hlt)]
        exact ⟨h, x, hlink, by rw [if_neg hlt]; exact hx⟩
    | 5 =>
      cases hop
      obtain ⟨⟨rfl, h⟩, x, hlink, hx⟩ := h
      refine ⟨?_, .inl ⟨rfl, rfl, h⟩⟩
      intro y hy
      obtain rfl : y = x := congrArg Prod.snd (hlink _ hy)
      exact ⟨some (regs r2), .inr ⟨rfl, h.1, regs r2, ⟨hx, rfl⟩, rfl⟩, .inr ⟨rfl, rfl⟩⟩
    | 6 => cases hop; exact Stored.cmpi h
    | 7 => cases hop; exact Tested.bne (IncrementModInv var mod) h id id

/-- The assertions of `atomicLockCheck`. -/
def LockCheckInv (state : Ulong) : Assert Reg 32 := fun f link st =>
  match f.pc with
  | 0 | 1 => st = none ∧ f.regs r0 = state
  | 2 => f.regs r0 = state ∧ ((f.regs r1 = 1 ∧ st = none ∧ Linked link state 1) ∨
      (f.regs r1 ≠ 1 ∧ st = some (-1)))
  | 3 => f.regs r0 = state ∧ ((f.flags = (1, 1) ∧ f.regs r1 = 1 ∧ st = none ∧ Linked link state 1) ∨
      (f.flags.1 ≠ f.flags.2 ∧ st = some (-1)))
  | 4 | 5 | 6 => st = some (-1)
  | 7 => st = some (f.regs r0)
  | 8 => (st = none ∧ f.regs r0 = state) ∧ f.regs r1 = 1 ∧ Linked link state 1
  | 9 => (st = none ∧ f.regs r0 = state) ∧ f.regs r1 = 2 ∧ Linked link state 1
  | 10 => Stored r2 f st (st = none ∧ f.regs r0 = state) 0
  | 11 => Tested f st (st = none ∧ f.regs r0 = state) 0
  | 12 | 13 => st = some 0
  | 14 => st = some (f.regs r0)
  | _ => False

theorem effect_atomicLockCheck_free (state : Ulong) :
    spec.Effect (.atomicLockCheck state) 1 0 2 := by
  simp [spec, SPINLOCK_FREE, SPINLOCK_USED]

theorem sound_atomicLockCheck (state : Ulong) :
    Sound program spec (.atomicLockCheck state) (LockCheckInv state) where
  call := by
    rintro ⟨pc, regs, flags⟩ link rfl h
    exact ⟨rfl, h.1⟩
  lose := by
    rintro ⟨pc, regs, flags⟩ link st h
    match pc with
    | 0 | 1 | 4 | 5 | 6 | 7 | 10 | 11 | 12 | 13 | 14 => exact h
    | 2 => exact ⟨h.1, h.2.imp_left fun h => ⟨h.1, h.2.1, .none _ _⟩⟩
    | 3 => exact ⟨h.1, h.2.imp_left fun h => ⟨h.1, h.2.1, h.2.2.1, .none _ _⟩⟩
    | 8 | 9 => exact ⟨h.1, h.2.1, .none _ _⟩
  step := by
    rintro ⟨pc, regs, flags⟩ link st o h hop
    match pc with
    | 0 | 4 | 5 | 6 | 7 | 12 | 13 | 14 => cases hop; exact h
    | 1 =>
      cases hop
      intro x
      obtain ⟨rfl, rfl⟩ : st = none ∧ regs r0 = state := h
      -- A lock that is in use is found here, and the call is done.
      by_cases hx : x = 1
      · subst hx
        exact ⟨none, .inl ⟨rfl, rfl⟩, rfl, .inl ⟨rfl, rfl, .self _ 1⟩⟩
      · exact ⟨some (-1), .inr ⟨rfl, rfl, -1, (if_neg hx).mpr ⟨rfl, rfl⟩, rfl⟩, rfl, .inr ⟨hx, rfl⟩⟩
    | 2 =>
      cases hop
      exact ⟨h.1, h.2.imp_left fun h => ⟨congrArg (·, 1) h.1, h⟩⟩
    | 3 =>
      cases hop
      obtain ⟨hr, ⟨hflags, h1, hst, hlink⟩ | ⟨hflags, hst⟩⟩ := h
      · obtain rfl : flags = (1, 1) := hflags
        exact ⟨⟨hst, hr⟩, h1, hlink⟩
      · rw [Obliged, Local.exec, if_neg (mt Cond.holds_eq.mp hflags)]
        exact hst
    | 8 =>
      cases hop
      refine ⟨h.1, ?_, h.2.2⟩
      show regs r1 + 1 = 2
      rw [show regs r1 = 1 from h.2.1]
      rfl
    | 9 =>
      cases hop
      obtain ⟨⟨rfl, hr⟩, h1, hlink⟩ := h
      refine ⟨?_, .inl ⟨rfl, rfl, hr⟩⟩
      intro y hy
      obtain rfl : y = 1 := congrArg Prod.snd (hlink _ hy)
      refine ⟨some 0, .inr ⟨rfl, hr, 0, ?_, rfl⟩, .inr ⟨rfl, rfl⟩⟩
      rw [h1]
      exact effect_atomicLockCheck_free state
    | 10 => cases hop; exact Stored.cmpi h
    | 11 => cases hop; exact Tested.bne (LockCheckInv state) h id id

/-- The assertions of `lockAcquire`. -/
def AcquireInv (lock : Ulong) : Assert Reg 32 := fun f link st =>
  f.regs r0 = lock ∧
  match f.pc with
  | 0 | 1 => st = none
  | 2 => st = none ∧ Linked link lock (f.regs r1)
  | 3 => st = none ∧ f.flags.2 = SPINLOCK_LOCKED ∧ Linked link lock f.flags.1
  | 4 => st = none ∧ ∃ x ≠ SPINLOCK_LOCKED, Linked link lock x
  | 5 => st = none ∧ f.regs r1 = SPINLOCK_LOCKED ∧ ∃ x ≠ SPINLOCK_LOCKED, Linked link lock x
  | 6 => Stored r2 f st (st = none) lock
  | 7 => Tested f st (st = none) lock
  | 8 | 9 => st = some lock
  | _ => False

theorem sound_lockAcquire (lock : Ulong) :
    Sound program spec (.lockAcquire lock) (AcquireInv lock) where
  call := by
    rintro ⟨pc, regs, flags⟩ link rfl h
    exact ⟨h.1, rfl⟩
  lose := by
    rintro ⟨pc, regs, flags⟩ link st ⟨hr, h⟩
    refine ⟨hr, ?_⟩
    match pc with
    | 0 | 1 | 6 | 7 | 8 | 9 => exact h
    | 2 => exact ⟨h.1, .none _ _⟩
    | 3 => exact ⟨h.1, h.2.1, .none _ _⟩
    | 4 => exact ⟨h.1, 0, by decide, .none _ _⟩
    | 5 => exact ⟨h.1, h.2.1, 0, by decide, .none _ _⟩
  step := by
    rintro ⟨pc, regs, flags⟩ link st o ⟨hr, h⟩ hop
    match pc with
    | 0 | 8 => cases hop; exact ⟨hr, h⟩
    | 1 =>
      cases hop
      intro x
      exact ⟨st, .inl ⟨rfl, rfl⟩, hr, h, hr ▸ .self _ x⟩
    | 2 => cases hop; exact ⟨hr, h.1, rfl, h.2⟩
    | 3 =>
      cases hop
      obtain ⟨hst, hlocked, hlink⟩ := h
      -- A lock that is taken sends the core back to the start.
      by_cases hx : flags.1 = flags.2
      · rw [Obliged, Local.exec, if_pos (Cond.holds_eq.mpr hx)]
        exact ⟨hr, hst⟩
      · rw [Obliged, Local.exec, if_neg (mt Cond.holds_eq.mp hx)]
        exact ⟨hr, hst, flags.1, fun heq => hx (heq.trans hlocked.symm), hlink⟩
    | 4 => cases hop; exact ⟨hr, h.1, rfl, h.2⟩
    | 5 =>
      cases hop
      obtain ⟨rfl, h1, x, hx, hlink⟩ := h
      refine ⟨?_, hr, .inl ⟨rfl, rfl⟩⟩
      intro y hy
      obtain rfl : y = x := congrArg Prod.snd (hlink _ hy)
      exact ⟨some lock, .inr ⟨rfl, hr, lock, ⟨hx, h1, rfl⟩, rfl⟩, hr, .inr ⟨rfl, rfl⟩⟩
    | 6 => cases hop; exact ⟨hr, Stored.cmpi h⟩
    | 7 => cases hop; exact Tested.bne (AcquireInv lock) h (⟨hr, ·⟩) (⟨hr, ·⟩)
    | 9 => cases hop; exact h.trans (congrArg some hr.symm)

/-- The assertions of `lockRelease`. -/
def ReleaseInv (lock : Ulong) : Assert Reg 32 := fun f _ st =>
  f.regs r0 = lock ∧
  match f.pc with
  | 0 => st = none
  | 1 | 2 => st = none ∧ f.regs r1 = SPINLOCK_UNLOCKED
  | 3 | 4 => st = some lock
  | _ => False

theorem sound_lockRelease (lock : Ulong) :
    Sound program spec (.lockRelease lock) (ReleaseInv lock) where
  call := by
    rintro ⟨pc, regs, flags⟩ link rfl h
    exact ⟨h.1, rfl⟩
  lose _ _ _ h := h
  step := by
    rintro ⟨pc, regs, flags⟩ link st o ⟨hr, h⟩ hop
    match pc with
    | 0 => cases hop; exact ⟨hr, h, rfl⟩
    | 1 | 3 => cases hop; exact ⟨hr, h⟩
    | 2 =>
      cases hop
      intro x
      obtain ⟨rfl, h1⟩ := h
      exact ⟨some lock, .inr ⟨rfl, hr, lock, ⟨h1, rfl⟩, rfl⟩, fun _ => ⟨hr, rfl⟩⟩
    | 4 => cases hop; exact h.trans (congrArg some hr.symm)

/-- The assertions of all routines. -/
def Assertion : Routine → Assert Reg 32
  | .atomicIncrement var => AddInv 1 var
  | .atomicDecrement var => AddInv (-1) var
  | .atomicIncrementMod var mod => IncrementModInv var mod
  | .atomicLockCheck state => LockCheckInv state
  | .lockAcquire lock => AcquireInv lock
  | .lockRelease lock => ReleaseInv lock

theorem sound_routine : ∀ k, Sound program spec k (Assertion k)
  | .atomicIncrement _ => sound_atomicAdd rfl fun _ => ⟨rfl, rfl⟩
  | .atomicDecrement _ => sound_atomicAdd rfl fun _ => ⟨rfl, rfl⟩
  | .atomicIncrementMod var mod => sound_atomicIncrementMod var mod
  | .atomicLockCheck state => sound_atomicLockCheck state
  | .lockAcquire lock => sound_lockAcquire lock
  | .lockRelease lock => sound_lockRelease lock

/-- Whatever routines the cores call, and in whatever order they take
their instructions, the callers see what they would see if each call were
one step. -/
theorem arm_routines_linearize {C : Type} [DecidableEq C] {s s' : State C Routine Reg 32}
    {l : List (State C Routine Reg 32 × Move C Routine Reg 32)}
    (hidle : ∀ c, s.running c = none)
    (hrun : Lib.Run (State.Permitted program) (State.exec program) s l s') :
    ∃ l' t', Lib.Run (Lib.Atomic.Permitted spec.effect) Lib.Atomic.exec
        ⟨s.mem, fun _ : C => none⟩ l' t' ∧
      l'.filterMap Lib.Atomic.event = l.filterMap (State.event program) ∧ t'.state = s'.mem ∧
      ∀ c, t'.running c = none ↔ s'.running c = none :=
  refines sound_routine hidle hrun

/-- Two idle cores and an empty memory. -/
def rest : State Bool Routine Reg 32 := ⟨fun _ => 0, fun _ => none, fun _ => none⟩

/-- Two increments of the word at 8. Both cores load it, the second core
stores first, and the first one has to go round again. -/
def raced : List (Move Bool Routine Reg 32) :=
  [.call false (.atomicIncrement 8) ⟨0, fun _ => 8, (0, 0)⟩,
    .call true (.atomicIncrement 8) ⟨0, fun _ => 8, (0, 0)⟩]
  ++ List.replicate 2 (.step false) ++ List.replicate 8 (.step true) ++ [.ret true]
  ++ List.replicate 12 (.step false) ++ [.ret false]

/-- The calls and results of `raced`. -/
def racedEvents : List (Lib.Event Bool Routine Ulong) :=
  [.call false (.atomicIncrement 8), .call true (.atomicIncrement 8),
    .ret true (.atomicIncrement 8) 1, .ret false (.atomicIncrement 8) 2]

theorem exists_raced : ∃ l s',
    Lib.Run (State.Permitted program) (State.exec program) rest l s' ∧
      l.filterMap (State.event program) = racedEvents ∧ ∀ c, s'.running c = none := by
  obtain ⟨l, s', hrun, h⟩ := Lib.Run.exists_of_record (State.Permitted program) (State.exec program)
    rest raced (fun x => decide (x.1.filterMap (State.event program) = racedEvents) &&
      (x.2.running false).isNone && (x.2.running true).isNone) (by decide +kernel)
  simp only [Bool.and_eq_true, decide_eq_true_eq, Option.isNone_iff_eq_none] at h
  exact ⟨l, s', hrun, h.1.1, by rintro (_ | _); exacts [h.1.2, h.2]⟩

theorem arm_routines_linearize_raced :
    ∃ l' t', Lib.Run (Lib.Atomic.Permitted spec.effect) Lib.Atomic.exec
        ⟨rest.mem, fun _ : Bool => none⟩ l' t' ∧
      l'.filterMap Lib.Atomic.event = racedEvents := by
  obtain ⟨l, s', hrun, hev, -⟩ := exists_raced
  obtain ⟨l', t', hrun', hev', -⟩ := arm_routines_linearize (fun _ => rfl) hrun
  exact ⟨l', t', hrun', hev'.trans hev⟩

end Xinu.Arm
