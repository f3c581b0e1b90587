import Xinu.Lib.Multicore
import Xinu.System.Context
import Xinu.System.Spinlock

/-!
# `Xinu.System.Atomic`: the assembly routines on shared words

`atomic.S` and `spinlock_util.S`, instruction by instruction. A jump
target is the index of an instruction in the list. `pldw` and `dmb` are
hints and barriers: the memory of `Xinu.Lib.Multicore` needs none.

`Arm.spec` says what each routine is for, as one step on its word. A
routine that waits has no step as long as it has to wait.
-/

namespace Xinu.Arm

open Lib.Multicore Reg

/-- The routines, with their arguments. -/
inductive Routine where
  | atomicIncrement (var : Ulong)
  | atomicDecrement (var : Ulong)
  | atomicIncrementMod (var mod : Ulong)
  | atomicLockCheck (state : Ulong)
  | lockAcquire (lock : Ulong)
  | lockRelease (lock : Ulong)
deriving DecidableEq

/-- The word that a routine works on. -/
def Routine.addr : Routine → Ulong
  | atomicIncrement var | atomicDecrement var | atomicIncrementMod var _ => var
  | atomicLockCheck state => state
  | lockAcquire lock | lockRelease lock => lock

/-- The loop of `_atomic_increment` and `_atomic_decrement`, which add a
constant. -/
def atomicAdd (value : Ulong) : List (Op Reg 32) :=
  [.loc .nop,
    .ldx r1 r0,
    .loc (.addi r1 r1 value),
    .stx r2 r1 r0,
    .loc (.cmpi r2 0),
    .loc (.bc .ne 0),
    .loc (.mov r0 r1),
    .loc .nop,
    .ret]

/-- `_atomic_increment(var)`. -/
def atomicIncrement : List (Op Reg 32) := atomicAdd 1

/-- `_atomic_decrement(var)`. -/
def atomicDecrement : List (Op Reg 32) := atomicAdd (-1)

/-- `_atomic_increment_mod(var, mod)`. -/
def atomicIncrementMod : List (Op Reg 32) :=
  [.loc .nop,
    .ldx r2 r0,
    .loc (.addi r2 r2 1),
    .loc (.cmp r2 r1),
    .loc (.movc .ge r2 0),
    .stx r3 r2 r0,
    .loc (.cmpi r3 0),
    .loc (.bc .ne 0),
    .loc (.mov r0 r2),
    .loc .nop,
    .ret]

/-- `_atomic_lock_check(state)`. The label `_increment` is at 8. -/
def atomicLockCheck : List (Op Reg 32) :=
  [.loc .nop,
    .ldx r1 r0,
    .loc (.cmpi r1 (SPINLOCK_FREE.setWidth 32)),
    .loc (.bc .eq 8),
    .clrex,
    .loc .nop,
    .loc (.li r0 (-1)),
    .ret,
    .loc (.addi r1 r1 1),
    .stx r2 r1 r0,
    .loc (.cmpi r2 0),
    .loc (.bc .ne 0),
    .loc .nop,
    .loc (.li r0 0),
    .ret]

/-- `_lock_acquire(lock)`. -/
def lockAcquire : List (Op Reg 32) :=
  [.loc .nop,
    .ldx r1 r0,
    .loc (.cmpi r1 SPINLOCK_LOCKED),
    .loc (.bc .eq 0),
    .loc (.li r1 SPINLOCK_LOCKED),
    .stx r2 r1 r0,
    .loc (.cmpi r2 0),
    .loc (.bc .ne 0),
    .loc .nop,
    .ret]

/-- `_lock_release(lock)`. -/
def lockRelease : List (Op Reg 32) :=
  [.loc (.li r1 SPINLOCK_UNLOCKED),
    .loc .nop,
    .st r1 r0,
    .loc .nop,
    .ret]

/-- The routines as code, with their arguments in `r0` and `r1` and their
result in `r0`. -/
def program : Program Routine Reg 32 where
  code
    | .atomicIncrement _ => atomicIncrement
    | .atomicDecrement _ => atomicDecrement
    | .atomicIncrementMod _ _ => atomicIncrementMod
    | .atomicLockCheck _ => atomicLockCheck
    | .lockAcquire _ => lockAcquire
    | .lockRelease _ => lockRelease
  Entry k regs := regs r0 = k.addr ∧ ∀ var mod, k = .atomicIncrementMod var mod → regs r1 = mod
  res := r0

instance (k : Routine) (regs : Reg → Ulong) : Decidable (program.Entry k regs) :=
  match k with
  | .atomicIncrement _ | .atomicDecrement _ | .atomicLockCheck _ | .lockAcquire _ |
    .lockRelease _ =>
    decidable_of_iff (regs r0 = _) ⟨fun h => ⟨h, nofun⟩, And.left⟩
  | .atomicIncrementMod _ mod =>
    decidable_of_iff (regs r0 = _ ∧ regs r1 = mod)
      ⟨fun h => ⟨h.1, fun _ _ heq => by cases heq; exact h.2⟩, fun h => ⟨h.1, h.2 _ _ rfl⟩⟩

/-- What the routines do to their word. The two routines without a result
leave their argument in `r0`. -/
def spec : Contract Routine 32 where
  addr := Routine.addr
  Effect k x r y :=
    match k with
    | .atomicIncrement _ => y = x + 1 ∧ r = y
    | .atomicDecrement _ => y = x + -1 ∧ r = y
    | .atomicIncrementMod _ mod => y = (if mod.sle (x + 1) then 0 else x + 1) ∧ r = y
    | .atomicLockCheck _ =>
      if x = SPINLOCK_FREE.setWidth 32 then y = SPINLOCK_USED.setWidth 32 ∧ r = 0
      else y = x ∧ r = -1
    | .lockAcquire lock => x ≠ SPINLOCK_LOCKED ∧ y = SPINLOCK_LOCKED ∧ r = lock
    | .lockRelease lock => y = SPINLOCK_UNLOCKED ∧ r = lock

end Xinu.Arm
