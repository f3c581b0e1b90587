import Xinu.Lib.Cursor
import Xinu.System.Types

/-!
# `Xinu.System.Spinlock`: the table of spinlocks

`spinlock.c` with the part of `platforminit` that clears the table. A
lock is an index into `locktab`, of type `unsigned int`, so it is never
negative. `lock_alloc` searches the table from a static variable that it
advances before each look.

`isbadlock` lets `NLOCK` itself pass and then reads one entry past the
table.
-/

namespace Xinu

/-- Number of spinlocks, `spinlock.h`. -/
abbrev NLOCK : Nat := 150

def SPINLOCK_FREE : BitVec 8 := 0x01
def SPINLOCK_USED : BitVec 8 := 0x02

def SPINLOCK_LOCKED : BitVec 32 := 0x01
def SPINLOCK_UNLOCKED : BitVec 32 := 0x00

/-- `struct lockent`. -/
structure Lockent where
  state : BitVec 8
  lock : BitVec 32
  core : Int
deriving DecidableEq

/-- The table, and the static variable of `lock_alloc`. -/
structure Locktab where
  locktab : Nat → Lockent
  nextlock : Nat

namespace Locktab

/-- `locktab[lock]`. -/
def ent (t : Locktab) (lock : Nat) : Except Fault Lockent :=
  if lock < NLOCK then .ok (t.locktab lock) else .error .outOfBounds

/-- `locktab[lock] = e`, for a `lock` that was read before. -/
def setEnt (t : Locktab) (lock : Nat) (e : Lockent) : Locktab :=
  { t with locktab := Function.update t.locktab lock e }

/-- `_atomic_increment_mod(&nextlock, NLOCK)`. -/
def bumpNextlock (t : Locktab) : Locktab := { t with nextlock := Lib.bump NLOCK t.nextlock }

/-- The loop of `lock_alloc` with the given number of rounds left. -/
def lockAllocLoop : Nat → Locktab → Except Fault (Option Nat × Locktab)
  | 0, t => .ok (none, t)
  | rounds + 1, t => do
    let t := t.bumpNextlock
    let e ← t.ent t.nextlock
    if e.state = SPINLOCK_FREE then
      return (some t.nextlock, t.setEnt t.nextlock { e with state := SPINLOCK_USED })
    else lockAllocLoop rounds t

/-- `lock_alloc()`: `none` is its `SYSERR`. -/
def lockAlloc (t : Locktab) : Except Fault (Option Nat × Locktab) := lockAllocLoop NLOCK t

/-- `lock_create()`. -/
def lockCreate (t : Locktab) : Except Fault (Option Nat × Locktab) := do
  let (lock, t) ← t.lockAlloc
  match lock with
  | none => return (none, t)
  | some lock =>
    let e ← t.ent lock
    return (some lock, t.setEnt lock { e with lock := SPINLOCK_UNLOCKED })

/-- `isbadlock(lock)`. -/
def isbadlock (t : Locktab) (lock : Nat) : Except Fault Bool :=
  if lock > NLOCK then .ok true
  else do
    let e ← t.ent lock
    return decide (e.state = SPINLOCK_FREE)

/-- Change an entry, unless the lock is bad. -/
def withLock (t : Locktab) (lock : Nat) (f : Lockent → Except Fault Lockent) :
    Except Fault (Syscall × Locktab) := do
  if ← t.isbadlock lock then return (.syserr, t)
  else
    let e ← t.ent lock
    let e ← f e
    return (.ok, t.setEnt lock e)

/-- `lock_free(lock)`. -/
def lockFree (t : Locktab) (lock : Nat) : Except Fault (Syscall × Locktab) :=
  t.withLock lock fun e => .ok { e with state := SPINLOCK_FREE }

/-- `lock_acquire(lock)` on core `cpuid`. It spins while the lock is
held, so it returns only in a state where the lock is not. -/
def lockAcquire (t : Locktab) (cpuid : Core) (lock : Nat) : Except Fault (Syscall × Locktab) :=
  t.withLock lock fun e =>
    if e.lock = SPINLOCK_LOCKED then .error .nontermination
    else .ok { e with lock := SPINLOCK_LOCKED, core := cpuid }

/-- `lock_release(lock)`. -/
def lockRelease (t : Locktab) (lock : Nat) : Except Fault (Syscall × Locktab) :=
  t.withLock lock fun e => .ok { e with core := -1, lock := SPINLOCK_UNLOCKED }

/-- The loop of `platforminit` over the table. -/
def platforminit (t : Locktab) : Locktab :=
  (List.range NLOCK).foldl (fun t i => t.setEnt i ⟨SPINLOCK_FREE, SPINLOCK_UNLOCKED, -1⟩) t

end Locktab

end Xinu
