import Mathlib.Algebra.Order.Ring.Int
import Mathlib.Algebra.Order.Ring.Nat
import Mathlib.Data.Fintype.Basic

/-!
# `Xinu.System.Types`: machine words, constants and faults

The kernel under `system/` is the 32-bit ARM port: `ulong`, `uint` and
`void *` are 32-bit words. They are modelled by `BitVec 32`, so every
addition wraps as it does in C. `int` values that are only compared and
used as indices (process ids, queue slots, core affinities) are
integers.

A C function of this kernel can do two things that no return value
describes: index a table out of its bounds, or follow links forever. The
model makes both visible. Such a function returns `Except Fault`, and a
claim that it is safe is the claim that it returns `.ok`.
-/

namespace Xinu

/-- `ulong` and `void *` of the 32-bit port. -/
abbrev Ulong := BitVec 32

/-- `NULL`, `stddef.h`. -/
def NULL : Ulong := 0

/-- `SYSERR` as a pointer or an unsigned word: `(void *)-1`. -/
def SYSERR : Ulong := -1

/-- The result of a `syscall`: `OK` or `SYSERR`. -/
inductive Syscall where
  | ok
  | syserr
deriving DecidableEq, Repr

/-- Number of processor cores, `conf.h`. -/
abbrev NCORES : Nat := 4

instance : NeZero NCORES := ⟨by decide⟩

/-- A core number, the result of `getcpuid()`. -/
abbrev Core := Fin NCORES

/-- What a C function does outside its contract. -/
inductive Fault where
  /-- An array is indexed outside its bounds. -/
  | outOfBounds
  /-- A loop over linked nodes runs into a cycle and never ends. -/
  | nontermination
  /-- `NULL` is used as a block of memory. -/
  | nullBlock
deriving DecidableEq, Repr

/-- A computation goes on after a step that did not fault. -/
@[simp] theorem ok_bind {ε α β : Type} (a : α) (g : α → Except ε β) :
    (Except.ok a >>= g) = g a := rfl

/-- A computation that returned went through each of its steps. -/
theorem bind_eq_ok {ε α β : Type} {x : Except ε α} {g : α → Except ε β} {b : β}
    (h : x >>= g = .ok b) : ∃ a, x = .ok a ∧ g a = .ok b := by
  cases x with
  | error e => cases h
  | ok a => exact ⟨a, rfl, h⟩

/-- One result with a state, in two ways. -/
theorem ok_pair {ε α β : Type} {a a' : α} {b b' : β}
    (h : (Except.ok (a, b) : Except ε (α × β)) = .ok (a', b')) : a = a' ∧ b = b' :=
  Prod.mk.inj (Except.ok.inj h)

end Xinu
