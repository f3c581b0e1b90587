import Xinu.System.Scan
import Xinu.System.Types

/-!
# `Xinu.System.Atol`: numbers in a string

`atol` and `atoi`, which call `sscanf`. Here `sscanf` reads its string out
of memory, through the pointer that `sgetch` and `sungetch` move. A read
where nothing is mapped is a fault, and the fault stays in the place of
the pointer.
-/

namespace Xinu

namespace InMemory

section
variable {abi : Abi} (m : abi.Ulong → Option Byte)

/-- `sgetch`. The pointer stays at the `NUL`. -/
def sgetch : Except Fault abi.Ulong → Option Byte × Except Fault abi.Ulong
  | .error e => (none, .error e)
  | .ok str =>
    match m str with
    | none => (none, .error .outOfBounds)
    | some c => if c = 0 then (none, .ok str) else (some c, .ok (str + 1))

/-- `sungetch`. -/
def sungetch : Except Fault abi.Ulong → Option (Except Fault abi.Ulong)
  | .error e => some (.error e)
  | .ok str =>
    match m (str - 1) with
    | none => some (.error .outOfBounds)
    | some _ => some (.ok (str - 1))

/-- `sscanf(str, format, ...)`. -/
def sscanf (limit : Nat) (str : abi.Ulong) (format : CString) (ap : Nat → abi.Ulong) :
    Except Fault (Scanned abi) :=
  match (doscan limit format ap).run ⟨sgetch m, sungetch m⟩ (.ok str) with
  | none => .error .nontermination
  | some (_, .error e) => .error e
  | some (scanned, .ok _) => .ok scanned

end

end InMemory

theorem longFormat_nonzero : ∀ b ∈ [chr '%', chr 'l', chr 'd'], b ≠ 0 := by decide

/-- The format `%ld`. -/
def longFormat : CString := ⟨[chr '%', chr 'l', chr 'd'], longFormat_nonzero⟩

section
variable {abi : Abi} (m : abi.Ulong → Option Byte) (limit : Nat)

/-- The variable `n` after the stores to it. -/
def storedLong (stores : List (Store abi)) : abi.Ulong :=
  stores.foldl (fun n s => match s.data with
    | .long n' => n'
    | _ => n) 0

/-- `atol(nptr)`, with its variable `n` at the address `n`. -/
def atol (n nptr : abi.Ulong) : Except Fault abi.Ulong := do
  let scanned ← InMemory.sscanf m limit nptr longFormat fun _ => n
  return storedLong scanned.stores

/-- `atoi(nptr)`. -/
def atoi (n nptr : abi.Ulong) : Except Fault (BitVec 32) := do
  let n ← atol m limit n nptr
  return n.setWidth 32

end

end Xinu
