import Xinu.System.Dtb

/-!
# `Xinu.System.Sort`: `qsort`

`qsort` of `libxc` with `partition` and `swap_elements`. The array is a
range of bytes in memory, and a read or a write outside the mapped memory
is a fault. Pointers and `size_t` have 64 bits.

The comparison function is called with two pointers. It may look at all
of the memory and keep a state of its own, but it does not write to the
memory. Only the sign of its result is used.

The loop of `partition` and the recursion of `qsort` take a bound for
their number as `fuel`.
-/

namespace Xinu

/-- A store of one byte. -/
def Bytes.store (m : Bytes) (a : Ulong64) (b : Byte) : Except Fault Bytes :=
  match m a with
  | some _ => .ok (Function.update m a (some b))
  | none => .error .outOfBounds

/-- `int (*compar)(const void *, const void *)`. -/
abbrev Compar (σ : Type) := Bytes → Ulong64 → Ulong64 → σ → Int × σ

namespace Qsort

/-- The loop of `swap_elements`. -/
def swapLoop : Nat → Ulong64 → Ulong64 → Bytes → Except Fault Bytes
  | 0, _, _, m => return m
  | n + 1, p1, p2, m => do
    let tmp ← m.byte p1
    let c ← m.byte p2
    let m ← m.store p1 c
    let m ← m.store p2 tmp
    swapLoop n (p1 + 1) (p2 + 1) m

/-- `swap_elements(p1, p2, size)`. -/
def swapElements (p1 p2 size : Ulong64) (m : Bytes) : Except Fault Bytes :=
  swapLoop size.toNat p1 p2 m

variable {σ : Type} (compar : Compar σ)

/-- The body of the loop of `partition`: the new `p1`, `p2` and `p1_index`,
and the memory. -/
def partitionBody (size : Ulong64) (r : Int) (p1 p2 p1Index : Ulong64) (m : Bytes) :
    Except Fault (Ulong64 × Ulong64 × Ulong64 × Bytes) :=
  if r ≤ 0 then return (p1 + size, p2, p1Index + 1, m)
  else do
    let p2 := p2 - size
    let m ← swapElements p1 p2 size m
    return (p1, p2, p1Index, m)

/-- The loop of `partition`. -/
def partitionLoop (base size : Ulong64) : Nat → Ulong64 → Ulong64 → Ulong64 → Bytes → σ →
    Except Fault (Ulong64 × Ulong64 × Bytes × σ)
  | 0, _, _, _, _, _ => .error .nontermination
  | fuel + 1, p1, p2, p1Index, m, s => do
    let (r, s) := compar m p1 base s
    let (p1, p2, p1Index, m) ← partitionBody size r p1 p2 p1Index m
    if p1 ≠ p2 then partitionLoop base size fuel p1 p2 p1Index m s
    else return (p1, p1Index, m, s)

/-- `partition(base, nmemb, size, compar)`. -/
def partition (fuel : Nat) (base nmemb size : Ulong64) (m : Bytes) (s : σ) :
    Except Fault (Ulong64 × Bytes × σ) := do
  let (p1, p1Index, m, s) ←
    partitionLoop compar base size fuel (base + size) (base + nmemb * size) 1 m s
  let m ← swapElements (p1 - size) base size m
  return (p1Index - 1, m, s)

/-- `qsort(base, nmemb, size, compar)`. -/
def qsort (size : Ulong64) : Nat → Ulong64 → Ulong64 → Bytes → σ → Except Fault (Bytes × σ)
  | 0, _, _, _, _ => .error .nontermination
  | fuel + 1, base, nmemb, m, s =>
    if nmemb > 1 then do
      let (pivotIndex, m, s) ← partition compar fuel base nmemb size m s
      let (m, s) ← qsort size fuel base pivotIndex m s
      qsort size fuel (base + (pivotIndex + 1) * size) (nmemb - (pivotIndex + 1)) m s
    else return (m, s)

end Qsort

end Xinu
