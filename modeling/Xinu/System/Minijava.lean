import Xinu.System.Ctype
import Xinu.System.Memory

/-!
# `Xinu.System.Minijava`: allocation in the MiniJava runtime

`_new(n, init)` gets memory for an object or array of `n` words and two
words in front of it: one for a monitor, which is no longer created, and
one for `init`, the virtual table or the length. The caller gets a
pointer past these two.

`Heap.mem` holds words. `memset` stores bytes, so `storeByte` puts one
byte into the word around its address, in little-endian order. An `int`
is four such bytes, wherever the pointer points.
-/

namespace Xinu.Heap

/-- A word with its byte `k` replaced. -/
def setByte (w : Ulong) (k : Nat) (b : Byte) : Ulong :=
  (w &&& ~~~((0xFF : Ulong) <<< (8 * k))) ||| (b.setWidth 32 <<< (8 * k))

/-- Store one byte. -/
def storeByte (h : Heap) (a : Ulong) (b : Byte) : Heap :=
  h.store (a &&& ~~~3) (setByte (h.mem (a &&& ~~~3)) (a &&& 3).toNat b)

/-- Store an `int`, at any address. -/
def storeInt (h : Heap) (a v : Ulong) : Heap :=
  (((h.storeByte a (v.extractLsb' 0 8)).storeByte (a + 1) (v.extractLsb' 8 8)).storeByte
    (a + 2) (v.extractLsb' 16 8)).storeByte (a + 3) (v.extractLsb' 24 8)

/-- `memset(s, c, n)`, the loop over `i < n`. -/
def memset (h : Heap) (s : Ulong) (c : Byte) : Nat → Heap
  | 0 => h
  | i + 1 => (h.memset s c i).storeByte (s + BitVec.ofNat 32 i) c

/-- `bzero(s, n)`. -/
def bzero (h : Heap) (s n : Ulong) : Heap := h.memset s 0 n.toNat

/-- `_new(n, init)` on core `cpuid`. The pointer that `getmem` returns is
not tested. -/
def new (h : Heap) (cpuid : Core) (n init : Ulong) : Except Fault (Ulong × Heap) := do
  let size := (n + 2) * 4
  let (p, h) ← h.getmem cpuid size
  let h := h.bzero p size
  return (p + 8, h.storeInt (p + 4) init)

end Xinu.Heap
