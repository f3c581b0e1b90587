import Xinu.System.Memory

/-!
# `Xinu.System.Malloc`: `malloc` and `free`

`malloc` puts an accounting block in front of the memory it hands out: a
`struct memblock` whose `next` points to itself and whose `length` is
the size that was asked of `getmem`. `free` goes by that block alone.

The structure has a third field, `char marked`. With its padding the
structure is twelve bytes long, although blocks come in multiples of
eight.
-/

namespace Xinu.Heap

/-- `sizeof(struct memblock)`. -/
def sizeofMemblock : Ulong := 12

/-- `p->marked = v`: the low byte of the third word. -/
def setMarked (h : Heap) (p : Ulong) (v : BitVec 8) : Heap :=
  h.store (p + 8) (h.mem (p + 8) &&& 0xFFFFFF00 ||| v.setWidth 32)

/-- `malloc` after `getmem` has returned the block `pmem`: the
accounting block is written. -/
def account (h : Heap) (pmem size : Ulong) : Heap :=
  ((h.store pmem pmem).setMarked pmem 0).store (pmem + 4) size

/-- `malloc(size)` on core `cpuid`. -/
def malloc (h : Heap) (cpuid : Core) (size : Ulong) : Except Fault (Ulong × Heap) :=
  if size = 0 then .ok (NULL, h)
  else do
    let size := size + sizeofMemblock
    let (pmem, h) ← h.getmem cpuid size
    if pmem = SYSERR then return (NULL, h)
    else return (pmem + sizeofMemblock, h.account pmem size)

/-- `free(ptr)`. The result of `freemem` is dropped. -/
def free (h : Heap) (ptr : Ulong) : Except Fault (Syscall × Heap) :=
  let block := ptr - sizeofMemblock
  if h.next block ≠ block then .ok (.syserr, h)
  else do
    let (_, h) ← h.freemem block (h.length block)
    return (.ok, h)

end Xinu.Heap
