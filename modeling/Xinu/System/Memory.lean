import Mathlib.Logic.Function.Basic
import Xinu.System.Types

/-!
# `Xinu.System.Memory`: `getmem`, `freemem` and the boot-time heap

The heap is divided into one region per core. Each region has a free
list threaded through the free blocks themselves: a block's first word
is `next`, its second word is `length`. `Heap.mem` is the memory as
32-bit words indexed by byte address.

`getmem` and `freemem` start their walk with
`prev = (memblk *)&freelist[n]`. The first two fields of `memhead` are
`head` and `length`, so `prev->next` then names `freelist[n].head`.
`MemPtr` keeps the two kinds of `prev` apart, and `Heap.setNext` writes
through either.

The locks around the list (`memlock`) make each call one atomic step.
They are not part of the state.
-/

namespace Xinu

/-- `roundmb`, `memory.h`: round up to the size of a memory block. -/
def roundmb (x : Ulong) : Ulong := (7 + x) &&& ~~~7

/-- `truncmb`, `memory.h`: round down to the size of a memory block. -/
def truncmb (x : Ulong) : Ulong := x &&& ~~~7

/-- `struct memhead`: the head of one core's free list. -/
structure Memhead where
  head : Ulong
  length : Ulong
  base : Ulong
  bound : Ulong
deriving DecidableEq

/-- The memory allocator's state: the free lists, the words of memory,
and the two ends of the heap. -/
structure Heap where
  freelist : Core → Memhead
  mem : Ulong → Ulong
  memheap : Ulong
  maxaddr : Ulong

/-- A `memblk *` that is either the head of a free list, seen through
the cast `(memblk *)&freelist[n]`, or a block. -/
inductive MemPtr where
  | list
  | block (p : Ulong)
deriving DecidableEq

namespace Heap

/-- `p->next`. -/
def next (h : Heap) (p : Ulong) : Ulong := h.mem p

/-- `p->length`. -/
def length (h : Heap) (p : Ulong) : Ulong := h.mem (p + 4)

/-- `freelist[n] = m`. -/
def setHead (h : Heap) (n : Core) (m : Memhead) : Heap :=
  { h with freelist := Function.update h.freelist n m }

/-- Store one word. -/
def store (h : Heap) (a v : Ulong) : Heap := { h with mem := Function.update h.mem a v }

/-- `prev->next = v`, where `prev` may be the list head of core `n`. -/
def setNext (h : Heap) (n : Core) : MemPtr → Ulong → Heap
  | .list, v => h.setHead n { h.freelist n with head := v }
  | .block p, v => h.store p v

/-- `freelist[n].length = v`. -/
def setTotal (h : Heap) (n : Core) (v : Ulong) : Heap :=
  h.setHead n { h.freelist n with length := v }

/-- Every loop over a free list visits a new address each time around or
repeats itself forever, so `2 ^ 32` rounds decide whether it ends. -/
def fuel : Nat := 2 ^ 32

/-- `getmem` on a block of exactly the requested length: the block
leaves the list. -/
def takeWhole (h : Heap) (cpuid : Core) (prev : MemPtr) (curr nbytes : Ulong) : Heap :=
  let h1 := h.setNext cpuid prev (h.next curr)
  h1.setTotal cpuid ((h1.freelist cpuid).length - nbytes)

/-- `getmem` on a longer block: split the block into two and keep the
rest, `leftover`, on the list. -/
def takeFront (h : Heap) (cpuid : Core) (prev : MemPtr) (curr nbytes : Ulong) : Heap :=
  let leftover := curr + nbytes
  let h1 := h.setNext cpuid prev leftover
  let h2 := h1.store leftover (h1.next curr)
  let h3 := h2.store (leftover + 4) (h2.length curr - nbytes)
  h3.setTotal cpuid ((h3.freelist cpuid).length - nbytes)

/-- The loop of `getmem`, from the block `curr` with predecessor
`prev`. -/
def getmemLoop (h : Heap) (cpuid : Core) (nbytes : Ulong) :
    Nat → MemPtr → Ulong → Except Fault (Ulong × Heap)
  | 0, _, _ => .error .nontermination
  | fuel + 1, prev, curr =>
    if curr = NULL then .ok (SYSERR, h)
    else if h.length curr = nbytes then .ok (curr, h.takeWhole cpuid prev curr nbytes)
    else if h.length curr > nbytes then .ok (curr, h.takeFront cpuid prev curr nbytes)
    else h.getmemLoop cpuid nbytes fuel (.block curr) (h.next curr)

/-- `getmem(nbytes)` on core `cpuid`. -/
def getmem (h : Heap) (cpuid : Core) (nbytes : Ulong) : Except Fault (Ulong × Heap) :=
  if nbytes = 0 then .ok (SYSERR, h)
  else h.getmemLoop cpuid (roundmb nbytes) fuel .list (h.freelist cpuid).head

/-- The region search of `freemem`: the first core whose region contains
the address, or `none` when the index runs up to `NCORES`. -/
def region (h : Heap) (memptr : Ulong) : Option Core :=
  (List.finRange NCORES).find? fun n =>
    decide ((h.freelist n).base ≤ memptr) &&
      decide (memptr < (h.freelist n).base + (h.freelist n).bound)

/-- The list search of `freemem`: advance `prev` and `next` until `next`
is `NULL` or not below `block`. -/
def freememSearch (h : Heap) (block : Ulong) :
    Nat → MemPtr → Ulong → Except Fault (MemPtr × Ulong)
  | 0, _, _ => .error .nontermination
  | fuel + 1, prev, next =>
    if next ≠ NULL ∧ next < block then h.freememSearch block fuel (.block next) (h.next next)
    else .ok (prev, next)

/-- The top of the block before the one being freed, or `NULL` at the
list head. -/
def top (h : Heap) : MemPtr → Ulong
  | .list => NULL
  | .block p => p + h.length p

/-- `freemem` on a block that starts at the top of the previous one:
the previous block grows. -/
def growBlock (h : Heap) (prev nbytes : Ulong) : Heap :=
  h.store (prev + 4) (h.length prev + nbytes)

/-- `freemem` on any other block: it is linked in after `prev`. -/
def linkBlock (h : Heap) (n : Core) (prev : MemPtr) (block next nbytes : Ulong) : Heap :=
  let h1 := h.store block next
  let h2 := h1.store (block + 4) nbytes
  h2.setNext n prev block

/-- The last step of `freemem`: join the block with `next` when the two
touch. -/
def coalesce (h : Heap) (block next : Ulong) : Heap :=
  if block + h.length block = next then
    let h1 := h.store (block + 4) (h.length block + h.length next)
    h1.store block (h1.next next)
  else h

/-- The part of `freemem` after its search: refuse a block that overlaps
a neighbour, otherwise put it between `prev` and `next`. With
`top == block` at the list head, `block` is `NULL` and the code would
extend the list head as if it were a block. -/
def freememInsert (h : Heap) (n : Core) (block nbytes : Ulong) (prev : MemPtr) (next : Ulong) :
    Except Fault (Syscall × Heap) :=
  if h.top prev > block ∨ (next ≠ NULL ∧ block + nbytes > next) then .ok (.syserr, h)
  else
    let h1 := h.setTotal n ((h.freelist n).length + nbytes)
    if h.top prev = block then
      match prev with
      | .list => .error .nullBlock
      | .block p => .ok (.ok, (h1.growBlock p nbytes).coalesce p next)
    else .ok (.ok, (h1.linkBlock n prev block next nbytes).coalesce block next)

/-- `freemem(memptr, nbytes)`. Without a region that holds the address
the code goes on to use `freelist[NCORES]`. -/
def freemem (h : Heap) (memptr nbytes : Ulong) : Except Fault (Syscall × Heap) :=
  if nbytes = 0 ∨ memptr < h.memheap ∨ memptr > h.maxaddr then .ok (.syserr, h)
  else
    match h.region memptr with
    | none => .error .outOfBounds
    | some n => do
      let (prev, next) ← h.freememSearch memptr fuel .list (h.freelist n).head
      h.freememInsert n memptr (roundmb nbytes) prev next

/-- One round of the free list loop of `sysinit`: core `i` gets the
`i`-th quarter of the heap as a single block. The pointer difference
`platform.maxaddr - memheap` is a signed `ptrdiff_t`, so the division is
signed. -/
def initFreelist (h : Heap) (i : Core) : Heap :=
  let length := truncmb ((h.maxaddr - h.memheap).sdiv (BitVec.ofNat 32 NCORES))
  let pmblock := roundmb (h.memheap + length * BitVec.ofNat 32 i)
  let h1 := h.setHead i { head := pmblock, length := length, base := pmblock, bound := length }
  let h2 := h1.store pmblock NULL
  h2.store (pmblock + 4) length

/-- The free memory lists as `sysinit` builds them, from the heap ends
set by `start.S` and `platforminit` and whatever memory holds at
boot. -/
def sysinit (memheap maxaddr : Ulong) (mem : Ulong → Ulong) : Heap :=
  let h : Heap :=
    { freelist := fun _ => ⟨0, 0, 0, 0⟩, mem := mem,
      memheap := roundmb memheap, maxaddr := truncmb maxaddr }
  (List.finRange NCORES).foldl initFreelist h

end Heap

end Xinu
