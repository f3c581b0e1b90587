import Mathlib.Data.List.FinRange
import Xinu.Lib.Chain
import Xinu.Lib.Runs
import Xinu.System.Types

/-!
# `Xinu.System.Paging`: pages and page tables

The page allocator and the page tables of the RISC-V port, from
`safeInit.c`, `safeKmapInit.c` and `safemem.h`. An `unsigned long` has 64
bits there. Memory is a function from addresses to words: all words that
these functions touch are at multiples of 8.

Free pages form a list through their first words. A page table is a page
of 512 entries. `pgTraverseAndCreate` follows the entries of two levels
and allocates the tables that are missing, and `mapPage` and `mapAddress`
write the entries it finds. The messages that they print are left out.
`safeInit` puts the memory after the kernel on the free list; the number
of pages that it also computes is left out, since nothing reads it.
`safeKmapInit` builds the table of the kernel itself. The process table
entry and the variable that it stores the table in are left out.

`walk` is the translation that the hardware makes with such a table: it
is not a function of the kernel. `PageSys` is the allocator together with
the pages that its callers hold.
-/

namespace Xinu

/-- `unsigned long` of the RISC-V port. -/
abbrev Ulong64 := BitVec 64

def PAGE_SIZE : Ulong64 := 4096

/-- `roundpage(x)`. -/
def roundpage (x : Ulong64) : Ulong64 := (4095 + x) &&& ~~~0xFFF

/-- `truncpage(x)`. -/
def truncpage (x : Ulong64) : Ulong64 := x &&& ~~~0xFFF

def PTE_V : Ulong64 := 1
def PTE_R : Ulong64 := 1 <<< 1
def PTE_W : Ulong64 := 1 <<< 2
def PTE_X : Ulong64 := 1 <<< 3
def PTE_U : Ulong64 := 1 <<< 4
def PTE_G : Ulong64 := 1 <<< 5

/-- `PTE2PA(pte)`. -/
def PTE2PA (pte : Ulong64) : Ulong64 := (pte >>> 10) * PAGE_SIZE

/-- `PA2PTE(pa)`. -/
def PA2PTE (pa : Ulong64) : Ulong64 := (pa / PAGE_SIZE) <<< 10

/-- `PXSHIFT(level)`. -/
def PXSHIFT (level : Nat) : Nat := 12 + 9 * level

/-- `PX(level, addr)`. -/
def PX (level : Nat) (addr : Ulong64) : Ulong64 := (addr >>> PXSHIFT level) &&& 0x1FF

/-- `&pagetable[i]`. -/
def pteAddr (pagetable i : Ulong64) : Ulong64 := pagetable + 8 * i

/-- The memory and the first free page. -/
structure Pages where
  mem : Ulong64 → Ulong64
  pgfreelist : Ulong64

namespace Pages

/-- `bzero(addr, PAGE_SIZE)`. -/
def bzero (mem : Ulong64 → Ulong64) (addr : Ulong64) : Ulong64 → Ulong64 := fun x =>
  if x - addr < PAGE_SIZE then 0 else mem x

/-- `*p = v`. -/
def write (s : Pages) (p v : Ulong64) : Pages := { s with mem := Function.update s.mem p v }

/-- `pgfree(addr)`. -/
def pgfree (s : Pages) (addr : Ulong64) : Syscall × Pages :=
  if addr % PAGE_SIZE ≠ 0 then (.syserr, s)
  else
    let mem := Function.update (bzero s.mem addr) addr s.pgfreelist
    (.ok, ⟨mem, addr⟩)

/-- `pgalloc()`, `none` for `SYSERR`. -/
def pgalloc (s : Pages) : Option Ulong64 × Pages :=
  if s.pgfreelist = 0 then (none, s)
  else
    let page := s.pgfreelist
    (some page, ⟨bzero s.mem page, s.mem page⟩)

/-- The loop of `pgfreerange`. The first argument bounds its rounds. -/
def pgfreeLoop (end_ : Ulong64) : Nat → Pages → Ulong64 → Except Fault (Syscall × Pages)
  | 0, _, _ => .error .nontermination
  | rounds + 1, s, pgstart =>
    if pgstart + PAGE_SIZE < end_ then
      match s.pgfree pgstart with
      | (.syserr, s) => .ok (.syserr, s)
      | (.ok, s) => pgfreeLoop end_ rounds s (pgstart + PAGE_SIZE)
    else .ok (.ok, s)

/-- `pgfreerange(start, end)`, with the variables `memheap` and
`platform.maxaddr`. A loop that makes more rounds than there are pages
below `end` has wrapped around, and goes on for ever. -/
def pgfreerange (s : Pages) (memheap maxaddr start end_ : Ulong64) :
    Except Fault (Syscall × Pages) :=
  if end_ > maxaddr ∨ start < memheap ∨ end_ < start then .ok (.syserr, s)
  else pgfreeLoop end_ ((end_ / PAGE_SIZE).toNat + 1) s (roundpage start)

/-- `safeInit()`. -/
def safeInit (s : Pages) (memheap maxaddr : Ulong64) : Except Fault Pages := do
  let (_, s) ← s.pgfreerange memheap maxaddr memheap maxaddr
  return s

/-- The loop of `pgTraverseAndCreate`, from `level` down: the table at
its end, `none` for `SYSERR`. -/
def traverse (s : Pages) (pagetable virtualaddr : Ulong64) : Nat → Option Ulong64 × Pages
  | 0 => (some pagetable, s)
  | level + 1 =>
    let pte := pteAddr pagetable (PX (level + 1) virtualaddr)
    if s.mem pte &&& PTE_V ≠ 0 then s.traverse (PTE2PA (s.mem pte)) virtualaddr level
    else
      match s.pgalloc with
      | (none, s) => (none, s)
      | (some pagetable, s) =>
        (s.write pte (PA2PTE pagetable ||| PTE_V)).traverse pagetable virtualaddr level

/-- `pgTraverseAndCreate(pagetable, virtualaddr)`. -/
def pgTraverseAndCreate (s : Pages) (pagetable virtualaddr : Ulong64) : Option Ulong64 × Pages :=
  match s.traverse pagetable virtualaddr 2 with
  | (none, s) => (none, s)
  | (some pagetable, s) => (some (pteAddr pagetable (PX 0 virtualaddr)), s)

/-- What `mapPage` and the loop of `mapAddress` do for one page. -/
def mapOne (s : Pages) (pagetable addr physicaladdr : Ulong64) (attr : BitVec 32) :
    Syscall × Pages :=
  match s.pgTraverseAndCreate pagetable addr with
  | (none, s) => (.syserr, s)
  | (some pte, s) => (.ok, s.write pte (PA2PTE physicaladdr ||| attr.signExtend 64 ||| PTE_V))

/-- `mapPage(pagetable, page, virtualaddr, attr)`. -/
def mapPage (s : Pages) (pagetable page virtualaddr : Ulong64) (attr : BitVec 32) :
    Syscall × Pages :=
  s.mapOne pagetable (truncpage virtualaddr) page attr

/-- The loop of `mapAddress`. The first argument bounds its rounds. -/
def mapLoop (pagetable endaddr : Ulong64) (attr : BitVec 32) :
    Nat → Pages → Ulong64 → Ulong64 → Syscall × Pages
  | 0, s, _, _ => (.ok, s)
  | rounds + 1, s, addr, physicaladdr =>
    if addr < endaddr then
      match s.mapOne pagetable addr physicaladdr attr with
      | (.syserr, s) => (.syserr, s)
      | (.ok, s) =>
        mapLoop pagetable endaddr attr rounds s (addr + PAGE_SIZE) (physicaladdr + PAGE_SIZE)
    else (.ok, s)

/-- `mapAddress(pagetable, virtualaddr, physicaladdr, length, attr)`. The
addresses in the loop are multiples of `PAGE_SIZE`, so that it makes
`(end - addr) / PAGE_SIZE` rounds. -/
def mapAddress (s : Pages) (pagetable virtualaddr physicaladdr length : Ulong64)
    (attr : BitVec 32) : Syscall × Pages :=
  if length = 0 then (.syserr, s)
  else
    let nlength := roundpage length
    let addr := truncpage virtualaddr
    let endaddr := addr + nlength
    mapLoop pagetable endaddr attr ((endaddr - addr) / PAGE_SIZE).toNat s addr physicaladdr

/-! ### The kernel's own table -/

/-- The arguments of a call of `mapAddress`. -/
structure MapCall where
  virtualaddr : Ulong64
  physicaladdr : Ulong64
  length : Ulong64
  attr : BitVec 32

/-- The call, for the given table. -/
def MapCall.run (c : MapCall) (pagetable : Ulong64) (s : Pages) : Syscall × Pages :=
  s.mapAddress pagetable c.virtualaddr c.physicaladdr c.length c.attr

/-- Several calls, with their results ignored. -/
def mapAll (s : Pages) (pagetable : Ulong64) (calls : List MapCall) : Pages :=
  calls.foldl (fun s c => (c.run pagetable s).2) s

/-- None of the calls runs out of pages. -/
def Suffices (pagetable : Ulong64) : List MapCall → Pages → Prop
  | [], _ => True
  | c :: calls, s =>
    (c.length ≠ 0 → (c.run pagetable s).1 = .ok) ∧ Suffices pagetable calls (c.run pagetable s).2

instance decidableSuffices (pagetable : Ulong64) :
    (calls : List MapCall) → (s : Pages) → Decidable (Suffices pagetable calls s)
  | [], _ => inferInstanceAs (Decidable True)
  | c :: calls, s =>
    have := decidableSuffices pagetable calls (c.run pagetable s).2
    inferInstanceAs (Decidable (_ ∧ _))

end Pages

def UART_BASE : Ulong64 := 0x10000000
def INTERRUPTADDR : Ulong64 := 0x3FFFFFC000

/-- The symbols of `ld.script`, and the two ends of the memory after the
kernel. -/
structure KernLayout where
  _start : Ulong64
  _ctxsws : Ulong64
  _ctxswe : Ulong64
  _interrupts : Ulong64
  _interrupte : Ulong64
  _datas : Ulong64
  memheap : Ulong64
  maxaddr : Ulong64

namespace Pages

/-- The device. -/
def kmapUart : MapCall := ⟨UART_BASE, UART_BASE, 0x100, (PTE_R ||| PTE_W).setWidth 32⟩

/-- "Map kernel code". -/
def kmapCode (k : KernLayout) : MapCall :=
  ⟨k._start, k._start, k._ctxsws - k._start, (PTE_R ||| PTE_X).setWidth 32⟩

/-- "Map interrupt". -/
def kmapInterrupt (k : KernLayout) : MapCall :=
  ⟨INTERRUPTADDR, k._interrupts, PAGE_SIZE, (PTE_R ||| PTE_X ||| PTE_G).setWidth 32⟩

/-- "Map rest of kernel code". -/
def kmapRest (k : KernLayout) : MapCall :=
  ⟨k._interrupte, k._interrupte, k._datas - k._interrupte, (PTE_R ||| PTE_X).setWidth 32⟩

/-- "Map global kernel structures and stack". -/
def kmapData (k : KernLayout) : MapCall :=
  ⟨k._datas, k._datas, k.memheap - k._datas, (PTE_R ||| PTE_W).setWidth 32⟩

/-- "Map entirety of RAM". -/
def kmapRam (k : KernLayout) : MapCall :=
  ⟨k.memheap, k.memheap, k.maxaddr - k.memheap, (PTE_R ||| PTE_W).setWidth 32⟩

/-- The calls of `safeKmapInit`, in order. -/
def kmapCalls (k : KernLayout) : List MapCall :=
  [kmapUart, kmapCode k, kmapInterrupt k, kmapRest k, kmapData k, kmapRam k]

/-- `safeKmapInit()`: the page table that it puts into `satp`. A failing
`pgalloc` is not noticed. -/
def safeKmapInit (s : Pages) (k : KernLayout) : Ulong64 × Pages :=
  let (page, s) := s.pgalloc
  let pagetable := page.getD (-1)
  (pagetable, s.mapAll pagetable (kmapCalls k))

/-! ### What the tables mean -/

/-- The entry is valid. -/
def valid (pte : Ulong64) : Bool := pte &&& PTE_V ≠ 0

/-- The entry maps a page, rather than pointing to a table. -/
def leaf (pte : Ulong64) : Bool := pte &&& (PTE_R ||| PTE_W ||| PTE_X) ≠ 0

/-- The page may be written. -/
def writable (pte : Ulong64) : Bool := pte &&& PTE_W ≠ 0

/-- The page may be executed. -/
def executable (pte : Ulong64) : Bool := pte &&& PTE_X ≠ 0

/-- The page may be used in user mode. -/
def user (pte : Ulong64) : Bool := pte &&& PTE_U ≠ 0

/-- The walk from a table of the given level: the entry that maps the
address, with its level, or `none` for a page fault. An entry with `PTE_W`
and without `PTE_R` is taken as a leaf, although the encoding is reserved
and the hardware raises a page fault for it. -/
def walkFrom (mem : Ulong64 → Ulong64) (virtualaddr : Ulong64) :
    Nat → Ulong64 → Option (Nat × Ulong64)
  | 0, pagetable =>
    let pte := mem (pteAddr pagetable (PX 0 virtualaddr))
    if valid pte && leaf pte then some (0, pte) else none
  | level + 1, pagetable =>
    let pte := mem (pteAddr pagetable (PX (level + 1) virtualaddr))
    if !valid pte then none
    else if leaf pte then some (level + 1, pte)
    else walkFrom mem virtualaddr level (PTE2PA pte)

/-- The three-level walk of an address. -/
def walk (s : Pages) (pagetable virtualaddr : Ulong64) : Option (Nat × Ulong64) :=
  walkFrom s.mem virtualaddr 2 pagetable

/-- The physical address of a virtual one: the page of the entry, whose
number has 44 bits, and the offset in it. The bits of an entry above
these are reserved, and one that is set is a page fault. -/
def translate (s : Pages) (pagetable virtualaddr : Ulong64) : Option Ulong64 :=
  (s.walk pagetable virtualaddr).bind fun e =>
    if e.2 >>> 54 ≠ 0 then none
    else some (PTE2PA e.2 + (virtualaddr &&& ((1 : Ulong64) <<< PXSHIFT e.1 - 1)))

/-- The tables that the valid entries of a table point to. -/
def children (s : Pages) (pagetable : Ulong64) : List Ulong64 :=
  (List.finRange 512).filterMap fun i : Fin 512 =>
    let pte := s.mem (pteAddr pagetable (BitVec.ofNat 64 i))
    if valid pte then some (PTE2PA pte) else none

/-- The pages under a root: its children, each with its own. -/
def interior (s : Pages) (root : Ulong64) : List Ulong64 :=
  (s.children root).flatMap fun t => t :: s.children t

/-- The valid entries of the table point to tables. -/
def OnlyPointers (s : Pages) (pagetable : Ulong64) : Prop :=
  ∀ i : Fin 512, valid (s.mem (pteAddr pagetable (BitVec.ofNat 64 i))) →
    leaf (s.mem (pteAddr pagetable (BitVec.ofNat 64 i))) = false

end Pages

/-! ### Runs -/

/-- The calls of the users of pages. -/
inductive PageCall where
  | pgalloc
  | pgfree (addr : Ulong64)
  | mapPage (pagetable page virtualaddr : Ulong64) (attr : BitVec 32)
  | mapAddress (pagetable virtualaddr physicaladdr length : Ulong64) (attr : BitVec 32)

/-- The pages, and those that the callers of `pgalloc` hold. -/
structure PageSys where
  pages : Pages
  held : List Ulong64

namespace PageSys

/-- One call. -/
def exec (s : PageSys) : PageCall → Except Fault PageSys
  | .pgalloc =>
    match s.pages.pgalloc with
    | (none, pages) => .ok { s with pages := pages }
    | (some page, pages) => .ok ⟨pages, page :: s.held⟩
  | .pgfree addr =>
    match s.pages.pgfree addr with
    | (.syserr, pages) => .ok { s with pages := pages }
    | (.ok, pages) => .ok ⟨pages, s.held.erase addr⟩
  | .mapPage pagetable page virtualaddr attr =>
    .ok { s with pages := (s.pages.mapPage pagetable page virtualaddr attr).2 }
  | .mapAddress pagetable virtualaddr physicaladdr length attr =>
    .ok { s with pages := (s.pages.mapAddress pagetable virtualaddr physicaladdr length attr).2 }

/-- Callers free the pages they hold, and use them as page tables. -/
def Permitted (s : PageSys) : PageCall → Prop
  | .pgalloc => True
  | .pgfree addr => addr ∈ s.held
  | .mapPage pagetable _ _ _ => pagetable ∈ s.held
  | .mapAddress pagetable _ _ _ _ => pagetable ∈ s.held

instance (s : PageSys) (call : PageCall) : Decidable (s.Permitted call) := by
  rcases call <;> dsimp only [Permitted] <;> infer_instance

/-- Before the first call: a free list of distinct pages. -/
def Booted (s : PageSys) : Prop :=
  s.held = [] ∧ ∃ free : List Ulong64, Lib.Chain s.pages.mem s.pages.pgfreelist free 0 ∧
    free.Nodup ∧ ∀ p ∈ free, p ≠ 0 ∧ p % PAGE_SIZE = 0

/-- The states of the runs from such a state. -/
def Reachable (s : PageSys) : Prop := Lib.Reaches Booted Permitted exec s

/-- Eight free pages from `0x1000` on. -/
def eightPages : Pages where
  mem a := if a % PAGE_SIZE = 0 ∧ 0x1000 ≤ a ∧ a < 0x8000 then a + PAGE_SIZE else 0
  pgfreelist := 0x1000

theorem eightPages_booted : Booted ⟨eightPages, []⟩ := by
  refine ⟨rfl, [0x1000, 0x2000, 0x3000, 0x4000, 0x5000, 0x6000, 0x7000, 0x8000], ?_, ?_, ?_⟩
  · simp [eightPages, PAGE_SIZE]
  · decide +kernel
  · simp [PAGE_SIZE]

/-- A run that passes a test gives a reachable state that does. -/
theorem exists_reachable (calls : List PageCall) (test : PageSys → Bool)
    (h : (Lib.follow Permitted exec ⟨eightPages, []⟩ calls).any test = true) :
    ∃ s : PageSys, s.Reachable ∧ test s = true := by
  obtain ⟨s, hs, htest⟩ := (Option.any_eq_true _ _).mp h
  exact ⟨s, Lib.Reaches.follow ⟨_, eightPages_booted, .refl⟩ hs, htest⟩

end PageSys

/-- The page table that a call is about. -/
def PageCall.root : PageCall → Option Ulong64
  | .pgalloc | .pgfree _ => none
  | .mapPage pagetable _ _ _ => some pagetable
  | .mapAddress pagetable _ _ _ _ => some pagetable

end Xinu
