import Xinu.Proofs.Paging.Isolation

/-!
# `Xinu.Proofs.Paging.KernelMap`: the page table of the kernel

`safeKmapInit` makes six calls of `mapAddress` on one new table. What a
sequence of such calls leaves is read off `mapAddress_spec` by induction
on the calls. Every translation comes from one of them
(`mapAll_covered`), and with enough pages they take effect one after the
other (`mapAll_walk`).

The first fact gives the protection of the kernel: no page is both
writable and executable, neither as a virtual nor as a physical page
(`kernel_writeXorExecute`). The second gives exactly what is mapped to
itself (`kernel_identity_iff`): of the memory from `_start` to `maxaddr`
the sections between `_ctxsws` and `_interrupte` are missing, which no
call covers (`kernel_sections_unmapped`).
-/

namespace Xinu

open Lib Lib.Radix Pages List BitVec

namespace Pages

namespace MapCall

/-- The first address of the range. -/
def first (c : MapCall) : Nat := (truncpage c.virtualaddr).toNat

/-- The length of the range. -/
def bytes (c : MapCall) : Nat := (roundpage c.length).toNat

/-- The address is in the range. Only its low 39 bits count. -/
def Covers (c : MapCall) (w : Ulong64) : Prop :=
  c.first ≤ w.toNat % 2 ^ 39 ∧ w.toNat % 2 ^ 39 < c.first + c.bytes

instance (c : MapCall) (w : Ulong64) : Decidable (c.Covers w) := inferInstanceAs (Decidable (_ ∧ _))

/-- The physical page for an address of the range. -/
def target (c : MapCall) (w : Ulong64) : Ulong64 :=
  c.physicaladdr + BitVec.ofNat 64 ((w.toNat % 2 ^ 39 - c.first) / 4096 * 4096)

/-- The translations after the call, if it does not run out of pages. -/
def maps (c : MapCall) (walk : Ulong64 → Option (Nat × Ulong64)) (w : Ulong64) :
    Option (Nat × Ulong64) :=
  if c.Covers w then leafEntry (mapEntry (c.target w) c.attr) else walk w

end MapCall

section Calls
variable {s : Pages} {l : List Page} {t : Page} {c : MapCall} {calls : List MapCall}

theorem bytes_mod (c : MapCall) : c.bytes % 4096 = 0 := by
  rw [MapCall.bytes, toNat_roundpage]
  exact Nat.mul_mod_left _ _

/-- A call keeps the table. Each translation is an old one or one of the
call, and if the pages suffice, all those of the call are there. -/
theorem run_spec (ht : Table s l t) (hr : c.first + c.bytes ≤ 2 ^ 39) :
    (∃ l', Table (c.run t s).2 l' t) ∧
    (∀ w, (c.run t s).2.walk t w = s.walk t w ∨
      c.Covers w ∧ (c.run t s).2.walk t w = leafEntry (mapEntry (c.target w) c.attr)) ∧
    ((c.length ≠ 0 → (c.run t s).1 = .ok) → (c.run t s).2.walk t = c.maps (s.walk t)) := by
  obtain ⟨l', hup⟩ := mapAddress_updates c.virtualaddr c.physicaladdr c.length c.attr ht
  refine ⟨⟨l', hup.table⟩, ?_⟩
  by_cases hlength : c.length = 0
  · -- Nothing is mapped, and the range is empty.
    have hrun : (c.run t s).2 = s := by
      rw [MapCall.run, mapAddress, if_pos hlength]
    have hbytes : c.bytes = 0 := by
      rw [MapCall.bytes, hlength]
      rfl
    rw [hrun]
    refine ⟨fun w => Or.inl rfl, fun _ => ?_⟩
    funext w
    rw [MapCall.maps, if_neg]
    rintro ⟨hlo, hhi⟩
    omega
  · obtain ⟨j, hj, hwalk⟩ :=
      mapAddress_spec c.virtualaddr c.physicaladdr c.length c.attr ht hlength hr
    have hmod := bytes_mod c
    have hle : j ≤ c.bytes / 4096 := by
      rcases hj with ⟨-, hj⟩ | ⟨-, hj⟩
      · exact Nat.le_of_eq hj
      · exact Nat.le_of_lt hj
    have hwalk' : (c.run t s).2.walk t = mapped (truncpage c.virtualaddr) c.physicaladdr c.attr j
        (s.walk t) := hwalk
    refine ⟨fun w => ?_, fun hok => ?_⟩
    · rw [hwalk', mapped]
      split
      · rename_i hin
        exact Or.inr ⟨⟨hin.1, lt_of_lt_of_le hin.2 (by unfold MapCall.first; omega)⟩, rfl⟩
      · exact Or.inl rfl
    · -- With `OK` no page is missing.
      have hjeq : j = c.bytes / 4096 := by
        rcases hj with ⟨-, hj⟩ | ⟨herr, -⟩
        · exact hj
        · have hok' := hok hlength
          rw [show (c.run t s).1 = .syserr from herr] at hok'
          cases hok'
      have hbytes : j * 4096 = c.bytes := by omega
      rw [hwalk']
      funext w
      rw [mapped, hbytes]
      rfl

/-- Every translation is an old one or comes from a call. -/
theorem mapAll_covered (ht : Table s l t) (hr : ∀ c ∈ calls, c.first + c.bytes ≤ 2 ^ 39)
    (w : Ulong64) : (s.mapAll t calls).walk t w = s.walk t w ∨
      ∃ c ∈ calls, c.Covers w ∧
        (s.mapAll t calls).walk t w = leafEntry (mapEntry (c.target w) c.attr) := by
  induction calls generalizing s l with
  | nil => exact Or.inl rfl
  | cons c calls ih =>
    obtain ⟨⟨l', ht'⟩, hwalk, -⟩ := run_spec ht (hr c mem_cons_self)
    have hall : s.mapAll t (c :: calls) = (c.run t s).2.mapAll t calls := rfl
    rw [hall]
    rcases ih ht' fun d hd => hr d (mem_cons_of_mem c hd) with hsame | ⟨d, hd, hcov, hval⟩
    · rw [hsame]
      rcases hwalk w with hold | ⟨hcov, hval⟩
      · exact Or.inl hold
      · exact Or.inr ⟨c, mem_cons_self, hcov, hval⟩
    · exact Or.inr ⟨d, mem_cons_of_mem c hd, hcov, hval⟩

/-- With enough pages the calls take effect one after the other. -/
theorem mapAll_walk (ht : Table s l t) (hr : ∀ c ∈ calls, c.first + c.bytes ≤ 2 ^ 39)
    (hs : Suffices t calls s) :
    (s.mapAll t calls).walk t = calls.foldl (fun walk c => c.maps walk) (s.walk t) := by
  induction calls generalizing s l with
  | nil => rfl
  | cons c calls ih =>
    obtain ⟨⟨l', ht'⟩, -, hmaps⟩ := run_spec ht (hr c mem_cons_self)
    have hall : s.mapAll t (c :: calls) = (c.run t s).2.mapAll t calls := rfl
    rw [hall, ih ht' (fun d hd => hr d (mem_cons_of_mem c hd)) hs.2, foldl_cons,
      hmaps hs.1]

end Calls

/-- A new page is an empty table. -/
theorem table_of_pgalloc {s' : Pages} {l : List Page} {p : Page} (hnd : (p :: l).Nodup)
    (hfree : FreeList s' l) (hblank : ∀ i, s'.heap p i = 0) :
    Table s' l p ∧ ∀ w, s'.walk p w = none := by
  have hchild : ∀ i, child (s'.heap p i) = none := fun i => by
    rw [hblank, child_of_not_valid valid_zero]
  have htree : tree child s'.heap 2 p = [p] := tree_blank hchild
  have ht : Table s' l p := by
    refine ⟨hfree, ?_, ?_⟩
    · rw [htree]
      exact List.perm_append_comm.nodup_iff.mp hnd
    · intro x hx
      have hmem := mem_tree_of_mem_dirs hx
      rw [htree, mem_singleton] at hmem
      subst hmem
      exact onlyPointers_of_blank hblank
  refine ⟨ht, fun w => ?_⟩
  rw [ht.walk_eq, path, locate, hchild]
  rfl

/-- The table of `safeKmapInit` starts empty. -/
theorem safeKmapInit_start {s : Pages} (h : PageSys.Booted ⟨s, []⟩) (hfree : s.pgfreelist ≠ 0)
    (k : KernLayout) : ∃ (p : Page) (l : List Page) (s1 : Pages),
      s.safeKmapInit k = (p.1, s1.mapAll p (kmapCalls k)) ∧ s.pgalloc = (some p.1, s1) ∧
      Table s1 l p ∧ ∀ w, s1.walk p w = none := by
  obtain ⟨free, hs⟩ := PageSys.owned_of_booted h
  cases free with
  | nil => exact absurd hs.freeList.chain hfree
  | cons p l =>
    have hnd : (p :: l).Nodup := (nodup_append'.mp hs.forest).1
    obtain ⟨s1, halloc, hl, hblank, -⟩ := pgalloc_cons hs.freeList (nodup_cons.mp hnd).1
    obtain ⟨ht, hnone⟩ := table_of_pgalloc hnd hl hblank
    refine ⟨p, l, s1, ?_, halloc, ht, hnone⟩
    rw [safeKmapInit, show s.pgalloc = (some p.1, s1) from halloc]
    rfl

end Pages

/-! ### The ranges of the kernel -/

namespace KernLayout

/-- The symbols that `safeKmapInit` uses are page-aligned, and its ranges
are not negative. -/
structure Ranges (k : KernLayout) : Prop where
  start : k._start.toNat % 4096 = 0 ∧ k._start.toNat ≤ k._ctxsws.toNat
  ctxsws : k._ctxsws.toNat % 4096 = 0 ∧ k._ctxsws.toNat < 2 ^ 38
  interrupts : k._interrupts.toNat % 4096 = 0 ∧ k._interrupts.toNat < 2 ^ 38
  interrupte : k._interrupte.toNat % 4096 = 0 ∧ k._interrupte.toNat ≤ k._datas.toNat
  datas : k._datas.toNat % 4096 = 0 ∧ k._datas.toNat ≤ k.memheap.toNat
  memheap : k.memheap.toNat % 4096 = 0 ∧ k.memheap.toNat ≤ k.maxaddr.toNat
  maxaddr : k.maxaddr.toNat % 4096 = 0 ∧ k.maxaddr.toNat < 2 ^ 38

/-- The symbols are page-aligned and in the order of `ld.script`. -/
structure Ordered (k : KernLayout) : Prop extends Ranges k where
  ctxswe : k._ctxsws.toNat ≤ k._ctxswe.toNat ∧ k._ctxswe.toNat % 4096 = 0
  sections : k._ctxswe.toNat ≤ k._interrupts.toNat ∧ k._interrupts.toNat ≤ k._interrupte.toNat

/-- The call maps `n` bytes from `va` on, to the bytes from `pa` on. -/
def Spans (c : MapCall) (va pa n : Nat) (attr : Ulong64) : Prop :=
  c.first = va ∧ c.physicaladdr.toNat = pa ∧ c.bytes = n ∧ c.attr = attr.setWidth 32

variable {k : KernLayout} {c : MapCall} {w : Ulong64}

/-- A range of whole pages between two symbols, mapped to itself. -/
theorem spans_sub {a b : Ulong64} (ha : a.toNat % 4096 = 0 ∧ a.toNat ≤ b.toNat)
    (hb : b.toNat % 4096 = 0) (hlt : b.toNat < 2 ^ 38) (attr : Ulong64) :
    Spans ⟨a, a, b - a, attr.setWidth 32⟩ a.toNat a.toNat (b.toNat - a.toNat) attr := by
  have hsub : (b - a).toNat = b.toNat - a.toNat := toNat_sub_of_le ha.2
  refine ⟨?_, rfl, ?_, rfl⟩
  · show (truncpage a).toNat = a.toNat
    rw [toNat_truncpage]
    omega
  · show (roundpage (b - a)).toNat = b.toNat - a.toNat
    rw [toNat_roundpage, hsub]
    omega

/-- The six calls. -/
structure Calls (k : KernLayout) : Prop where
  uart : Spans kmapUart 0x10000000 0x10000000 4096 (PTE_R ||| PTE_W)
  code : Spans (kmapCode k) k._start.toNat k._start.toNat (k._ctxsws.toNat - k._start.toNat)
    (PTE_R ||| PTE_X)
  interrupt : Spans (kmapInterrupt k) 0x3FFFFFC000 k._interrupts.toNat 4096
    (PTE_R ||| PTE_X ||| PTE_G)
  rest : Spans (kmapRest k) k._interrupte.toNat k._interrupte.toNat
    (k._datas.toNat - k._interrupte.toNat) (PTE_R ||| PTE_X)
  data : Spans (kmapData k) k._datas.toNat k._datas.toNat (k.memheap.toNat - k._datas.toNat)
    (PTE_R ||| PTE_W)
  ram : Spans (kmapRam k) k.memheap.toNat k.memheap.toNat (k.maxaddr.toNat - k.memheap.toNat)
    (PTE_R ||| PTE_W)

theorem calls (hk : k.Ranges) : k.Calls := by
  obtain ⟨hstart, hctxsws, -, hinterrupte, hdatas, hmemheap, hmaxaddr⟩ := hk
  have hfirst : (truncpage INTERRUPTADDR).toNat = 0x3FFFFFC000 := by decide
  have hbytes : (roundpage PAGE_SIZE).toNat = 4096 := by decide
  exact {
    uart := ⟨by decide, rfl, by decide, rfl⟩
    code := spans_sub hstart hctxsws.1 hctxsws.2 _
    interrupt := ⟨hfirst, rfl, hbytes, rfl⟩
    rest := spans_sub hinterrupte hdatas.1 (by omega) _
    data := spans_sub hdatas hmemheap.1 (by omega) _
    ram := spans_sub hmemheap hmaxaddr.1 hmaxaddr.2 _ }

theorem mem_kmapCalls : c ∈ kmapCalls k ↔ c = kmapUart ∨ c = kmapCode k ∨ c = kmapInterrupt k ∨
    c = kmapRest k ∨ c = kmapData k ∨ c = kmapRam k := by
  simp only [kmapCalls, mem_cons, not_mem_nil, or_false]

theorem inRange (hk : k.Ranges) (hc : c ∈ kmapCalls k) :
    c.first + c.bytes ≤ 2 ^ 39 ∧ c.physicaladdr.toNat < 2 ^ 38 := by
  obtain ⟨huart, hcode, hinterrupt, hrest, hdata, hram⟩ := calls hk
  obtain ⟨hstart, hctxsws, hinterrupts, hinterrupte, hdatas, hmemheap, hmaxaddr⟩ := hk
  simp only [Spans] at huart hcode hinterrupt hrest hdata hram
  rcases mem_kmapCalls.mp hc with rfl | rfl | rfl | rfl | rfl | rfl <;> omega

/-- Where the target of an address is. -/
theorem toNat_target (hk : k.Ranges) (hc : c ∈ kmapCalls k) (hw : c.Covers w) :
    (c.target w).toNat = c.physicaladdr.toNat + (w.toNat % 2 ^ 39 - c.first) / 4096 * 4096 := by
  obtain ⟨hr, hp⟩ := inRange hk hc
  obtain ⟨hlo, hhi⟩ := hw
  rw [MapCall.target, toNat_add, toNat_ofNat]
  omega

/-- The device is below the kernel, and the page of the interrupt section
is between its code and the rest of it. -/
structure Separate (k : KernLayout) : Prop extends Ranges k where
  uart : UART_BASE.toNat + 4096 ≤ k._start.toNat
  sections : k._ctxsws.toNat ≤ k._interrupts.toNat ∧
    k._interrupts.toNat + 4096 ≤ k._interrupte.toNat

/-- Data is mapped writable, and code executable. -/
theorem target_spec (hk : k.Separate) (hc : c ∈ kmapCalls k) (hw : c.Covers w) :
    (c.target w).toNat % 4096 = 0 ∧
    ((c.attr = (PTE_R ||| PTE_W).setWidth 32 ∧ ((c.target w).toNat < k._start.toNat ∨
        k._datas.toNat ≤ (c.target w).toNat)) ∨
      ((c.attr = (PTE_R ||| PTE_X).setWidth 32 ∨ c.attr = (PTE_R ||| PTE_X ||| PTE_G).setWidth 32) ∧
        k._start.toNat ≤ (c.target w).toNat ∧ (c.target w).toNat < k._datas.toNat)) := by
  obtain ⟨hu, hco, hin, hre, hda, hra⟩ := calls hk.toRanges
  have htarget := toNat_target hk.toRanges hc hw
  obtain ⟨hstart, hctxsws, hinterrupts, hinterrupte, hdatas, hmemheap, hmaxaddr⟩ := hk.toRanges
  obtain ⟨hlo, hhi⟩ := hw
  have huart : 0x10000000 + 4096 ≤ k._start.toNat := hk.uart
  have hsections := hk.sections
  simp only [Spans] at hu hco hin hre hda hra
  rcases mem_kmapCalls.mp hc with rfl | rfl | rfl | rfl | rfl | rfl
  · exact ⟨by omega, Or.inl ⟨hu.2.2.2, by omega⟩⟩
  · exact ⟨by omega, Or.inr ⟨Or.inl hco.2.2.2, by omega⟩⟩
  · exact ⟨by omega, Or.inr ⟨Or.inr hin.2.2.2, by omega⟩⟩
  · exact ⟨by omega, Or.inr ⟨Or.inl hre.2.2.2, by omega⟩⟩
  · exact ⟨by omega, Or.inl ⟨hda.2.2.2, by omega⟩⟩
  · exact ⟨by omega, Or.inl ⟨hra.2.2.2, by omega⟩⟩

/-- The page is mapped to itself. -/
def Identity (walk : Ulong64 → Option (Nat × Ulong64)) (w : Ulong64) : Prop :=
  ∃ pte, walk w = some (0, pte) ∧ PTE2PA pte = truncpage w

/-- A call decides about the addresses of its range. -/
theorem Spans.identity_iff {va pa n : Nat} {attr : Ulong64} (h : Spans c va pa n attr)
    (hflags : FlagBits (attr.setWidth 32)) (hva : va % 4096 = 0) (hpa : pa % 4096 = 0)
    (hk : k.Ranges) (hc : c ∈ kmapCalls k) (hw : w.toNat < 2 ^ 39)
    (walk : Ulong64 → Option (Nat × Ulong64)) : Identity (c.maps walk) w ↔
      if va ≤ w.toNat ∧ w.toNat < va + n then pa = va else Identity walk w := by
  have hcovers : c.Covers w ↔ va ≤ w.toNat ∧ w.toNat < va + n := by
    rw [MapCall.Covers, h.1, h.2.2.1, Nat.mod_eq_of_lt hw]
  unfold Identity MapCall.maps
  rw [← if_congr hcovers rfl rfl]
  by_cases hcov : c.Covers w
  · have htarget := toNat_target hk hc hcov
    rw [h.1, h.2.1, Nat.mod_eq_of_lt hw] at htarget
    have hattr : FlagBits c.attr := h.2.2.2 ▸ hflags
    obtain ⟨-, hleaf, hpage, -⟩ := mapEntry_spec hattr ⟨c.target w, by omega⟩
    have hin := hcovers.mp hcov
    rw [if_pos hcov, if_pos hcov, hleaf]
    simp only [Option.some.injEq, Prod.mk.injEq, true_and, exists_eq_left']
    rw [hpage, ← toNat_inj, toNat_truncpage, htarget]
    omega
  · rw [if_neg hcov, if_neg hcov]

/-- The entry for an address has the flags of one kind or of the other. -/
theorem entry_spec (hk : k.Separate) (hc : c ∈ kmapCalls k) (hw : c.Covers w) :
    PTE2PA (mapEntry (c.target w) c.attr) = c.target w ∧
    user (mapEntry (c.target w) c.attr) = false ∧
    ((writable (mapEntry (c.target w) c.attr) = true ∧
        executable (mapEntry (c.target w) c.attr) = false ∧
        ((c.target w).toNat < k._start.toNat ∨ k._datas.toNat ≤ (c.target w).toNat)) ∨
      (writable (mapEntry (c.target w) c.attr) = false ∧
        executable (mapEntry (c.target w) c.attr) = true ∧
        k._start.toNat ≤ (c.target w).toNat ∧ (c.target w).toNat < k._datas.toNat)) := by
  obtain ⟨haligned, hkind⟩ := target_spec hk hc hw
  have hflags : FlagBits c.attr := by
    rcases hkind with ⟨hattr, -⟩ | ⟨hattr | hattr, -⟩ <;> rw [hattr] <;> decide
  have hpage := (mapEntry_spec hflags ⟨c.target w, haligned⟩).2.2.1
  have hand : ∀ mask : Ulong64, mask.toNat < 1024 → mapEntry (c.target w) c.attr &&& mask =
      (c.attr.setWidth 64 ||| PTE_V) &&& mask := fun mask hmask => mapEntry_and hflags _ hmask
  simp only [user, writable, executable, hand PTE_U (by decide), hand PTE_W (by decide),
    hand PTE_X (by decide)]
  refine ⟨hpage, ?_⟩
  rcases hkind with ⟨hattr, hpa⟩ | ⟨hattr, hpa⟩
  · rw [hattr]
    exact ⟨by decide, Or.inl ⟨by decide, by decide, hpa⟩⟩
  · rcases hattr with hattr | hattr
    · rw [hattr]
      exact ⟨by decide, Or.inr ⟨by decide, by decide, hpa⟩⟩
    · rw [hattr]
      exact ⟨by decide, Or.inr ⟨by decide, by decide, hpa⟩⟩

end KernLayout

/-- In the table of `safeKmapInit` all pages are small ones, no page is
writable and executable, and none is for user mode. No physical page has
both a writable and an executable mapping. -/
theorem kernel_writeXorExecute {s : Pages} (h : PageSys.Booted ⟨s, []⟩) (hfree : s.pgfreelist ≠ 0)
    {k : KernLayout} (hk : k.Separate) :
    (∀ v level pte, (s.safeKmapInit k).2.walk (s.safeKmapInit k).1 v = some (level, pte) →
      level = 0 ∧ ¬(writable pte = true ∧ executable pte = true) ∧ user pte = false) ∧
    ∀ v v' level level' pte pte',
      (s.safeKmapInit k).2.walk (s.safeKmapInit k).1 v = some (level, pte) →
      (s.safeKmapInit k).2.walk (s.safeKmapInit k).1 v' = some (level', pte') →
      writable pte = true → executable pte' = true → PTE2PA pte ≠ PTE2PA pte' := by
  obtain ⟨p, l, s1, hinit, -, ht, hnone⟩ := safeKmapInit_start h hfree k
  rw [hinit]
  -- Every translation is an entry of one of the six calls.
  have hentry : ∀ v level pte, (s1.mapAll p (kmapCalls k)).walk p v = some (level, pte) →
      level = 0 ∧ ∃ c ∈ kmapCalls k, c.Covers v ∧ pte = mapEntry (c.target v) c.attr := by
    intro v level pte hv
    rcases mapAll_covered ht (fun c hc => (KernLayout.inRange hk.toRanges hc).1) v with
      hold | ⟨c, hc, hcov, hval⟩
    · rw [hold, hnone] at hv
      cases hv
    · rw [hval, leafEntry] at hv
      split at hv
      · cases hv
        exact ⟨rfl, c, hc, hcov, rfl⟩
      · cases hv
  refine ⟨?_, ?_⟩
  · intro v level pte hv
    obtain ⟨hlevel, c, hc, hcov, rfl⟩ := hentry v level pte hv
    obtain ⟨-, huser, hkind⟩ := KernLayout.entry_spec hk hc hcov
    refine ⟨hlevel, ?_, huser⟩
    rintro ⟨hw, hx⟩
    rcases hkind with ⟨-, hno, -⟩ | ⟨hno, -⟩
    · rw [hx] at hno
      cases hno
    · rw [hw] at hno
      cases hno
  · intro v v' level level' pte pte' hv hv' hw hx
    obtain ⟨-, c, hc, hcov, rfl⟩ := hentry v level pte hv
    obtain ⟨-, c', hc', hcov', rfl⟩ := hentry v' level' pte' hv'
    obtain ⟨hpa, -, hkind⟩ := KernLayout.entry_spec hk hc hcov
    obtain ⟨hpa', -, hkind'⟩ := KernLayout.entry_spec hk hc' hcov'
    rw [hpa, hpa']
    intro heq
    have hnat := congrArg BitVec.toNat heq
    rcases hkind with ⟨-, -, hdata⟩ | ⟨hno, -⟩
    · rcases hkind' with ⟨-, hno, -⟩ | ⟨-, -, hcode⟩
      · rw [hx] at hno
        cases hno
      · omega
    · rw [hw] at hno
      cases hno

/-- A small kernel: one page in each section. -/
def smallKernel : KernLayout where
  _start := 0x80000000
  _ctxsws := 0x80001000
  _ctxswe := 0x80002000
  _interrupts := 0x80002000
  _interrupte := 0x80003000
  _datas := 0x80004000
  memheap := 0x80005000
  maxaddr := 0x80006000

theorem smallKernel_separate : smallKernel.Separate where
  start := by decide
  ctxsws := by decide
  interrupts := by decide
  interrupte := by decide
  datas := by decide
  memheap := by decide
  maxaddr := by decide
  uart := by decide
  sections := by decide

/-- Its page table, with the memory. -/
abbrev smallKmap : Ulong64 × Pages := PageSys.eightPages.safeKmapInit smallKernel

/-- The data of the small kernel is writable, its code is executable, and
they are different pages. -/
theorem kernel_writeXorExecute_small :
    ∃ pte pte', smallKmap.2.walk 0x1000 0x80004000 = some (0, pte) ∧
      smallKmap.2.walk 0x1000 0x3FFFFFC000 = some (0, pte') ∧
      writable pte = true ∧ executable pte' = true ∧ PTE2PA pte ≠ PTE2PA pte' := by
  have hdata : smallKmap.2.walk smallKmap.1 0x80004000 = some (0, 0x20001007) := by
    decide +kernel
  have hcode : smallKmap.2.walk smallKmap.1 0x3FFFFFC000 = some (0, 0x2000082B) := by
    decide +kernel
  exact ⟨_, _, hdata, hcode, by decide, by decide,
    (kernel_writeXorExecute PageSys.eightPages_booted
      (by decide) smallKernel_separate).2 _ _ _ _ _ _
      hdata hcode (by decide) (by decide)⟩

/-- With enough free pages, `safeKmapInit` maps a page of the kernel or of
the memory after it to itself exactly in three cases. It comes after the
interrupt section. Or it is the page `INTERRUPTADDR`, and the interrupt
section, which is mapped there, is that page itself. Or it is another
page, of the code or of the device. The sections between `_ctxsws` and
`_interrupte` are mapped at no address of their own. -/
theorem kernel_identity_iff {s : Pages} (h : PageSys.Booted ⟨s, []⟩) (hfree : s.pgfreelist ≠ 0)
    {k : KernLayout} (hk : k.Ordered)
    (hs : Suffices (s.safeKmapInit k).1 (kmapCalls k) s.pgalloc.2) (v : Ulong64)
    (hv : k._start.toNat ≤ v.toNat ∧ v.toNat < k.maxaddr.toNat) :
    (∃ pte, (s.safeKmapInit k).2.walk (s.safeKmapInit k).1 v = some (0, pte) ∧
      PTE2PA pte = truncpage v) ↔
    k._interrupte.toNat ≤ v.toNat ∨
    (truncpage v = INTERRUPTADDR ∧ k._interrupts = INTERRUPTADDR) ∨
    (truncpage v ≠ INTERRUPTADDR ∧ (v.toNat < k._ctxsws.toNat ∨ truncpage v = UART_BASE)) := by
  obtain ⟨p, l, s1, hinit, halloc, ht, hnone⟩ := safeKmapInit_start h hfree k
  rw [hinit, halloc] at hs
  rw [hinit, mapAll_walk ht (fun c hc => (KernLayout.inRange hk.toRanges hc).1) hs]
  have hmem := fun c => (KernLayout.mem_kmapCalls (c := c) (k := k)).mpr
  have hempty : ¬KernLayout.Identity (s1.walk p) v := by
    rintro ⟨pte, hpte, -⟩
    cases (hnone v).symm.trans hpte
  obtain ⟨huart, hcode, hinterrupt, hrest, hdata, hram⟩ := KernLayout.calls hk.toRanges
  obtain ⟨⟨hstart, hctxsws, hinterrupts, hinterrupte, hdatas, hmemheap, hmaxaddr⟩, hctxswe,
    hsections⟩ := id hk
  have hlt : v.toNat < 2 ^ 39 := by omega
  -- The last call that covers the page decides.
  show KernLayout.Identity ((kmapRam k).maps ((kmapData k).maps ((kmapRest k).maps
    ((kmapInterrupt k).maps ((kmapCode k).maps (kmapUart.maps (s1.walk p))))))) v ↔ _
  rw [hram.identity_iff (by decide) hmemheap.1 hmemheap.1 hk.toRanges (hmem _ (by simp)) hlt,
    hdata.identity_iff (by decide) hdatas.1 hdatas.1 hk.toRanges (hmem _ (by simp)) hlt,
    hrest.identity_iff (by decide) hinterrupte.1 hinterrupte.1 hk.toRanges (hmem _ (by simp)) hlt,
    hinterrupt.identity_iff (by decide) (by decide) hinterrupts.1 hk.toRanges
      (hmem _ (by simp)) hlt,
    hcode.identity_iff (by decide) hstart.1 hstart.1 hk.toRanges (hmem _ (by simp)) hlt,
    huart.identity_iff (by decide) (by decide) (by decide) hk.toRanges (hmem _ (by simp)) hlt,
    iff_false_intro hempty]
  have hint : INTERRUPTADDR.toNat = 0x3FFFFFC000 := rfl
  have hdev : UART_BASE.toNat = 0x10000000 := rfl
  rw [ne_eq, ← toNat_inj, ← toNat_inj, ← toNat_inj, toNat_truncpage, hint, hdev]
  split_ifs <;> try rw [false_iff]
  all_goals omega

theorem smallKernel_ordered : smallKernel.Ordered :=
  ⟨smallKernel_separate.toRanges, by decide, by decide⟩

/-- The page of code after the interrupt section is mapped to itself, that
of the context switch is not. -/
theorem kernel_identity_small :
    (∃ pte, smallKmap.2.walk smallKmap.1 0x80003ABC = some (0, pte) ∧
      PTE2PA pte = truncpage 0x80003ABC) ∧
    ¬∃ pte, smallKmap.2.walk smallKmap.1 0x80001ABC = some (0, pte) ∧
      PTE2PA pte = truncpage 0x80001ABC := by
  have hiff := kernel_identity_iff PageSys.eightPages_booted (by decide) smallKernel_ordered
    (by decide +kernel)
  exact ⟨(hiff 0x80003ABC (by decide)).mpr (by decide),
    mt (hiff 0x80001ABC (by decide)).mp (by decide)⟩

/-- Eight pages are enough for the small kernel, and the device is outside
of it. Nevertheless the context switch and interrupt sections are not
mapped. -/
theorem kernel_sections_unmapped :
    PageSys.Booted ⟨PageSys.eightPages, []⟩ ∧ PageSys.eightPages.pgfreelist ≠ 0 ∧
    smallKernel.Ordered ∧ UART_BASE.toNat + 4096 ≤ smallKernel._start.toNat ∧
    Suffices smallKmap.1 (kmapCalls smallKernel)
      PageSys.eightPages.pgalloc.2 ∧
    smallKmap.2.walk smallKmap.1 smallKernel._ctxsws = none ∧
    smallKmap.2.walk smallKmap.1 smallKernel._interrupts = none :=
  ⟨PageSys.eightPages_booted, by decide, smallKernel_ordered, by decide, by decide +kernel,
    by decide +kernel, by decide +kernel⟩

end Xinu
