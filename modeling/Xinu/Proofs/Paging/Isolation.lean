import Xinu.Proofs.Paging.Mapping

/-!
# `Xinu.Proofs.Paging.Isolation`: every page has one owner

The invariant of the page allocator and all page tables. `Owned` says
that the free pages and the trees under the pages that callers hold form
a forest: no page is in two places. A page that a caller holds is the
root of a table, which is empty until something is mapped in it.

Each call keeps the invariant and leaves the trees under the other roots
alone (`Owned.exec`), so that in every run the tables stay apart
(`isolated_of_reachable`) and `mapAddress` maps what it is asked for
(`mapAddress_walk`).
-/

namespace Xinu

open Lib Lib.Radix Pages List BitVec

variable {s : PageSys}

namespace PageSys

/-- The free pages `free` and the pages `held` by callers, which are the
roots of page tables. -/
structure Owned (s : PageSys) (free held : List Page) : Prop where
  holds : s.held = held.map Subtype.val
  freeList : FreeList s.pages free
  forest : Forest child 2 s.pages.heap free held
  pointers : ∀ r ∈ held, ∀ x ∈ dirs child s.pages.heap 2 r, s.pages.OnlyPointers x.1
  ne_zero : ∀ r ∈ held, r.1 ≠ 0

/-- The table under `r` was not written. -/
def Untouched (s s' : PageSys) (r : Page) : Prop :=
  ∀ x ∈ tree child s.pages.heap 2 r, s'.pages.heap x = s.pages.heap x

namespace Owned
variable {s s' : PageSys} {free free' held held' : List Page} {r p : Page} {call : PageCall}

theorem table (h : s.Owned free held) (hr : r ∈ held) : Table s.pages free r :=
  ⟨h.freeList, h.forest.nodup_tree hr, h.pointers r hr⟩

theorem mem_held (h : s.Owned free held) {a : Ulong64} (ha : a ∈ s.held) :
    ∃ r ∈ held, r.1 = a := by
  rw [h.holds] at ha
  exact mem_map.mp ha

/-- The pointers of a table that was not written. -/
theorem pointers_of_untouched (h : s.Owned free held) (hr : r ∈ held) (hu : s.Untouched s' r) :
    ∀ x ∈ dirs child s'.pages.heap 2 r, s'.pages.OnlyPointers x.1 := by
  intro x hx
  rw [(untouched hu).2.1] at hx
  exact onlyPointers_congr (hu x (mem_tree_of_mem_dirs hx)) (h.pointers r hr x hx)

/-- The translation of a table that was not written. -/
theorem walk_of_untouched (h : s.Owned free held) (h' : s'.Owned free' held') (hr : r ∈ held)
    (hr' : r ∈ held') (hu : s.Untouched s' r) (va : Ulong64) :
    s'.pages.walk r va = s.pages.walk r va := by
  rw [(h'.table hr').walk_eq, (h.table hr).walk_eq, (untouched hu).2.2 _ (length_path va 2)]
  cases hx : locate child s.pages.heap (path va 2) r with
  | none => rfl
  | some x =>
    rw [Option.bind_some, Option.bind_some, hu x (mem_tree_of_locate (length_path va 2) hx)]

/-! ### The calls -/

theorem pgalloc_none (h : s.Owned [] held) : s.exec .pgalloc = .ok s := by
  rw [exec, pgalloc_nil h.freeList]

/-- A free page becomes the root of an empty table. -/
theorem pgalloc (h : s.Owned (p :: free) held) :
    ∃ s', s.exec .pgalloc = .ok s' ∧ s'.Owned free (p :: held) ∧
      ∀ r ∈ held, s.Untouched s' r := by
  have hp : p ∉ free := (nodup_cons.mp (nodup_append'.mp h.forest).1).1
  obtain ⟨pages, halloc, hfree, hblank, hother⟩ := pgalloc_cons h.freeList hp
  have hu : ∀ r ∈ held, s.Untouched ⟨pages, p.1 :: s.held⟩ r := by
    intro r hr x hx
    refine hother x ?_
    rintro rfl
    exact h.forest.notMem_tree mem_cons_self hr hx
  -- The page comes zeroed, so no entry of it points anywhere.
  have hpoint : ∀ j, child (pages.heap p j) = none := fun j => by
    rw [hblank, child_of_not_valid valid_zero]
  refine ⟨⟨pages, p.1 :: s.held⟩, by rw [exec, halloc], ⟨?_, hfree, ?_, ?_, ?_⟩, hu⟩
  · rw [map_cons, h.holds]
  · exact h.forest.add rfl hpoint hother
  · intro r hr x hx
    rcases mem_cons.mp hr with rfl | hr
    · have hmem := mem_tree_of_mem_dirs hx
      rw [tree_blank hpoint, mem_singleton] at hmem
      subst hmem
      exact onlyPointers_of_blank hblank
    · exact h.pointers_of_untouched hr (hu r hr) x hx
  · intro r hr
    rcases mem_cons.mp hr with rfl | hr
    · exact h.freeList.ne_zero r mem_cons_self
    · exact h.ne_zero r hr

/-- A page that is held becomes free. The tables under it are lost. -/
theorem pgfree (h : s.Owned free held) (hp : p ∈ held) :
    ∃ s', s.exec (.pgfree p) = .ok s' ∧ s'.Owned (p :: free) (held.erase p) ∧
      ∀ r ∈ held.erase p, s.Untouched s' r := by
  have hnotMem : p ∉ free := fun hf => h.forest.notMem_tree hf hp mem_tree_self
  obtain ⟨pages, hfree, hlist, -, hother⟩ := pgfree_spec h.freeList hnotMem (h.ne_zero p hp)
  have hu : ∀ r ∈ held.erase p, s.Untouched ⟨pages, s.held.erase p⟩ r := by
    intro r hr x hx
    obtain ⟨hne, hmem⟩ := h.forest.nodup_roots.mem_erase_iff.mp hr
    refine hother x ?_
    rintro rfl
    exact h.forest.apart hmem hp hne hx mem_tree_self
  refine ⟨⟨pages, s.held.erase p⟩, by rw [exec, hfree], ⟨?_, hlist, ?_, ?_, ?_⟩, hu⟩
  · rw [h.holds, map_erase Subtype.val_injective]
  · exact h.forest.drop hp hother
  · intro r hr
    exact h.pointers_of_untouched (mem_of_mem_erase hr) (hu r hr)
  · intro r hr
    exact h.ne_zero r (mem_of_mem_erase hr)

/-- A call that updates the table under `r`. -/
theorem update {pages : Pages} (h : s.Owned free held) (hr : r ∈ held)
    (hup : Updates r s.pages free pages free') :
    PageSys.Owned ⟨pages, s.held⟩ free' held ∧
      ∀ r' ∈ held, r' ≠ r → s.Untouched ⟨pages, s.held⟩ r' := by
  -- The new tables were free pages, which no other table can reach.
  obtain ⟨new, hused, hext⟩ := hup.extends_
  have hsub : ∀ x ∈ new, x ∈ free := fun x hx => hused.mem_iff.mpr (mem_append_left _ hx)
  have hu : ∀ r' ∈ held, r' ≠ r → s.Untouched ⟨pages, s.held⟩ r' := fun r' hr' hne x hx =>
    h.forest.untouched_of_extends hr hsub hext hr' hne hx
  refine ⟨⟨h.holds, hup.table.free, h.forest.extend hr hused hext, ?_, h.ne_zero⟩, hu⟩
  intro r' hr'
  by_cases hne : r' = r
  · subst hne
    exact hup.table.pointers
  · exact h.pointers_of_untouched hr' (hu r' hr' hne)

/-- A permitted call keeps the invariant, and the tables under other
roots. -/
theorem exec (h : s.Owned free held) (hok : s.Permitted call) (hexec : s.exec call = .ok s') :
    ∃ free' held', s'.Owned free' held' ∧
      ∀ r ∈ held, r ∈ held' → call.root ≠ some r.1 → s.Untouched s' r := by
  cases call with
  | pgalloc =>
    cases free with
    | nil =>
      rw [h.pgalloc_none] at hexec
      cases hexec
      exact ⟨[], held, h, fun r _ _ _ x _ => rfl⟩
    | cons p free =>
      obtain ⟨s1, hs1, h', hu⟩ := h.pgalloc
      rw [hs1] at hexec
      cases hexec
      exact ⟨free, p :: held, h', fun r hr _ _ => hu r hr⟩
  | pgfree addr =>
    obtain ⟨p, hp, rfl⟩ := h.mem_held hok
    obtain ⟨s1, hs1, h', hu⟩ := h.pgfree hp
    rw [hs1] at hexec
    cases hexec
    exact ⟨p :: free, held.erase p, h', fun r _ hr _ => hu r hr⟩
  | mapPage pagetable page virtualaddr attr =>
    obtain ⟨r, hr, rfl⟩ := h.mem_held hok
    obtain ⟨free', hup, -⟩ := mapOne_spec (h.table hr) (truncpage virtualaddr) page attr
    cases hexec
    obtain ⟨h', hu⟩ := h.update hr hup
    exact ⟨free', held, h', fun r' hr' _ hne => hu r' hr' fun heq => hne (by rw [heq]; rfl)⟩
  | mapAddress pagetable virtualaddr physicaladdr length attr =>
    obtain ⟨r, hr, rfl⟩ := h.mem_held hok
    obtain ⟨free', hup⟩ :=
      mapAddress_updates virtualaddr physicaladdr length attr (h.table hr)
    cases hexec
    obtain ⟨h', hu⟩ := h.update hr hup
    exact ⟨free', held, h', fun r' hr' _ hne => hu r' hr' fun heq => hne (by rw [heq]; rfl)⟩

end Owned

/-- A free list of addresses is one of pages. -/
theorem owned_of_booted (h : s.Booted) : ∃ free, s.Owned free [] := by
  obtain ⟨hheld, free, hchain, hnodup, hfree⟩ := h
  have hsize : PAGE_SIZE.toNat = 4096 := rfl
  have haligned : ∀ p ∈ free, p.toNat % 4096 = 0 := by
    intro p hp
    have := congrArg BitVec.toNat (hfree p hp).2
    rwa [toNat_umod, hsize] at this
  obtain ⟨pages, rfl⟩ : ∃ pages : List Page, pages.map Subtype.val = free :=
    ⟨free.attachWith _ haligned, attachWith_map_subtype_val _⟩
  refine ⟨pages, by rw [hheld]; rfl, ⟨hchain, fun p hp => ?_⟩, ?_, ?_, ?_⟩
  · exact (hfree p.1 (mem_map_of_mem hp)).1
  · rw [Forest, flatMap_nil, append_nil]
    exact hnodup.of_map
  · intro r hr
    cases hr
  · intro r hr
    cases hr

/-- The invariant holds in every state of every run. -/
theorem owned_of_reachable (h : s.Reachable) : ∃ free held, s.Owned free held := by
  refine Reaches.induction (P := fun s => ∃ free held, s.Owned free held) h ?_ ?_
  · intro s hs
    obtain ⟨free, hfree⟩ := owned_of_booted hs
    exact ⟨free, [], hfree⟩
  · rintro s call s' ⟨free, held, hs⟩ hok hexec
    obtain ⟨free', held', hs', -⟩ := hs.exec hok hexec
    exact ⟨free', held', hs'⟩

/-! ### The tables in memory -/

section Lists
variable {s : Pages} {r : Page}

theorem children_eq (s : Pages) (r : Page) : s.children r =
    ((List.finRange 512).filterMap fun i => child (s.heap r i)).map Subtype.val := by
  have hentry : (fun i : Fin 512 =>
      if valid (s.heap r i) then some (PTE2PA (s.heap r i)) else none) =
        fun i => (child (s.heap r i)).map Subtype.val := by
    funext i
    rw [child]
    split <;> rfl
  rw [map_filterMap, ← hentry]
  rfl

/-- The tree of a root is the root and the pages under it. -/
theorem map_tree (s : Pages) (r : Page) :
    (tree child s.heap 2 r).map Subtype.val = r.1 :: s.interior r := by
  have hchild : ∀ c : Page, (tree child s.heap 1 c).map Subtype.val = c.1 :: s.children c := by
    intro c
    rw [tree, flatMap_elim, children_eq, map_cons]
    show _ :: ((List.filterMap _ _).flatMap fun x => [x]).map _ = _
    rw [flatMap_singleton']
  rw [tree, flatMap_elim, map_cons, map_flatMap, Pages.interior, children_eq,
    flatMap_map]
  exact congrArg _ (flatMap_congr fun c _ => hchild c)

/-- Each root holds pointers, and so does each table under it. -/
theorem onlyPointers_of_dirs (h : ∀ x ∈ dirs child s.heap 2 r, s.OnlyPointers x.1) :
    s.OnlyPointers r ∧ ∀ t ∈ s.children r, s.OnlyPointers t := by
  refine ⟨h r (mem_dirs_succ.mpr (Or.inl rfl)), ?_⟩
  intro t ht
  rw [children_eq] at ht
  obtain ⟨c, hc, rfl⟩ := mem_map.mp ht
  obtain ⟨i, -, hci⟩ := mem_filterMap.mp hc
  exact h c (mem_dirs_succ.mpr (Or.inr ⟨i, c, hci, mem_dirs_succ.mpr (Or.inl rfl)⟩))

end Lists

/-- No page is in two places. -/
theorem Owned.nodup {free held : List Page} (h : s.Owned free held) :
    (free.map Subtype.val ++ s.held ++ s.held.flatMap s.pages.interior).Nodup := by
  have hforest := h.forest.map Subtype.val_injective
  have htrees : ((held.flatMap (tree child s.pages.heap 2)).map Subtype.val).Perm
      (s.held ++ s.held.flatMap s.pages.interior) := by
    have hcat := flatMap_append_perm s.held (fun r => [r]) s.pages.interior
    simp only [flatMap_singleton', singleton_append] at hcat
    refine List.Perm.trans ?_ hcat.symm
    rw [map_flatMap, h.holds, flatMap_map, funext (map_tree s.pages)]
  rw [map_append] at hforest
  rw [List.append_assoc]
  exact (htrees.append_left _).nodup_iff.mp hforest

end PageSys

/-- In every run the free pages, the pages that callers hold and the
pages under them are all different. The upper two levels of every table
hold pointers only, and a call changes no translation under another root
than its own. -/
theorem isolated_of_reachable (h : s.Reachable) :
    (∃ free, Chain s.pages.mem s.pages.pgfreelist free 0 ∧
      (free ++ s.held ++ s.held.flatMap s.pages.interior).Nodup) ∧
    (∀ r ∈ s.held, s.pages.OnlyPointers r ∧ ∀ t ∈ s.pages.children r, s.pages.OnlyPointers t) ∧
    ∀ call s', s.Permitted call → s.exec call = .ok s' →
      ∀ r ∈ s.held, r ∈ s'.held → call.root ≠ some r →
        ∀ va, s'.pages.walk r va = s.pages.walk r va := by
  obtain ⟨free, held, hs⟩ := PageSys.owned_of_reachable h
  refine ⟨⟨free.map Subtype.val, hs.freeList.chain, hs.nodup⟩, ?_, ?_⟩
  · intro a ha
    obtain ⟨r, hr, rfl⟩ := hs.mem_held ha
    exact PageSys.onlyPointers_of_dirs (hs.pointers r hr)
  · intro call s' hok hexec a ha ha' hroot va
    obtain ⟨free', held', hs', hu⟩ := hs.exec hok hexec
    obtain ⟨r, hr, rfl⟩ := hs.mem_held ha
    obtain ⟨r', hr', heq⟩ := hs'.mem_held ha'
    obtain rfl : r' = r := Subtype.ext heq
    exact hs.walk_of_untouched hs' hr hr' (hu r' hr hr' hroot) va

/-- Two roots, with a page mapped under the first. Mapping another one
there does not show under the second. -/
theorem isolated_twoRoots : ∃ s : PageSys, s.Reachable ∧ s.held = [0x2000, 0x1000] ∧
    (s.pages.mapPage 0x1000 0x80000000 0x5000 6).1 = .ok ∧
    (s.pages.mapPage 0x1000 0x80000000 0x5000 6).2.walk 0x2000 0x5000 =
      s.pages.walk 0x2000 0x5000 := by
  obtain ⟨s, hs, htest⟩ := PageSys.exists_reachable
    [.pgalloc, .pgalloc, .mapPage 0x1000 0x90000000 0x7000 2]
    (fun s => decide (s.held = [0x2000, 0x1000] ∧
      (s.pages.mapPage 0x1000 0x80000000 0x5000 6).1 = .ok)) (by decide +kernel)
  obtain ⟨hheld, hok⟩ := of_decide_eq_true htest
  refine ⟨s, hs, hheld, hok, (isolated_of_reachable hs).2.2 (.mapPage 0x1000 0x80000000 0x5000 6) _
    ?_ rfl 0x2000 ?_ ?_ (by decide) 0x5000⟩
  · show (0x1000 : Ulong64) ∈ s.held
    rw [hheld]
    decide
  · rw [hheld]
    decide
  · show (0x2000 : Ulong64) ∈ s.held
    rw [hheld]
    decide

/-- `mapAddress` on a table that was built by the calls above. With `OK`
the pages of the range are mapped to the pages from `physicaladdr` on,
with `SYSERR` the first `j` of them are. Nothing else changes. -/
theorem mapAddress_walk (h : s.Reachable) {root : Ulong64} (hroot : root ∈ s.held)
    (virtualaddr physicaladdr length : Ulong64) (attr : BitVec 32)
    (hphys : physicaladdr.toNat % 4096 = 0) (hphys' : physicaladdr.toNat < 2 ^ 56)
    (hlength : length ≠ 0) (hattr : FlagBits attr)
    (hrange : (truncpage virtualaddr).toNat + (roundpage length).toNat ≤ 2 ^ 39) :
    ∃ j, ((s.pages.mapAddress root virtualaddr physicaladdr length attr).1 = .ok ∧
          j = (roundpage length).toNat / 4096 ∨
        (s.pages.mapAddress root virtualaddr physicaladdr length attr).1 = .syserr ∧
          j < (roundpage length).toNat / 4096) ∧
      (∀ k < j, ∀ w : Ulong64, w.toNat / 4096 = (truncpage virtualaddr).toNat / 4096 + k →
        ∃ pte, (s.pages.mapAddress root virtualaddr physicaladdr length attr).2.walk root w =
            some (0, pte) ∧
          pte = PA2PTE (physicaladdr + BitVec.ofNat 64 (k * 4096)) ||| attr.setWidth 64 ||| PTE_V ∧
          (PTE2PA pte).toNat = physicaladdr.toNat + k * 4096 ∧
          pte &&& 0x3FF = attr.setWidth 64 ||| PTE_V) ∧
      ∀ w : Ulong64, w.toNat < 2 ^ 39 →
        ¬((truncpage virtualaddr).toNat / 4096 ≤ w.toNat / 4096 ∧
          w.toNat / 4096 < (truncpage virtualaddr).toNat / 4096 + j) →
        (s.pages.mapAddress root virtualaddr physicaladdr length attr).2.walk root w =
          s.pages.walk root w := by
  obtain ⟨free, held, hs⟩ := PageSys.owned_of_reachable h
  obtain ⟨r, hr, rfl⟩ := hs.mem_held hroot
  obtain ⟨j, hj, hwalk⟩ :=
    mapAddress_spec virtualaddr physicaladdr length attr (hs.table hr) hlength hrange
  have haligned := toNat_truncpage virtualaddr
  have hjle : j ≤ (roundpage length).toNat / 4096 := by omega
  refine ⟨j, hj, ?_, ?_⟩
  · intro k hk w hw
    have hmod : w.toNat % 2 ^ 39 = w.toNat := Nat.mod_eq_of_lt (by omega)
    -- Page `k` of the range goes to page `k` from `physicaladdr` on.
    have hoff : (w.toNat - (truncpage virtualaddr).toNat) / 4096 * 4096 = k * 4096 := by omega
    have hnat : (physicaladdr + BitVec.ofNat 64 (k * 4096)).toNat =
        physicaladdr.toNat + k * 4096 := by
      rw [toNat_add, toNat_ofNat]
      omega
    have hpage : (physicaladdr + BitVec.ofNat 64 (k * 4096)).toNat % 4096 = 0 := by omega
    obtain ⟨hentry, hleaf, hpa, hflags⟩ := mapEntry_spec hattr ⟨_, hpage⟩
    refine ⟨_, ?_, hentry, by rw [hpa, hnat], hflags⟩
    rw [hwalk, mapped, hmod, if_pos (by omega), hoff, hleaf]
  · intro w hlt hw
    rw [hwalk, mapped, Nat.mod_eq_of_lt hlt, if_neg (by omega)]

/-- Two pages are mapped, and the second is found. -/
theorem mapAddress_walk_second : ∃ s : PageSys, s.Reachable ∧
    (s.pages.mapAddress 0x1000 0x5000 0x80000000 0x1800 6).1 = .ok ∧
    ∃ pte, (s.pages.mapAddress 0x1000 0x5000 0x80000000 0x1800 6).2.walk 0x1000 0x6ABC =
        some (0, pte) ∧ (PTE2PA pte).toNat = 0x80001000 := by
  obtain ⟨s, hs, htest⟩ := PageSys.exists_reachable [.pgalloc]
    (fun s => decide (s.held = [0x1000] ∧
      (s.pages.mapAddress 0x1000 0x5000 0x80000000 0x1800 6).1 = .ok)) (by decide +kernel)
  obtain ⟨hheld, hok⟩ := of_decide_eq_true htest
  have hroot : (0x1000 : Ulong64) ∈ s.held := by
    rw [hheld]
    decide
  obtain ⟨j, hj, hmapped, -⟩ := mapAddress_walk hs hroot 0x5000 0x80000000 0x1800 6 (by decide)
    (by decide) (by decide) (by decide) (by decide)
  have hj2 : j = 2 := by
    rcases hj with ⟨-, hj⟩ | ⟨herr, -⟩
    · exact hj
    · rw [hok] at herr
      cases herr
  obtain ⟨pte, hpte, -, hpa, -⟩ := hmapped 1 (by omega) 0x6ABC (by decide)
  exact ⟨s, hs, hok, pte, hpte, hpa⟩

end Xinu
