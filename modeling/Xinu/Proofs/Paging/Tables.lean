import Xinu.Lib.Radix
import Xinu.Proofs.Paging.Words

/-!
# `Xinu.Proofs.Paging.Tables`: page tables as radix trees

The memory of the pages is a heap of nodes with 512 entries
(`Pages.heap`), and a valid entry points to the page it names
(`Pages.child`). A page table is then a radix tree with two levels of
pointers. `FreeList` is the list of the free pages.

Each function has one lemma here. `pgalloc_cons` and `pgfree_spec` say
what happens to the free list and the heap. `traverse_spec` says that
`pgTraverseAndCreate` grows the tree by pages of the free list and
returns the table that the indices of the address locate.
-/

namespace Xinu.Pages

open Lib Lib.Radix Function List

variable {i : Fin 512}

/-- The entries of the pages. -/
def heap (s : Pages) (p : Page) (i : Fin 512) : Ulong64 := s.mem (pteAddr p (BitVec.ofNat 64 i))

/-- The page that a valid entry points to. -/
def child (pte : Ulong64) : Option Page := if valid pte then some (pageOf pte) else none

/-- The pages on `pgfreelist`, in order. -/
structure FreeList (s : Pages) (l : List Page) : Prop where
  chain : Chain s.mem s.pgfreelist (l.map Subtype.val) 0
  ne_zero : ∀ p ∈ l, p.1 ≠ 0

variable {s s' : Pages} {l l' : List Page} {p q t c : Page} {n : Nat} {va pte : Ulong64}

theorem child_of_valid (h : valid pte = true) : child pte = some (pageOf pte) := by
  rw [child, if_pos h]

theorem child_of_not_valid (h : valid pte = false) : child pte = none := by
  rw [child, if_neg (by rw [h]; decide)]

theorem valid_of_child_eq_none (h : child pte = none) : valid pte = false := by
  rw [child] at h
  split at h
  · cases h
  · exact Bool.not_eq_true _ ▸ ‹¬valid pte = true›

/-- The link of a free page is its first entry. -/
theorem mem_eq_heap (s : Pages) (p : Page) : s.mem p = s.heap p 0 := by
  rw [heap, Fin.val_zero, pteAddr_zero]

/-- The free list reads the free pages only. -/
theorem FreeList.congr (hl : FreeList s l) (hfirst : s'.pgfreelist = s.pgfreelist)
    (hheap : ∀ p ∈ l, s'.heap p = s.heap p) : FreeList s' l where
  chain := by
    rw [hfirst]
    refine hl.chain.congr ?_
    intro a ha
    obtain ⟨p, hp, rfl⟩ := mem_map.mp ha
    rw [mem_eq_heap, mem_eq_heap, hheap p hp]
  ne_zero := hl.ne_zero

/-! ### One entry -/

@[simp] theorem write_mem (s : Pages) (a v : Ulong64) :
    (s.write a v).mem = update s.mem a v := rfl

@[simp] theorem write_pgfreelist (s : Pages) (a v : Ulong64) :
    (s.write a v).pgfreelist = s.pgfreelist := rfl

theorem heap_write (s : Pages) (t : Page) (i : Fin 512) (v : Ulong64) :
    (s.write (pteAddr t (BitVec.ofNat 64 i)) v).heap =
      update s.heap t (update (s.heap t) i v) := by
  funext p j
  by_cases hp : p = t
  · subst hp
    rw [update_self]
    by_cases hj : j = i
    · subst hj
      rw [update_self, heap, write_mem, update_self]
    · have hne : pteAddr p (BitVec.ofNat 64 j) ≠ pteAddr p (BitVec.ofNat 64 i) := fun h =>
        hj (Fin.ext (pteAddr_inj p.2 p.2 j.isLt i.isLt h).2)
      rw [update_of_ne hj, heap, write_mem, update_of_ne hne, heap]
  · have hne : pteAddr p (BitVec.ofNat 64 j) ≠ pteAddr t (BitVec.ofNat 64 i) := fun h =>
      hp (Subtype.ext (pteAddr_inj p.2 t.2 j.isLt i.isLt h).1)
    rw [update_of_ne hp, heap, write_mem, update_of_ne hne, heap]

theorem heap_write_of_ne {v : Ulong64} (hp : p ≠ t) :
    (s.write (pteAddr t (BitVec.ofNat 64 i)) v).heap p = s.heap p := by
  rw [heap_write, update_of_ne hp]

theorem heap_write_self {v : Ulong64} :
    (s.write (pteAddr t (BitVec.ofNat 64 i)) v).heap t = update (s.heap t) i v := by
  rw [heap_write, update_self]

/-! ### The allocator -/

theorem pgalloc_nil (hl : FreeList s []) : s.pgalloc = (none, s) := by
  have hnull : s.pgfreelist = 0 := hl.chain
  rw [pgalloc, if_pos hnull]

/-- The first free page is cleared, and no other page changes. -/
theorem pgalloc_cons (hl : FreeList s (p :: l)) (hp : p ∉ l) :
    ∃ s', s.pgalloc = (some p.1, s') ∧ FreeList s' l ∧ (∀ i, s'.heap p i = 0) ∧
      ∀ q, q ≠ p → s'.heap q = s.heap q := by
  obtain ⟨hfirst, hrest⟩ := hl.chain
  have hheap : ∀ q i, (⟨bzero s.mem p, s.mem p⟩ : Pages).heap q i =
      if q.1 = p.1 then 0 else s.heap q i := fun q i =>
    bzero_pteAddr s.mem q.2 p.2 i.isLt
  have hother : ∀ q, q ≠ p → (⟨bzero s.mem p, s.mem p⟩ : Pages).heap q = s.heap q := by
    intro q hq
    funext i
    rw [hheap, if_neg fun h => hq (Subtype.ext h)]
  refine ⟨⟨bzero s.mem p, s.mem p⟩, ?_, ?_, fun i => by rw [hheap, if_pos rfl], hother⟩
  · rw [pgalloc, hfirst, if_neg (hl.ne_zero p mem_cons_self)]
  · refine FreeList.congr (s := ⟨s.mem, s.mem p⟩) ⟨hrest, fun q hq => ?_⟩ rfl ?_
    · exact hl.ne_zero q (mem_cons_of_mem _ hq)
    · intro q hq
      exact hother q (ne_of_mem_of_not_mem hq hp)

/-- The freed page comes to the front of the list, cleared apart from its
link. -/
theorem pgfree_spec (hl : FreeList s l) (hp : p ∉ l) (hnull : p.1 ≠ 0) :
    ∃ s', s.pgfree p = (.ok, s') ∧ FreeList s' (p :: l) ∧ (∀ i, i ≠ 0 → s'.heap p i = 0) ∧
      ∀ q, q ≠ p → s'.heap q = s.heap q := by
  -- The link of the free list is the first entry of page `p`.
  have hlink : ∀ (q : Page) (i : Fin 512), pteAddr q.1 (BitVec.ofNat 64 i) = p.1 →
      q.1 = p.1 ∧ i.1 = 0 := by
    intro q i h
    rw [← pteAddr_zero (t := p.1)] at h
    exact pteAddr_inj q.2 p.2 i.isLt (by decide) h
  have hother : ∀ q, q ≠ p →
      (⟨update (bzero s.mem p) p s.pgfreelist, p⟩ : Pages).heap q = s.heap q := by
    intro q hq
    funext i
    have hne : pteAddr q.1 (BitVec.ofNat 64 i) ≠ p.1 := fun h => hq (Subtype.ext (hlink q i h).1)
    show update (bzero s.mem p) p.1 s.pgfreelist (pteAddr q.1 (BitVec.ofNat 64 i)) = _
    rw [update_of_ne hne, bzero_pteAddr s.mem q.2 p.2 i.isLt,
      if_neg fun h => hq (Subtype.ext h)]
    rfl
  have hclear : ∀ i, i ≠ 0 →
      (⟨update (bzero s.mem p) p s.pgfreelist, p⟩ : Pages).heap p i = 0 := by
    intro i hi
    have hne : pteAddr p.1 (BitVec.ofNat 64 i) ≠ p.1 := fun h => hi (Fin.ext (hlink p i h).2)
    show update (bzero s.mem p) p.1 s.pgfreelist (pteAddr p.1 (BitVec.ofNat 64 i)) = _
    rw [update_of_ne hne, bzero_pteAddr s.mem p.2 p.2 i.isLt, if_pos rfl]
  refine ⟨⟨update (bzero s.mem p) p s.pgfreelist, p⟩, ?_, ?_, hclear, hother⟩
  · rw [pgfree, if_neg (not_not_intro (mod_page p))]
  · have hrest : FreeList ⟨update (bzero s.mem p) p s.pgfreelist, s.pgfreelist⟩ l :=
      hl.congr rfl fun q hq => hother q (ne_of_mem_of_not_mem hq hp)
    refine ⟨⟨rfl, ?_⟩, ?_⟩
    · show Chain _ (update (bzero s.mem p) p.1 s.pgfreelist p.1) _ 0
      rw [update_self]
      exact hrest.chain
    · intro q hq
      rcases mem_cons.mp hq with rfl | hq
      · exact hnull
      · exact hl.ne_zero q hq

/-! ### Creating tables -/

/-- The indices of the levels from `n` down to 1. -/
def path (va : Ulong64) : Nat → List (Fin 512)
  | 0 => []
  | n + 1 => index (n + 1) va :: path va n

theorem length_path (va : Ulong64) (n : Nat) : (path va n).length = n := by
  induction n with
  | zero => rfl
  | succ n ih => rw [path, length_cons, ih]

/-- The tree under `t` has grown by the pages `new`, which are from the
free list. -/
structure Grown (n : Nat) (t : Page) (s s' : Pages) (l new l' : List Page) : Prop where
  free : FreeList s' l'
  used : l.Perm (new ++ l')
  grows : Grows child n t s.heap s'.heap new
  pointers : ∀ x : Page, s.OnlyPointers x → s'.OnlyPointers x
  newPointers : ∀ x ∈ new, s'.OnlyPointers x.1

/-- A blank page has no entry that is not a pointer. -/
theorem onlyPointers_of_blank (h : ∀ i, s.heap p i = 0) : s.OnlyPointers p := by
  intro i hvalid
  rw [show s.mem (pteAddr p (BitVec.ofNat 64 i)) = 0 from h i, valid_zero] at hvalid
  cases hvalid

theorem onlyPointers_congr (h : s'.heap p = s.heap p) (hp : s.OnlyPointers p) :
    s'.OnlyPointers p := by
  intro i
  rw [show s'.mem (pteAddr p (BitVec.ofNat 64 i)) = s.mem (pteAddr p (BitVec.ofNat 64 i)) from
    congrFun h i]
  exact hp i

/-- A table with one more pointer. -/
theorem OnlyPointers.write {v : Ulong64} (hp : s.OnlyPointers t)
    (hv : leaf v = false) : (s.write (pteAddr t (BitVec.ofNat 64 i)) v).OnlyPointers t := by
  intro j hvalid
  have hentry : (s.write (pteAddr t (BitVec.ofNat 64 i)) v).mem (pteAddr t (BitVec.ofNat 64 j)) =
      update (s.heap t) i v j := congrFun heap_write_self j
  rw [hentry] at hvalid ⊢
  by_cases hj : j = i
  · subst hj
    rw [update_self]
    exact hv
  · rw [update_of_ne hj] at hvalid ⊢
    exact hp j hvalid

namespace Grown
variable {s1 : Pages} {l1 new new1 : List Page} {i : Fin 512}

theorem refl (hl : FreeList s l) : Grown n t s s l [] l where
  free := hl
  used := List.Perm.refl _
  grows := .refl
  pointers _ hx := hx
  newPointers _ hx := absurd hx not_mem_nil

/-- All pages are where they were, or have moved from the free list into
the tree. -/
theorem nodup (hg : Grown n t s s' l new l') (hnd : (l ++ tree child s.heap n t).Nodup) :
    (l' ++ tree child s'.heap n t).Nodup := by
  have hall : (l' ++ tree child s'.heap n t).Perm (l ++ tree child s.heap n t) := by
    refine (hg.grows.tree.append_left l').trans ?_
    rw [← List.append_assoc]
    exact (perm_append_comm.trans hg.used.symm).append_right _
  exact hall.nodup_iff.mpr hnd

theorem new_mem (hg : Grown n t s s' l new l') {x : Page} (hx : x ∈ new) : x ∈ l :=
  hg.used.mem_iff.mpr (mem_append_left _ hx)

theorem trans (h1 : Grown n t s s1 l new l1) (h2 : Grown n t s1 s' l1 new1 l')
    (hnd : (l ++ tree child s.heap n t).Nodup) : Grown n t s s' l (new1 ++ new) l' where
  free := h2.free
  used := by
    have hcat : (new1 ++ new ++ l').Perm (new ++ (new1 ++ l')) := by
      rw [← List.append_assoc]
      exact List.perm_append_comm.append_right _
    exact (h1.used.trans (h2.used.append_left _)).trans hcat.symm
  grows := by
    obtain ⟨-, htree, hdisj⟩ := nodup_append'.mp (h1.nodup hnd)
    exact h1.grows.trans h2.grows htree fun x hx => hdisj (h2.new_mem hx)
  pointers x hx := h2.pointers x (h1.pointers x hx)
  newPointers x hx := by
    rcases mem_append.mp hx with hx | hx
    · exact h2.newPointers x hx
    · exact h2.pointers x (h1.newPointers x hx)

theorem lift (hg : Grown n c s s' l new l') (hnd : (l ++ tree child s.heap (n + 1) t).Nodup)
    (hc : child (s.heap t i) = some c) : Grown (n + 1) t s s' l new l' := by
  obtain ⟨-, htree, hdisj⟩ := nodup_append'.mp hnd
  exact { hg with grows := hg.grows.lift htree hc fun x hx => hdisj (hg.new_mem hx) }

/-- What is located in the subtree is located in the tree. -/
theorem locate_cons (hg : Grown n c s s' l new l')
    (hnd : (l ++ tree child s.heap (n + 1) t).Nodup) (hc : child (s.heap t i) = some c)
    (path : List (Fin 512)) :
    locate child s'.heap (i :: path) t = locate child s'.heap path c := by
  obtain ⟨-, htree, hdisj⟩ := nodup_append'.mp hnd
  have hroot : s'.heap t = s.heap t := by
    refine hg.grows.frame t (fun ht => hdisj (hg.new_mem ht) mem_tree_self) fun hd => ?_
    exact root_notMem htree hc (mem_tree_of_mem_dirs hd)
  rw [locate, hroot, hc, Option.bind_some]

/-- A page is allocated and entered where there was no table. -/
theorem link (hl : FreeList s1 l) (hcl : c ∉ l)
    (hnd : (c :: l ++ tree child s.heap (n + 1) t).Nodup) (hnone : child (s.heap t i) = none)
    (hblank : ∀ j, s1.heap c j = 0) (hother : ∀ q, q ≠ c → s1.heap q = s.heap q) :
    Grown (n + 1) t s (s1.write (pteAddr t (BitVec.ofNat 64 i)) (PA2PTE c ||| PTE_V))
      (c :: l) [c] l ∧
    child ((s1.write (pteAddr t (BitVec.ofNat 64 i)) (PA2PTE c ||| PTE_V)).heap t i) = some c := by
  obtain ⟨-, htree, hdisj⟩ := nodup_append'.mp hnd
  have htl : t ∉ c :: l := fun ht => hdisj ht mem_tree_self
  obtain ⟨htc, htl⟩ := not_or.mp (mt mem_cons.mpr htl)
  -- The entry is written in `t`, which is neither the new page nor free.
  have hself : (s1.write (pteAddr t (BitVec.ofNat 64 i)) (PA2PTE c ||| PTE_V)).heap t =
      update (s.heap t) i (PA2PTE c ||| PTE_V) := by
    rw [heap_write_self, hother t htc]
  have hlink : child (PA2PTE c ||| PTE_V) = some c := by
    rw [child_of_valid (by rw [valid_entry]; decide), pageOf]
    exact congrArg some (Subtype.ext (PTE2PA_entry c (by decide)))
  have hkeep : ∀ x : Page, s1.OnlyPointers x →
      (s1.write (pteAddr t (BitVec.ofNat 64 i)) (PA2PTE c ||| PTE_V)).OnlyPointers x := by
    intro x hx
    by_cases hxt : x = t
    · subst hxt
      exact hx.write (by rw [leaf_entry]; decide)
    · exact onlyPointers_congr (heap_write_of_ne hxt) hx
  have hentry : child ((s1.write (pteAddr t (BitVec.ofNat 64 i)) (PA2PTE c ||| PTE_V)).heap t i) =
      some c := by
    rw [hself, update_self, hlink]
  refine ⟨⟨?_, List.Perm.refl _, ?_, ?_, ?_⟩, hentry⟩
  · exact hl.congr rfl fun p hp => heap_write_of_ne (ne_of_mem_of_not_mem hp htl)
  · refine .link htree hnone (hdisj mem_cons_self) hentry ?_ ?_ ?_
    · intro j hj
      rw [hself, update_of_ne hj]
    · intro j
      rw [heap_write_of_ne (Ne.symm htc), hblank, child_of_not_valid valid_zero]
    · intro x hxt hxc
      rw [heap_write_of_ne hxt, hother x hxc]
  · intro x hx
    refine hkeep x ?_
    by_cases hxc : x = c
    · subst hxc
      exact onlyPointers_of_blank hblank
    · exact onlyPointers_congr (hother x hxc) hx
  · intro x hx
    obtain rfl := mem_singleton.mp hx
    exact hkeep x (onlyPointers_of_blank hblank)

end Grown

theorem nodup_child (hnd : (l ++ tree child s.heap (n + 1) t).Nodup)
    (hc : child (s.heap t i) = some c) : (l ++ tree child s.heap n c).Nodup := by
  obtain ⟨hfree, htree, hdisj⟩ := nodup_append'.mp hnd
  refine nodup_append'.mpr ⟨hfree, nodup_sub htree hc, fun x hx hx' => ?_⟩
  exact hdisj hx (mem_tree_succ.mpr (Or.inr ⟨i, c, hc, hx'⟩))

/-- The loop of `pgTraverseAndCreate` returns the table that the address
locates, or the free list is used up. -/
theorem traverse_spec (va : Ulong64) (n : Nat) : ∀ {s : Pages} {l : List Page} {t : Page},
    FreeList s l → (l ++ tree child s.heap n t).Nodup →
    ∃ new l', Grown n t s (s.traverse t va n).2 l new l' ∧
      (((s.traverse t va n).1 = none ∧ l' = []) ∨
        ∃ x : Page, (s.traverse t va n).1 = some x.1 ∧
          locate child (s.traverse t va n).2.heap (path va n) t = some x) := by
  induction n with
  | zero =>
    intro s l t hl hnd
    exact ⟨[], l, .refl hl, Or.inr ⟨t, rfl, rfl⟩⟩
  | succ n ih =>
    intro s l t hl hnd
    have hentry : s.mem (pteAddr t (PX (n + 1) va)) = s.heap t (index (n + 1) va) := by
      rw [heap, PX_eq_index]
    cases hvalid : valid (s.heap t (index (n + 1) va)) with
    | true =>
      -- The table exists. The rest of the loop works in its subtree.
      have hc := child_of_valid hvalid
      have htr : s.traverse t va (n + 1) =
          s.traverse (pageOf (s.heap t (index (n + 1) va))).1 va n := by
        rw [traverse, hentry, if_pos (of_decide_eq_true hvalid)]
        rfl
      obtain ⟨new, l', hg, hr⟩ := ih hl (nodup_child hnd hc)
      rw [htr]
      refine ⟨new, l', hg.lift hnd hc, ?_⟩
      rw [path, hg.locate_cons hnd hc]
      exact hr
    | false =>
      have hnone := child_of_not_valid hvalid
      have hif : ¬s.heap t (index (n + 1) va) &&& PTE_V ≠ 0 := of_decide_eq_false hvalid
      cases l with
      | nil =>
        have htr : s.traverse t va (n + 1) = (none, s) := by
          rw [traverse, hentry, if_neg hif, pgalloc_nil hl]
        rw [htr]
        exact ⟨[], [], .refl hl, Or.inl ⟨rfl, rfl⟩⟩
      | cons c l =>
        obtain ⟨hcl, hl'⟩ := nodup_cons.mp (nodup_append'.mp hnd).1
        obtain ⟨s1, halloc, hfree, hblank, hother⟩ := pgalloc_cons hl hcl
        -- A new table is entered. The rest of the loop works under it.
        obtain ⟨hlink, hc⟩ := Grown.link hfree hcl hnd hnone hblank hother
        have htr : s.traverse t va (n + 1) = (s1.write (pteAddr t
            (BitVec.ofNat 64 (index (n + 1) va))) (PA2PTE c ||| PTE_V)).traverse c va n := by
          rw [traverse, hentry, if_neg hif, halloc, PX_eq_index]
        have hnd' := hlink.nodup hnd
        obtain ⟨new, l', hg, hr⟩ := ih hlink.free (nodup_child hnd' hc)
        rw [htr]
        refine ⟨new ++ [c], l', hlink.trans (hg.lift hnd' hc) hnd, ?_⟩
        rw [path, hg.locate_cons hnd' hc]
        exact hr

end Xinu.Pages
