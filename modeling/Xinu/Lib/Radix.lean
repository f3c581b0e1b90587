import Mathlib.Data.List.Perm.Basic
import Mathlib.Data.List.FinRange
import Mathlib.Data.List.Nodup
import Mathlib.Data.List.Pairwise
import Mathlib.Logic.Function.Basic

/-!
# `Xinu.Lib.Radix`: radix trees in a heap

A heap `h : N → Fin m → E` has nodes with `m` entries each, and `child`
says which node an entry points to, if any. Starting from a root and
reading pointers for `n` levels gives a radix tree: `tree` lists its
nodes, `dirs` those of them whose entries are read as pointers, and
`locate` follows a path of `n` indices to a node of the last level.

A tree without sharing is one whose list of nodes has no duplicates. In
such a tree different paths lead to different nodes (`locate_inj`), and
the nodes of the last level can be written without changing the tree
(`tree_write`).

`Grows h h' t new` says that the tree under `t` has grown by the nodes
`new`, which are blank at the last level, while all nodes that could be
located before still can. It holds of linking a blank node
(`Grows.link`), passes from a subtree to the whole tree (`Grows.lift`)
and composes (`Grows.trans`).

`Forest` is the invariant of an allocator of such nodes: the spare nodes
and the trees under all roots have no node in common. Extending one tree
by spare nodes keeps it and leaves the other trees alone
(`Forest.extend`, `Forest.untouched_of_extends`).
-/

namespace Xinu.Lib.Radix

open List

section General
variable {α β : Type}

/-- A `flatMap` with one more list at one place. -/
theorem flatMap_perm_of_ne {l : List α} {f f' : α → List β} {i : α} {new : List β} (hnd : l.Nodup)
    (hi : i ∈ l) (hother : ∀ j ∈ l, j ≠ i → f' j = f j) (hat : (f' i).Perm (new ++ f i)) :
    (l.flatMap f').Perm (new ++ l.flatMap f) := by
  induction l with
  | nil => cases hi
  | cons j l ih =>
    obtain ⟨hj, hl⟩ := nodup_cons.mp hnd
    simp only [flatMap_cons]
    by_cases hji : j = i
    · subst hji
      have hrest : l.flatMap f' = l.flatMap f := by
        refine flatMap_congr fun k hk => hother k (mem_cons_of_mem _ hk) ?_
        rintro rfl
        exact hj hk
      rw [hrest, ← append_assoc]
      exact hat.append_right _
    · have hil : i ∈ l := (mem_cons.mp hi).resolve_left fun h => hji h.symm
      rw [hother j mem_cons_self hji]
      have hrest := ih hl hil fun k hk => hother k (mem_cons_of_mem _ hk)
      refine (hrest.append_left _).trans ?_
      rw [← append_assoc, ← append_assoc]
      exact perm_append_comm.append_right _

/-- The lists of those that have one. -/
theorem flatMap_elim {γ : Type} (l : List α) (f : α → Option γ) (g : γ → List β) :
    (l.flatMap fun a => (f a).elim [] g) = (l.filterMap f).flatMap g := by
  induction l with
  | nil => rfl
  | cons a l ih =>
    rw [flatMap_cons, ih]
    cases hf : f a with
    | none => rw [filterMap_cons_none hf]; rfl
    | some c => rw [filterMap_cons_some hf]; rfl

end General

section Tree
variable {N E : Type} {m : Nat} (child : E → Option N)

/-- The nodes of the tree with `n` levels of pointers. -/
def tree (h : N → Fin m → E) : Nat → N → List N
  | 0, t => [t]
  | n + 1, t => t :: (List.finRange m).flatMap fun i => (child (h t i)).elim [] (tree h n)

/-- The nodes whose entries are pointers. -/
def dirs (h : N → Fin m → E) : Nat → N → List N
  | 0, _ => []
  | n + 1, t => t :: (List.finRange m).flatMap fun i => (child (h t i)).elim [] (dirs h n)

/-- The node at the end of a path. -/
def locate (h : N → Fin m → E) : List (Fin m) → N → Option N
  | [], t => some t
  | i :: path, t => (child (h t i)).bind (locate h path)

variable {child} {h h' h'' : N → Fin m → E} {n : Nat} {t c x : N} {i j : Fin m}
  {path path' : List (Fin m)}

theorem mem_tree_succ : x ∈ tree child h (n + 1) t ↔
    x = t ∨ ∃ i c, child (h t i) = some c ∧ x ∈ tree child h n c := by
  simp only [tree, mem_cons, mem_flatMap, mem_finRange, true_and]
  refine or_congr_right (exists_congr fun i => ?_)
  cases child (h t i) <;> simp

theorem mem_dirs_succ : x ∈ dirs child h (n + 1) t ↔
    x = t ∨ ∃ i c, child (h t i) = some c ∧ x ∈ dirs child h n c := by
  simp only [dirs, mem_cons, mem_flatMap, mem_finRange, true_and]
  refine or_congr_right (exists_congr fun i => ?_)
  cases child (h t i) <;> simp

theorem mem_tree_self : t ∈ tree child h n t := by
  cases n with
  | zero => exact mem_singleton_self t
  | succ n => exact mem_cons_self

theorem mem_tree_of_mem_dirs (hx : x ∈ dirs child h n t) : x ∈ tree child h n t := by
  induction n generalizing t with
  | zero => cases hx
  | succ n ih =>
    rcases mem_dirs_succ.mp hx with rfl | ⟨i, c, hc, hx⟩
    · exact mem_tree_self
    · exact mem_tree_succ.mpr (Or.inr ⟨i, c, hc, ih hx⟩)

theorem mem_tree_of_locate (hlen : path.length = n) (hx : locate child h path t = some x) :
    x ∈ tree child h n t := by
  subst hlen
  induction path generalizing t with
  | nil =>
    cases hx
    exact mem_tree_self
  | cons i path ih =>
    obtain ⟨c, hc, hx⟩ := Option.bind_eq_some_iff.mp hx
    exact mem_tree_succ.mpr (Or.inr ⟨i, c, hc, ih hx⟩)

/-! ### What the tree depends on -/

/-- The tree is read off its directories. -/
theorem tree_congr (hh : ∀ x ∈ dirs child h n t, h' x = h x) :
    tree child h' n t = tree child h n t ∧ dirs child h' n t = dirs child h n t := by
  induction n generalizing t with
  | zero => exact ⟨rfl, rfl⟩
  | succ n ih =>
    have hroot : h' t = h t := hh t (mem_dirs_succ.mpr (Or.inl rfl))
    have hsub : ∀ i, (child (h t i)).elim [] (tree child h' n) =
        (child (h t i)).elim [] (tree child h n) ∧
        (child (h t i)).elim [] (dirs child h' n) = (child (h t i)).elim [] (dirs child h n) := by
      intro i
      cases hc : child (h t i) with
      | none => exact ⟨rfl, rfl⟩
      | some c => exact ih fun x hx => hh x (mem_dirs_succ.mpr (Or.inr ⟨i, c, hc, hx⟩))
    simp only [tree, dirs, hroot, hsub, and_self]

theorem locate_congr (hlen : path.length = n) (hh : ∀ x ∈ dirs child h n t, h' x = h x) :
    locate child h' path t = locate child h path t := by
  subst hlen
  induction path generalizing t with
  | nil => rfl
  | cons i path ih =>
    have hroot : h' t = h t := hh t (mem_dirs_succ.mpr (Or.inl rfl))
    simp only [locate, hroot]
    cases hc : child (h t i) with
    | none => rfl
    | some c => exact ih fun x hx => hh x (mem_dirs_succ.mpr (Or.inr ⟨i, c, hc, hx⟩))

/-! ### Trees without sharing -/

section Nodup
variable (hnd : (tree child h (n + 1) t).Nodup)
include hnd

theorem nodup_sub (hc : child (h t i) = some c) : (tree child h n c).Nodup := by
  have hflat := (nodup_cons.mp hnd).2
  have := (nodup_flatMap.mp hflat).1 i (mem_finRange i)
  simpa [hc] using this

theorem root_notMem (hc : child (h t i) = some c) : t ∉ tree child h n c := by
  intro ht
  refine (nodup_cons.mp hnd).1 (mem_flatMap.mpr ⟨i, mem_finRange i, ?_⟩)
  simpa [hc] using ht

/-- Different entries lead to different nodes. -/
theorem entry_inj {c' : N} (hc : child (h t i) = some c) (hc' : child (h t j) = some c')
    (hx : x ∈ tree child h n c) (hx' : x ∈ tree child h n c') : i = j := by
  by_contra hij
  have hflat := (nodup_cons.mp hnd).2
  have : Std.Symm (Function.onFun List.Disjoint fun i =>
    (child (h t i)).elim [] (tree child h n)) := ⟨fun _ _ hd _ ha hb => hd hb ha⟩
  have hpair := (nodup_flatMap.mp hflat).2.forall (mem_finRange i) (mem_finRange j) hij
  simp only [Function.onFun, hc, hc', Option.elim_some] at hpair
  exact hpair hx hx'

end Nodup

/-- Different paths lead to different nodes. -/
theorem locate_inj (hnd : (tree child h n t).Nodup) (hlen : path.length = n)
    (hlen' : path'.length = n) (hx : locate child h path t = some x)
    (hx' : locate child h path' t = some x) : path' = path := by
  subst hlen
  induction path generalizing t path' with
  | nil => exact eq_nil_of_length_eq_zero hlen'
  | cons i path ih =>
    obtain ⟨j, path', rfl⟩ := exists_cons_of_length_eq_add_one hlen'
    have htail : path'.length = path.length := Nat.succ.inj hlen'
    obtain ⟨c, hc, hxc⟩ := Option.bind_eq_some_iff.mp hx
    obtain ⟨c', hc', hxc'⟩ := Option.bind_eq_some_iff.mp hx'
    have hij : i = j := entry_inj hnd hc hc' (mem_tree_of_locate rfl hxc)
      (mem_tree_of_locate htail hxc')
    subst hij
    obtain rfl : c = c' := Option.some.inj (hc.symm.trans hc')
    rw [ih hxc hxc' (nodup_sub hnd hc) htail]

/-- A node of the last level is not a directory. -/
theorem notMem_dirs_of_locate (hnd : (tree child h n t).Nodup) (hlen : path.length = n)
    (hx : locate child h path t = some x) : x ∉ dirs child h n t := by
  subst hlen
  induction path generalizing t with
  | nil => exact not_mem_nil
  | cons i path ih =>
    obtain ⟨c, hc, hxc⟩ := Option.bind_eq_some_iff.mp hx
    intro hdir
    rcases mem_dirs_succ.mp hdir with heq | ⟨j, c', hc', hdir⟩
    · exact root_notMem hnd hc (heq ▸ mem_tree_of_locate rfl hxc)
    · have hij : i = j := entry_inj hnd hc hc' (mem_tree_of_locate rfl hxc)
        (mem_tree_of_mem_dirs hdir)
      subst hij
      obtain rfl : c = c' := Option.some.inj (hc.symm.trans hc')
      exact ih hxc (nodup_sub hnd hc) hdir

/-! ### Growing a tree -/

/-- The tree under `t` has grown by `new`. -/
structure Grows (child : E → Option N) (n : Nat) (t : N) (h h' : N → Fin m → E) (new : List N) :
    Prop where
  tree : (tree child h' n t).Perm (new ++ tree child h n t)
  /-- Only directories and new nodes were written. -/
  frame : ∀ x, x ∉ new → x ∉ dirs child h n t → h' x = h x
  dirs : ∀ x ∈ dirs child h' n t, x ∈ dirs child h n t ∨ x ∈ new
  keep : ∀ path x, path.length = n → locate child h path t = some x →
    locate child h' path t = some x
  /-- What can be located now and could not before is new, and points
  nowhere. -/
  fresh : ∀ path x, path.length = n → locate child h' path t = some x →
    locate child h path t = none → x ∈ new ∧ ∀ i, child (h' x i) = none

theorem Grows.refl : Grows child n t h h [] where
  tree := List.Perm.refl _
  frame _ _ _ := rfl
  dirs _ hx := Or.inl hx
  keep _ _ _ hx := hx
  fresh path x _ hx hnone := by rw [hnone] at hx; cases hx

/-- The new nodes of the second step are not directories after the first
and were not located by it. -/
theorem Grows.trans {new new' : List N} (h1 : Grows child n t h h' new)
    (h2 : Grows child n t h' h'' new') (hnd : (Radix.tree child h' n t).Nodup)
    (hnew : ∀ x ∈ new', x ∉ Radix.tree child h' n t) : Grows child n t h h'' (new' ++ new) where
  tree := by
    rw [append_assoc]
    exact h2.tree.trans (h1.tree.append_left _)
  frame x hx hdir := by
    rw [mem_append, not_or] at hx
    rw [h2.frame x hx.1 fun hd => (h1.dirs x hd).elim hdir hx.2, h1.frame x hx.2 hdir]
  dirs x hx := by
    rw [mem_append]
    rcases h2.dirs x hx with hd | hn
    · exact (h1.dirs x hd).imp_right Or.inr
    · exact Or.inr (Or.inl hn)
  keep path x hlen hx := h2.keep path x hlen (h1.keep path x hlen hx)
  fresh path x hlen hx hnone := by
    rw [mem_append]
    cases hmid : locate child h' path t with
    | none =>
      obtain ⟨hn, hblank⟩ := h2.fresh path x hlen hx hmid
      exact ⟨Or.inl hn, hblank⟩
    | some y =>
      obtain rfl : y = x := Option.some.inj ((h2.keep path y hlen hmid).symm.trans hx)
      obtain ⟨hn, hblank⟩ := h1.fresh path y hlen hmid hnone
      refine ⟨Or.inr hn, ?_⟩
      -- The second step has not written a node of the last level.
      have hy : y ∈ Radix.tree child h' n t := mem_tree_of_locate hlen hmid
      rw [h2.frame y (fun hy' => hnew y hy' hy) (notMem_dirs_of_locate hnd hlen hmid)]
      exact hblank

/-- A tree whose nodes were not written. -/
theorem untouched (hh : ∀ x ∈ tree child h n t, h' x = h x) :
    tree child h' n t = tree child h n t ∧ dirs child h' n t = dirs child h n t ∧
    ∀ path, path.length = n → locate child h' path t = locate child h path t := by
  obtain ⟨htree, hdirs⟩ := tree_congr fun x hx => hh x (mem_tree_of_mem_dirs hx)
  refine ⟨htree, hdirs, ?_⟩
  intro path hlen
  exact locate_congr hlen fun x hx => hh x (mem_tree_of_mem_dirs hx)

/-- Under a node that points nowhere there is nothing else. -/
theorem tree_blank (hblank : ∀ j, child (h c j) = none) : tree child h n c = [c] := by
  cases n with
  | zero => rfl
  | succ n => simp [tree, hblank]

theorem locate_blank (hblank : ∀ j, child (h c j) = none)
    (hx : locate child h path c = some x) : x = c := by
  cases path with
  | nil => exact (Option.some.inj hx).symm
  | cons j path =>
    rw [locate, hblank] at hx
    cases hx

/-- A tree grows under one of its entries. -/
theorem Grows.of_entry {new : List N} (hother : ∀ j, j ≠ i → h' t j = h t j)
    (hsub : ∀ j k, j ≠ i → child (h t j) = some k → ∀ x ∈ Radix.tree child h n k, h' x = h x)
    (hframe : ∀ x, x ∉ new → x ∉ Radix.dirs child h (n + 1) t → h' x = h x)
    (htree : ((child (h' t i)).elim [] (Radix.tree child h' n)).Perm
      (new ++ (child (h t i)).elim [] (Radix.tree child h n)))
    (hdirs : ∀ x ∈ (child (h' t i)).elim [] (Radix.dirs child h' n),
      x ∈ (child (h t i)).elim [] (Radix.dirs child h n) ∨ x ∈ new)
    (hkeep : ∀ path x, path.length = n → (child (h t i)).bind (locate child h path) = some x →
      (child (h' t i)).bind (locate child h' path) = some x)
    (hfresh : ∀ path x, path.length = n → (child (h' t i)).bind (locate child h' path) = some x →
      (child (h t i)).bind (locate child h path) = none → x ∈ new ∧ ∀ j, child (h' x j) = none) :
    Grows child (n + 1) t h h' new := by
  -- Under the other entries everything is as it was.
  have hsame : ∀ j, j ≠ i →
      (child (h' t j)).elim [] (Radix.tree child h' n) =
        (child (h t j)).elim [] (Radix.tree child h n) ∧
      (child (h' t j)).elim [] (Radix.dirs child h' n) =
        (child (h t j)).elim [] (Radix.dirs child h n) ∧
      ∀ path, path.length = n → (child (h' t j)).bind (locate child h' path) =
        (child (h t j)).bind (locate child h path) := by
    intro j hj
    rw [hother j hj]
    cases hk : child (h t j) with
    | none => exact ⟨rfl, rfl, fun _ _ => rfl⟩
    | some k => exact untouched (hsub j k hj hk)
  refine ⟨?_, hframe, ?_, ?_, ?_⟩
  · have hflat := flatMap_perm_of_ne (nodup_finRange m) (mem_finRange i)
      (fun j _ hj => (hsame j hj).1) htree
    exact (hflat.cons t).trans perm_middle.symm
  · intro x hx
    simp only [Radix.dirs, mem_cons, mem_flatMap, mem_finRange, true_and] at hx ⊢
    rcases hx with rfl | ⟨j, hx⟩
    · exact Or.inl (Or.inl rfl)
    · by_cases hj : j = i
      · subst hj
        exact (hdirs x hx).imp_left fun hd => Or.inr ⟨j, hd⟩
      · rw [(hsame j hj).2.1] at hx
        exact Or.inl (Or.inr ⟨j, hx⟩)
  · intro path x hlen hx
    obtain ⟨j, path, rfl⟩ := exists_cons_of_length_eq_add_one hlen
    by_cases hj : j = i
    · subst hj
      exact hkeep path x (Nat.succ.inj hlen) hx
    · exact ((hsame j hj).2.2 path (Nat.succ.inj hlen)).trans hx
  · intro path x hlen hx hold
    obtain ⟨j, path, rfl⟩ := exists_cons_of_length_eq_add_one hlen
    by_cases hj : j = i
    · subst hj
      exact hfresh path x (Nat.succ.inj hlen) hx hold
    · have hsome := ((hsame j hj).2.2 path (Nat.succ.inj hlen)).symm.trans hx
      cases hold.symm.trans hsome

/-- A blank node is linked into an entry that pointed nowhere. -/
theorem Grows.link (hnd : (Radix.tree child h (n + 1) t).Nodup) (hnone : child (h t i) = none)
    (hfree : c ∉ Radix.tree child h (n + 1) t) (hlink : child (h' t i) = some c)
    (hother : ∀ j, j ≠ i → h' t j = h t j) (hblank : ∀ j, child (h' c j) = none)
    (hframe : ∀ x, x ≠ t → x ≠ c → h' x = h x) : Grows child (n + 1) t h h' [c] := by
  refine .of_entry hother ?_ ?_ ?_ ?_ ?_ ?_
  · intro j k _ hk x hx
    refine hframe x ?_ ?_
    · rintro rfl
      exact root_notMem hnd hk hx
    · rintro rfl
      exact hfree (mem_tree_succ.mpr (Or.inr ⟨j, k, hk, hx⟩))
  · intro x hx hdir
    refine hframe x ?_ fun heq => hx (mem_singleton.mpr heq)
    rintro rfl
    exact hdir (mem_dirs_succ.mpr (Or.inl rfl))
  · rw [hlink, hnone, Option.elim_some, Option.elim_none, tree_blank hblank]
    exact List.Perm.refl _
  · intro x hx
    rw [hlink, Option.elim_some] at hx
    have hmem := mem_tree_of_mem_dirs hx
    rw [tree_blank hblank] at hmem
    exact Or.inr hmem
  · intro path x _ hx
    rw [hnone] at hx
    cases hx
  · -- The only new node is the blank one, and it leads nowhere.
    intro path x _ hx _
    rw [hlink, Option.bind_some] at hx
    obtain rfl := locate_blank hblank hx
    exact ⟨mem_singleton_self x, hblank⟩

/-- A subtree grows, and so does the tree. -/
theorem Grows.lift {new : List N} (hg : Grows child n c h h' new)
    (hnd : (Radix.tree child h (n + 1) t).Nodup) (hc : child (h t i) = some c)
    (hnew : ∀ x ∈ new, x ∉ Radix.tree child h (n + 1) t) : Grows child (n + 1) t h h' new := by
  have hroot : h' t = h t := by
    refine hg.frame t (fun ht => hnew t ht mem_tree_self) ?_
    intro hd
    exact root_notMem hnd hc (mem_tree_of_mem_dirs hd)
  refine .of_entry (i := i) (fun j _ => by rw [hroot]) ?_ ?_ ?_ ?_ ?_ ?_
  · intro j k hj hk x hx
    refine hg.frame x ?_ ?_
    · intro hn
      exact hnew x hn (mem_tree_succ.mpr (Or.inr ⟨j, k, hk, hx⟩))
    · intro hd
      exact hj (entry_inj hnd hk hc hx (mem_tree_of_mem_dirs hd))
  · intro x hx hdir
    exact hg.frame x hx fun hd => hdir (mem_dirs_succ.mpr (Or.inr ⟨i, c, hc, hd⟩))
  · rw [hroot, hc]
    exact hg.tree
  · rw [hroot, hc]
    exact hg.dirs
  · rw [hroot, hc]
    exact hg.keep
  · rw [hroot, hc]
    exact hg.fresh

/-- What is located before and after is the same node. -/
theorem Grows.locate_eq {new : List N} (hg : Grows child n t h h' new)
    (hnd : (Radix.tree child h n t).Nodup) (hnew : ∀ x ∈ new, x ∉ Radix.tree child h n t)
    (hlen : path.length = n) (hx : locate child h path t = some x) :
    locate child h' path t = some x ∧ h' x = h x :=
  ⟨hg.keep path x hlen hx, hg.frame x (fun hn => hnew x hn (mem_tree_of_locate hlen hx))
    (notMem_dirs_of_locate hnd hlen hx)⟩

/-- A node of the last level is written. -/
theorem tree_write (hnd : (tree child h n t).Nodup) (hlen : path.length = n)
    (hx : locate child h path t = some x) (hframe : ∀ y, y ≠ x → h' y = h y) :
    tree child h' n t = tree child h n t ∧ dirs child h' n t = dirs child h n t ∧
    ∀ path', path'.length = n → locate child h' path' t = locate child h path' t := by
  have hdirs : ∀ y ∈ dirs child h n t, h' y = h y := by
    intro y hy
    refine hframe y ?_
    rintro rfl
    exact notMem_dirs_of_locate hnd hlen hx hy
  obtain ⟨htree, hdirs'⟩ := tree_congr hdirs
  refine ⟨htree, hdirs', ?_⟩
  intro path' hlen'
  exact locate_congr hlen' hdirs

/-! ### Forests -/

/-- The tree under `t` has got the nodes `new`, and nothing else was
written. -/
structure Extends (child : E → Option N) (n : Nat) (t : N) (h h' : N → Fin m → E) (new : List N) :
    Prop where
  tree : (tree child h' n t).Perm (new ++ tree child h n t)
  frame : ∀ x, x ∉ new → x ∉ Radix.tree child h n t → h' x = h x

theorem Extends.refl : Extends child n t h h [] := ⟨List.Perm.refl _, fun _ _ _ => rfl⟩

theorem Extends.trans {new new' : List N} (h1 : Extends child n t h h' new)
    (h2 : Extends child n t h' h'' new') : Extends child n t h h'' (new' ++ new) where
  tree := by
    rw [append_assoc]
    exact h2.tree.trans (h1.tree.append_left _)
  frame x hx ht := by
    rw [mem_append, not_or] at hx
    have ht' : x ∉ Radix.tree child h' n t := by
      rw [h1.tree.mem_iff, mem_append, not_or]
      exact ⟨hx.2, ht⟩
    rw [h2.frame x hx.1 ht', h1.frame x hx.2 ht]

theorem Grows.extends {new : List N} (h1 : Grows child n t h h' new) :
    Extends child n t h h' new :=
  ⟨h1.tree, fun x hx ht => h1.frame x hx fun hd => ht (mem_tree_of_mem_dirs hd)⟩

/-- Spare nodes and the trees under some roots, with no node in two
places. -/
def Forest (child : E → Option N) (n : Nat) (h : N → Fin m → E) (free roots : List N) : Prop :=
  (free ++ roots.flatMap (tree child h n)).Nodup

namespace Forest
variable {free free' roots new : List N} {r r' : N} (hf : Forest child n h free roots)
include hf

theorem nodup_tree (hr : r ∈ roots) : (free ++ tree child h n r).Nodup := by
  obtain ⟨hfree, hflat, hdisj⟩ := nodup_append'.mp hf
  refine nodup_append'.mpr ⟨hfree, (nodup_flatMap.mp hflat).1 r hr, ?_⟩
  intro x hx hx'
  exact hdisj hx (mem_flatMap.mpr ⟨r, hr, hx'⟩)

theorem notMem_tree (hx : x ∈ free) (hr : r ∈ roots) : x ∉ tree child h n r := by
  intro hx'
  exact (nodup_append'.mp (hf.nodup_tree hr)).2.2 hx hx'

theorem apart (hr : r ∈ roots) (hr' : r' ∈ roots) (hne : r ≠ r') (hx : x ∈ tree child h n r) :
    x ∉ tree child h n r' := by
  have : Std.Symm (Function.onFun List.Disjoint (tree child h n)) :=
    ⟨fun _ _ hd _ ha hb => hd hb ha⟩
  have hflat := (nodup_append'.mp hf).2.1
  exact (nodup_flatMap.mp hflat).2.forall hr hr' hne hx

theorem nodup_roots : roots.Nodup := by
  have hflat := (nodup_append'.mp hf).2.1
  refine (nodup_flatMap.mp hflat).2.imp ?_
  rintro a b hd rfl
  exact hd mem_tree_self mem_tree_self

/-- The trees under the other roots are not written. -/
theorem untouched_of_extends (hr : r ∈ roots) (hused : ∀ x ∈ new, x ∈ free)
    (he : Extends child n r h h' new) (hr' : r' ∈ roots) (hne : r' ≠ r)
    (hx : x ∈ tree child h n r') : h' x = h x :=
  he.frame x (fun hn => hf.notMem_tree (hused x hn) hr' hx) (hf.apart hr' hr hne hx)

/-- A tree takes some of the spare nodes. -/
theorem extend (hr : r ∈ roots) (hused : free.Perm (new ++ free'))
    (he : Extends child n r h h' new) : Forest child n h' free' roots := by
  have hsub : ∀ x ∈ new, x ∈ free := fun x hx =>
    hused.mem_iff.mpr (mem_append_left _ hx)
  -- All other trees are as they were, so the nodes are the same together.
  have hflat : (roots.flatMap (tree child h' n)).Perm (new ++ roots.flatMap (tree child h n)) := by
    have hother : ∀ r' ∈ roots, r' ≠ r → tree child h' n r' = tree child h n r' := fun r' hr' hne =>
      (untouched fun x hx => hf.untouched_of_extends hr hsub he hr' hne hx).1
    exact flatMap_perm_of_ne hf.nodup_roots hr hother he.tree
  have hall : (free' ++ roots.flatMap (tree child h' n)).Perm
      (free ++ roots.flatMap (tree child h n)) := by
    refine (hflat.append_left free').trans ?_
    rw [← append_assoc]
    exact (perm_append_comm.trans hused.symm).append_right _
  exact hall.nodup_iff.mpr hf

/-- A spare node becomes a root, and is blank. -/
theorem add (hc : free = c :: free') (hblank : ∀ j, child (h' c j) = none)
    (hframe : ∀ x, x ≠ c → h' x = h x) : Forest child n h' free' (c :: roots) := by
  subst hc
  have hflat : roots.flatMap (tree child h' n) = roots.flatMap (tree child h n) := by
    refine flatMap_congr fun r hr => (untouched fun x hx => hframe x ?_).1
    rintro rfl
    exact hf.notMem_tree mem_cons_self hr hx
  have hall : (free' ++ (c :: roots).flatMap (tree child h' n)).Perm
      (c :: free' ++ roots.flatMap (tree child h n)) := by
    rw [flatMap_cons, tree_blank hblank, hflat]
    exact perm_middle
  exact hall.nodup_iff.mpr hf

/-- A root becomes a spare node. What was under it is left. -/
theorem drop [BEq N] [LawfulBEq N] (hr : r ∈ roots) (hframe : ∀ x, x ≠ r → h' x = h x) :
    Forest child n h' (r :: free) (roots.erase r) := by
  have hflat : (roots.erase r).flatMap (tree child h' n) =
      (roots.erase r).flatMap (tree child h n) := by
    refine flatMap_congr fun r' hr' => (untouched fun x hx => hframe x ?_).1
    rintro rfl
    obtain ⟨hne, hr'⟩ := hf.nodup_roots.mem_erase_iff.mp hr'
    exact hf.apart hr' hr hne hx mem_tree_self
  have hroots : (roots.flatMap (tree child h n)).Perm
      (tree child h n r ++ (roots.erase r).flatMap (tree child h n)) :=
    (perm_cons_erase hr).flatMap_right _
  have hsub : (free ++ ([r] ++ (roots.erase r).flatMap (tree child h n))).Sublist
      (free ++ (tree child h n r ++ (roots.erase r).flatMap (tree child h n))) :=
    ((singleton_sublist.mpr mem_tree_self).append_right _).append_left _
  have hkept := hsub.nodup ((hroots.append_left free).nodup_iff.mp hf)
  rw [Forest, hflat]
  exact perm_middle.nodup_iff.mp hkept

end Forest

end Tree

end Xinu.Lib.Radix
