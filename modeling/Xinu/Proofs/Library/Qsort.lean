import Xinu.Proofs.Library.Swap

/-!
# `Xinu.Proofs.Library.Qsort`: `qsort` sorts

`partition` goes through the array with three regions behind the pivot:
elements that the comparison function put before it, elements that were
not compared yet, and elements that go after it. Each round takes one
element out of the middle (`partitionBody_spec`), so the loop ends with
the middle empty (`partitionLoop_spec`), and then the pivot is exchanged
with the last of the first region (`partition_spec`). None of this depends
on what the comparison function answers.

What it answered is kept for each element (`Below`, `Above`). Only for a
function that compares by a total preorder (`Orders`) it says more, and
the parts that `qsort` sorts on both sides of the pivot make a sorted
array (`qsort_spec`). The pointers that it is called with are kept as the
steps that its state takes (`Calls`): they all refer to elements.

Memory outside of the array is the same in all these results, because the
array is written over an arbitrary memory.
-/

namespace Xinu.Qsort

open List BitVec

open Lib (Holds overlay overlay_append overlay_append_comm overlay_of_le overlay_eq_self
  holds_overlay place holds_place)

variable {σ : Type} {compar : Compar σ} {mem : Bytes → Prop} {size base : Ulong64} {m : Bytes}

/-! ### What the comparison function answers -/

section Comparison
variable (compar mem)

/-- In one of the memories the function put `x` before `y`, or took them as
equal. -/
def Below (x y : List Byte) : Prop :=
  ∃ m p q s, mem m ∧ Holds m p x ∧ Holds m q y ∧ (compar m p q s).1 ≤ 0

/-- In one of the memories it put `x` after `y`. -/
def Above (x y : List Byte) : Prop :=
  ∃ m p q s, mem m ∧ Holds m p x ∧ Holds m q y ∧ ¬(compar m p q s).1 ≤ 0

/-- In all of the memories the function compares the elements by the total
preorder `le`, wherever they are. -/
structure Orders (element : List Byte → Prop) (le : List Byte → List Byte → Prop) : Prop where
  compares : ∀ m p q s x y, mem m → element x → element y → Holds m p x → Holds m q y →
    ((compar m p q s).1 ≤ 0 ↔ le x y)
  trans : ∀ x y z, element x → element y → element z → le x y → le y z → le x z
  total : ∀ x y, element x → element y → le x y ∨ le y x

/-- The function takes its state from `s` to `s'` by calls in these
memories, each with pointers to two of the `n` elements from `base` on. -/
def Calls (base size : Ulong64) (n : Nat) : σ → σ → Prop :=
  Relation.ReflTransGen fun s s' => ∃ m, ∃ i < n, ∃ j < n, mem m ∧
    s' = (compar m (elem base size i) (elem base size j) s).2

end Comparison

/-- Elements of a part of the array are elements of the array. -/
theorem Calls.part {k n n' : Nat} {s s' : σ} (h : Calls compar mem (elem base size k) size n s s')
    (hn : k + n ≤ n') : Calls compar mem base size n' s s' := by
  refine Relation.ReflTransGen.mono ?_ _ _ h
  rintro s s' ⟨m, i, hi, j, hj, hm, rfl⟩
  refine ⟨m, k + i, by omega, k + j, by omega, hm, ?_⟩
  rw [elem_add, elem_add]

/-- The memories in which the array is permuted are among those of
`mem`. -/
def Permutes (mem : Bytes → Prop) (base : Ulong64) (xs : List (List Byte)) (m : Bytes) : Prop :=
  ∀ ys : List (List Byte), ys.Perm xs → mem (overlay base ys.flatten m)

section Orders
variable {element : List Byte → Prop} {le : List Byte → List Byte → Prop} {x y : List Byte}

theorem Orders.le_of_below (h : Orders compar mem element le) (hx : element x) (hy : element y)
    (hxy : Below compar mem x y) : le x y := by
  obtain ⟨m, p, q, s, hm, hp, hq, hle⟩ := hxy
  exact (h.compares m p q s x y hm hx hy hp hq).mp hle

theorem Orders.le_of_above (h : Orders compar mem element le) (hx : element x) (hy : element y)
    (hxy : Above compar mem x y) : le y x := by
  obtain ⟨m, p, q, s, hm, hp, hq, hgt⟩ := hxy
  refine (h.total x y hx hy).resolve_left fun hle => hgt ?_
  exact (h.compares m p q s x y hm hx hy hp hq).mpr hle

/-- The two sides of a pivot, sorted each, are sorted together. -/
theorem Orders.pairwise_append_cons (h : Orders compar mem element le)
    {below above ys ys' : List (List Byte)} {pivot : List Byte}
    (helement : ∀ x ∈ below ++ pivot :: above, element x)
    (hbelow : ∀ x ∈ below, Below compar mem x pivot)
    (habove : ∀ x ∈ above, Above compar mem x pivot) (hys : ys.Perm below) (hys' : ys'.Perm above)
    (hsorted : ys.Pairwise le) (hsorted' : ys'.Pairwise le) :
    (ys ++ pivot :: ys').Pairwise le := by
  have hpivot := helement pivot (mem_append_right _ mem_cons_self)
  have hin : ∀ x ∈ ys, element x ∧ le x pivot := by
    intro x hx
    have hx' := hys.mem_iff.mp hx
    have hex := helement x (mem_append_left _ hx')
    exact ⟨hex, h.le_of_below hex hpivot (hbelow x hx')⟩
  have hin' : ∀ x ∈ ys', element x ∧ le pivot x := by
    intro x hx
    have hx' := hys'.mem_iff.mp hx
    have hex := helement x (mem_append_right _ (mem_cons_of_mem _ hx'))
    exact ⟨hex, h.le_of_above hex hpivot (habove x hx')⟩
  rw [pairwise_append, pairwise_cons]
  refine ⟨hsorted, ⟨fun y hy => (hin' y hy).2, hsorted'⟩, ?_⟩
  intro x hx y hy
  rcases mem_cons.mp hy with rfl | hy
  · exact (hin x hx).2
  · exact h.trans x pivot y (hin x hx).1 hpivot (hin' y hy).1 (hin x hx).2 (hin' y hy).2

end Orders

/-! ### `partition` -/

section Partition
variable {pivot x : List Byte} {small middle large rest : List (List Byte)}

/-- The array of the loop: the pivot and the three regions. -/
def regions (pivot : List Byte) (small middle large : List (List Byte)) : List (List Byte) :=
  pivot :: (small ++ (middle ++ large))

/-- One round of the loop moves the first element of the middle region to
one of the others. -/
theorem partitionBody_spec (r : Int) (h : IsArray size (regions pivot small (x :: rest) large)) :
    ∃ small' middle' large',
      partitionBody size r (elem base size (small.length + 1))
          (elem base size (small.length + 1 + (x :: rest).length))
          (BitVec.ofNat 64 (small.length + 1))
          (overlay base (regions pivot small (x :: rest) large).flatten m) =
        .ok (elem base size (small'.length + 1),
          elem base size (small'.length + 1 + middle'.length),
          BitVec.ofNat 64 (small'.length + 1),
          overlay base (regions pivot small' middle' large').flatten m) ∧
      middle'.length = rest.length ∧
      (regions pivot small' middle' large').Perm (regions pivot small (x :: rest) large) ∧
      ((r ≤ 0 ∧ small' = small ++ [x] ∧ large' = large) ∨
        (¬r ≤ 0 ∧ small' = small ∧ large' = x :: large)) := by
  by_cases hr : r ≤ 0
  · refine ⟨small ++ [x], rest, large, ?_, rfl, ?_, Or.inl ⟨hr, rfl, rfl⟩⟩
    · have hregions : regions pivot (small ++ [x]) rest large =
          regions pivot small (x :: rest) large := by simp [regions]
      have hindex : BitVec.ofNat 64 (small.length + 1) + 1 =
          BitVec.ofNat 64 (small.length + 1 + 1) := by
        rw [ofNat_add (small.length + 1) 1]
        rfl
      have hend : small.length + 1 + (x :: rest).length = small.length + 1 + 1 + rest.length := by
        rw [length_cons]
        omega
      rw [partitionBody, if_pos hr, elem_succ, hindex, hregions, length_append, hend]
      rfl
    · simp [regions]
  · -- The last element of the middle region comes to the place of `x`.
    obtain ⟨rest', hperm, hswap⟩ := @swapElements_last size base m (pivot :: small) rest large x h
    refine ⟨small, rest', x :: large, ?_, hperm.length_eq, ?_, Or.inr ⟨hr, rfl, rfl⟩⟩
    · rw [length_cons] at hswap
      have hswap' : swapElements (elem base size (small.length + 1))
          (elem base size (small.length + 1 + rest.length)) size
          (overlay base (regions pivot small (x :: rest) large).flatten m) =
          .ok (overlay base (regions pivot small rest' (x :: large)).flatten m) := hswap
      rw [partitionBody, if_neg hr, length_cons, ← Nat.add_assoc, elem_sub]
      simp only [hswap', ok_bind, hperm.length_eq]
      rfl
    · refine List.Perm.cons pivot (List.Perm.append_left small ?_)
      exact perm_middle.trans ((hperm.append_right large).cons x)

/-- The loop ends with every element on a side of the pivot. -/
theorem partitionLoop_spec : ∀ (fuel : Nat) (small middle large : List (List Byte)) (s : σ),
    middle ≠ [] → middle.length ≤ fuel → IsArray size (regions pivot small middle large) →
    Permutes mem base (regions pivot small middle large) m →
    ∃ small' large' s',
      partitionLoop compar base size fuel (elem base size (small.length + 1))
          (elem base size (small.length + 1 + middle.length)) (BitVec.ofNat 64 (small.length + 1))
          (overlay base (regions pivot small middle large).flatten m) s =
        .ok (elem base size (small'.length + 1), BitVec.ofNat 64 (small'.length + 1),
          overlay base (regions pivot small' [] large').flatten m, s') ∧
      (regions pivot small' [] large').Perm (regions pivot small middle large) ∧
      (∀ z ∈ small', z ∈ small ∨ Below compar mem z pivot) ∧
      (∀ z ∈ large', z ∈ large ∨ Above compar mem z pivot) ∧
      Calls compar mem base size (regions pivot small middle large).length s s' := by
  -- By induction on the rounds: the middle region loses one element in each,
  -- but its other elements may change places.
  intro fuel
  induction fuel with
  | zero =>
    intro small middle large s hne hfuel
    exact absurd (length_eq_zero_iff.mp (Nat.le_zero.mp hfuel)) hne
  | succ fuel ih =>
    intro small middle large s hne hfuel harray hmem
    obtain ⟨x, rest, rfl⟩ := exists_cons_of_ne_nil hne
    -- The two elements that are compared are in their places.
    have hx : Holds (overlay base (regions pivot small (x :: rest) large).flatten m)
        (elem base size (small.length + 1)) x :=
      @holds_elem size base m (pivot :: small) (rest ++ large) x harray
    have hpivot : Holds (overlay base (regions pivot small (x :: rest) large).flatten m)
        base pivot := by
      have h := @holds_elem size base m [] (small ++ (x :: rest ++ large)) pivot harray
      rwa [length_nil, elem_zero] at h
    rw [partitionLoop]
    generalize hcompar : compar (overlay base (regions pivot small (x :: rest) large).flatten m)
      (elem base size (small.length + 1)) base s = answer
    obtain ⟨r, s1⟩ := answer
    have hr : (compar (overlay base (regions pivot small (x :: rest) large).flatten m)
        (elem base size (small.length + 1)) base s).1 = r := congrArg Prod.fst hcompar
    obtain ⟨small1, middle1, large1, hbody, hlen, hperm, hmoved⟩ :=
      @partitionBody_spec size base m pivot x small large rest r harray
    have hsmall : ∀ z ∈ small1, z ∈ small ∨ Below compar mem z pivot := by
      intro z hz
      rcases hmoved with ⟨hle, rfl, -⟩ | ⟨-, rfl, -⟩
      · rcases mem_append.mp hz with hz | hz
        · exact Or.inl hz
        · obtain rfl := mem_singleton.mp hz
          exact Or.inr ⟨_, _, _, s, hmem _ (List.Perm.refl _), hx, hpivot, hr ▸ hle⟩
      · exact Or.inl hz
    have hlarge : ∀ z ∈ large1, z ∈ large ∨ Above compar mem z pivot := by
      intro z hz
      rcases hmoved with ⟨-, -, rfl⟩ | ⟨hgt, -, rfl⟩
      · exact Or.inl hz
      · rcases mem_cons.mp hz with rfl | hz
        · exact Or.inr ⟨_, _, _, s, hmem _ (List.Perm.refl _), hx, hpivot, hr ▸ hgt⟩
        · exact Or.inl hz
    have hcount : (regions pivot small (x :: rest) large).length =
        small.length + large.length + 1 + (rest.length + 1) := by
      simp only [regions, length_cons, length_append]
      omega
    have hcall : Calls compar mem base size (regions pivot small (x :: rest) large).length s s1 :=
      .single ⟨_, small.length + 1, by omega, 0, by omega, hmem _ (List.Perm.refl _), by
        rw [elem_zero, hcompar]⟩
    have harray1 := harray.perm hperm
    simp only [hbody, ok_bind]
    -- `p1 == p2` exactly when nothing is left in the middle.
    have hlt : middle1.length * size.toNat < 2 ^ 64 := by
      have hfits := harray.fits
      rw [hcount, Nat.add_mul _ (rest.length + 1), Nat.add_mul rest.length 1, Nat.one_mul] at hfits
      have hpos := harray.pos
      rw [hlen]
      omega
    by_cases hend : middle1 = []
    · subst hend
      rw [if_neg (not_not_intro ((elem_inj harray.pos hlt).mpr rfl))]
      exact ⟨small1, large1, s1, rfl, hperm, hsmall, hlarge, hcall⟩
    · have hgo : elem base size (small1.length + 1) ≠
          elem base size (small1.length + 1 + middle1.length) := fun heq =>
        hend (length_eq_zero_iff.mp ((elem_inj harray.pos hlt).mp heq))
      rw [if_pos hgo]
      rw [length_cons] at hfuel
      obtain ⟨small', large', s', hrun, hperm', hsmall', hlarge', hcalls⟩ :=
        ih small1 middle1 large1 s1 hend (by omega) harray1
          fun ys hys => hmem ys (hys.trans hperm)
      refine ⟨small', large', s', hrun, hperm'.trans hperm, ?_, ?_,
        hcall.trans (hperm.length_eq ▸ hcalls)⟩
      · intro z hz
        exact (hsmall' z hz).elim (hsmall z) Or.inr
      · intro z hz
        exact (hlarge' z hz).elim (hlarge z) Or.inr

/-- `partition` returns the place of the pivot, with every element on its
side of it. -/
theorem partition_spec {fuel : Nat} {s : σ} (hne : rest ≠ []) (hfuel : rest.length ≤ fuel)
    (harray : IsArray size (pivot :: rest))
    (hmem : Permutes mem base (pivot :: rest) m) :
    ∃ below above s',
      partition compar fuel base (BitVec.ofNat 64 (pivot :: rest).length) size
          (overlay base (pivot :: rest).flatten m) s =
        .ok (BitVec.ofNat 64 below.length, overlay base (below ++ pivot :: above).flatten m, s') ∧
      (below ++ pivot :: above).Perm (pivot :: rest) ∧
      (∀ z ∈ below, Below compar mem z pivot) ∧ (∀ z ∈ above, Above compar mem z pivot) ∧
      Calls compar mem base size (pivot :: rest).length s s' := by
  have hstart : pivot :: rest = regions pivot [] rest [] := by simp [regions]
  rw [hstart] at harray hmem
  obtain ⟨small, large, s', hloop, hperm, hsmall, hlarge, hcalls⟩ :=
    partitionLoop_spec fuel [] rest [] s hne hfuel harray hmem
  -- The pivot is exchanged with the last of the elements before it.
  obtain ⟨below, hbelow, hswap⟩ := @swapElements_last size base m [] small large pivot
    (harray.perm hperm)
  refine ⟨below, large, s', ?_, ?_, ?_, ?_, hstart ▸ hcalls⟩
  · have hp1 : base + size = elem base size (([] : List (List Byte)).length + 1) := by
      rw [← elem_succ, length_nil, elem_zero]
    have hp2 : base + BitVec.ofNat 64 (pivot :: rest).length * size =
        elem base size (([] : List (List Byte)).length + 1 + rest.length) := by
      rw [add_ofNat_mul, length_cons, length_nil]
      congr 1
      omega
    have hindex : BitVec.ofNat 64 (small.length + 1) - 1 = BitVec.ofNat 64 small.length := by
      rw [ofNat_add]
      exact BitVec.add_sub_cancel _ _
    have hfinal : swapElements (elem base size small.length) base size
        (overlay base (regions pivot small [] large).flatten m) =
        .ok (overlay base (below ++ pivot :: large).flatten m) := by
      rw [length_nil, elem_zero, Nat.zero_add] at hswap
      rw [swapElements, swapLoop_comm]
      exact hswap
    have hone : (1 : Ulong64) = BitVec.ofNat 64 (([] : List (List Byte)).length + 1) := rfl
    rw [partition, hp1, hp2, hone, hstart, hloop, ok_bind]
    simp only [elem_sub, hfinal, ok_bind, ← hone, hindex]
    rw [hbelow.length_eq]
    rfl
  · rw [hstart]
    refine List.Perm.trans ?_ hperm
    exact perm_middle.trans ((hbelow.append_right large).cons pivot)
  · intro z hz
    exact (hsmall z (hbelow.mem_iff.mp hz)).resolve_left (not_mem_nil)
  · intro z hz
    exact (hlarge z hz).resolve_left (not_mem_nil)

end Partition

/-! ### `qsort` -/

section Parts
variable {A C : List (List Byte)}

/-- An array as its first part, with the second one in the memory around
it. -/
theorem overlay_elements (h : IsArray size (A ++ C)) :
    overlay base (A ++ C).flatten m =
      overlay base A.flatten (overlay (elem base size A.length) C.flatten m) := by
  rw [flatten_append, overlay_append, elem,
    (h.sublist (sublist_append_left A C)).length_flatten]

/-- An array as its second part. -/
theorem overlay_elements_comm (h : IsArray size (A ++ C)) :
    overlay base (A ++ C).flatten m =
      overlay (elem base size A.length) C.flatten (overlay base A.flatten m) := by
  have hfits := h.length_flatten_le
  rw [flatten_append] at hfits
  rw [flatten_append, overlay_append_comm hfits, elem,
    (h.sublist (sublist_append_left A C)).length_flatten]

theorem Permutes.perm {xs ys : List (List Byte)} (h : Permutes mem base xs m)
    (hperm : ys.Perm xs) : Permutes mem base ys m :=
  fun zs hzs => h zs (hzs.trans hperm)

theorem Permutes.left (h : Permutes mem base (A ++ C) m) (harray : IsArray size (A ++ C)) :
    Permutes mem base A (overlay (elem base size A.length) C.flatten m) := by
  intro ys hys
  have hperm := hys.append_right C
  rw [← hys.length_eq, ← overlay_elements (harray.perm hperm)]
  exact h _ hperm

theorem Permutes.right (h : Permutes mem base (A ++ C) m) (harray : IsArray size (A ++ C)) :
    Permutes mem (elem base size A.length) C (overlay base A.flatten m) := by
  intro ys hys
  have hperm := hys.append_left A
  rw [← overlay_elements_comm (harray.perm hperm)]
  exact h _ hperm

end Parts

/-- The result of `qsort`, on an array over any memory. -/
theorem qsort_spec : ∀ (fuel : Nat) (xs : List (List Byte)) (base : Ulong64) (m : Bytes) (s : σ),
    xs.length < fuel → IsArray size xs → Permutes mem base xs m →
    ∃ (ys : List (List Byte)) (s' : σ), qsort compar size fuel base (BitVec.ofNat 64 xs.length)
        (overlay base xs.flatten m) s = .ok (overlay base ys.flatten m, s') ∧
      ys.Perm xs ∧ Calls compar mem base size xs.length s s' ∧
      ∀ element le, Orders compar mem element le → (∀ x ∈ xs, element x) → ys.Pairwise le := by
  -- By induction on the depth: both parts are without the pivot.
  intro fuel
  induction fuel with
  | zero => exact fun xs base m s h => absurd h (Nat.not_lt_zero _)
  | succ fuel ih =>
    intro xs base m s hfuel harray hmem
    have hcount : (BitVec.ofNat 64 xs.length).toNat = xs.length := by
      rw [toNat_ofNat, Nat.mod_eq_of_lt harray.count]
    by_cases hone : xs.length ≤ 1
    · have hstop : ¬BitVec.ofNat 64 xs.length > 1 := by
        rw [gt_iff_lt, lt_def, hcount]
        exact Nat.not_lt.mpr hone
      rw [qsort, if_neg hstop]
      refine ⟨xs, s, rfl, List.Perm.refl xs, .refl, fun _ le _ _ => ?_⟩
      match xs, hone with
      | [], _ => exact List.Pairwise.nil
      | [x], _ => exact pairwise_singleton le x
    · have hgo : BitVec.ofNat 64 xs.length > 1 := by
        rw [gt_iff_lt, lt_def, hcount]
        exact Nat.lt_of_not_le hone
      obtain ⟨pivot, rest, rfl⟩ : ∃ pivot rest, xs = pivot :: rest :=
        exists_cons_of_length_pos (by omega)
      rw [length_cons] at hone hfuel
      have hne : rest ≠ [] := by
        rintro rfl
        exact hone (Nat.le_refl 1)
      obtain ⟨below, above, s1, hpartition, hperm, hbelow, habove, hcalls⟩ :=
        @partition_spec σ compar mem size base m pivot rest fuel s hne (by omega) harray hmem
      have hlen := hperm.length_eq
      rw [length_append, length_cons, length_cons] at hlen
      have harray1 := harray.perm hperm
      -- The part before the pivot, with the rest of the array in the memory
      -- around it.
      obtain ⟨ys1, s2, hrun1, hperm1, hcalls1, hsorted1⟩ := ih below base _ s1 (by omega)
        (harray1.sublist (sublist_append_left below _)) ((hmem.perm hperm).left harray1)
      -- The part after it, with the sorted part and the pivot around it.
      have hperm' := (hperm1.append_right (pivot :: above)).trans hperm
      have harray2 := harray.perm hperm'
      have hmem2 := hmem.perm hperm'
      have hbefore : (ys1 ++ [pivot]).length = below.length + 1 := by
        rw [length_append, hperm1.length_eq, length_singleton]
      have hbetween : overlay base ys1.flatten
          (overlay (elem base size below.length) (pivot :: above).flatten m) =
          overlay (elem base size (below.length + 1)) above.flatten
            (overlay base (ys1 ++ [pivot]).flatten m) := by
        rw [← hperm1.length_eq, ← overlay_elements harray2, hperm1.length_eq, ← hbefore,
          append_cons]
        rw [append_cons] at harray2
        exact overlay_elements_comm harray2
      rw [append_cons] at harray2 hmem2
      have hright := hmem2.right harray2
      rw [hbefore] at hright
      obtain ⟨ys2, s3, hrun2, hperm2, hcalls2, hsorted2⟩ := ih above _ _ s2 (by omega)
        (harray2.sublist (sublist_append_right _ above)) hright
      have hperm'' : (ys1 ++ [pivot] ++ ys2).Perm (pivot :: rest) := by
        rw [← append_cons]
        exact (hperm1.append (hperm2.cons pivot)).trans hperm
      -- The arguments of the two calls.
      have haddr : base + (BitVec.ofNat 64 below.length + 1) * size =
          elem base size (below.length + 1) := by
        rw [← add_ofNat_mul, ofNat_add]
        rfl
      have hleft : BitVec.ofNat 64 (pivot :: rest).length - (BitVec.ofNat 64 below.length + 1) =
          BitVec.ofNat 64 above.length := by
        have hsum : (pivot :: rest).length = above.length + (below.length + 1) := by
          rw [length_cons]
          omega
        rw [hsum, ofNat_add above.length, ofNat_add below.length]
        exact BitVec.add_sub_cancel _ _
      rw [← @elem_zero size base] at hcalls1
      refine ⟨ys1 ++ [pivot] ++ ys2, s3, ?_, hperm'', hcalls.trans ((hcalls1.part ?_).trans
        (hcalls2.part ?_)), fun element le hle helement => ?_⟩
      · rw [qsort, if_pos hgo, hpartition, ok_bind]
        simp only [overlay_elements harray1, hrun1, ok_bind, hbetween, haddr, hleft, hrun2]
        rw [overlay_elements_comm (harray.perm hperm''), hbefore]
      · rw [length_cons]
        omega
      · rw [length_cons]
        omega
      · have hall : ∀ x ∈ below ++ pivot :: above, element x := fun x hx =>
          helement x (hperm.mem_iff.mp hx)
        rw [← append_cons]
        refine hle.pairwise_append_cons hall hbelow habove hperm1 hperm2 ?_ ?_
        · exact hsorted1 element le hle fun x hx => hall x (mem_append_left _ hx)
        · exact hsorted2 element le hle fun x hx =>
            hall x (mem_append_right _ (mem_cons_of_mem _ hx))

/-- The memories that differ from `m` at most in the `n` bytes from `base`
on. -/
def SameOutside (base : Ulong64) (n : Nat) (m m' : Bytes) : Prop :=
  ∀ a, n ≤ (a - base).toNat → m' a = m a

/-- `qsort` returns for every comparison function and leaves a permutation
of the array, with nothing changed outside of it. The function is called
with pointers to elements only. If it compares the elements of the array
by a total preorder, the array is sorted by it. -/
theorem qsort_sorts {xs : List (List Byte)} {nmemb : Ulong64} {fuel : Nat} (s : σ)
    (hsize : size ≠ 0) (hxs : ∀ x ∈ xs, x.length = size.toNat) (hlen : xs.length = nmemb.toNat)
    (hfits : nmemb.toNat * size.toNat ≤ 2 ^ 64) (hm : Holds m base xs.flatten)
    (hfuel : nmemb.toNat < fuel) :
    ∃ (ys : List (List Byte)) (m' : Bytes) (s' : σ),
      qsort compar size fuel base nmemb m s = .ok (m', s') ∧
      ys.Perm xs ∧ Holds m' base ys.flatten ∧
      SameOutside base (nmemb.toNat * size.toNat) m m' ∧
      Calls compar (SameOutside base (nmemb.toNat * size.toNat) m) base size nmemb.toNat s s' ∧
      ∀ le, Orders compar (SameOutside base (nmemb.toNat * size.toNat) m) (· ∈ xs) le →
        ys.Pairwise le := by
  have hpos : 0 < size.toNat := Nat.pos_of_ne_zero fun h => hsize (eq_of_toNat_eq h)
  have harray : IsArray size xs := ⟨hpos, hxs, hlen ▸ nmemb.isLt, hlen ▸ hfits⟩
  -- An array of that length leaves the memory outside as it is.
  have houtside : Permutes (SameOutside base (nmemb.toNat * size.toNat) m) base xs m := by
    intro ys hys a ha
    refine overlay_of_le ?_
    rwa [(harray.perm hys).length_flatten, hys.length_eq, hlen]
  obtain ⟨ys, s', hrun, hperm, hcalls, hsorted⟩ :=
    qsort_spec fuel xs base m s (hlen ▸ hfuel) harray houtside
  rw [hlen, ofNat_toNat, setWidth_eq, overlay_eq_self hm] at hrun
  exact ⟨ys, overlay base ys.flatten m, s', hrun, hperm,
    holds_overlay (harray.perm hperm).length_flatten_le, houtside ys hperm, hlen ▸ hcalls,
    fun le hle => hsorted _ le hle fun _ hx => hx⟩

/-- A comparison of single bytes, which remembers the pointers. -/
def compareBytes : Compar (List (Ulong64 × Ulong64)) := fun m p q s =>
  (((m p).getD 0).toNat - ((m q).getD 0).toNat, (p, q) :: s)

/-- It compares by the order of the bytes. -/
theorem orders_compareBytes {element : List Byte → Prop} (h : ∀ x, element x → x.length = 1) :
    Orders compareBytes mem element fun x y => x.headD 0 ≤ y.headD 0 where
  compares m p q s x y _ hx hy hp hq := by
    obtain ⟨b, rfl⟩ := length_eq_one_iff.mp (h x hx)
    obtain ⟨c, rfl⟩ := length_eq_one_iff.mp (h y hy)
    show ((m p).getD 0).toNat - ((m q).getD 0).toNat ≤ (0 : Int) ↔ b ≤ c
    rw [hp.1, hq.1, Option.getD_some, Option.getD_some, le_def]
    omega
  trans _ _ _ _ _ _ := BitVec.le_trans
  total x y _ _ := BitVec.le_total (x.headD 0) (y.headD 0)

theorem qsort_sorts_bytes : ∃ (ys : List (List Byte)) (m' : Bytes) (s' : _),
    qsort compareBytes 1 4 16 3 (place 16 [3, 1, 2]) [] = .ok (m', s') ∧
    ys.Perm [[3], [1], [2]] ∧ Holds m' 16 ys.flatten ∧ SameOutside 16 3 (place 16 [3, 1, 2]) m' ∧
    Calls compareBytes (SameOutside 16 3 (place 16 [3, 1, 2])) 16 1 3 [] s' ∧
    ys.Pairwise fun x y => x.headD 0 ≤ y.headD 0 := by
  obtain ⟨ys, m', s', hrun, hperm, hm, houtside, hcalls, hsorted⟩ :=
    @qsort_sorts _ compareBytes 1 16 (place 16 [3, 1, 2]) [[3], [1], [2]] 3 4 []
      (by decide) (by decide) (by decide) (by decide) (holds_place (by decide)) (by decide)
  exact ⟨ys, m', s', hrun, hperm, hm, houtside, hcalls, hsorted _ (orders_compareBytes (by decide))⟩

example : (qsort compareBytes 1 4 16 3 (place 16 [3, 1, 2]) []).map (fun r => (r.1 16, r.2)) =
    .ok (some 1, [(17, 16), (18, 16), (17, 16)]) := by decide +kernel

end Xinu.Qsort
