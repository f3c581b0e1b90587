import Mathlib.Data.List.Perm.Basic
import Xinu.Lib.Overlay
import Xinu.Proofs.Machine.Strings
import Xinu.System.Sort

/-!
# `Xinu.Proofs.Library.Swap`: elements of an array and their exchange

An array in memory is a list of elements of the same size, written over
the memory from its base on. `swap_elements` goes through two elements
byte by byte. In terms of the list it exchanges them
(`swapLoop_overlay`), also when both are the same one, and it makes no
difference which pointer comes first (`swapLoop_comm`).

`partition` always exchanges the first element of a region with its last
one. `swapElements_last` is this case: up to the order inside the region,
the first element moves behind it.
-/

namespace Xinu.Qsort

open Function List BitVec

open Lib (Holds holds_append holds_cons overlay overlay_append_cons update_overlay holds_overlay)

/-! ### Bytes -/

section Bytes
variable {m : Bytes} {p q base : Ulong64} {b c : Byte} {n : Nat}

theorem store_of_eq (h : m p = some b) : m.store p c = .ok (update m p (some c)) := by
  rw [Bytes.store, h]

/-- One round exchanges two bytes. -/
theorem swapLoop_succ (hp : m p = some b) (hq : m q = some c) :
    swapLoop (n + 1) p q m =
      swapLoop n (p + 1) (q + 1) (update (update m p (some c)) q (some b)) := by
  have hq' : ∃ d, update m p (some c) q = some d := by
    by_cases heq : q = p
    · rw [heq, update_self]
      exact ⟨c, rfl⟩
    · rw [update_of_ne heq, hq]
      exact ⟨c, rfl⟩
  obtain ⟨d, hd⟩ := hq'
  rw [swapLoop, Bytes.byte_eq_ok.mpr hp, ok_bind, Bytes.byte_eq_ok.mpr hq, ok_bind, store_of_eq hp,
    ok_bind, store_of_eq hd, ok_bind]

/-- The order of the pointers makes no difference. -/
theorem swapLoop_comm : ∀ {p q : Ulong64} {m : Bytes}, swapLoop n p q m = swapLoop n q p m := by
  induction n with
  | zero =>
    intro p q m
    rfl
  | succ n ih =>
    intro p q m
    cases hp : m p with
    | none =>
      rw [swapLoop, swapLoop, Bytes.byte_of_none hp]
      cases hq : m q with
      | none =>
        rw [Bytes.byte_of_none hq]
        rfl
      | some c =>
        rw [Bytes.byte_eq_ok.mpr hq]
        rfl
    | some b =>
      cases hq : m q with
      | none =>
        rw [swapLoop, swapLoop, Bytes.byte_of_none hq, Bytes.byte_eq_ok.mpr hp]
        rfl
      | some c =>
        rw [swapLoop_succ hp hq, swapLoop_succ hq hp, ih]
        by_cases heq : p = q
        · rw [heq]
          obtain rfl := Option.some_inj.mp (hp.symm.trans (heq ▸ hq))
          rfl
        · rw [update_comm heq]

/-- An element that is exchanged with itself stays. -/
theorem swapLoop_self : ∀ {x : List Byte} {p : Ulong64}, Holds m p x →
    swapLoop x.length p p m = .ok m := by
  intro x
  induction x with
  | nil =>
    intro p _
    rfl
  | cons b x ih =>
    intro p h
    obtain ⟨h0, h⟩ := holds_cons.mp h
    rw [length_cons, swapLoop_succ h0 h0, update_idem, ← h0, update_eq_self]
    exact ih h

theorem add_ofNat_succ (k : Nat) :
    base + BitVec.ofNat 64 k + 1 = base + BitVec.ofNat 64 (k + 1) := by
  rw [BitVec.add_assoc, ofNat_add]
  rfl

/-- Two parts of a list that do not overlap are exchanged. -/
theorem swapLoop_overlay {R : List Byte} : ∀ {x y P Q : List Byte}, x.length = y.length →
    (P ++ (x ++ (Q ++ (y ++ R)))).length ≤ 2 ^ 64 →
    swapLoop x.length (base + BitVec.ofNat 64 P.length)
        (base + BitVec.ofNat 64 (P.length + (x.length + Q.length)))
        (overlay base (P ++ (x ++ (Q ++ (y ++ R)))) m) =
      .ok (overlay base (P ++ (y ++ (Q ++ (x ++ R)))) m) := by
  intro x
  induction x with
  | nil =>
    intro y P Q hlen _
    obtain rfl : y = [] := length_eq_zero_iff.mp hlen.symm
    rfl
  | cons c x ih =>
    intro y P Q hlen hfits
    cases y with
    | nil => cases hlen
    | cons d y =>
      have hlen' : x.length = y.length := Nat.succ.inj hlen
      -- The list before the second byte of the round, with any first byte.
      have hsplit : ∀ b, P ++ (b :: x ++ (Q ++ (d :: y ++ R))) =
          (P ++ b :: (x ++ Q)) ++ d :: (y ++ R) := by simp
      have hbefore : ∀ b, P.length + ((c :: x).length + Q.length) =
          (P ++ b :: (x ++ Q)).length := by
        intro b
        simp only [length_append, length_cons]
        omega
      have hfits' : ∀ b e, ((P ++ b :: (x ++ Q)) ++ e :: (y ++ R)).length ≤ 2 ^ 64 := by
        intro b e
        simp only [length_append, length_cons] at hfits ⊢
        omega
      have hfirst : overlay base (P ++ (c :: x ++ (Q ++ (d :: y ++ R)))) m
          (base + BitVec.ofNat 64 P.length) = some c := overlay_append_cons hfits
      have hsecond : overlay base (P ++ (c :: x ++ (Q ++ (d :: y ++ R)))) m
          (base + BitVec.ofNat 64 (P.length + ((c :: x).length + Q.length))) = some d := by
        rw [hsplit, hbefore c]
        exact overlay_append_cons (hfits' c d)
      have hupdate : update (update
          (overlay base (P ++ (c :: x ++ (Q ++ (d :: y ++ R)))) m)
          (base + BitVec.ofNat 64 P.length) (some d))
          (base + BitVec.ofNat 64 (P.length + ((c :: x).length + Q.length))) (some c) =
          overlay base ((P ++ [d]) ++ (x ++ ((Q ++ [c]) ++ (y ++ R)))) m := by
        have h1 : update (overlay base (P ++ (c :: x ++ (Q ++ (d :: y ++ R)))) m)
            (base + BitVec.ofNat 64 P.length) (some d) =
            overlay base (P ++ (d :: x ++ (Q ++ (d :: y ++ R)))) m := update_overlay hfits
        rw [h1, hsplit, hbefore d, update_overlay (hfits' d d)]
        simp
      have hnext : base + BitVec.ofNat 64 (P.length + ((c :: x).length + Q.length)) + 1 =
          base + BitVec.ofNat 64 ((P ++ [d]).length + (x.length + (Q ++ [c]).length)) := by
        rw [add_ofNat_succ]
        simp only [length_append, length_cons, length_nil]
        congr 2
        omega
      have hnext' : base + BitVec.ofNat 64 P.length + 1 =
          base + BitVec.ofNat 64 (P ++ [d]).length := by
        rw [add_ofNat_succ, length_append]
        rfl
      rw [length_cons] at *
      rw [swapLoop_succ hfirst hsecond, hupdate, hnext, hnext', ih hlen' ?_]
      · simp
      · have h := hfits' d c
        simp only [length_append, length_cons, length_nil] at h ⊢
        omega

end Bytes

/-! ### Elements -/

/-- The elements of an array that fits into the address space. -/
structure IsArray (size : Ulong64) (xs : List (List Byte)) : Prop where
  pos : 0 < size.toNat
  sizes : ∀ x ∈ xs, x.length = size.toNat
  count : xs.length < 2 ^ 64
  fits : xs.length * size.toNat ≤ 2 ^ 64

/-- The address of an element. -/
def elem (base size : Ulong64) (k : Nat) : Ulong64 := base + BitVec.ofNat 64 (k * size.toNat)

section Elements
variable {size base : Ulong64} {m : Bytes} {xs ys : List (List Byte)}

theorem length_flatten_of_sizes (h : ∀ x ∈ xs, x.length = size.toNat) :
    xs.flatten.length = xs.length * size.toNat := by
  rw [List.length_flatten, map_congr_left h, map_const', sum_replicate_nat]

namespace IsArray

theorem perm (h : IsArray size xs) (hperm : ys.Perm xs) : IsArray size ys where
  pos := h.pos
  sizes x hx := h.sizes x (hperm.mem_iff.mp hx)
  count := hperm.length_eq ▸ h.count
  fits := hperm.length_eq ▸ h.fits

/-- A part of an array is an array. -/
theorem sublist (h : IsArray size xs) (hsub : ys.Sublist xs) : IsArray size ys where
  pos := h.pos
  sizes x hx := h.sizes x (hsub.subset hx)
  count := Nat.lt_of_le_of_lt hsub.length_le h.count
  fits := Nat.le_trans (Nat.mul_le_mul_right _ hsub.length_le) h.fits

theorem length_flatten (h : IsArray size xs) : xs.flatten.length = xs.length * size.toNat :=
  length_flatten_of_sizes h.sizes

theorem length_flatten_le (h : IsArray size xs) : xs.flatten.length ≤ 2 ^ 64 :=
  h.length_flatten.trans_le h.fits

end IsArray

theorem elem_zero : elem base size 0 = base := by
  rw [elem, Nat.zero_mul]
  exact BitVec.add_zero base

theorem elem_add (j k : Nat) : elem (elem base size j) size k = elem base size (j + k) := by
  rw [elem, elem, elem, BitVec.add_assoc, ← ofNat_add, Nat.add_mul]

theorem elem_succ (k : Nat) : elem base size k + size = elem base size (k + 1) := by
  rw [← elem_add]
  show _ = elem base size k + BitVec.ofNat 64 (1 * size.toNat)
  rw [Nat.one_mul, ofNat_toNat, setWidth_eq]

theorem elem_sub (k : Nat) : elem base size (k + 1) - size = elem base size k := by
  rw [← elem_succ, add_sub_cancel]

theorem add_ofNat_mul (k : Nat) : base + BitVec.ofNat 64 k * size = elem base size k := by
  rw [elem, ofNat_mul, ofNat_toNat, setWidth_eq]

/-- Two addresses differ, unless they are whole address spaces apart. -/
theorem elem_inj {j d : Nat} (hpos : 0 < size.toNat) (hlt : d * size.toNat < 2 ^ 64) :
    elem base size j = elem base size (j + d) ↔ d = 0 := by
  constructor
  · intro h
    rw [← elem_add] at h
    have hzero : BitVec.ofNat 64 (d * size.toNat) = 0 :=
      ((BitVec.add_right_inj _).mp ((BitVec.add_zero _).trans h)).symm
    have hnat := congrArg BitVec.toNat hzero
    rw [toNat_ofNat, Nat.mod_eq_of_lt hlt] at hnat
    exact (Nat.mul_eq_zero.mp hnat).resolve_right (Nat.ne_of_gt hpos)
  · rintro rfl
    rfl

/-- An element is in its place. -/
theorem holds_elem {A C : List (List Byte)} {x : List Byte} (h : IsArray size (A ++ x :: C)) :
    Holds (overlay base (A ++ x :: C).flatten m) (elem base size A.length) x := by
  have hall := holds_overlay (a := base) (m := m) h.length_flatten_le
  rw [flatten_append, flatten_cons, holds_append, holds_append] at hall
  have hA : IsArray size A := h.sublist (sublist_append_left A _)
  rw [elem, ← hA.length_flatten]
  rw [flatten_append, flatten_cons]
  exact hall.2.1

/-- The first element of a region is exchanged with the last one, or stays
if it is the only one. -/
theorem swapElements_last {A rest C : List (List Byte)} {x : List Byte}
    (h : IsArray size (A ++ x :: (rest ++ C))) :
    ∃ rest', rest'.Perm rest ∧
      swapElements (elem base size A.length) (elem base size (A.length + rest.length)) size
          (overlay base (A ++ x :: (rest ++ C)).flatten m) =
        .ok (overlay base (A ++ (rest' ++ x :: C)).flatten m) := by
  have hx : x.length = size.toNat :=
    h.sizes x (mem_append_right A mem_cons_self)
  rcases eq_nil_or_concat' rest with rfl | ⟨init, y, rfl⟩
  · refine ⟨[], List.Perm.nil, ?_⟩
    rw [swapElements, ← hx]
    exact swapLoop_self (holds_elem h)
  · refine ⟨y :: init, perm_append_singleton y init |>.symm, ?_⟩
    have hmem : ∀ z ∈ A ++ init ++ [y], z.length = size.toNat := by
      intro z hz
      apply h.sizes z
      simp only [mem_append, mem_cons] at hz ⊢
      tauto
    have hy : y.length = size.toNat := hmem y (by simp)
    have hA : A.flatten.length = A.length * size.toNat :=
      length_flatten_of_sizes fun z hz => hmem z (by simp [hz])
    have hinit : init.flatten.length = init.length * size.toNat :=
      length_flatten_of_sizes fun z hz => hmem z (by simp [hz])
    -- The list of elements as the list of its bytes.
    have hbefore : (A ++ x :: ((init ++ [y]) ++ C)).flatten =
        A.flatten ++ (x ++ (init.flatten ++ (y ++ C.flatten))) := by simp
    have hafter : (A ++ ((y :: init) ++ x :: C)).flatten =
        A.flatten ++ (y ++ (init.flatten ++ (x ++ C.flatten))) := by simp
    have hp : elem base size A.length = base + BitVec.ofNat 64 A.flatten.length := by
      rw [elem, hA]
    have hq : elem base size (A.length + (init ++ [y]).length) =
        base + BitVec.ofNat 64 (A.flatten.length + (x.length + init.flatten.length)) := by
      rw [elem, hA, hinit, hx, length_append, length_singleton]
      congr 2
      rw [Nat.add_mul, Nat.add_mul, Nat.one_mul]
      omega
    have hfits := h.length_flatten_le
    rw [hbefore] at hfits
    rw [hbefore, hafter, hp, hq, swapElements, ← hx]
    exact swapLoop_overlay (hx.trans hy.symm) hfits

end Elements

end Xinu.Qsort
