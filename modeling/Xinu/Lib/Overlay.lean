import Mathlib.Logic.Function.Basic
import Xinu.Lib.Layout

/-!
# `Xinu.Lib.Overlay`: a list written over a memory

`overlay a l m` is the memory `m` with the list `l` from address `a` on.
A memory that holds the list is such a memory (`overlay_eq_self`). An
update of one place of the list is an update of the list
(`update_overlay`), so a program that only writes inside an array is a
program on lists, and the memory around the array stays as it is without
a further argument. Parts of an array are overlays of their own, in either
order (`overlay_append`, `overlay_append_comm`).
-/

namespace Xinu.Lib

open Function List BitVec

variable {w : Nat} {β : Type} {m : BitVec w → Option β} {a x : BitVec w} {b c : β} {l l' : List β}

/-- The memory `m` with the list from address `a` on. -/
def overlay (a : BitVec w) (l : List β) (m : BitVec w → Option β) : BitVec w → Option β :=
  fun x => (place a l x).or (m x)

theorem toNat_ofNat_add_sub {k : Nat} (h : k < 2 ^ w) : (a + BitVec.ofNat w k - a).toNat = k := by
  rw [BitVec.add_comm, BitVec.add_sub_cancel, toNat_ofNat, Nat.mod_eq_of_lt h]

theorem eq_add_of_toNat_sub {k : Nat} (h : (x - a).toNat = k) : x = a + BitVec.ofNat w k := by
  rw [← h, ofNat_toNat, setWidth_eq, BitVec.add_comm, BitVec.sub_add_cancel]

/-- Outside of the list the memory is as it was. -/
theorem overlay_of_le (h : l.length ≤ (x - a).toNat) : overlay a l m x = m x := by
  rw [overlay, place, List.getElem?_eq_none h, Option.none_or]

/-- A member of the list is in its place. -/
theorem overlay_append_cons (h : (l ++ c :: l').length ≤ 2 ^ w) :
    overlay a (l ++ c :: l') m (a + BitVec.ofNat w l.length) = some c := by
  rw [length_append, length_cons] at h
  rw [overlay, place, toNat_ofNat_add_sub (by omega), getElem?_append_right (Nat.le_refl _),
    Nat.sub_self]
  rfl

/-- An update of a place of the list. -/
theorem update_overlay (h : (l ++ c :: l').length ≤ 2 ^ w) :
    update (overlay a (l ++ c :: l') m) (a + BitVec.ofNat w l.length) (some b) =
      overlay a (l ++ b :: l') m := by
  funext x
  by_cases hx : x = a + BitVec.ofNat w l.length
  · rw [hx, update_self, overlay_append_cons]
    rwa [length_append, length_cons] at h ⊢
  · have hne : l.length ≠ (x - a).toNat := fun heq => hx (eq_add_of_toNat_sub heq.symm)
    have hset : l ++ b :: l' = (l ++ c :: l').set l.length b := by simp
    rw [update_of_ne hx, overlay, overlay, place, place, hset, getElem?_set_ne hne]

theorem holds_overlay (h : l.length ≤ 2 ^ w) : Holds (overlay a l m) a l := by
  refine holds_of_get fun n hn => ?_
  rw [overlay, place, toNat_ofNat_add_sub (Nat.lt_of_lt_of_le hn h), List.getElem?_eq_getElem hn]
  rfl

/-- A memory that holds the list does not change by it. -/
theorem overlay_eq_self (h : Holds m a l) : overlay a l m = m := by
  funext x
  by_cases hx : (x - a).toNat < l.length
  · have hget := h.get hx
    rw [← eq_add_of_toNat_sub rfl] at hget
    rw [overlay, place, List.getElem?_eq_getElem hx, hget]
    rfl
  · exact overlay_of_le (Nat.le_of_not_lt hx)

/-- The address of `x` in the second part of an array. -/
theorem toNat_sub_add {k : Nat} (hk : k ≤ (x - a).toNat) :
    (x - (a + BitVec.ofNat w k)).toNat = (x - a).toNat - k := by
  have hlt : k < 2 ^ w := Nat.lt_of_le_of_lt hk (x - a).isLt
  have hle : BitVec.ofNat w k ≤ x - a := by
    rw [le_def, toNat_ofNat, Nat.mod_eq_of_lt hlt]
    exact hk
  rw [← sub_sub, toNat_sub_of_le hle, toNat_ofNat, Nat.mod_eq_of_lt hlt]

/-- Before the second part, its addresses come around at the end. -/
theorem le_toNat_sub_add {k n : Nat} (hk : (x - a).toNat < k) (hn : k + n ≤ 2 ^ w) (hpos : 0 < n) :
    n ≤ (x - (a + BitVec.ofNat w k)).toNat := by
  have hlt : k < 2 ^ w := by omega
  rw [← sub_sub, toNat_sub, toNat_ofNat, Nat.mod_eq_of_lt hlt,
    Nat.mod_eq_of_lt (by omega)]
  omega

/-- The first part over the second one. -/
theorem overlay_append :
    overlay a (l ++ l') m = overlay a l (overlay (a + BitVec.ofNat w l.length) l' m) := by
  funext x
  by_cases hx : (x - a).toNat < l.length
  · rw [overlay, overlay, place, place, getElem?_append_left hx, List.getElem?_eq_getElem hx]
    rfl
  · have hge := Nat.le_of_not_lt hx
    rw [overlay_of_le hge, overlay, overlay, place, place, toNat_sub_add hge,
      getElem?_append_right hge]

/-- The second part over the first one. -/
theorem overlay_append_comm (h : (l ++ l').length ≤ 2 ^ w) :
    overlay a (l ++ l') m = overlay (a + BitVec.ofNat w l.length) l' (overlay a l m) := by
  rw [length_append] at h
  funext x
  by_cases hx : (x - a).toNat < l.length
  · have hplace : place (a + BitVec.ofNat w l.length) l' x = none := by
      cases l' with
      | nil => rfl
      | cons c l' => exact List.getElem?_eq_none (le_toNat_sub_add hx h (Nat.succ_pos _))
    rw [overlay_append, overlay, overlay, overlay, overlay, hplace, Option.none_or, Option.none_or]
  · have hge := Nat.le_of_not_lt hx
    rw [overlay_append, overlay_of_le hge, overlay, overlay, overlay_of_le hge]

/-- A list is written from its first member on. -/
theorem overlay_cons (h : (b :: l).length ≤ 2 ^ w) (ha : m a = some c) :
    overlay a (b :: l) m = overlay (a + 1) l (update m a (some b)) := by
  have hlen : ([c] ++ []).length ≤ 2 ^ w := Nat.le_trans (Nat.succ_le_succ (Nat.zero_le _)) h
  have hstart : overlay a [c] m = m := overlay_eq_self ⟨ha, trivial⟩
  have hzero : a + BitVec.ofNat w ([] : List β).length = a := BitVec.add_zero a
  have hfirst : update (overlay a ([] ++ [c]) m) (a + BitVec.ofNat w ([] : List β).length)
      (some b) = overlay a ([] ++ [b]) m := update_overlay hlen
  rw [hzero, nil_append, nil_append, hstart] at hfirst
  rw [hfirst, ← singleton_append, overlay_append_comm h]
  rfl

/-- The place after the list is written. -/
theorem update_overlay_append (h : (l ++ [b]).length ≤ 2 ^ w)
    (hend : m (a + BitVec.ofNat w l.length) = some c) :
    update (overlay a l m) (a + BitVec.ofNat w l.length) (some b) =
      overlay a (l ++ [b]) m := by
  have hlt : l.length < 2 ^ w := by
    rw [length_append] at h
    exact h
  have hlast : overlay a l m (a + BitVec.ofNat w l.length) = some c := by
    rw [overlay_of_le (Nat.le_of_eq (toNat_ofNat_add_sub hlt).symm), hend]
  have hone : [b].length ≤ 2 ^ w := Nat.le_trans (Nat.succ_le_succ (Nat.zero_le _)) hlt
  rw [overlay_append_comm h, overlay_cons hone hlast]
  rfl

/-- A write leaves what is mapped mapped. -/
theorem Mapped.update {n : Nat} (h : Mapped m a n) : Mapped (update m x (some b)) a n := by
  refine h.of_isSome fun y hy => ?_
  by_cases heq : y = x
  · rw [heq, update_self]
    rfl
  · rwa [update_of_ne heq]

theorem Mapped.overlay {n : Nat} (h : Mapped m a n) : Mapped (overlay x l m) a n := by
  refine h.of_isSome fun y hy => ?_
  rw [Lib.overlay, Option.isSome_or, hy, Bool.or_true]

end Xinu.Lib
