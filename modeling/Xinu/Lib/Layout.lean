import Mathlib.Algebra.Order.Ring.Nat
import Mathlib.Data.List.Basic

/-!
# `Xinu.Lib.Layout`: lists laid out in memory

A memory maps the addresses of some width to values, where it is mapped
at all. `Holds m a l` says that the values of `l` are in the memory from
address `a` on. Addresses wrap around. Concatenation of lists is adjacency
in memory (`holds_append`), so a record that is encoded as a list of
values can be read field by field.
-/

namespace Xinu.Lib

open List

variable {w : Nat} {β : Type} {m : BitVec w → Option β} {a : BitVec w} {b : β} {l l' : List β}

/-- The places after the next one. -/
theorem add_one_add_ofNat (a : BitVec w) (n : Nat) :
    a + 1 + BitVec.ofNat w n = a + BitVec.ofNat w (n + 1) := by
  rw [BitVec.add_assoc, BitVec.ofNat_add, BitVec.add_comm (BitVec.ofNat w n)]
  rfl

/-- The list is in the memory from address `a` on. -/
def Holds (m : BitVec w → Option β) : BitVec w → List β → Prop
  | _, [] => True
  | a, b :: l => m a = some b ∧ Holds m (a + 1) l

instance instDecidableHolds [DecidableEq β] (m : BitVec w → Option β) :
    (a : BitVec w) → (l : List β) → Decidable (Holds m a l)
  | _, [] => inferInstanceAs (Decidable True)
  | a, _ :: l =>
    have := instDecidableHolds m (a + 1) l
    inferInstanceAs (Decidable (_ ∧ _))

@[simp] theorem holds_nil : Holds m a [] := trivial

theorem holds_cons : Holds m a (b :: l) ↔ m a = some b ∧ Holds m (a + 1) l := Iff.rfl

/-- Two lists after each other are adjacent in memory. -/
theorem holds_append :
    Holds m a (l ++ l') ↔ Holds m a l ∧ Holds m (a + BitVec.ofNat w l.length) l' := by
  induction l generalizing a with
  | nil => simp
  | cons b l ih =>
    rw [List.cons_append, holds_cons, holds_cons, ih, add_one_add_ofNat, and_assoc]
    rfl

/-- A member of the list is in its place. -/
theorem Holds.get {n : Nat} (h : Holds m a l) (hn : n < l.length) :
    m (a + BitVec.ofNat w n) = some l[n] := by
  have hsplit : l = l.take n ++ l[n] :: l.drop (n + 1) := by
    rw [← drop_eq_getElem_cons hn, take_append_drop]
  rw [hsplit, holds_append, length_take, Nat.min_eq_left (Nat.le_of_lt hn)] at h
  exact h.2.1

theorem holds_of_get : ∀ {l : List β} {a : BitVec w},
    (∀ n (hn : n < l.length), m (a + BitVec.ofNat w n) = some l[n]) → Holds m a l
  | [], _, _ => holds_nil
  | b :: l, a, h => by
    refine ⟨(congrArg m (BitVec.add_zero a)).symm.trans (h 0 (Nat.succ_pos _)), holds_of_get ?_⟩
    intro n hn
    rw [add_one_add_ofNat]
    exact h (n + 1) (Nat.succ_lt_succ hn)

/-- A memory that has more has the list too. -/
theorem Holds.mono {m' : BitVec w → Option β} (hm : ∀ x b, m x = some b → m' x = some b)
    (h : Holds m a l) : Holds m' a l :=
  holds_of_get fun _ hn => hm _ _ (h.get hn)

/-- The `n` places from `a` on are mapped. -/
def Mapped (m : BitVec w → Option β) (a : BitVec w) (n : Nat) : Prop :=
  ∃ l : List β, l.length = n ∧ Holds m a l

theorem Holds.mapped (h : Holds m a l) : Mapped m a l.length := ⟨l, rfl, h⟩

theorem mapped_add {n k : Nat} :
    Mapped m a (n + k) ↔ Mapped m a n ∧ Mapped m (a + BitVec.ofNat w n) k := by
  constructor
  · rintro ⟨l, hlen, h⟩
    have htake : (l.take n).length = n := by
      rw [length_take]
      omega
    rw [← take_append_drop n l, holds_append, htake] at h
    refine ⟨⟨l.take n, htake, h.1⟩, l.drop n, ?_, h.2⟩
    rw [length_drop]
    omega
  · rintro ⟨⟨l, hl, h⟩, l', hl', h'⟩
    refine ⟨l ++ l', ?_, holds_append.mpr ⟨h, hl ▸ h'⟩⟩
    rw [length_append, hl, hl']

theorem Mapped.mono {n k : Nat} (h : Mapped m a n) (hk : k ≤ n) : Mapped m a k := by
  obtain ⟨j, rfl⟩ := Nat.exists_eq_add_of_le hk
  exact (mapped_add.mp h).1

/-- What is mapped in a memory is mapped in one that has as many places. -/
theorem Mapped.of_isSome {m' : BitVec w → Option β} (hm : ∀ x, (m x).isSome → (m' x).isSome)
    {n : Nat} (h : Mapped m a n) : Mapped m' a n := by
  induction n generalizing a with
  | zero => exact ⟨[], rfl, trivial⟩
  | succ n ih =>
    obtain ⟨l, hlen, hl⟩ := h
    obtain ⟨c, l, rfl⟩ := exists_cons_of_length_eq_add_one hlen
    obtain ⟨l', hlen', hl'⟩ := ih ⟨l, Nat.succ_inj.mp hlen, hl.2⟩
    obtain ⟨d, hd⟩ := Option.isSome_iff_exists.mp (hm a (by rw [hl.1]; rfl))
    exact ⟨d :: l', congrArg (· + 1) hlen', hd, hl'⟩

/-- The memory that has the list at `a` and nothing else. -/
def place (a : BitVec w) (l : List β) (x : BitVec w) : Option β := l[(x - a).toNat]?

theorem holds_place (h : l.length ≤ 2 ^ w) : Holds (place a l) a l := by
  refine holds_of_get fun n hn => ?_
  have hsub : a + BitVec.ofNat w n - a = BitVec.ofNat w n := by
    rw [BitVec.add_comm, BitVec.add_sub_cancel]
  rw [place, hsub, BitVec.toNat_ofNat, Nat.mod_eq_of_lt (Nat.lt_of_lt_of_le hn h)]
  exact List.getElem?_eq_getElem hn

end Xinu.Lib
