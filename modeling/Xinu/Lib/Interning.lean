import Mathlib.Data.List.Basic
import Mathlib.Data.List.Nodup
import Mathlib.Data.List.Range

/-!
# `Xinu.Lib.Interning`: numbers in the order of first appearance

A table that interns the members of a list holds each of them once, in the
order in which they first appear: `eraseDups` of the list. The number of a
member is its index there. It does not change when more members come
(`idxOf_eraseDups_append`), and the numbers that the members get are
`0, 1, 2, …` where they are new (`eraseDups_map_idxOf`).
-/

namespace Xinu.Lib

open List

variable {α β : Type} [BEq α] [LawfulBEq α] [BEq β] [LawfulBEq β] {l l' : List α} {a : α}

/-- One more member is new, or it is not. -/
theorem eraseDups_concat (l : List α) (a : α) :
    (l ++ [a]).eraseDups = if a ∈ l then l.eraseDups else l.eraseDups ++ [a] := by
  rw [eraseDups_append]
  split
  next h => simp [List.removeAll, h]
  next h => simp [List.removeAll, h, eraseDups_cons]

theorem nodup_eraseDups (l : List α) : l.eraseDups.Nodup := by
  induction l using List.reverseRecOn with
  | nil => exact nodup_nil
  | append_singleton l a ih =>
    rw [eraseDups_concat]
    split
    next => exact ih
    next h =>
      refine nodup_append.mpr ⟨ih, nodup_singleton a, fun b hb c hc heq => h ?_⟩
      rw [← mem_singleton.mp hc, ← heq]
      exact mem_eraseDups.mp hb

theorem eraseDups_of_nodup (h : l.Nodup) : l.eraseDups = l := by
  induction l using List.reverseRecOn with
  | nil => rfl
  | append_singleton l a ih =>
    obtain ⟨hl, -, hdisj⟩ := nodup_append.mp h
    have ha : a ∉ l := fun ha => hdisj a ha a mem_cons_self rfl
    rw [eraseDups_concat, if_neg ha, ih hl]

theorem eraseDups_prefix_append (l l' : List α) : l.eraseDups <+: (l ++ l').eraseDups :=
  ⟨_, eraseDups_append.symm⟩

/-- A member keeps its number. -/
theorem idxOf_eraseDups_append (ha : a ∈ l) :
    (l ++ l').eraseDups.idxOf a = l.eraseDups.idxOf a := by
  rw [eraseDups_append, idxOf_append_of_mem (mem_eraseDups.mpr ha)]

/-- Renaming the members, different ones differently. -/
theorem eraseDups_map {f : α → β} (l : List α) (hf : ∀ a ∈ l, ∀ b ∈ l, f a = f b → a = b) :
    (l.map f).eraseDups = l.eraseDups.map f := by
  induction l using List.reverseRecOn with
  | nil => rfl
  | append_singleton l a ih =>
    have hmem : f a ∈ l.map f ↔ a ∈ l := by
      refine ⟨fun h => ?_, mem_map_of_mem⟩
      obtain ⟨b, hb, heq⟩ := mem_map.mp h
      rwa [← hf b (mem_append_left _ hb) a (mem_append_right _ mem_cons_self) heq]
    have hl : (l.map f).eraseDups = l.eraseDups.map f := ih fun b hb c hc =>
      hf b (mem_append_left _ hb) c (mem_append_left _ hc)
    rw [map_append, map_singleton, eraseDups_concat, eraseDups_concat, hl]
    simp only [hmem]
    split
    · rfl
    · rw [map_append, map_singleton]

theorem map_idxOf_self (h : l.Nodup) : l.map (fun a => l.idxOf a) = List.range l.length := by
  refine ext_getElem (by simp) fun i hi hi' => ?_
  rw [getElem_map, getElem_range, h.idxOf_getElem]

/-- The numbers of the members are new where the members are. -/
theorem eraseDups_map_idxOf (l : List α) :
    (l.map fun a => l.eraseDups.idxOf a).eraseDups = List.range l.eraseDups.length := by
  rw [eraseDups_map l fun a ha b _ heq =>
    (idxOf_inj (mem_eraseDups.mpr ha)).mp heq, map_idxOf_self (nodup_eraseDups l)]

end Xinu.Lib
