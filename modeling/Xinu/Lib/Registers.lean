import Mathlib.Algebra.Group.Defs
import Mathlib.Data.List.Nodup
import Mathlib.Logic.Function.Basic

/-!
# `Xinu.Lib.Registers`: straight-line code on registers and memory

A machine with registers named by `R` and a memory of words `W` that is
addressed by words. A program is a list of instructions without jumps:
moves, constants, stores and loads. Writing a program counter is a move
or a load like any other.

`writeAll` writes a list of values at a list of addresses. A routine that
saves registers is a block of stores with one base
register, and one that restores them is a block of loads. The lemmas say
what such blocks do as a whole: each slot holds its register afterwards
(`mem_run_stores`), each register its slot (`regs_run_loads`), and
everything else is as it was.
-/

namespace Xinu.Lib

open Function List

section Words
variable {A V : Type} [DecidableEq A] {l l' : List (A × V)} {f : A → V} {a : A} {v : V}

/-- Write the values of the list at their addresses, in order. -/
def writeAll (l : List (A × V)) (f : A → V) : A → V :=
  l.foldl (fun f p => update f p.1 p.2) f

theorem writeAll_append : writeAll (l ++ l') f = writeAll l' (writeAll l f) := foldl_append

theorem writeAll_of_notMem (ha : a ∉ l.map Prod.fst) : writeAll l f a = f a := by
  induction l generalizing f with
  | nil => rfl
  | cons p l ih =>
    rw [map_cons, mem_cons, not_or] at ha
    exact (ih (f := update f p.1 p.2) ha.2).trans (update_of_ne ha.1 _ _)

/-- At different addresses, every address has its value. -/
theorem writeAll_of_mem (hl : (l.map Prod.fst).Nodup) (hp : (a, v) ∈ l) : writeAll l f a = v := by
  induction l generalizing f with
  | nil => cases hp
  | cons p l ih =>
    rw [map_cons, nodup_cons] at hl
    rcases mem_cons.mp hp with rfl | hp
    · exact (writeAll_of_notMem (f := update f a v) hl.1).trans
        (update_self _ _ _)
    · exact ih (f := update f p.1 p.2) hl.2 hp

theorem writeAll_congr {g : A → V} (h : f a = g a) : writeAll l f a = writeAll l g a := by
  induction l generalizing f g with
  | nil => exact h
  | cons p l ih =>
    refine ih ?_
    simp only [update_apply, h]

/-- Writes at the images of the addresses. -/
theorem writeAll_map {B : Type} [DecidableEq B] {g : A → B} (hg : Injective g) (l : List (A × V))
    (f : B → V) (a : A) :
    writeAll (l.map fun p => (g p.1, p.2)) f (g a) = writeAll l (fun a => f (g a)) a := by
  induction l generalizing f with
  | nil => rfl
  | cons p l ih =>
    refine (ih (update f (g p.1) p.2)).trans (congrArg (fun f => writeAll l f a) ?_)
    exact update_comp_eq_of_injective f hg p.1 p.2

end Words

/-- The registers and the memory. -/
@[ext] structure Cpu (R W : Type) where
  regs : R → W
  mem : W → W

/-- An instruction. -/
inductive Instr (R W : Type) where
  /-- `rd := rs` -/
  | mov (rd rs : R)
  /-- `rd := value` -/
  | li (rd : R) (value : W)
  /-- `mem[base + off] := rs` -/
  | store (rs base : R) (off : W)
  /-- `rd := mem[base + off]` -/
  | load (rd base : R) (off : W)

namespace Cpu
variable {R W : Type} [DecidableEq R] [DecidableEq W] [Add W]

/-- One instruction. -/
def step (c : Cpu R W) : Instr R W → Cpu R W
  | .mov rd rs => { c with regs := update c.regs rd (c.regs rs) }
  | .li rd value => { c with regs := update c.regs rd value }
  | .store rs base off => { c with mem := update c.mem (c.regs base + off) (c.regs rs) }
  | .load rd base off => { c with regs := update c.regs rd (c.mem (c.regs base + off)) }

/-- The instructions in order. -/
def run (code : List (Instr R W)) (c : Cpu R W) : Cpu R W := code.foldl step c

variable {c : Cpu R W} {code code' : List (Instr R W)} {i : Instr R W} {base r : R} {off a : W}
  {l : List (R × W)}

@[simp] theorem run_nil : run [] c = c := rfl

theorem run_cons : run (i :: code) c = run code (c.step i) := rfl

theorem run_append : run (code ++ code') c = run code' (run code c) := foldl_append

/-! ### Saving -/

/-- Store the registers of the list at their offsets. -/
def stores (base : R) (l : List (R × W)) : List (Instr R W) :=
  l.map fun p => .store p.1 base p.2

theorem regs_run_stores (base : R) (l : List (R × W)) (c : Cpu R W) :
    (run (stores base l) c).regs = c.regs := by
  induction l generalizing c with
  | nil => rfl
  | cons p l ih => exact ih (c.step (.store p.1 base p.2))

theorem mem_run_stores_eq (base : R) (l : List (R × W)) (c : Cpu R W) :
    (run (stores base l) c).mem =
      writeAll (l.map fun p => (c.regs base + p.2, c.regs p.1)) c.mem := by
  induction l generalizing c with
  | nil => rfl
  | cons p l ih => exact ih (c.step (.store p.1 base p.2))

theorem mem_run_stores_of_ne (ha : ∀ off ∈ l.map Prod.snd, a ≠ c.regs base + off) :
    (run (stores base l) c).mem a = c.mem a := by
  rw [mem_run_stores_eq, writeAll_of_notMem]
  intro hmem
  simp only [map_map, mem_map, comp_apply] at hmem
  obtain ⟨p, hp, rfl⟩ := hmem
  exact ha p.2 (mem_map_of_mem hp) rfl

/-- With different offsets, every slot holds its register. -/
theorem mem_run_stores [IsLeftCancelAdd W] (hl : (l.map Prod.snd).Nodup) (hp : (r, off) ∈ l) :
    (run (stores base l) c).mem (c.regs base + off) = c.regs r := by
  rw [mem_run_stores_eq]
  refine writeAll_of_mem ?_ (mem_map_of_mem (f := fun p => (c.regs base + p.2, c.regs p.1)) hp)
  have haddr : (l.map fun p => (c.regs base + p.2, c.regs p.1)).map Prod.fst =
      (l.map Prod.snd).map (c.regs base + ·) := by
    rw [map_map, map_map]
    rfl
  rw [haddr]
  exact hl.map (add_right_injective _)

/-! ### Restoring -/

/-- Load the registers of the list from their offsets. -/
def loads (base : R) (l : List (R × W)) : List (Instr R W) :=
  l.map fun p => .load p.1 base p.2

theorem mem_run_loads (base : R) (l : List (R × W)) (c : Cpu R W) :
    (run (loads base l) c).mem = c.mem := by
  induction l generalizing c with
  | nil => rfl
  | cons p l ih => exact ih (c.step (.load p.1 base p.2))

theorem regs_run_loads_of_notMem (hr : r ∉ l.map Prod.fst) :
    (run (loads base l) c).regs r = c.regs r := by
  induction l generalizing c with
  | nil => rfl
  | cons p l ih =>
    rw [map_cons, mem_cons, not_or] at hr
    exact (ih (c := c.step (.load p.1 base p.2)) hr.2).trans (update_of_ne hr.1 _ _)

/-- With different registers, none of them the base, every register holds
its slot. -/
theorem regs_run_loads (hl : (l.map Prod.fst).Nodup) (hbase : base ∉ l.map Prod.fst)
    (hp : (r, off) ∈ l) : (run (loads base l) c).regs r = c.mem (c.regs base + off) := by
  induction l generalizing c with
  | nil => cases hp
  | cons p l ih =>
    rw [map_cons, nodup_cons] at hl
    rw [map_cons, mem_cons, not_or] at hbase
    have hkeep : (c.step (.load p.1 base p.2)).regs base = c.regs base :=
      update_of_ne hbase.1 _ _
    rcases mem_cons.mp hp with rfl | hp
    · exact (regs_run_loads_of_notMem (c := c.step (.load r base off)) hl.1).trans
        (update_self _ _ _)
    · have hrest := ih (c := c.step (.load p.1 base p.2)) hl.2 hbase.2 hp
      rw [hkeep] at hrest
      exact hrest

end Cpu

end Xinu.Lib
