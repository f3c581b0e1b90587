import Mathlib.Order.Basic

/-!
# `Xinu.Lib.Pushback`: programs that read with one item of push-back

A `Prog` reads a stream through two calls: `getch` asks for the next item
and gets `none` at the end, and `ungetch` gives the last item back. Loops
are unrolled, and a loop that is cut off ends in `stuck`.

A `Stream` answers the calls out of some state (`run`). `read` is the
reference: it runs the program on a list, and refuses to go on when an
item is given back that was not read last. A stream that delivers the
list does not have to know more than that: wherever `read` gets through,
`run` on the stream gives the same result (`Delivers.run_eq`). So one
result about `read` covers all streams with one item of push-back.
-/

namespace Xinu.Lib

/-- A program that reads items of type `β` and returns an `α`. -/
inductive Prog (β α : Type) where
  | ret (a : α)
  | getch (k : Option β → Prog β α)
  | ungetch (p : Prog β α)
  | stuck

/-- What the last call was. -/
inductive Last (β : Type) where
  | fresh
  | char (c : β)
  | eof
  | put

/-- The last call gave an item back. -/
def Last.isPut {β : Type} : Last β → Bool
  | put => true
  | fresh | char _ | eof => false

namespace Prog

variable {β α γ σ : Type}

/-- One program after the other. -/
def bind : Prog β α → (α → Prog β γ) → Prog β γ
  | ret a, f => f a
  | getch k, f => getch fun c => (k c).bind f
  | ungetch p, f => ungetch (p.bind f)
  | stuck, _ => stuck

instance : Monad (Prog β) where
  pure := ret
  bind := bind

/-! ### Running on a list -/

/-- The run on a list. An item is only given back right after it was
read. -/
def read : Prog β α → Last β → List β → Option (α × Last β × List β)
  | ret a, l, x => some (a, l, x)
  | getch k, _, [] => (k none).read .eof []
  | getch k, _, c :: x => (k (some c)).read (.char c) x
  | ungetch p, .char c, x => p.read .put (c :: x)
  | ungetch _, _, _ => none
  | stuck, _, _ => none

theorem read_bind (p : Prog β α) (f : α → Prog β γ) (l : Last β) (x : List β) :
    (p >>= f).read l x = (p.read l x).bind fun r => (f r.1).read r.2.1 r.2.2 := by
  show (p.bind f).read l x = _
  induction p generalizing l x with
  | ret a => rfl
  | getch k ih =>
    cases x with
    | nil => exact ih none .eof []
    | cons c x => exact ih (some c) (.char c) x
  | ungetch p ih =>
    cases l with
    | char c => exact ih .put (c :: x)
    | fresh | eof | put => rfl
  | stuck => rfl

/-- What was read first is read on. -/
theorem read_bind_of_eq {p : Prog β α} {f : α → Prog β γ} {l l' : Last β} {x x' : List β} {a : α}
    (h : p.read l x = some (a, l', x')) : (p >>= f).read l x = (f a).read l' x' := by
  rw [read_bind, h]
  rfl

end Prog

/-! ### Running on a stream -/

/-- A source of items, with a way to give the last one back. -/
structure Stream (β σ : Type) where
  getch : σ → Option β × σ
  ungetch : σ → Option σ

namespace Prog

variable {β α γ σ : Type}

/-- The run on a stream. -/
def run (S : Stream β σ) : Prog β α → σ → Option (α × σ)
  | ret a, s => some (a, s)
  | getch k, s => (k (S.getch s).1).run S (S.getch s).2
  | ungetch p, s => (S.ungetch s).bind (p.run S)
  | stuck, _ => none

end Prog

/-- The stream delivers lists: in the states of `R l x` it has `x` left
to deliver, and `l` was the last call. -/
structure Delivers {β σ : Type} (S : Stream β σ) (R : Last β → List β → σ → Prop) : Prop where
  cons : ∀ l c x s, R l (c :: x) s → (S.getch s).1 = some c ∧ R (.char c) x (S.getch s).2
  nil : ∀ l s, R l [] s → (S.getch s).1 = none ∧ R .eof [] (S.getch s).2
  put : ∀ c x s, R (.char c) x s → ∃ s', S.ungetch s = some s' ∧ R .put (c :: x) s'

/-- Where the run on the list gets through, the run on the stream gives
the same result. -/
theorem Delivers.run_eq {β α σ : Type} {S : Stream β σ} {R : Last β → List β → σ → Prop}
    (h : Delivers S R) (p : Prog β α) {l l' : Last β} {x x' : List β} {s : σ} {a : α}
    (hs : R l x s) (hp : p.read l x = some (a, l', x')) :
    ∃ s', p.run S s = some (a, s') ∧ R l' x' s' := by
  -- The stream is asked for a character exactly when the list is.
  induction p generalizing l x s with
  | ret b =>
    obtain ⟨rfl, rfl, rfl⟩ : b = a ∧ l = l' ∧ x = x' := by simpa [Prog.read] using hp
    exact ⟨s, rfl, hs⟩
  | getch k ih =>
    rw [Prog.run]
    cases x with
    | nil =>
      obtain ⟨hget, hs'⟩ := h.nil l s hs
      rw [hget]
      exact ih none hs' hp
    | cons c x =>
      obtain ⟨hget, hs'⟩ := h.cons l c x s hs
      rw [hget]
      exact ih (some c) hs' hp
  | ungetch p ih =>
    cases l with
    | char c =>
      obtain ⟨s', hput, hs'⟩ := h.put c x s hs
      rw [Prog.run, hput]
      exact ih hs' hp
    -- Only a character that was just read can be given back.
    | fresh | eof | put => cases hp
  | stuck => cases hp

end Xinu.Lib
