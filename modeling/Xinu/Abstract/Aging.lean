import Mathlib.Order.Interval.Finset.Defs
import Mathlib.Data.Int.Interval
import Xinu.Abstract.Effects
import Xinu.Lib.Aging

/-!
# `Xinu.Abstract.Aging`: the ready queues of a core

The three ready queues of a core with its two aging counters are an
instance of `Lib.Levels`, and `resched` is one call of that scheduler:
the promotions, the current process joining its queue, and the choice of
the next one. `due_resched` says what this means for a process that
waits: it is dispatched, or due one call earlier.

`Turn a c call b` splits a call on core `c` at its `resched`, if it has
one. Up to there every process that the call does not kill keeps its
place in its ready queue.
-/

namespace Xinu

open Function List

open Lib (Level Levels)

/-- The priority that a queue is for. -/
def levelPrio : Level → Int
  | .low => PRIORITY_LOW
  | .med => PRIORITY_MED
  | .high => PRIORITY_HIGH

theorem levelPrio_range (i : Level) : 0 ≤ levelPrio i ∧ levelPrio i < 3 := by
  cases i <;> decide

theorem exists_level {i : Int} (hi : 0 ≤ i ∧ i < 3) : ∃ l, levelPrio l = i := by
  obtain rfl | rfl | rfl : i = 0 ∨ i = 1 ∨ i = 2 := by omega
  · exact ⟨.low, rfl⟩
  · exact ⟨.med, rfl⟩
  · exact ⟨.high, rfl⟩

theorem levelPrio_injective : Function.Injective levelPrio := by
  intro i j h
  cases i <;> cases j <;> first | rfl | exact absurd h (by decide)

namespace AbsKernel

variable {a b m : AbsKernel} {c d : Core} {p : Int} {t : Nat}

/-- The ready queues of the core, with its counters. -/
def levels (a : AbsKernel) (c : Core) : Levels Int where
  queue i := a.queue (.ready c (levelPrio i))
  medTicks := (a.promoteMedium c).toNat
  lowTicks := (a.promoteLow c).toNat

/-- No more processes wait than there are slots. -/
theorem Wf.size_levels (hwf : a.Wf) (c : Core) : (a.levels c).size ≤ NPROC.toNat := by
  have hvalid : ∀ i, (Queue.ready c (levelPrio i)).Valid := fun i =>
    Queue.valid_ready c (levelPrio_range i)
  have hdisj : ∀ i j, i ≠ j → List.Disjoint ((a.levels c).queue i) ((a.levels c).queue j) := by
    intro i j hij x hxi hxj
    have heq := hwf.disjoint _ _ (hvalid i) (hvalid j) x hxi hxj
    exact hij (levelPrio_injective (Queue.ready.inj heq).2)
  -- The three queues share no process, so their members are different pids.
  have hnodup : ((a.levels c).queue .high ++ (a.levels c).queue .med ++
      (a.levels c).queue .low).Nodup := by
    refine ((hwf.nodup _ (hvalid _)).append (hwf.nodup _ (hvalid _)) (hdisj _ _ (by decide))).append
      (hwf.nodup _ (hvalid _)) ?_
    rw [disjoint_append_left]
    exact ⟨hdisj _ _ (by decide), hdisj _ _ (by decide)⟩
  have hsub : ((a.levels c).queue .high ++ (a.levels c).queue .med ++
      (a.levels c).queue .low).toFinset ⊆ Finset.Ico 0 NPROC := by
    intro x hx
    have hpid : IsPid x := by
      rcases mem_append.mp (mem_toFinset.mp hx) with hx | hx
      · rcases mem_append.mp hx with hx | hx
        · exact hwf.pids _ (hvalid .high) x hx
        · exact hwf.pids _ (hvalid .med) x hx
      · exact hwf.pids _ (hvalid .low) x hx
    exact Finset.mem_Ico.mpr hpid
  have hcard := Finset.card_le_card hsub
  rw [toFinset_card_of_nodup hnodup, Int.card_Ico, length_append,
    length_append] at hcard
  exact hcard

/-! ### `resched` on the levels -/

/-- Promotion within the ready queues of the core. -/
theorem queue_promote_levels {lo hi : Level} (hne : hi ≠ lo) :
    (fun i => (a.promote c (levelPrio lo) (levelPrio hi)).queue (.ready c (levelPrio i))) =
      Levels.promote (a.levels c).queue lo hi := by
  have hprio : ∀ i j, Queue.ready c (levelPrio i) = Queue.ready c (levelPrio j) ↔ i = j := by
    intro i j
    simp [levelPrio_injective.eq_iff]
  have hlo : (a.levels c).queue lo = a.queue (.ready c (levelPrio lo)) := rfl
  unfold AbsKernel.promote Levels.promote
  rw [hlo]
  cases hl : a.queue (.ready c (levelPrio lo)) with
  | nil => rfl
  | cons r l =>
    funext i
    simp only [levels, push, pop, hl, tail_cons, update_apply, hprio, hne, if_false]

/-- Counting down a counter that is not at zero. -/
theorem toNat_sub_one {x : Ulong} (hx : 1 ≤ x.toNat) : (x - 1).toNat = x.toNat - 1 := by
  rw [BitVec.toNat_sub_of_le (by rw [BitVec.le_def]; exact hx)]
  rfl

theorem le_zero_iff {x : Ulong} : x ≤ 0 ↔ x.toNat = 0 := by
  rw [BitVec.le_def]
  exact Nat.le_zero

theorem levels_ageLow (hlow : 1 ≤ (a.promoteLow c).toNat) :
    (a.ageLow c).levels c = (a.levels c).ageLow QUANTUM.toNat := by
  have hticks : (a.levels c).lowTicks = (a.promoteLow c).toNat := rfl
  have hprom := queue_promote_levels (a := { a with toVars := a.tickLow c }) (c := c)
    (show Level.med ≠ .low by decide)
  unfold AbsKernel.ageLow Levels.ageLow
  simp only [Vars.tickLow, update_self, le_zero_iff, toNat_sub_one hlow, hticks]
  by_cases hlast : (a.promoteLow c).toNat ≤ 1
  · rw [if_pos (by omega), if_pos hlast]
    simp only [levels, Vars.resetLow, promote_toVars, update_self, Levels.mk.injEq,
      and_true]
    exact hprom
  · rw [if_neg (by omega), if_neg hlast]
    simp only [levels, update_self, toNat_sub_one hlow]

theorem levels_age (hmed : 1 ≤ (a.promoteMedium c).toNat) (hlow : 1 ≤ (a.promoteLow c).toNat) :
    (a.age c).levels c = (a.levels c).age QUANTUM.toNat := by
  have hticks : (a.levels c).medTicks = (a.promoteMedium c).toNat := rfl
  unfold AbsKernel.age Levels.age
  simp only [le_zero_iff, hticks]
  by_cases hlast : (a.promoteMedium c).toNat ≤ 1
  · rw [if_pos (by simp only [Vars.tickMedium, update_self, toNat_sub_one hmed]; omega),
      if_pos hlast]
    -- `x` is the kernel after the promotion to the high queue.
    obtain ⟨x, hx⟩ : ∃ x, x = ({ a with toVars := a.tickMedium c } : AbsKernel).promote c
      PRIORITY_MED PRIORITY_HIGH := ⟨_, rfl⟩
    have hxlow : x.promoteLow = a.promoteLow := by
      rw [hx, promote_toVars]
      rfl
    have hxqueue : (x.levels c).queue = Levels.promote (a.levels c).queue .med .high := by
      rw [hx]
      exact queue_promote_levels (a := { a with toVars := a.tickMedium c })
        (show Level.high ≠ .med by decide)
    have hxlevels := levels_ageLow (a := x) (c := c) (by rw [hxlow]; exact hlow)
    rw [← hx]
    calc ({ x.ageLow c with toVars := (x.ageLow c).resetMedium c } : AbsKernel).levels c
        = { (x.ageLow c).levels c with medTicks := QUANTUM.toNat } := by
          simp only [levels, Vars.resetMedium, update_self]
      _ = { (x.levels c).ageLow QUANTUM.toNat with medTicks := QUANTUM.toNat } := by rw [hxlevels]
      _ = _ := by
          rw [show x.levels c = ⟨(x.levels c).queue, (x.levels c).medTicks, (x.levels c).lowTicks⟩
            from rfl, hxqueue, show (x.levels c).lowTicks = (a.levels c).lowTicks by
              simp only [levels, hxlow]]
          exact Levels.ageLow_medTicks
  · rw [if_neg (by simp only [Vars.tickMedium, update_self, toNat_sub_one hmed]; omega),
      if_neg hlast]
    simp only [levels, Vars.tickMedium, update_self, toNat_sub_one hmed]

/-- The current process joins the end of its queue. -/
theorem keeps_yield : Levels.Keeps p (a.levels d) ((a.yield c).levels d) := by
  by_cases hs : (a.proctab (a.currpid c)).state = .PRCURR
  · rw [yield_of_current hs]
    refine .of_append rfl rfl ?_
    intro i
    show ∃ l, update _ _ _ (Queue.ready d (levelPrio i)) = _
    rw [update_apply]
    split
    · rename_i hq
      exact ⟨[a.currpid c], by rw [← hq]; rfl⟩
    · exact ⟨[], (append_nil _).symm⟩
  · rw [yield_of_stopped hs]
    exact .of_append rfl rfl fun i => ⟨[], (append_nil _).symm⟩

theorem levelPrio_top : levelPrio (a.levels c).top = a.highestPrio c := by
  unfold Levels.top AbsKernel.highestPrio
  show levelPrio (if a.queue (.ready c PRIORITY_HIGH) ≠ [] then _ else
    if a.queue (.ready c PRIORITY_MED) ≠ [] then _ else _) = _
  split
  · rfl
  · split <;> rfl

/-- The process that is served becomes current. -/
theorem serve_of_dispatch (hb : a.dispatch c = some b) :
    (a.levels c).serve = some (b.currpid c, b.levels c) := by
  obtain ⟨r, l, hl, rfl⟩ := dispatch_eq_some hb
  have htop : (a.levels c).queue (a.levels c).top = r :: l := by
    show a.queue (.ready c (levelPrio (a.levels c).top)) = r :: l
    rw [levelPrio_top]
    exact hl
  unfold Levels.serve
  rw [htop]
  simp only [Option.some.injEq, Prod.mk.injEq]
  refine ⟨by simp only [run, Vars.run, update_self], ?_⟩
  -- Popping the ready queue of one priority is popping one level.
  have hqueue : update (a.levels c).queue (a.levels c).top l = fun i =>
      update a.queue (Queue.ready c (a.highestPrio c)) l (.ready c (levelPrio i)) := by
    funext i
    rw [← levelPrio_top]
    by_cases hi : i = (a.levels c).top
    · rw [hi, update_self, update_self]
    · have hne : Queue.ready c (levelPrio i) ≠ .ready c (levelPrio (a.levels c).top) := by
        simpa [levelPrio_injective.eq_iff] using hi
      rw [update_of_ne hi, update_of_ne hne]
      rfl
  rw [hqueue]
  simp only [levels, run, pop, hl, tail_cons]
  rfl

section Other
variable (hd : d ≠ c)
include hd

theorem ready_ne (i j : Int) : Queue.ready d i ≠ .ready c j := by
  intro h
  have hdc : (d : Int) = c := (Queue.ready.inj h).1
  exact hd (Fin.ext (by exact_mod_cast hdc))

/-- Aging leaves the counters of the other cores alone. -/
theorem counters_ageLow_of_ne : (a.ageLow c).promoteMedium = a.promoteMedium ∧
    (a.ageLow c).promoteLow d = a.promoteLow d := by
  unfold AbsKernel.ageLow
  simp only
  split
  · simp [Vars.resetLow, Vars.tickLow, update_of_ne hd]
  · simp [Vars.tickLow, update_of_ne hd]

theorem counters_age_of_ne : (a.age c).promoteMedium d = a.promoteMedium d ∧
    (a.age c).promoteLow d = a.promoteLow d := by
  have htick : (a.tickMedium c).promoteMedium d = a.promoteMedium d := update_of_ne hd _ _
  unfold AbsKernel.age
  simp only
  split
  · obtain ⟨hmed, hlow⟩ := counters_ageLow_of_ne hd
      (a := ({ a with toVars := a.tickMedium c } : AbsKernel).promote c PRIORITY_MED PRIORITY_HIGH)
    rw [promote_toVars] at hmed hlow
    refine ⟨(update_of_ne hd _ _).trans ((congrFun hmed d).trans htick), hlow⟩
  · exact ⟨htick, rfl⟩

theorem levels_age_of_ne : (a.age c).levels d = a.levels d := by
  have hqueue : ∀ i, (a.age c).queue (.ready d (levelPrio i)) = a.queue (.ready d (levelPrio i)) :=
    fun i => queue_age fun j => ready_ne hd _ j
  simp only [levels, hqueue, counters_age_of_ne hd]

/-- `resched` on another core. -/
theorem levels_resched_of_ne (hb : a.resched c = some b) : b.levels d = a.levels d := by
  rw [← levels_age_of_ne (a := a) hd]
  obtain ⟨r, l, -, rfl⟩ := @dispatch_eq_some ((a.age c).yield c) c b hb
  have hpop : ∀ x : AbsKernel, ∀ j r, ((x.pop (.ready c j)).run c r).levels d = x.levels d := by
    intro x j r
    simp only [levels, run, pop, update_of_ne (ready_ne hd _ _)]
    rfl
  rw [hpop]
  by_cases hs : ((a.age c).proctab ((a.age c).currpid c)).state = .PRCURR
  · rw [yield_of_current hs]
    simp only [levels, push, setState, Vars.setState, Vars.setPcb,
      update_of_ne (ready_ne hd _ _)]
  · rw [yield_of_stopped hs]

end Other

/-- The counters of core `c` run. -/
abbrev Ticking (a : AbsKernel) (c : Core) : Prop := (a.levels c).Ticking QUANTUM.toNat

/-- Process `p` is on a ready queue of core `c`, and is dispatched within
`t` calls of `resched`. -/
abbrev Due (a : AbsKernel) (c : Core) (p : Int) (t : Nat) : Prop :=
  (a.levels c).Due QUANTUM.toNat NPROC.toNat p t

theorem Ticking.resched (h : a.Ticking d) (hb : a.resched c = some b) : b.Ticking d := by
  by_cases hd : d = c
  · subst hd
    have hage : (a.age d).Ticking d := by
      rw [Ticking, levels_age h.med.1 h.low.1]
      exact h.age
    have hyield := keeps_yield (a := a.age d) (p := 0) (c := d) (d := d)
    refine Levels.Ticking.serve ⟨?_, ?_⟩ (serve_of_dispatch hb)
    · rw [hyield.medTicks]
      exact hage.med
    · rw [hyield.lowTicks]
      exact hage.low
  · rw [Ticking, levels_resched_of_ne hd hb]
    exact h

/-- `resched` dispatches a process that waits, or brings its turn one call
nearer. -/
theorem due_resched (hwf : a.Wf) (hticks : a.Ticking c) (hdue : a.Due c p (t + 1))
    (hb : a.resched c = some b) : b.currpid c = p ∨ b.Due c p t := by
  have hage := hdue.age hticks (hwf.size_levels c)
  rw [← levels_age hticks.med.1 hticks.low.1] at hage
  exact (hage.keeps keeps_yield).serve (serve_of_dispatch hb)

/-! ### A call and its `resched` -/

/-- `p` keeps its place: it is on the ready queues it was on, with no more
processes ahead of it. -/
def KeepsPlace (a m : AbsKernel) (p : Int) : Prop :=
  ∀ d i, p ∈ a.queue (.ready d i) →
    p ∈ m.queue (.ready d i) ∧ (m.queue (.ready d i)).idxOf p ≤ (a.queue (.ready d i)).idxOf p

theorem KeepsPlace.of_queue (h : ∀ d i, m.queue (.ready d i) = a.queue (.ready d i)) :
    a.KeepsPlace m p := by
  intro d i hp
  rw [h d i]
  exact ⟨hp, le_rfl⟩

theorem keepsPlace_wake {x : Int} {core : Ulong} : a.KeepsPlace (a.wake x core) p := by
  intro d i hp
  show p ∈ update a.queue _ _ (Queue.ready d i) ∧
    (update a.queue _ _ (Queue.ready d i)).idxOf p ≤ _
  rw [update_apply]
  split
  · rename_i hq
    rw [← hq, idxOf_append_of_mem hp]
    exact ⟨mem_append_left _ hp, le_rfl⟩
  · exact ⟨hp, le_rfl⟩

/-- Another process leaves. -/
theorem keepsPlace_erase {x : Int} (hx : x ≠ p) : a.KeepsPlace (a.erase x) p := by
  intro d i hp
  exact ⟨(mem_erase_of_ne hx.symm).mpr hp, Levels.idxOf_erase_le hx⟩

/-- A call that turns `a` into `b`, split at its `resched`, if it has
one. -/
structure Turn (a : AbsKernel) (c : Core) (call : Call) (b m : AbsKernel) : Prop where
  wf : m.Wf
  counters : m.promoteMedium = a.promoteMedium ∧ m.promoteLow = a.promoteLow
  place : ∀ p, a.Spares c p call → a.KeepsPlace m p
  ends : if a.reschedules c call then m.resched c = some b else b = m

/-- A call that ends in `ready`, and leaves the ready queues alone until
then. -/
theorem Turn.of_ready {call : Call} {e : AbsKernel} {x : Int} {resch : Bool} {core : Ulong}
    (hcount : e.promoteMedium = a.promoteMedium ∧ e.promoteLow = a.promoteLow)
    (hqueue : ∀ d i, e.queue (.ready d i) = a.queue (.ready d i)) (hwf : (e.wake x core).Wf)
    (hb : e.ready c x resch core = some b)
    (hresch : a.reschedules c call =
      (resch && decide ((c : Int) = ((e.makeReady x core).proctab x).coreAffinity))) :
    a.Turn c call b (e.wake x core) where
  wf := hwf
  counters := by
    obtain ⟨hmed, hlow⟩ := @Vars.makeReady_counters e.toVars x core
    exact ⟨hmed.trans hcount.1, hlow.trans hcount.2⟩
  place p _ := by
    intro d i hp
    -- The process that is woken goes to the end of its queue.
    have hkeep : e.KeepsPlace (e.wake x core) p := keepsPlace_wake
    have hkeep := hkeep d i
    rw [hqueue] at hkeep
    exact hkeep hp
  ends := by
    unfold AbsKernel.ready at hb
    rw [hresch]
    have haff : ((e.wake x core).proctab x).coreAffinity =
      ((e.makeReady x core).proctab x).coreAffinity := rfl
    simp only [haff] at hb
    simp only [Bool.and_eq_true, decide_eq_true_eq]
    split at hb
    · rename_i hcond
      rw [if_pos hcond]
      exact hb
    · rename_i hcond
      rw [if_neg hcond]
      exact (Option.some.inj hb).symm

section Turn
variable {call : Call} (h : a.Turn c call b m)
include h

theorem Turn.keeps (hspare : a.Spares c p call) (d : Core) :
    Levels.Keeps p (a.levels d) (m.levels d) where
  medTicks := by simp only [levels, h.counters]
  lowTicks := by simp only [levels, h.counters]
  place i hp := h.place p hspare d (levelPrio i) hp

theorem Turn.ticking (hticks : a.Ticking d) : m.Ticking d := by
  have hlevels : (m.levels d).medTicks = (a.levels d).medTicks ∧
      (m.levels d).lowTicks = (a.levels d).lowTicks := by
    simp only [levels, h.counters, and_self]
  exact ⟨hlevels.1 ▸ hticks.med, hlevels.2 ▸ hticks.low⟩

/-- A call keeps the counters running. -/
theorem Turn.ticking_end (hticks : a.Ticking d) : b.Ticking d := by
  have hends := h.ends
  split at hends
  · exact (h.ticking hticks).resched hends
  · rw [hends]
    exact h.ticking hticks

/-- A call that spares `p` dispatches it, or brings its turn nearer by the
`resched` it makes. -/
theorem Turn.due {c' : Core} (hspare : a.Spares c p call) (hticks : a.Ticking c')
    (hdue : a.Due c' p t) : b.currpid c' = p ∨
      ∃ t', b.Due c' p t' ∧ t' + (decide (c = c') && a.reschedules c call).toNat ≤ t := by
  have hm : m.Due c' p t := hdue.keeps (h.keeps hspare c')
  have hends := h.ends
  cases hres : a.reschedules c call with
  | false =>
    rw [hres] at hends
    simp only [Bool.false_eq_true, if_false] at hends
    rw [hends]
    exact Or.inr ⟨t, hm, by simp⟩
  | true =>
    rw [hres] at hends
    simp only [if_true] at hends
    by_cases hc : c = c'
    · subst hc
      have hmticks := h.ticking hticks
      obtain ⟨t, rfl⟩ := Nat.exists_eq_add_of_le' (hm.pos hmticks)
      rcases due_resched h.wf hmticks hm hends with hcur | hnext
      · exact Or.inl hcur
      · exact Or.inr ⟨t, hnext, by simp⟩
    · refine Or.inr ⟨t, ?_, by simp [hc]⟩
      rw [Due, levels_resched_of_ne (fun heq => hc heq.symm) hends]
      exact hm

end Turn

end AbsKernel

end Xinu
