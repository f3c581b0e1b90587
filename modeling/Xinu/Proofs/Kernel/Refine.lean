import Xinu.Abstract.Calls
import Xinu.Proofs.Queue.Refine

/-!
# `Xinu.Proofs.Kernel.Refine`: the kernel refines the abstract kernel

`Refines k a` says that the two kernels have the same variables, that the
queue table spells the lists, and that the queue ids stored in
`readylist` and in the process table are those of the right queues.

Each operation of the kernel then does what the abstract one does
(`Simulates`): it returns, with a refined state, where the abstract
operation has a result, and faults where it has none. The conditions are
those of the queue table: a process that is enqueued is live and on no
queue.
-/

namespace Xinu

open Function List

open Queuetab (qid)

/-! ### The places of the queues -/

namespace Queue

theorem ix_ofIx (n : Nat) : (ofIx n).ix = n := by
  unfold ofIx
  split
  · simp [ix]
  · simp only [ix, Int.toNat_natCast]
    omega

theorem ix_lt {q : Queue} (h : q.Valid) : q.ix < Queuetab.capacity := by
  cases q with
  | ready core prio =>
    obtain ⟨⟨h1, h2⟩, h3, h4⟩ := h
    simp only [ix, Queuetab.capacity, NCORES] at h2 ⊢
    omega
  | senders pid =>
    obtain ⟨h1, h2⟩ := h
    simp only [ix, Queuetab.capacity, NPROC] at h2 ⊢
    omega

theorem ofIx_ix {q : Queue} (h : q.Valid) : ofIx q.ix = q := by
  cases q with
  | ready core prio =>
    obtain ⟨⟨h1, h2⟩, h3, h4⟩ := h
    have hix : ix (ready core prio) = 50 + (3 * core.toNat + prio.toNat) := Nat.add_assoc ..
    rw [ofIx, hix, if_neg (by omega), Nat.add_sub_cancel_left]
    congr 1 <;> omega
  | senders pid =>
    obtain ⟨h1, h2⟩ := h
    simp only [NPROC] at h2
    rw [ofIx, ix, if_pos (by omega), Int.toNat_of_nonneg h1]

theorem valid_ofIx {n : Nat} (h : n < Queuetab.capacity) : (ofIx n).Valid := by
  simp only [Queuetab.capacity] at h
  unfold ofIx
  split
  · simp only [Valid, IsPid, NPROC]
    omega
  · simp only [Valid, IsCore, NCORES]
    omega

end Queue

namespace AbsKernel

/-- The lists in the order of the queue table. -/
def fifo (a : AbsKernel) : Queuetab.Fifo := ⟨Queuetab.capacity, fun n => a.queue (.ofIx n)⟩

variable {a : AbsKernel} {q : Queue} {p : Int}

theorem contents_ix (hq : q.Valid) : a.fifo.contents q.ix = a.queue q := by
  simp only [fifo, Queue.ofIx_ix hq]

theorem update_fifo (hq : q.Valid) (l : List Int) :
    (fun n => update a.queue q l (.ofIx n)) =
      update (fun n => a.queue (.ofIx n)) q.ix l := by
  funext n
  by_cases hn : n = q.ix
  · subst hn
    rw [Queue.ofIx_ix hq, update_self, update_self]
  · have hne : Queue.ofIx n ≠ q := fun h => hn (h ▸ (Queue.ix_ofIx n).symm)
    rw [update_of_ne hne, update_of_ne hn]

theorem fifo_push (hq : q.Valid) : (a.push q p).fifo = a.fifo.enqueue q.ix p := by
  simp only [fifo, push, Queuetab.Fifo.enqueue, update_fifo hq, Queue.ofIx_ix hq]

theorem fifo_pop (hq : q.Valid) : (a.pop q).fifo = a.fifo.dequeue q.ix := by
  simp only [fifo, pop, Queuetab.Fifo.dequeue, update_fifo hq, Queue.ofIx_ix hq]

theorem queued_fifo : a.fifo.Queued p ↔ a.Queued p := by
  constructor
  · rintro ⟨n, hn, hp⟩
    exact ⟨.ofIx n, Queue.valid_ofIx hn, hp⟩
  · rintro ⟨q, hq, hp⟩
    exact ⟨q.ix, Queue.ix_lt hq, (contents_ix hq).symm ▸ hp⟩

theorem Wf.of_represents {t : Queuetab} (h : t.Represents a.fifo) : a.Wf where
  pids q hq p hp := h.pids q.ix (Queue.ix_lt hq) p ((contents_ix hq).symm ▸ hp)
  nodup q hq := contents_ix (a := a) hq ▸ h.nodup q.ix (Queue.ix_lt hq)
  disjoint q q' hq hq' p hp hp' := by
    have hix := h.disjoint q.ix (Queue.ix_lt hq) q'.ix (Queue.ix_lt hq') p
      ((contents_ix hq).symm ▸ hp) ((contents_ix hq').symm ▸ hp')
    rw [← Queue.ofIx_ix hq, ← Queue.ofIx_ix hq', hix]

end AbsKernel

/-- The kernel's state is the abstract one, with the lists spelled by the
queue table. -/
structure Refines (k : Kernel) (a : AbsKernel) : Prop where
  vars : k.toVars = a.toVars
  table : k.queues.Represents a.fifo
  readyIds : ∀ c i, (Queue.ready c i).Valid → k.readylist c i = qid (Queue.ready c i).ix
  msgIds : ∀ p, IsPid p → (a.proctab p).msgqueue = qid (Queue.senders p).ix

/-- A computation returns a state that refines the abstract result, and
faults where there is none. -/
def Simulates (x : Except Fault Kernel) : Option AbsKernel → Prop
  | some a => ∃ k, x = .ok k ∧ Refines k a
  | none => ∃ e, x = .error e

/-- Dropping the result of a call that ends in `x`. -/
theorem map_snd_return {β : Type} (r : β) (x : Except Fault Kernel) :
    (do let k ← x; return (r, k) : Except Fault (β × Kernel)).map Prod.snd = x := by
  cases x <;> rfl

namespace Refines

variable {k : Kernel} {a : AbsKernel} {q : Queue} {p : Int} (hr : Refines k a)
include hr

theorem wf : a.Wf := .of_represents hr.table

theorem proctab : k.proctab = a.proctab := congrArg Vars.proctab hr.vars

theorem currpid : k.currpid = a.currpid := congrArg Vars.currpid hr.vars

theorem states : k.states = a.states := congrArg Vars.states hr.vars

/-- Variables may change on both sides alike, as long as no process gets
another message queue. -/
theorem withVars {v : Vars}
    (hmsg : ∀ p, IsPid p → (v.proctab p).msgqueue = (a.proctab p).msgqueue) :
    Refines { k with toVars := v } { a with toVars := v } :=
  ⟨rfl, hr.table, hr.readyIds, fun p hp => (hmsg p hp).trans (hr.msgIds p hp)⟩

/-- The same, for one change of the variables. -/
theorem mapVars (g : Vars → Vars)
    (hg : ∀ p, IsPid p → ((g a.toVars).proctab p).msgqueue = (a.proctab p).msgqueue) :
    Refines { k with toVars := g k.toVars } { a with toVars := g a.toVars } := by
  rw [hr.vars]
  exact hr.withVars hg

theorem setPcb {x : Pcb} (hx : x.msgqueue = (a.proctab p).msgqueue) :
    Refines (k.setPcb p x) (a.setPcb p x) := by
  unfold Kernel.setPcb AbsKernel.setPcb
  rw [hr.vars]
  refine hr.withVars fun p' _ => ?_
  by_cases hp : p' = p
  · subst hp
    simpa [Vars.setPcb] using hx
  · simp [Vars.setPcb, hp]

theorem setState {s : PrState} : Refines (k.setState p s) (a.setState p s) := by
  have h := hr.setPcb (p := p) (x := { a.proctab p with state := s }) rfl
  unfold Kernel.setPcb at h
  unfold Kernel.setState Vars.setState
  rwa [hr.proctab]

/-! ### Queue operations -/

theorem enqueue (hq : q.Valid) (hp : isbadpid a.states p = false)
    (hfree : ¬ a.Queued p) : ∃ k', k.enqueue p (qid q.ix) = .ok k' ∧ Refines k' (a.push q p) := by
  obtain ⟨t', hrun, ht'⟩ := Queuetab.enqueue_spec (k := q.ix) hr.table (Queue.ix_lt hq) hp
    (fun h => hfree (AbsKernel.queued_fifo.mp h))
  refine ⟨{ k with queues := t' }, ?_, hr.vars, ?_, hr.readyIds, hr.msgIds⟩
  · rw [Kernel.enqueue, hr.states, hrun]
    rfl
  · rwa [AbsKernel.fifo_push hq]

theorem dequeue (hq : q.Valid) :
    ∃ k', k.dequeue (qid q.ix) = .ok ((a.queue q).headD EMPTY, k') ∧ Refines k' (a.pop q) := by
  obtain ⟨t', hrun, ht'⟩ := Queuetab.dequeue_spec (k := q.ix) hr.table (Queue.ix_lt hq)
  refine ⟨{ k with queues := t' }, ?_, hr.vars, ?_, hr.readyIds, hr.msgIds⟩
  · rw [Kernel.dequeue, hrun, Queuetab.Fifo.first, AbsKernel.contents_ix hq]
    rfl
  · rwa [AbsKernel.fifo_pop hq]

theorem remove (hp : isbadpid a.states p = false) (hqueued : a.Queued p) :
    ∃ r t', k.queues.remove k.states p = .ok (r, t') ∧
      Refines { k with queues := t' } (a.erase p) := by
  obtain ⟨t', hrun, ht'⟩ := Queuetab.remove_spec hr.table hp (AbsKernel.queued_fifo.mpr hqueued)
  exact ⟨p, t', hr.states.symm ▸ hrun, hr.vars, ht', hr.readyIds, hr.msgIds⟩

theorem nonempty (hq : q.Valid) :
    k.queues.nonempty (qid q.ix) = .ok (!(a.queue q).isEmpty) := by
  rw [Queuetab.nonempty_spec hr.table (Queue.ix_lt hq), AbsKernel.contents_ix hq]

theorem readyQueue {c i : Int} (hq : (Queue.ready c i).Valid) :
    k.readyQueue c i = .ok (qid (Queue.ready c i).ix) := by
  have hin : (0 ≤ c ∧ c < NCORES) ∧ 0 ≤ i ∧ i < 3 := hq
  rw [Kernel.readyQueue, if_pos hin, hr.readyIds c i hq]

theorem pcb (hp : IsPid p) : k.pcb p = .ok (a.proctab p) := by
  have hin : 0 ≤ p ∧ p < NPROC := hp
  rw [Vars.pcb, if_pos hin, hr.proctab]

/-! ### The scheduler -/

section Sched
variable {c : Core}

theorem promote (c : Core) (lo hi : Int) (hlo : 0 ≤ lo ∧ lo < 3) (hhi : 0 ≤ hi ∧ hi < 3)
    (hlive : ∀ p ∈ a.queue (.ready c lo), a.states p ≠ .PRFREE) :
    ∃ k', k.promote c lo hi = .ok k' ∧ Refines k' (a.promote c lo hi) := by
  have hq := Queue.valid_ready c hlo
  have hq' := Queue.valid_ready c hhi
  have hstart : k.promote c lo hi = (if !(a.queue (.ready c lo)).isEmpty then do
      let x ← k.dequeue (qid (Queue.ready c lo).ix)
      x.2.enqueue x.1 (qid (Queue.ready c hi).ix)
    else .ok k) := by
    simp only [Kernel.promote, hr.readyQueue hq, hr.readyQueue hq', ok_bind, hr.nonempty hq]
    rfl
  rw [hstart]
  cases hl : a.queue (.ready c lo) with
  | nil => exact ⟨k, by simp, by simpa only [AbsKernel.promote, hl] using hr⟩
  | cons p l =>
    have hmem : p ∈ a.queue (.ready c lo) := hl ▸ mem_cons_self
    obtain ⟨k1, hdeq, hr1⟩ := hr.dequeue hq
    obtain ⟨k2, henq, hr2⟩ := hr1.enqueue hq' (p := p)
      (isbadpid_eq_false.mpr ⟨hr.wf.pids _ hq p hmem, hlive p hmem⟩)
      (hr.wf.not_queued_pop hq hl)
    rw [hl, headD_cons] at hdeq
    refine ⟨k2, ?_, by simpa only [AbsKernel.promote, hl] using hr2⟩
    simp only [isEmpty_cons, Bool.not_false, if_true, hdeq, ok_bind, henq]

theorem ageLow (hlive : ∀ p, a.OnReady c p → a.states p ≠ .PRFREE) :
    ∃ k', k.ageLow c = .ok k' ∧ Refines k' (a.ageLow c) := by
  have htick := hr.mapVars (fun v => v.tickLow c) fun _ _ => rfl
  have hlow : (k.tickLow c).promoteLow = (a.tickLow c).promoteLow := by rw [hr.vars]
  unfold Kernel.ageLow AbsKernel.ageLow
  simp only [hlow]
  by_cases hz : (a.tickLow c).promoteLow c ≤ 0
  · obtain ⟨k1, hrun, hr1⟩ := htick.promote c PRIORITY_LOW PRIORITY_MED
      (by decide) (by decide) fun p hp => hlive p ⟨PRIORITY_LOW, by decide, hp⟩
    refine ⟨{ k1 with toVars := k1.resetLow c }, ?_, ?_⟩
    · simp only [if_pos hz, hrun, ok_bind]
      rfl
    · simp only [if_pos hz]
      exact hr1.mapVars (fun v => v.resetLow c) fun _ _ => rfl
  · exact ⟨_, by rw [if_neg hz]; rfl, by rwa [if_neg hz]⟩

theorem age (hlive : ∀ p, a.OnReady c p → a.states p ≠ .PRFREE) :
    ∃ k', k.age c = .ok k' ∧ Refines k' (a.age c) := by
  have htick := hr.mapVars (fun v => v.tickMedium c) fun _ _ => rfl
  have hmed : (k.tickMedium c).promoteMedium = (a.tickMedium c).promoteMedium := by rw [hr.vars]
  unfold Kernel.age AbsKernel.age
  simp only [hmed]
  by_cases hz : (a.tickMedium c).promoteMedium c ≤ 0
  · obtain ⟨k1, hrun1, hr1⟩ := htick.promote c PRIORITY_MED PRIORITY_HIGH
      (by decide) (by decide) fun p hp => hlive p ⟨PRIORITY_MED, by decide, hp⟩
    obtain ⟨k2, hrun2, hr2⟩ := hr1.ageLow (c := c) fun p hp => by
      rw [Vars.states, AbsKernel.promote_toVars]
      exact hlive p ((AbsKernel.onReady_promote (a := { a with toVars := a.tickMedium c })
        (by decide) (by decide)).mp hp)
    refine ⟨{ k2 with toVars := k2.resetMedium c }, ?_, ?_⟩
    · simp only [if_pos hz, hrun1, hrun2, ok_bind]
      rfl
    · simp only [if_pos hz]
      exact hr2.mapVars (fun v => v.resetMedium c) fun _ _ => rfl
  · exact ⟨_, by rw [if_neg hz]; rfl, by rwa [if_neg hz]⟩

theorem yield (hpid : IsPid (a.currpid c))
    (hcur : (a.proctab (a.currpid c)).state = .PRCURR → ¬ a.Queued (a.currpid c) ∧
      0 ≤ (a.proctab (a.currpid c)).priority ∧ (a.proctab (a.currpid c)).priority < 3) :
    ∃ k', k.yield c = .ok k' ∧ Refines k' (a.yield c) := by
  unfold Kernel.yield AbsKernel.yield
  simp only [hr.currpid, hr.pcb hpid, ok_bind]
  by_cases hst : (a.proctab (a.currpid c)).state = .PRCURR
  · obtain ⟨hfree, hprio⟩ := hcur hst
    have hq := Queue.valid_ready c hprio
    obtain ⟨k1, hrun, hr1⟩ := (hr.setState (p := a.currpid c) (s := .PRREADY)).enqueue hq
      (p := a.currpid c)
      (isbadpid_eq_false.mpr
        ⟨hpid, by simp [AbsKernel.setState, Vars.setState, Vars.states, Vars.setPcb]⟩)
      hfree
    refine ⟨k1, ?_, by rwa [if_pos hst]⟩
    simp only [if_pos hst, (hr.setState (p := a.currpid c) (s := .PRREADY)).readyQueue hq, ok_bind,
      hrun]
  · exact ⟨k, by rw [if_neg hst]; rfl, by rwa [if_neg hst]⟩

theorem highestPrio : k.highestPrio c = .ok (a.highestPrio c) := by
  have hhigh := Queue.valid_ready c (i := PRIORITY_HIGH) (by decide)
  have hmed := Queue.valid_ready c (i := PRIORITY_MED) (by decide)
  simp only [Kernel.highestPrio, hr.readyQueue hhigh, hr.readyQueue hmed, ok_bind,
    hr.nonempty hhigh, hr.nonempty hmed, AbsKernel.highestPrio]
  rcases a.queue (.ready c PRIORITY_HIGH) with _ | ⟨p, l⟩ <;>
    rcases a.queue (.ready c PRIORITY_MED) with _ | ⟨p', l'⟩ <;> rfl

/-- Dispatching with no ready process indexes `proctab` with `EMPTY`. -/
theorem dispatch : Simulates (k.dispatch c) (a.dispatch c) := by
  have hq := Queue.valid_ready c (AbsKernel.highestPrio_range (a := a) (c := c))
  obtain ⟨k1, hdeq, hr1⟩ := hr.dequeue hq
  have hstart : k.dispatch c = (do
      let pid := (a.queue (.ready c (a.highestPrio c))).headD EMPTY
      let _ ← k1.pcb pid
      return { k1 with toVars := k1.run c pid }) := by
    simp only [Kernel.dispatch, hr.highestPrio, hr.readyQueue hq, hdeq, ok_bind]
  rw [hstart]
  cases hl : a.queue (.ready c (a.highestPrio c)) with
  | nil =>
    simp only [AbsKernel.dispatch, hl]
    exact ⟨.outOfBounds, rfl⟩
  | cons p l =>
    have hp : IsPid p := hr.wf.pids _ hq p (hl ▸ mem_cons_self)
    simp only [AbsKernel.dispatch, hl, headD_cons, hr1.pcb hp, ok_bind]
    refine ⟨_, rfl, hr1.mapVars (fun v => v.run c p) fun x hx => ?_⟩
    by_cases hxp : x = p
    · subst hxp
      simp [Vars.run, Vars.setState, Vars.setPcb]
    · simp [Vars.run, Vars.setState, Vars.setPcb, hxp]

theorem resched (hpre : a.CanResched c) :
    Simulates (k.resched c) (a.resched c) := by
  obtain ⟨k1, hrun1, hr1⟩ := hr.age hpre.live
  obtain ⟨k2, hrun2, hr2⟩ := hr1.yield (c := c) (by rw [AbsKernel.age_currpid]; exact hpre.pid) (by
    rw [AbsKernel.age_proctab, AbsKernel.age_currpid]
    exact fun h => ⟨fun hq => (hpre.current h).1 (AbsKernel.queued_age.mp hq), (hpre.current h).2⟩)
  simp only [Kernel.resched, hrun1, hrun2, ok_bind]
  exact hr2.dispatch

theorem wake {core : Ulong} (hpre : a.CanWake p core) :
    ∃ k', k.wake p core = .ok k' ∧ Refines k' (a.wake p core) := by
  obtain ⟨d, hself, -⟩ := Vars.makeReady_self a.toVars p core
  have hr1 := hr.mapVars (fun v => v.makeReady p core) fun x _ => by
    by_cases hx : x = p
    · subst hx
      rw [hself]
    · rw [Vars.makeReady_of_ne hx]
  have hstate : (a.makeReady p core).states p ≠ .PRFREE := by
    rw [Vars.states, hself]
    simp
  obtain ⟨k', hrun, hr'⟩ := hr1.enqueue hpre.queue (p := p)
    (isbadpid_eq_false.mpr ⟨(isbadpid_eq_false.mp hpre.live).1, hstate⟩) hpre.free
  refine ⟨k', ?_, hr'⟩
  have hproc : (k.makeReady p core).proctab = (a.makeReady p core).proctab := by rw [hr.vars]
  simp only [Kernel.wake, hproc, hr1.readyQueue hpre.queue, ok_bind, hrun]

/-- `ready` of a live process that is on no queue. -/
theorem ready {core : Ulong} (c : Core) (resch : Bool) (hpre : a.CanWake p core)
    (hresched : resch = true → (c : Int) = ((a.wake p core).proctab p).coreAffinity →
      (a.wake p core).CanResched c) :
    Simulates ((k.ready c p resch core).map Prod.snd) (a.ready c p resch core) := by
  obtain ⟨k', hrun, hr'⟩ := hr.wake hpre
  simp only [Kernel.ready, hr.states, hpre.live, Bool.false_eq_true, if_false, hrun, ok_bind,
    hr'.proctab, AbsKernel.ready]
  by_cases hc : resch = true ∧ (c : Int) = ((a.wake p core).proctab p).coreAffinity
  · simp only [if_pos hc]
    rw [map_snd_return]
    exact hr'.resched (hresched hc.1 hc.2)
  · simp only [if_neg hc]
    exact ⟨k', rfl, hr'⟩

end Sched

end Refines

end Xinu
