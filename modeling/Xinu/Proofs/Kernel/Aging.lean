import Xinu.Proofs.Kernel.Mailbox

/-!
# `Xinu.Proofs.Kernel.Aging`: no process waits forever

With aging, a process on a ready queue of a core is dispatched within
`(QUANTUM * QUANTUM + QUANTUM + 1) * NPROC` calls of `resched` on that
core. `dispatched_of_reachable` proves this for every run, whatever the
other processes do between these calls, as long as `kill` is not used on
a process that is blocked in `send`.

Such a `kill` leaves the process linked into a message queue. When its
slot is used again and its new process is made ready, the next process
that blocks in `send` on that message queue is linked into the ready
queue instead, and cuts off those behind. `starved_kill` is a run in
which this happens and a process is never dispatched.
-/

namespace Xinu

open Function

open AbsKernel (SchedInv)
open Queuetab (qid)

namespace Sys

/-- `kill` is not used on a process that is blocked in `send`. -/
def SparesSenders (s : Sys) (cpuid : Core) : Call → Prop
  | .kill pid => s.kernel.killRefuses cpuid pid = false → s.kernel.states pid ≠ .PRSEND
  | _ => True

instance (s : Sys) (cpuid : Core) (call : Call) : Decidable (s.SparesSenders cpuid call) := by
  rcases call <;> dsimp only [SparesSenders] <;> infer_instance

/-- The call, in a state of a run, is one that calls `resched` on core
`c`. -/
def reschedulesOn (c : Core) (x : Sys × Core × Call) : Bool :=
  decide (x.2.1 = c) && x.1.kernel.reschedules x.2.1 x.2.2

/-- What aging needs to know of a state. -/
structure Aged (s : Sys) (a : AbsKernel) : Prop where
  refines : Refines s.kernel a
  sched : a.SchedInv ∅
  ticking : ∀ c, a.Ticking c

variable {s s' : Sys} {a : AbsKernel} {c : Core} {p : Int}

/-- One call keeps this, and takes its turn at the ready queues. -/
theorem Aged.exec {call : Call} (h : Aged s a) (hperm : s.Permitted c call)
    (hspare : s.SparesSenders c call) (hrun : s.exec c call = .ok s') :
    ∃ b m, Aged s' b ∧ a.Turn c call b m := by
  obtain ⟨b, hr', hinv', -, m, hturn⟩ := exec_effect h.refines h.sched hperm
    (fun pid hpid => by subst hpid; exact hspare) hrun
  exact ⟨b, m, ⟨hr', hinv', fun d => hturn.ticking_end (h.ticking d)⟩, hturn⟩

theorem aged_of_reachable (h : Reachable SparesSenders s) : ∃ a, Aged s a := by
  refine Lib.Reaches.induction (P := fun s => ∃ a, Aged s a) h ?_ ?_
  · intro s hboot
    obtain ⟨⟨_, _, _, _, hinit⟩, -⟩ := hboot
    obtain ⟨a, hr, ha⟩ := Kernel.sysinit_refines hinit
    refine ⟨a, hr, ha.schedInv, ?_⟩
    intro c
    obtain ⟨hmed, hlow⟩ := ha.counters c
    have hmed' : (a.levels c).medTicks = 3 := congrArg BitVec.toNat hmed
    have hlow' : (a.levels c).lowTicks = 3 := congrArg BitVec.toNat hlow
    refine ⟨?_, ?_⟩
    · rw [hmed']
      decide
    · rw [hlow']
      decide
  · intro s act s' hs hguard hrun
    obtain ⟨a, ha⟩ := hs
    obtain ⟨b, m, hb, -⟩ := ha.exec hguard.1 hguard.2 hrun
    exact ⟨b, hb⟩

end Sys

/-- How many calls of `resched` a process may have to wait. -/
def waitBound : Nat := (QUANTUM.toNat * QUANTUM.toNat + QUANTUM.toNat + 1) * NPROC.toNat

/-- A run whose calls satisfy `ok`. -/
def Sys.Run (ok : Sys → Core → Call → Prop) : Sys → List (Sys × Core × Call) → Sys → Prop :=
  Lib.Run (Sys.Allowed ok) fun s a => s.exec a.1 a.2

/-- The call kills neither `p` nor a process that is blocked in `send`. -/
def Sys.SparesBoth (p : Int) (s : Sys) (cpuid : Core) (call : Call) : Prop :=
  s.SparesSenders cpuid call ∧ s.kernel.Spares cpuid p call

/-- A process on a ready queue of core `c` is dispatched within
`waitBound` calls of `resched` on that core, none of which faults,
whatever happens between them, provided that it is not killed and that no
process blocked in `send` is. -/
theorem dispatched_of_reachable {s : Sys} (h : Sys.Reachable Sys.SparesSenders s) {c : Core}
    {i p : Int} (hi : 0 ≤ i ∧ i < 3) (hp : p ∈ s.kernel.readyMembers c i) :
    (∃ k, s.kernel.resched c = .ok k) ∧
    ∀ l s', Sys.Run (Sys.SparesBoth p) s l s' → waitBound ≤ l.countP (Sys.reschedulesOn c) →
      ∃ l1 s1, l1 <+: l ∧ Sys.Run (Sys.SparesBoth p) s l1 s1 ∧ s1.kernel.currpid c = p ∧
        l1.countP (Sys.reschedulesOn c) ≤ waitBound := by
  obtain ⟨a, ha⟩ := Sys.aged_of_reachable h
  refine ⟨?_, ?_⟩
  · obtain ⟨b, hb⟩ := ha.sched.resched_isSome (c := c) (Set.notMem_empty c)
    have hsim := ha.refines.resched (ha.sched.canResched ha.refines.wf c)
    rw [hb] at hsim
    obtain ⟨k, hk, -⟩ := hsim
    exact ⟨k, hk⟩
  · intro l s' hrun hcount
    -- `p` waits in a state for at most `t` calls of `resched`.
    refine Lib.Run.bounded (fun s t => ∃ a, Sys.Aged s a ∧ a.Due c p t) ?_ ?_ hrun ?_ hcount
    · rintro s t ⟨a, ha, hdue⟩
      exact hdue.pos (ha.ticking c)
    · rintro s ⟨d, call⟩ s' t ⟨a, ha, hdue⟩ ⟨hperm, hsenders, hspare⟩ hexec
      obtain ⟨b, m, hb, hturn⟩ := ha.exec hperm hsenders hexec
      rw [ha.refines.vars] at hspare
      rcases hturn.due hspare (ha.ticking c) hdue with hcur | ⟨t', hdue', hle⟩
      · refine Or.inl ?_
        rw [hb.refines.currpid]
        exact hcur
      · refine Or.inr ⟨t', ⟨b, hb, hdue'⟩, ?_⟩
        rw [Sys.reschedulesOn, ha.refines.vars]
        exact hle
    · obtain ⟨level, rfl⟩ := exists_level hi
      rw [ha.refines.readyMembers hi] at hp
      exact ⟨a, ha, .of_mem (ha.ticking c) (ha.refines.wf.size_levels c) hp⟩

/-- A process of low priority that is made ready while one of high
priority runs. -/
theorem dispatched_lowPriority : ∃ s : Sys, s.kernel.readyMembers 0 0 = [0, 5] ∧
    (∃ k, s.kernel.resched 0 = .ok k) ∧
    ∀ l s', Sys.Run (Sys.SparesBoth 5) s l s' → waitBound ≤ l.countP (Sys.reschedulesOn 0) →
      ∃ l1 s1, l1 <+: l ∧ Sys.Run (Sys.SparesBoth 5) s l1 s1 ∧ s1.kernel.currpid 0 = 5 ∧
        l1.countP (Sys.reschedulesOn 0) ≤ waitBound := by
  obtain ⟨s, hs, htest⟩ := Sys.exists_reachable Sys.SparesSenders 0x10000 0x90000 0x8000
    (fun _ => 0) [(0, .create highPriority), (0, .ready 4 true 0),
      (0, .create { highPriority with priority := 0 }), (0, .ready 5 false 0)]
    (fun s => decide (s.kernel.readyMembers 0 0 = [0, 5])) (by decide +kernel)
  have hmem := of_decide_eq_true htest
  exact ⟨s, hmem, dispatched_of_reachable (c := 0) hs (by decide)
    (show 5 ∈ s.kernel.readyMembers 0 0 by rw [hmem]; decide)⟩

/-! ### After `kill` of a blocked sender -/

namespace Kernel

/-- Core 0 runs its null process and finds no other: the queue of high
priority starts with a slot that is not a process. -/
structure OnlyNull (k : Kernel) : Prop where
  currpid : k.currpid 0 = 0
  state : (k.proctab 0).state = .PRCURR
  priority : (k.proctab 0).priority = PRIORITY_LOW
  readylist : ∀ i ∈ [PRIORITY_LOW, PRIORITY_MED, PRIORITY_HIGH],
    k.readylist 0 i = qid (Queue.ready 0 i).ix
  high : NPROC ≤ k.queues.next 154
  med : NPROC ≤ k.queues.next 152
  low : k.queues.next 150 = 151 ∧ k.queues.prev 151 = 150

instance (k : Kernel) : Decidable k.OnlyNull :=
  decidable_of_iff (k.currpid 0 = 0 ∧ (k.proctab 0).state = .PRCURR ∧
    (k.proctab 0).priority = PRIORITY_LOW ∧
    (∀ i ∈ [PRIORITY_LOW, PRIORITY_MED, PRIORITY_HIGH],
      k.readylist 0 i = qid (Queue.ready 0 i).ix) ∧
    NPROC ≤ k.queues.next 154 ∧ NPROC ≤ k.queues.next 152 ∧
    k.queues.next 150 = 151 ∧ k.queues.prev 151 = 150)
    ⟨fun ⟨h1, h2, h3, h4, h5, h6, h7⟩ => ⟨h1, h2, h3, h4, h5, h6, h7⟩,
      fun ⟨h1, h2, h3, h4, h5, h6, h7⟩ => ⟨h1, h2, h3, h4, h5, h6, h7⟩⟩

/-- Where the id of a ready queue of core 0 points to. -/
theorem queuehead_ready {i : Int} (hi : 0 ≤ i ∧ i < 3) :
    queuehead (qid (Queue.ready 0 i).ix) = 150 + 2 * i ∧
    queuetail (qid (Queue.ready 0 i).ix) = 151 + 2 * i ∧
    isbadqueue (qid (Queue.ready 0 i).ix) = false := by
  obtain rfl | rfl | rfl : i = 0 ∨ i = 1 ∨ i = 2 := by omega
  · decide
  · decide
  · decide

variable {k : Kernel}

theorem readyQueue_zero {i : Int} (hi : 0 ≤ i ∧ i < 3) :
    k.readyQueue ((0 : Core) : Nat) i = .ok (k.readylist 0 i) :=
  if_pos ⟨by decide, hi⟩

theorem nonempty_ready {i : Int} (hi : 0 ≤ i ∧ i < 3)
    (hid : k.readylist 0 i = qid (Queue.ready 0 i).ix) :
    k.queues.nonempty (k.readylist 0 i) =
      .ok (decide (k.queues.next (150 + 2 * i) < NPROC)) := by
  have hin : Queuetab.inTable (150 + 2 * i) = true := by
    simp only [Queuetab.inTable, Bool.and_eq_true, decide_eq_true_eq, NQENT, NPROC]
    omega
  rw [hid, Queuetab.nonempty, (queuehead_ready hi).1, Queuetab.getNext, if_pos hin]
  rfl

/-- Nothing to promote. -/
theorem promote_of_empty {lo hi : Int} (hlo : 0 ≤ lo ∧ lo < 3) (hhi : 0 ≤ hi ∧ hi < 3)
    (hid : k.readylist 0 lo = qid (Queue.ready 0 lo).ix)
    (hempty : NPROC ≤ k.queues.next (150 + 2 * lo)) : k.promote 0 lo hi = .ok k := by
  have hnone : decide (k.queues.next (150 + 2 * lo) < NPROC) = false :=
    decide_eq_false (Int.not_lt.mpr hempty)
  unfold Kernel.promote
  rw [readyQueue_zero hlo, readyQueue_zero hhi, ok_bind, ok_bind, nonempty_ready hlo hid, hnone]
  rfl

/-- The slots of the null process and of its queue. -/
theorem inTable_null : Queuetab.inTable 0 = true ∧ Queuetab.inTable 150 = true ∧
    Queuetab.inTable 151 = true := by
  decide

/-- The null process joins its empty queue. -/
theorem enqueue_null {t : Queuetab} {state : Int → PrState} (hpid : isbadpid state 0 = false)
    (hlast : t.prev 151 = 150) : t.enqueue state 0 (qid (Queue.ready 0 PRIORITY_LOW).ix) =
      .ok (0, { t with
        next := update (update t.next 0 151) 150 0
        prev := update (update t.prev 0 150) 151 0 }) := by
  have hgood : isbadqueue (qid (Queue.ready 0 PRIORITY_LOW).ix) = false := by decide
  have htail : queuetail (qid (Queue.ready 0 PRIORITY_LOW).ix) = 151 := by decide
  simp [Queuetab.enqueue, hgood, hpid, htail, Queuetab.setNext, Queuetab.setPrev,
    Queuetab.getPrev, inTable_null, hlast, ok_bind]

/-- The null process leaves its queue, which is empty again. -/
theorem dequeue_null {t : Queuetab} (hfirst : t.next 150 = 0) (hnext : t.next 0 = 151)
    (hprev : t.prev 0 = 150) : t.dequeue (qid (Queue.ready 0 PRIORITY_LOW).ix) =
      .ok (0, { t with
        next := update (update t.next 150 151) 0 0
        prev := update (update t.prev 151 150) 0 0 }) := by
  have hgood : isbadqueue (qid (Queue.ready 0 PRIORITY_LOW).ix) = false := by decide
  have hhead : queuehead (qid (Queue.ready 0 PRIORITY_LOW).ix) = 150 := by decide
  simp [Queuetab.dequeue, hgood, hhead, Queuetab.unlink, Queuetab.setNext, Queuetab.setPrev,
    Queuetab.getPrev, Queuetab.getNext, inTable_null, hfirst, hnext, hprev, ok_bind]

/-- With the two upper queues empty, the null process is dispatched. -/
theorem dispatch_null (hid : ∀ i ∈ [PRIORITY_LOW, PRIORITY_MED, PRIORITY_HIGH],
      k.readylist 0 i = qid (Queue.ready 0 i).ix)
    (hhigh : NPROC ≤ k.queues.next 154) (hmed : NPROC ≤ k.queues.next 152)
    (hfirst : k.queues.next 150 = 0) (hnext : k.queues.next 0 = 151)
    (hprev : k.queues.prev 0 = 150) : k.dispatch 0 = .ok { k with
      toVars := k.run 0 0
      queues.next := update (update k.queues.next 150 151) 0 0
      queues.prev := update (update k.queues.prev 151 150) 0 0 } := by
  have hprio : k.highestPrio 0 = .ok PRIORITY_LOW := by
    have hhigh' : decide (k.queues.next (150 + 2 * PRIORITY_HIGH) < NPROC) = false :=
      decide_eq_false (Int.not_lt.mpr hhigh)
    have hmed' : decide (k.queues.next (150 + 2 * PRIORITY_MED) < NPROC) = false :=
      decide_eq_false (Int.not_lt.mpr hmed)
    unfold Kernel.highestPrio
    rw [readyQueue_zero (by decide), ok_bind, nonempty_ready (by decide) (hid _ (by simp)), hhigh',
      ok_bind, if_neg (by decide), readyQueue_zero (by decide), ok_bind,
      nonempty_ready (by decide) (hid _ (by simp)), hmed']
    rfl
  have hlow : k.readylist 0 PRIORITY_LOW = _ := hid _ (by simp)
  unfold Kernel.dispatch
  rw [hprio, ok_bind, readyQueue_zero (by decide), ok_bind, hlow, Kernel.dequeue,
    dequeue_null hfirst hnext hprev]
  rfl

section OnlyNull
variable (h : k.OnlyNull)
include h

/-- The counters are not part of it. -/
theorem OnlyNull.counters {m l : Core → Ulong} :
    ({ k with promoteMedium := m, promoteLow := l } : Kernel).OnlyNull :=
  ⟨h.currpid, h.state, h.priority, h.readylist, h.high, h.med, h.low⟩

theorem OnlyNull.ageLow : ∃ l, k.ageLow 0 = .ok { k with promoteLow := l } := by
  unfold Kernel.ageLow
  simp only
  split
  · have hprom := promote_of_empty (k := { k with toVars := k.tickLow 0 })
      (show 0 ≤ PRIORITY_LOW ∧ PRIORITY_LOW < 3 by decide)
      (show 0 ≤ PRIORITY_MED ∧ PRIORITY_MED < 3 by decide) (h.readylist _ (by simp))
        (h.low.1 ▸ by decide)
    rw [hprom]
    exact ⟨_, rfl⟩
  · exact ⟨_, rfl⟩

theorem OnlyNull.age : ∃ m l, k.age 0 = .ok { k with promoteMedium := m, promoteLow := l } := by
  unfold Kernel.age
  simp only
  split
  · have hprom := promote_of_empty (k := { k with toVars := k.tickMedium 0 })
      (show 0 ≤ PRIORITY_MED ∧ PRIORITY_MED < 3 by decide)
      (show 0 ≤ PRIORITY_HIGH ∧ PRIORITY_HIGH < 3 by decide) (h.readylist _ (by simp)) h.med
    have htick : ({ k with toVars := k.tickMedium 0 } : Kernel).OnlyNull := h.counters
    obtain ⟨l, hl⟩ := htick.ageLow
    rw [hprom, ok_bind, hl]
    exact ⟨_, _, rfl⟩
  · exact ⟨_, _, rfl⟩

theorem OnlyNull.yield : k.yield 0 = .ok { k.setState 0 .PRREADY with
    queues.next := update (update k.queues.next 0 151) 150 0
    queues.prev := update (update k.queues.prev 0 150) 151 0 } := by
  have hid : (k.setState 0 .PRREADY).readylist 0 PRIORITY_LOW = _ := h.readylist _ (by simp)
  have hpid : isbadpid (k.setState 0 .PRREADY).states 0 = false := by
    rw [isbadpid_eq_false]
    exact ⟨by decide, by simp [Kernel.setState, Vars.states, Vars.setState, Vars.setPcb]⟩
  have hpcb : k.pcb 0 = .ok (k.proctab 0) := rfl
  unfold Kernel.yield
  simp only [h.currpid, hpcb, ok_bind, h.state, if_true, h.priority]
  have hlast : (k.setState 0 .PRREADY).queues.prev 151 = 150 := h.low.2
  rw [readyQueue_zero (by decide), ok_bind, hid, Kernel.enqueue, enqueue_null hpid hlast]
  rfl

theorem OnlyNull.switch : ∃ k1 k2, k.yield 0 = .ok k1 ∧ k1.dispatch 0 = .ok k2 ∧ k2.OnlyNull := by
  refine ⟨_, _, h.yield, dispatch_null h.readylist ?_ ?_ ?_ ?_ ?_, ?_, ?_, ?_,
    h.readylist, ?_, ?_, ?_⟩
  · simpa using h.high
  · simpa using h.med
  · simp
  · simp
  · simp
  · simp [Vars.run]
  · simp [Vars.run, Vars.setState, Vars.setPcb]
  · simp [Vars.run, Vars.setState, Vars.setPcb, Kernel.setState, h.priority]
  · simpa using h.high
  · simpa using h.med
  · simp

/-- The core goes on like this. -/
theorem OnlyNull.resched : ∃ k', k.resched 0 = .ok k' ∧ k'.OnlyNull := by
  obtain ⟨m, l, hage⟩ := h.age
  have haged : ({ k with promoteMedium := m, promoteLow := l } : Kernel).OnlyNull := h.counters
  obtain ⟨k1, k2, hyield, hdispatch, hk2⟩ := haged.switch
  refine ⟨k2, ?_, hk2⟩
  unfold Kernel.resched
  rw [hage, ok_bind, hyield, ok_bind, hdispatch]

end OnlyNull

end Kernel

/-- A call that does not find process 6 running on core 0, and does not
kill it. -/
def Sys.Passes6 (s : Sys) (cpuid : Core) (call : Call) : Prop :=
  s.kernel.currpid 0 ≠ 6 ∧ s.kernel.Spares cpuid 6 call

instance (s : Sys) (cpuid : Core) (call : Call) : Decidable (s.Passes6 cpuid call) :=
  inferInstanceAs (Decidable (_ ∧ _))

/-- Any number of calls of `resched` can follow. -/
theorem Sys.run_of_onlyNull (n : Nat) {s : Sys} (h : s.kernel.OnlyNull) :
    ∃ l s', Sys.Run Sys.Passes6 s l s' ∧ n = l.countP (Sys.reschedulesOn 0) ∧
      s'.kernel.OnlyNull := by
  induction n generalizing s with
  | zero => exact ⟨[], s, .nil s, rfl, h⟩
  | succ n ih =>
    obtain ⟨k, hk, hnull⟩ := h.resched
    obtain ⟨l, s', hrun, hcount, hnull'⟩ := ih (s := { s with kernel := k }) hnull
    have hexec : s.exec 0 .resched = .ok { s with kernel := k } := by
      unfold Sys.exec
      rw [hk]
      rfl
    have hpass : Sys.Allowed Sys.Passes6 s (0, .resched) :=
      ⟨trivial, by rw [h.currpid]; decide, trivial⟩
    refine ⟨(s, 0, .resched) :: l, s', .cons hpass hexec hrun, ?_, hnull'⟩
    rw [List.countP_cons, ← hcount]
    rfl

/-- Process 4 blocks in `send` to process 5, which kills it. Slot 4 is
used again, and the new process 4 and process 6 are made ready behind
process 5. -/
def lostRun : List (Core × Call) :=
  sendRun ++ [(0, .kill 4)] ++ List.replicate 45 (0, .create highPriority) ++
    [(0, .ready 7 true 0), (0, .ready 4 false 0), (0, .ready 6 false 0)]

/-- Process 7 then blocks in `send` to process 5. It is linked behind
process 4, and process 6 is dispatched in no number of calls. -/
theorem starved_kill : ∃ s : Sys, Sys.Reachable (fun _ _ _ => True) s ∧
    6 ∈ s.kernel.readyMembers 0 PRIORITY_HIGH ∧
    ∀ n, ∃ l s', Sys.Run Sys.Passes6 s l s' ∧ n ≤ l.countP (Sys.reschedulesOn 0) ∧
      s'.kernel.currpid 0 ≠ 6 := by
  obtain ⟨s, hs, htest⟩ := Sys.exists_reachable (fun _ _ _ => True) 0x10000 0x400000 0x8000
    (fun _ => 0) lostRun
    (fun s => decide (6 ∈ s.kernel.readyMembers 0 PRIORITY_HIGH) &&
      (Lib.follow (Sys.Allowed Sys.Passes6) (fun s a => s.exec a.1 a.2) s
        [(0, .send 5 79), (0, .resched), (0, .resched), (0, .resched)]).any
          fun s' : Sys => decide s'.kernel.OnlyNull)
    (by decide +kernel)
  rw [Bool.and_eq_true, decide_eq_true_eq] at htest
  obtain ⟨hmem, hlost⟩ := htest
  refine ⟨s, hs, hmem, ?_⟩
  intro n
  cases hfollow : Lib.follow (Sys.Allowed Sys.Passes6) (fun s a => s.exec a.1 a.2) s
      [(0, .send 5 79), (0, .resched), (0, .resched), (0, .resched)] with
  | none => simp [hfollow] at hlost
  | some s1 =>
    rw [hfollow] at hlost
    obtain ⟨l, hrun, -⟩ := Lib.Run.of_follow hfollow
    obtain ⟨l', s', hrun', hcount, hnull⟩ := Sys.run_of_onlyNull n (of_decide_eq_true hlost)
    refine ⟨l ++ l', s', hrun.append hrun', ?_, by rw [hnull.currpid]; decide⟩
    rw [List.countP_append]
    omega

end Xinu
