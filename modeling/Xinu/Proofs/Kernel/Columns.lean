import Xinu.Proofs.Kernel.Boot
import Xinu.Proofs.Kernel.Calls
import Xinu.Proofs.Queue.Links
import Xinu.System.Calls

/-!
# `Xinu.Proofs.Kernel.Columns`: what no call of the kernel ever changes

The scheduler's invariant holds in runs where `kill` and `ready` are used
with care. The facts of this file hold in every run, also where queues
are broken: the queue ids in `readylist` and in the process table stay
those that `sysinit` stored, no queue is created later, and the priority
and the core of every process slot index the table of ready queues.

`Kept k k'` says that `k'` has this from `k`. Every function of the kernel
that returns satisfies it. All but `create` and `kill` satisfy `Frame`,
which adds that no stack and nothing on the heap has changed. The lemmas
follow the code function by function. `Columns` is the invariant, and
`Sys.columns` the result about runs. `ready` may be called for any process
in these runs.
-/

namespace Xinu

open Queuetab (qid headSlot)

/-- The priority names a ready queue, and the core, if there is one,
exists. -/
def Pcb.Fits (x : Pcb) : Prop :=
  (0 ≤ x.priority ∧ x.priority < 3) ∧ (x.coreAffinity = -1 ∨ IsCore x.coreAffinity)

namespace Kernel

/-- The queue ids are the same, and so is the number of queues. Process
slots that fit still do. -/
structure Kept (k k' : Kernel) : Prop where
  nextqueue : k'.queues.nextqueue = k.queues.nextqueue
  readylist : k'.readylist = k.readylist
  msgqueue : ∀ p, (k'.proctab p).msgqueue = (k.proctab p).msgqueue
  fits : ∀ p, (k.proctab p).Fits → (k'.proctab p).Fits

/-- The heap and the stacks are the same, too. This is so for all but
`create` and `kill`. -/
structure Frame (k k' : Kernel) : Prop extends Kept k k' where
  heap : k'.heap = k.heap
  nextpid : k'.nextpid = k.nextpid
  stack : ∀ p, (k'.proctab p).stkbase = (k.proctab p).stkbase ∧
    (k'.proctab p).stklen = (k.proctab p).stklen

section Kept
variable {k k' k1 : Kernel} {c : Core} {p : Int} {q : Ulong}

theorem Kept.refl (k : Kernel) : Kept k k := ⟨rfl, rfl, fun _ => rfl, fun _ h => h⟩

theorem Kept.trans (h1 : Kept k k1) (h2 : Kept k1 k') : Kept k k' where
  nextqueue := h2.nextqueue.trans h1.nextqueue
  readylist := h2.readylist.trans h1.readylist
  msgqueue p := (h2.msgqueue p).trans (h1.msgqueue p)
  fits p h := h2.fits p (h1.fits p h)

theorem kept_vars {v : Vars} (h : v.proctab = k.proctab) : Kept k { k with toVars := v } :=
  ⟨rfl, rfl, fun p => by rw [h], fun p hp => by rwa [h]⟩

theorem kept_setPcb {y : Pcb} (hmsg : y.msgqueue = (k.proctab p).msgqueue)
    (hfits : (k.proctab p).Fits → y.Fits) : Kept k (k.setPcb p y) := by
  have hproc : ∀ x, (k.setPcb p y).proctab x = if x = p then y else k.proctab x := fun x =>
    Function.update_apply ..
  refine ⟨rfl, rfl, fun x => ?_, fun x hx => ?_⟩
  · rw [hproc]
    split
    · rename_i hxp
      rw [hmsg, hxp]
    · rfl
  · rw [hproc]
    split
    · rename_i hxp
      exact hfits (hxp ▸ hx)
    · exact hx

theorem Frame.refl (k : Kernel) : Frame k k := ⟨.refl k, rfl, rfl, fun _ => ⟨rfl, rfl⟩⟩

theorem Frame.trans (h1 : Frame k k1) (h2 : Frame k1 k') : Frame k k' where
  toKept := h1.toKept.trans h2.toKept
  heap := h2.heap.trans h1.heap
  nextpid := h2.nextpid.trans h1.nextpid
  stack p := ⟨(h2.stack p).1.trans (h1.stack p).1, (h2.stack p).2.trans (h1.stack p).2⟩

theorem frame_vars {v : Vars} (hproc : v.proctab = k.proctab) (hheap : v.heap = k.heap)
    (hnext : v.nextpid = k.nextpid) : Frame k { k with toVars := v } :=
  ⟨kept_vars hproc, hheap, hnext, fun p => by rw [hproc]; exact ⟨rfl, rfl⟩⟩

theorem frame_queues {t : Queuetab} (h : t.nextqueue = k.queues.nextqueue) :
    Frame k { k with queues := t } :=
  ⟨⟨h, rfl, fun _ => rfl, fun _ h => h⟩, rfl, rfl, fun _ => ⟨rfl, rfl⟩⟩

/-- Writing the state or the message fields of an entry. -/
theorem frame_fields {y : Pcb} (hmsg : y.msgqueue = (k.proctab p).msgqueue)
    (hprio : y.priority = (k.proctab p).priority)
    (haff : y.coreAffinity = (k.proctab p).coreAffinity)
    (hstk : y.stkbase = (k.proctab p).stkbase ∧ y.stklen = (k.proctab p).stklen) :
    Frame k (k.setPcb p y) := by
  refine ⟨kept_setPcb hmsg fun h => ⟨hprio ▸ h.1, haff ▸ h.2⟩, rfl, rfl, fun x => ?_⟩
  by_cases hx : x = p
  · subst hx
    simpa [setPcb, Vars.setPcb] using hstk
  · simp [setPcb, Vars.setPcb, hx]

theorem frame_setState {s : PrState} : Frame k (k.setState p s) :=
  frame_fields rfl rfl rfl ⟨rfl, rfl⟩

/-! ### The scheduler -/

theorem enqueue_frame (h : k.enqueue p q = .ok k') : Frame k k' := by
  obtain ⟨⟨r, t⟩, hrun, h⟩ := bind_eq_ok h
  cases h
  exact frame_queues (Queuetab.enqueue_nextqueue hrun)

theorem dequeue_frame {r : Int} (h : k.dequeue q = .ok (r, k')) : Frame k k' := by
  obtain ⟨⟨r', t⟩, hrun, h⟩ := bind_eq_ok h
  cases h
  exact frame_queues (Queuetab.dequeue_nextqueue hrun)

theorem promote_frame {lo hi : Int} (h : k.promote c lo hi = .ok k') : Frame k k' := by
  obtain ⟨from_, -, h⟩ := bind_eq_ok h
  obtain ⟨to_, -, h⟩ := bind_eq_ok h
  obtain ⟨some_, -, h⟩ := bind_eq_ok h
  cases some_ with
  | false =>
    cases h
    exact .refl k
  | true =>
    obtain ⟨⟨r, k1⟩, hdeq, h⟩ := bind_eq_ok h
    exact (dequeue_frame hdeq).trans (enqueue_frame h)

theorem ageLow_frame (h : k.ageLow c = .ok k') : Frame k k' := by
  have htick : Frame k { k with toVars := k.tickLow c } := frame_vars rfl rfl rfl
  unfold ageLow at h
  simp only at h
  split at h
  · obtain ⟨k1, hpro, h⟩ := bind_eq_ok h
    cases h
    exact (htick.trans (promote_frame hpro)).trans (frame_vars rfl rfl rfl)
  · cases h
    exact htick

theorem age_frame (h : k.age c = .ok k') : Frame k k' := by
  have htick : Frame k { k with toVars := k.tickMedium c } := frame_vars rfl rfl rfl
  unfold age at h
  simp only at h
  split at h
  · obtain ⟨k1, hpro, h⟩ := bind_eq_ok h
    obtain ⟨k2, hlow, h⟩ := bind_eq_ok h
    cases h
    exact ((htick.trans (promote_frame hpro)).trans (ageLow_frame hlow)).trans
      (frame_vars rfl rfl rfl)
  · cases h
    exact htick

theorem yield_frame (h : k.yield c = .ok k') : Frame k k' := by
  obtain ⟨oldproc, -, h⟩ := bind_eq_ok h
  split at h
  · obtain ⟨q, -, h⟩ := bind_eq_ok h
    exact frame_setState.trans (enqueue_frame h)
  · cases h
    exact .refl k

theorem dispatch_frame (h : k.dispatch c = .ok k') : Frame k k' := by
  obtain ⟨highest, -, h⟩ := bind_eq_ok h
  obtain ⟨q, -, h⟩ := bind_eq_ok h
  obtain ⟨⟨pid, k1⟩, hdeq, h⟩ := bind_eq_ok h
  obtain ⟨x, -, h⟩ := bind_eq_ok h
  cases h
  have hstate : Frame k1 (k1.setState pid .PRCURR) := frame_setState
  exact (dequeue_frame hdeq).trans
    ⟨⟨rfl, rfl, hstate.msgqueue, hstate.fits⟩, rfl, rfl, hstate.stack⟩

theorem resched_frame (h : k.resched c = .ok k') : Frame k k' := by
  obtain ⟨k1, hage, h⟩ := bind_eq_ok h
  obtain ⟨k2, hyield, h⟩ := bind_eq_ok h
  exact ((age_frame hage).trans (yield_frame hyield)).trans (dispatch_frame h)

/-! ### `ready`, `create`, `kill` -/

theorem isCore_of_readyQueue {d i : Int} (h : k.readyQueue d i = .ok q) :
    (Queue.ready d i).Valid := by
  unfold readyQueue at h
  split at h
  · assumption
  · cases h

/-- The ready queue that `ready` reads exists, so a process that got its
core in this call fits. -/
theorem wake_frame {core : Ulong} (h : k.wake p core = .ok k') : Frame k k' := by
  obtain ⟨q, hq, h⟩ := bind_eq_ok h
  obtain ⟨hcore, hprio⟩ := isCore_of_readyQueue hq
  -- No bound of `core` is needed: with another core the read of
  -- `readylist` has already failed.
  have hfits : ((k.makeReady p core).proctab p).Fits := ⟨hprio, Or.inr hcore⟩
  obtain ⟨d, hself, -⟩ := Vars.makeReady_self k.toVars p core
  have hmake : Frame k { k with toVars := k.makeReady p core } := by
    obtain ⟨hheap, hnext⟩ : (k.makeReady p core).heap = k.heap ∧
        (k.makeReady p core).nextpid = k.nextpid := Vars.makeReady_heap
    refine ⟨⟨rfl, rfl, fun x => ?_, fun x hx => ?_⟩, hheap, hnext, fun x => ?_⟩
    · by_cases hxp : x = p
      · subst hxp
        rw [hself]
      · rw [Vars.makeReady_of_ne hxp]
    · by_cases hxp : x = p
      · subst hxp
        exact hfits
      · rwa [Vars.makeReady_of_ne hxp]
    · by_cases hxp : x = p
      · subst hxp
        rw [hself]
        exact ⟨rfl, rfl⟩
      · rw [Vars.makeReady_of_ne hxp]
        exact ⟨rfl, rfl⟩
  exact hmake.trans (enqueue_frame h)

theorem ready_frame {resch : Bool} {core : Ulong} {r : Syscall}
    (h : k.ready c p resch core = .ok (r, k')) : Frame k k' := by
  unfold ready at h
  split at h
  · cases h
    exact .refl k
  · obtain ⟨k1, hwake, h⟩ := bind_eq_ok h
    split at h
    · obtain ⟨k2, hres, h⟩ := bind_eq_ok h
      cases h
      exact (wake_frame hwake).trans (resched_frame hres)
    · cases h
      exact wake_frame hwake

theorem create_kept {args : Vars.CreateArgs} {r : Option Int}
    (hprio : (args.priority.toNat : Int) ≤ PRIORITY_HIGH) (h : k.create c args = .ok (r, k')) :
    Kept k k' := by
  -- The argument of `create` is unsigned, and the slot has a signed one.
  have hint : 0 ≤ args.priority.toInt ∧ args.priority.toInt < 3 := by
    simp only [PRIORITY_HIGH] at hprio
    rw [BitVec.toInt_eq_toNat_of_lt (by omega)]
    omega
  obtain ⟨⟨pid, v⟩, hrun, h⟩ := bind_eq_ok h
  cases h
  rcases Vars.create_cases hrun with ⟨-, hp, n, rfl⟩ | ⟨pid, saddr, hp, n, -, -, -, rfl⟩
  · exact kept_vars rfl
  · have hset : Kept k (k.setPcb pid (Vars.newPcb (k.proctab pid) args saddr)) :=
      kept_setPcb rfl fun _ => ⟨hint, Or.inl rfl⟩
    exact ⟨rfl, rfl, hset.msgqueue, hset.fits⟩

theorem killSwitch_frame (h : k.killSwitch c p = .ok k') : Frame k k' := by
  unfold killSwitch at h
  split at h
  · exact frame_setState.trans (resched_frame h)
  · obtain ⟨⟨r, t⟩, hrun, h⟩ := bind_eq_ok h
    cases h
    exact (frame_queues (Queuetab.remove_nextqueue hrun)).trans frame_setState
  · cases h
    exact frame_setState

theorem kill_kept {r : Syscall} (h : k.kill c p = .ok (r, k')) : Kept k k' := by
  unfold kill at h
  split at h
  · cases h
    exact .refl k
  · obtain ⟨v, hrel, h⟩ := bind_eq_ok h
    obtain ⟨k1, hswitch, h⟩ := bind_eq_ok h
    cases h
    obtain ⟨hp, rfl⟩ := Vars.release_eq hrel
    refine Kept.trans ?_ (killSwitch_frame hswitch).toKept
    exact kept_vars rfl

/-! ### Messages -/

section Messages
variable {pid msg : Int} {after : After} {r : Syscall}

theorem eq_of_pcb {v : Vars} {x : Pcb} (h : v.pcb p = .ok x) : x = v.proctab p := by
  unfold Vars.pcb at h
  split at h
  · exact (Except.ok.inj h).symm
  · cases h

theorem sendSection_frame {sender : Int} (h : k.sendSection sender pid msg = .ok (after, k')) :
    Frame k k' := by
  unfold sendSection at h
  split at h
  · cases h
    exact .refl k
  · obtain ⟨rpcb, hrpcb, h⟩ := bind_eq_ok h
    obtain ⟨spcb, hspcb, h⟩ := bind_eq_ok h
    obtain rfl := eq_of_pcb hrpcb
    obtain rfl := eq_of_pcb hspcb
    split at h
    · cases h
      exact .refl k
    · split at h
      · obtain ⟨k1, henq, h⟩ := bind_eq_ok h
        cases h
        refine Frame.trans ?_ (enqueue_frame henq)
        exact frame_fields rfl rfl rfl ⟨rfl, rfl⟩
      · split at h <;>
        · cases h
          exact frame_fields rfl rfl rfl ⟨rfl, rfl⟩

theorem sendnowSection_frame (h : k.sendnowSection pid msg = .ok (after, k')) : Frame k k' := by
  obtain ⟨ppcb, hppcb, h⟩ := bind_eq_ok h
  obtain rfl := eq_of_pcb hppcb
  split at h
  · cases h
    exact .refl k
  · split at h
    · cases h
      exact .refl k
    · split at h <;>
      · cases h
        exact frame_fields rfl rfl rfl ⟨rfl, rfl⟩

theorem finish_frame (h : k.finish c after = .ok (r, k')) : Frame k k' := by
  cases after with
  | ret r' =>
    cases h
    exact .refl k
  | block =>
    obtain ⟨k1, hres, h⟩ := bind_eq_ok h
    cases h
    exact resched_frame hres
  | wake pid resch =>
    obtain ⟨x, -, h⟩ := bind_eq_ok h
    obtain ⟨⟨r', k1⟩, hready, h⟩ := bind_eq_ok h
    cases h
    exact ready_frame hready

theorem send_frame (h : k.send c pid msg = .ok (r, k')) : Frame k k' := by
  obtain ⟨⟨after, k1⟩, hsec, h⟩ := bind_eq_ok h
  exact (sendSection_frame hsec).trans (finish_frame h)

theorem sendnow_frame (h : k.sendnow c pid msg = .ok (r, k')) : Frame k k' := by
  obtain ⟨⟨after, k1⟩, hsec, h⟩ := bind_eq_ok h
  exact (sendnowSection_frame hsec).trans (finish_frame h)

theorem recvCollect_frame {x : Int × Option Int} (h : k.recvCollect p = .ok (x, k')) :
    Frame k k' := by
  obtain ⟨ppcb, -, h⟩ := bind_eq_ok h
  obtain ⟨some_, -, h⟩ := bind_eq_ok h
  cases some_ with
  | false =>
    cases h
    exact frame_fields rfl rfl rfl ⟨rfl, rfl⟩
  | true =>
    obtain ⟨⟨sender, k1⟩, hdeq, h⟩ := bind_eq_ok h
    obtain ⟨spcb, -, h⟩ := bind_eq_ok h
    cases h
    have hself : Frame k1 (k1.setPcb p { k1.proctab p with msgin := spcb.msgout }) :=
      frame_fields rfl rfl rfl ⟨rfl, rfl⟩
    exact ((dequeue_frame hdeq).trans hself).trans (frame_fields rfl rfl rfl ⟨rfl, rfl⟩)

theorem recvResume_frame (h : k.recvResume c = .ok (msg, k')) : Frame k k' := by
  obtain ⟨⟨⟨msg', sender⟩, k1⟩, hcol, h⟩ := bind_eq_ok h
  cases sender with
  | none =>
    cases h
    exact recvCollect_frame hcol
  | some senderpid =>
    obtain ⟨spcb, -, h⟩ := bind_eq_ok h
    obtain ⟨⟨r', k2⟩, hready, h⟩ := bind_eq_ok h
    cases h
    exact (recvCollect_frame hcol).trans (ready_frame hready)

theorem recv_frame {x : Option Int} (h : k.recv c = .ok (x, k')) : Frame k k' := by
  obtain ⟨⟨wait, k1⟩, hcheck, h⟩ := bind_eq_ok h
  have hk1 : Frame k k1 := by
    obtain ⟨ppcb, -, hcheck⟩ := bind_eq_ok hcheck
    split at hcheck
    · cases hcheck
      exact .refl k
    · cases hcheck
      exact frame_setState
  cases wait with
  | true =>
    obtain ⟨k2, hres, h⟩ := bind_eq_ok h
    cases h
    exact hk1.trans (resched_frame hres)
  | false =>
    obtain ⟨⟨msg', k2⟩, hres, h⟩ := bind_eq_ok h
    cases h
    exact hk1.trans (recvResume_frame hres)

theorem recvnow_frame {x : Option Int} (h : k.recvnow c = .ok (x, k')) : Frame k k' := by
  obtain ⟨ppcb, hppcb, h⟩ := bind_eq_ok h
  obtain rfl := eq_of_pcb hppcb
  split at h
  · cases h
    exact frame_fields rfl rfl rfl ⟨rfl, rfl⟩
  · cases h
    exact .refl k

end Messages

end Kept

/-! ### The invariant -/

/-- The queue ids are those of `sysinit`, every queue exists, and every
process slot fits. -/
structure Columns (k : Kernel) : Prop where
  nextqueue : k.queues.nextqueue = headSlot Queuetab.capacity
  readyIds : ∀ d i, (Queue.ready d i).Valid → k.readylist d i = qid (Queue.ready d i).ix
  msgIds : ∀ p, IsPid p → (k.proctab p).msgqueue = qid (Queue.senders p).ix
  fits : ∀ p, (k.proctab p).Fits

theorem Columns.kept {k k' : Kernel} (h : k.Columns) (hk : Kept k k') : k'.Columns where
  nextqueue := hk.nextqueue.trans h.nextqueue
  readyIds d i hq := hk.readylist.symm ▸ h.readyIds d i hq
  msgIds p hp := (hk.msgqueue p).trans (h.msgIds p hp)
  fits p := hk.fits p (h.fits p)

/-! ### `sysinit` -/

/-- A property of the state that every round of a loop keeps. -/
theorem foldlM_keeps {α : Type} {g : Kernel → α → Except Fault Kernel} {P : Kernel → Prop}
    (hstep : ∀ k x k', P k → g k x = .ok k' → P k') :
    ∀ (l : List α) {k k' : Kernel}, P k → l.foldlM g k = .ok k' → P k' := by
  intro l
  induction l with
  | nil =>
    intro k k' hk h
    cases h
    exact hk
  | cons x l ih =>
    intro k k' hk h
    rw [List.foldlM_cons] at h
    obtain ⟨k1, hg, h⟩ := bind_eq_ok h
    exact ih (hstep k x k1 hk hg) h

theorem fits_setPcb {k : Kernel} {p : Int} {y : Pcb} (h : ∀ x, (k.proctab x).Fits) (hy : y.Fits) :
    ∀ x, ((k.setPcb p y).proctab x).Fits := by
  intro x
  by_cases hx : x = p
  · subst hx
    simpa [setPcb, Vars.setPcb] using hy
  · simpa [setPcb, Vars.setPcb, hx] using h x

theorem fits_sysinit {memheap maxaddr end_ : Ulong} {mem : Ulong → Ulong} {k : Kernel}
    (h : sysinit memheap maxaddr end_ mem = .ok k) : ∀ p, (k.proctab p).Fits := by
  obtain ⟨k1, hslots, h⟩ := bind_eq_ok h
  obtain ⟨k2, hready, h⟩ := bind_eq_ok h
  cases h
  show ∀ p, (k2.proctab p).Fits
  -- The loops in order: the process table, the null processes, the ready
  -- lists. Static storage is zero, and priority and core 0 fit.
  have hfits1 : ∀ p, (k1.proctab p).Fits := by
    refine foldlM_keeps (P := fun k => ∀ p, (k.proctab p).Fits) ?_ _ ?_ hslots
    · intro k i k' hk hrun
      obtain ⟨⟨q, t⟩, -, hrun⟩ := bind_eq_ok hrun
      cases hrun
      exact fits_setPcb (k := { k with queues := t }) hk ⟨(hk i).1, Or.inl rfl⟩
    · exact fun p => ⟨by simp [zeroed], Or.inr (isCore 0)⟩
  have hnull : ∀ (stk : Core → Ulong) (l : List Core) (k : Kernel), (∀ p, (k.proctab p).Fits) →
      ∀ p, ((l.foldl (fun k i => k.initNull i (stk i)) k).proctab p).Fits := by
    intro stk l
    induction l with
    | nil => exact fun k hk => hk
    | cons i l ih =>
      intro k hk
      exact ih (k.initNull i (stk i)) (fits_setPcb hk ⟨by simp, Or.inr (isCore i)⟩)
  refine foldlM_keeps (P := fun k => ∀ p, (k.proctab p).Fits) ?_ _ ?_ hready
  · intro k ij k' hk hrun
    obtain ⟨⟨q, t⟩, -, hrun⟩ := bind_eq_ok hrun
    cases hrun
    exact hk
  · exact hnull _ _ _ hfits1

theorem columns_sysinit {memheap maxaddr end_ : Ulong} {mem : Ulong → Ulong} {k : Kernel}
    (h : sysinit memheap maxaddr end_ mem = .ok k) : k.Columns := by
  obtain ⟨a, hr, -⟩ := sysinit_refines h
  exact ⟨hr.table.nextqueue, hr.readyIds, fun p hp => hr.proctab.symm ▸ hr.msgIds p hp,
    fits_sysinit h⟩

end Kernel

/-! ### Runs -/

namespace Sys

/-- Arguments in range: a priority is at most `PRIORITY_HIGH`, and
`ready` is given an existing core. Which process a call is for, and in
which state it is, does not matter. -/
def InRange : Call → Prop
  | .create args => (args.priority.toNat : Int) ≤ PRIORITY_HIGH
  | .ready _ _ core => core.toNat < NCORES
  | _ => True

/-- The states of the runs from `sysinit` whose calls have arguments in
range. -/
def Attainable (s : Sys) : Prop :=
  Lib.Reaches Booted (fun _ a => InRange a.2) (fun s (a : Core × Call) => s.exec a.1 a.2) s

/-- Permitted calls have arguments in range. -/
theorem Reachable.attainable {ok : Sys → Core → Call → Prop} {s : Sys} (h : Reachable ok s) :
    s.Attainable := by
  refine Lib.Reaches.mono h (fun s hs => hs) ?_
  intro s a hguard
  obtain ⟨c, call⟩ := a
  cases call with
  | create args => exact hguard.1.2
  | ready pid resch core => exact hguard.1.2.2.2
  | _ => trivial

theorem exec_frame {s s' : Sys} {c : Core} {call : Call} (hcreate : ∀ args, call ≠ .create args)
    (hkill : ∀ pid, call ≠ .kill pid) (h : s.exec c call = .ok s') :
    s.kernel.Frame s'.kernel := by
  cases call with
  | create args => exact absurd rfl (hcreate args)
  | kill pid => exact absurd rfl (hkill pid)
  | ready pid resch core =>
    obtain ⟨⟨r, k'⟩, hrun, h⟩ := bind_eq_ok h
    cases h
    exact Kernel.ready_frame hrun
  | resched =>
    obtain ⟨k', hrun, h⟩ := bind_eq_ok h
    cases h
    exact Kernel.resched_frame hrun
  | send pid msg =>
    obtain ⟨⟨r, k'⟩, hrun, h⟩ := bind_eq_ok h
    cases h
    exact Kernel.send_frame hrun
  | sendnow pid msg =>
    obtain ⟨⟨r, k'⟩, hrun, h⟩ := bind_eq_ok h
    cases h
    exact Kernel.sendnow_frame hrun
  | recv =>
    obtain ⟨⟨r, k'⟩, hrun, h⟩ := bind_eq_ok h
    cases h
    exact Kernel.recv_frame hrun
  | recvResume =>
    obtain ⟨⟨r, k'⟩, hrun, h⟩ := bind_eq_ok h
    cases h
    exact Kernel.recvResume_frame hrun
  | recvnow =>
    obtain ⟨⟨r, k'⟩, hrun, h⟩ := bind_eq_ok h
    cases h
    exact Kernel.recvnow_frame hrun

theorem exec_kept {s s' : Sys} {c : Core} {call : Call} (hrange : InRange call)
    (h : s.exec c call = .ok s') : s.kernel.Kept s'.kernel := by
  cases call with
  | create args =>
    obtain ⟨⟨r, k'⟩, hrun, h⟩ := bind_eq_ok h
    cases h
    exact Kernel.create_kept hrange hrun
  | kill pid =>
    obtain ⟨⟨r, k'⟩, hrun, h⟩ := bind_eq_ok h
    cases h
    exact Kernel.kill_kept hrun
  | ready | resched | send | sendnow | recv | recvResume | recvnow =>
    exact (exec_frame (by simp) (by simp) h).toKept

/-- In every state of every run the queue ids are in place and every slot
of the process table fits. -/
theorem columns {s : Sys} (h : s.Attainable) : s.kernel.Columns := by
  refine Lib.Reaches.induction (P := fun s => s.kernel.Columns) h ?_ ?_
  · rintro s ⟨⟨memheap, maxaddr, end_, mem, hboot⟩, -⟩
    exact Kernel.columns_sysinit hboot
  · intro s a s' hs hrange hexec
    exact hs.kept (exec_kept hrange hexec)

end Sys

end Xinu
