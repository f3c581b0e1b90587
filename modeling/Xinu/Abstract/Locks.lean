import Xinu.Abstract.Delivery
import Xinu.System.Locks

/-!
# `Xinu.Abstract.Locks`: who holds a mailbox lock

A process that holds a mailbox lock should be running or ready. The one
exception is on its way out: `send` and `recv` set the state of the
process first and release the lock afterwards. Such a process is
*parting*. `Guarded` is the invariant that holds as long as no parting
process is switched out. It has four parts.

* A process that is not current on its core is leaving, and a parting
  process is still on its core.
* A lock is held by the one process whose statement is between its
  `lock_acquire` and its `lock_release`.
* Each process with a lock is active, unless it is parting.
* A process that is about to be woken sleeps, holds no lock, and nobody
  else is about to wake it.
-/

namespace Xinu

open Function

namespace Pc

/-- The lock that a process at this statement holds. -/
def held (self : Int) : Pc → Option Int
  | sendFree pid _ | sendFull pid _ | sendMsgout pid _ | sendState pid | sendEnqueue pid
  | sendRelease pid | sendnowBadpid pid _ | sendnowFull pid _ | deposit pid _ _ | raise pid _
  | waiting pid _ | wakeRelease pid _ _ | release pid => some pid
  | recvEmpty | recvState | recvRelease | recvTake | recvNonempty | recvDequeue | recvRefill _
  | recvClear _ | recvnowEmpty | recvnowTake | lower => some self
  | running | sendBadpid _ _ | sendAcquire _ _ | sendResched | sendnowAcquire _ _ | recvAcquire
  | recvResched | recvReacquire | recvnowAcquire | ready _ _ => none

/-- The process has given up its turn and not released the lock. -/
def Parting : Pc → Prop
  | sendEnqueue _ | sendRelease _ | recvRelease => True
  | _ => False

instance (x : Pc) : Decidable x.Parting := by
  rcases x <;> dsimp only [Parting] <;> infer_instance

/-- The process has given up its turn and not called `resched`. -/
def Leaving : Pc → Prop
  | sendEnqueue _ | sendRelease _ | sendResched | recvRelease | recvResched => True
  | _ => False

/-- The process is about to wake `t`. -/
def Wakes (t : Int) : Pc → Prop
  | recvRefill pid | recvClear pid | wakeRelease _ pid _ | ready pid _ => pid = t
  | _ => False

/-- The process is putting a message into the empty mailbox of `t`. -/
def Delivers (t : Int) : Pc → Prop
  | deposit pid _ _ | raise pid _ | waiting pid _ => pid = t
  | _ => False

/-- A leaving process with a lock is parting. -/
theorem Leaving.parting {x : Pc} {self r : Int} (h : x.Leaving) (hheld : x.held self = some r) :
    x.Parting := by
  cases x <;> first | exact h.elim | trivial

/-- No statement both wakes and delivers. -/
theorem Wakes.not_delivers {x : Pc} {t : Int} (h : x.Wakes t) : ¬ x.Delivers t := by
  cases x <;> first | exact h.elim | exact not_false

/-- Who delivers to `t` holds its lock. -/
theorem Delivers.held {x : Pc} {t self : Int} (h : x.Delivers t) : x.held self = some t := by
  cases x <;> first | exact h.elim | exact congrArg some h

theorem Parting.leaving {x : Pc} (h : x.Parting) : x.Leaving := by
  cases x <;> first | exact h.elim | trivial

/-- Going from `x` to `y` makes no promise that `x` did not make. -/
structure Quiet (x y : Pc) : Prop where
  notEnqueue : ∀ r, y ≠ .sendEnqueue r
  notDequeue : y ≠ .recvDequeue
  notWaiting : ∀ t resch, y ≠ .waiting t resch
  wakes : ∀ t, y.Wakes t → x.Wakes t
  delivers : ∀ t, y.Delivers t → x.Delivers t

/-- A statement that makes no promise. -/
def Plain : Pc → Prop
  | sendEnqueue _ | recvDequeue | waiting _ _ | deposit _ _ _ | raise _ _ | recvRefill _
  | recvClear _ | wakeRelease _ _ _ | ready _ _ => False
  | _ => True

theorem Plain.quiet {x y : Pc} (h : y.Plain) : x.Quiet y := by
  cases y <;> first | exact h.elim | exact ⟨nofun, nofun, nofun, nofun, nofun⟩

end Pc

namespace AbsKernel

variable {a b : AbsKernel} {c : Core} {p t w r : Int} {pc pc' : Int → Pc}
  {holder holder' : Int → Option Int} {x y : Pc}

/-! ### The invariant -/

/-- A process that is not current on its core is leaving, and a parting
process is on its core. -/
structure LockCores (a : AbsKernel) (pc : Int → Pc) : Prop where
  sched : a.SchedInv a.switching
  live : ∀ c, a.states (a.currpid c) ≠ .PRFREE
  leaving : ∀ c ∈ a.switching, (pc (a.currpid c)).Leaving
  parting : ∀ w, IsPid w → (pc w).Parting → ∃ c, a.currpid c = w

/-- The holder of a lock is the process between its `lock_acquire` and
its `lock_release`. -/
structure Exclusive (pc : Int → Pc) (holder : Int → Option Int) : Prop where
  holds : ∀ r w, holder r = some w ↔ IsPid w ∧ (pc w).held w = some r
  lockPid : ∀ w r, IsPid w → (pc w).held w = some r → IsPid r

/-- What the lock of a process says about its state. -/
structure LockOk (a : AbsKernel) (pc : Int → Pc) (p : Int) : Prop where
  dead : a.states p = .PRFREE → pc p = .running
  active : ∀ r, (pc p).held p = some r → ¬ (pc p).Parting → (a.states p).Active
  /-- A sender in a queue has released its lock, or is about to. -/
  queued : ∀ r, IsPid r → p ∈ a.queue (.senders r) →
    (pc p).held p = none ∨ (pc p).held p = some r
  receiving : a.states p = .PRRECV → (pc p).held p = none ∨ (pc p).held p = some p
  enqueuing : ∀ r, pc p = .sendEnqueue r → a.states p = .PRSEND ∧ ¬ a.Queued p
  dequeuing : pc p = .recvDequeue → a.queue (.senders p) ≠ []

/-- A process that can be woken: it sleeps on no queue and holds no
lock. -/
structure Sleeper (a : AbsKernel) (pc : Int → Pc) (t : Int) : Prop where
  pid : IsPid t
  unlocked : (pc t).held t = none
  notSender : ∀ r, IsPid r → t ∉ a.queue (.senders r)
  state : a.states t = .PRSEND ∨ a.states t = .PRRECV ∧ (a.proctab t).hasMessage = true

/-- The processes that are about to be woken. -/
structure Wakings (a : AbsKernel) (pc : Int → Pc) : Prop where
  target : ∀ w t, IsPid w → (pc w).Wakes t → a.Sleeper pc t
  distinct : ∀ w w' t, IsPid w → IsPid w' → (pc w).Wakes t → (pc w').Wakes t → w = w'
  /-- Nobody is about to wake a receiver that a message is put in for. -/
  delivering : ∀ w t, IsPid w → (pc w).Delivers t → a.states t = .PRRECV →
    ∀ w', IsPid w' → ¬ (pc w').Wakes t
  raised : ∀ w t resch, IsPid w → pc w = .waiting t resch → a.states t = .PRRECV →
    (a.proctab t).hasMessage = true

/-- The invariant between two statements. -/
structure Guarded (a : AbsKernel) (pc : Int → Pc) (holder : Int → Option Int) : Prop where
  cores : a.LockCores pc
  locks : Exclusive pc holder
  procs : ∀ p, IsPid p → a.LockOk pc p
  wakes : a.Wakings pc

/-- The invariant reads the process table, the current processes and the
queues only. -/
theorem Guarded.congr (h : a.Guarded pc holder) (hproc : b.proctab = a.proctab)
    (hcurr : b.currpid = a.currpid) (hqueue : b.queue = a.queue) : b.Guarded pc holder := by
  have hstates : b.states = a.states := by
    funext x
    exact congrArg Pcb.state (congrFun hproc x)
  have hswitch : b.switching = a.switching := by rw [AbsKernel.switching, hstates, hcurr]; rfl
  have hsched : b.SchedInv a.switching := h.cores.sched.congr
    ⟨hcurr, hqueue, congrFun hstates, fun x => by rw [hproc], fun x => by rw [hproc]⟩
  have hqueued : ∀ p, b.Queued p → a.Queued p := by
    rintro p ⟨q, hq, hm⟩
    exact ⟨q, hq, hqueue ▸ hm⟩
  refine ⟨⟨hswitch ▸ hsched, ?_, ?_, ?_⟩, h.locks, fun p hp => ?_, ?_⟩
  · rw [hcurr, hstates]
    exact h.cores.live
  · rw [hswitch, hcurr]
    exact h.cores.leaving
  · rw [hcurr]
    exact h.cores.parting
  · obtain ⟨hdead, hactive, hsend, hrecv, henq, hdeq⟩ := h.procs p hp
    refine ⟨hstates ▸ hdead, hstates ▸ hactive, hqueue ▸ hsend, hstates ▸ hrecv, ?_, hqueue ▸ hdeq⟩
    intro r hr
    rw [hstates]
    exact ⟨(henq r hr).1, fun hq => (henq r hr).2 (hqueued p hq)⟩
  · obtain ⟨htarget, hdistinct, hdel, hraised⟩ := h.wakes
    refine ⟨fun w t hw hwake => ?_, hdistinct, hstates ▸ hdel, ?_⟩
    · obtain ⟨hpid, hunl, hnot, hstate⟩ := htarget w t hw hwake
      exact ⟨hpid, hunl, hqueue ▸ hnot, by rwa [hstates, hproc]⟩
    · rw [hstates, hproc]
      exact hraised

/-- A process with a lock is on a core or ready. -/
theorem Guarded.active_or_current (h : a.Guarded pc holder) (hheld : holder r = some w) :
    (a.states w).Active ∨ ∃ c, a.currpid c = w := by
  obtain ⟨hw, hr⟩ := (h.locks.holds r w).mp hheld
  by_cases hpart : (pc w).Parting
  · exact Or.inr (h.cores.parting w hw hpart)
  · exact Or.inl ((h.procs w hw).active r hr hpart)

/-! ### Small facts -/

theorem Sleeper.ne_of_current (h : a.Sleeper pc t) (hcur : a.states p = .PRCURR) : t ≠ p := by
  rintro rfl
  rcases h.state with hs | ⟨hs, -⟩ <;> cases hcur.symm.trans hs

/-- A process that can be woken sleeps. -/
theorem Sleeper.asleep {idle : Set Core} (h : a.Sleeper pc t) (hsched : a.SchedInv idle) :
    a.Asleep t ∧ a.states t ≠ .PRSUSP := by
  have hnq : ¬ a.Queued t := by
    rw [queued_iff]
    rintro (⟨d, hd, hon⟩ | ⟨r, hr, hm⟩)
    · have hready := ((hsched.procs t h.pid).ready_state d hd hon).1
      rcases h.state with hs | ⟨hs, -⟩ <;> cases hready.symm.trans hs
    · exact h.notSender r hr hm
  rcases h.state with hs | ⟨hs, -⟩ <;>
    exact ⟨⟨h.pid, by simp [hs], by simp [hs], by simp [hs], hnq⟩, by simp [hs]⟩

/-- Two processes do not hold one lock. -/
theorem Exclusive.unique (h : Exclusive pc holder) {w' : Int} (hw : IsPid w) (hw' : IsPid w')
    (hheld : (pc w).held w = some r) (hheld' : (pc w').held w' = some r) : w = w' := by
  have h1 := (h.holds r w).mpr ⟨hw, hheld⟩
  have h2 := (h.holds r w').mpr ⟨hw', hheld'⟩
  exact Option.some.inj (h1.symm.trans h2)

/-- The process of a core that is not switching is current. -/
theorem LockCores.current (h : a.LockCores pc) (hx : ¬ (pc (a.currpid c)).Leaving) :
    a.states (a.currpid c) = .PRCURR := by
  by_contra hcur
  exact hx (h.leaving c hcur)

/-- A property that the new statement of `w` does not have: it is about
another process, and is not new. -/
theorem of_update {P : Pc → Prop} (h : P (update pc w y p)) (hy : ¬ P y) :
    p ≠ w ∧ P (pc p) := by
  have hpw : p ≠ w := by
    rintro rfl
    rw [update_self] at h
    exact hy h
  rw [update_of_ne hpw] at h
  exact ⟨hpw, h⟩

theorem held_update (hheld : y.held w = (pc w).held w) (p : Int) :
    (update pc w y p).held p = (pc p).held p := by
  by_cases hpw : p = w
  · rw [hpw, update_self, hheld]
  · rw [update_of_ne hpw]

/-- A process that a step does not concern. It joins no queue, and its own
queue does not run empty. -/
theorem LockOk.other (h : a.LockOk pc p) (hpc : pc' p = pc p) (hstate : b.states p = a.states p)
    (hqueue : ∀ q : Queue, p ∈ b.queue q → p ∈ a.queue q)
    (hsenders : a.queue (.senders p) ≠ [] → b.queue (.senders p) ≠ []) : b.LockOk pc' p where
  dead hs := by
    rw [hpc]
    exact h.dead (hstate ▸ hs)
  active r hheld hpart := by
    rw [hpc] at hheld hpart
    rw [hstate]
    exact h.active r hheld hpart
  queued r hr hmem := by
    rw [hpc]
    exact h.queued r hr (hqueue _ hmem)
  receiving hs := by
    rw [hpc]
    exact h.receiving (hstate ▸ hs)
  enqueuing r hr := by
    obtain ⟨hs, hnq⟩ := h.enqueuing r (hpc ▸ hr)
    refine ⟨hstate.trans hs, ?_⟩
    rintro ⟨q, hq, hmem⟩
    exact hnq ⟨q, hq, hqueue q hmem⟩
  dequeuing hd := hsenders (h.dequeuing (hpc ▸ hd))

/-- A process that goes on sleeping. -/
theorem Sleeper.other (h : a.Sleeper pc t) (hheld : (pc' t).held t = (pc t).held t)
    (hproc : b.proctab t = a.proctab t)
    (hqueue : ∀ r, t ∈ b.queue (.senders r) → t ∈ a.queue (.senders r)) : b.Sleeper pc' t where
  pid := h.pid
  unlocked := hheld.trans h.unlocked
  notSender r hr hmem := h.notSender r hr (hqueue r hmem)
  state := by
    have hstate : b.states t = a.states t := congrArg Pcb.state hproc
    rw [hstate, hproc]
    exact h.state

theorem SameSched.switching (h : SameSched a b) : b.switching = a.switching := by
  ext d
  simp only [AbsKernel.switching, Set.mem_ofPred_eq, h.currpid, h.states]

/-! ### Steps that do not concern the scheduler

The process of core `c` goes from the statement at `x` to the one at
`y`. -/

/-- What a step of the process of core `c` from `x` to `y` has to respect.
A process that is not current only leaves. It wakes or delivers to a new
process only if that one sleeps and nobody else has to do with it. -/
structure Moves (a b : AbsKernel) (pc : Int → Pc) (c : Core) (x y : Pc) : Prop where
  same : SameSched a b
  message : ∀ t, a.states t ≠ .PRCURR → (a.proctab t).hasMessage = true →
    (b.proctab t).hasMessage = true
  from_ : pc (a.currpid c) = x
  leaves : a.states (a.currpid c) ≠ .PRCURR → y.Leaving ∧
    (y.held (a.currpid c) = none ∨ y.held (a.currpid c) = x.held (a.currpid c))
  notEnqueue : ∀ r, y ≠ .sendEnqueue r
  nonempty : y = .recvDequeue → a.queue (.senders (a.currpid c)) ≠ []
  raises : ∀ t resch, y = .waiting t resch → (b.proctab t).hasMessage = true
  wakes : ∀ t, y.Wakes t → x.Wakes t ∨ a.Sleeper pc t ∧
    ∀ w, IsPid w → w ≠ a.currpid c → ¬ (pc w).Wakes t ∧ ¬ (pc w).Delivers t
  delivers : ∀ t, y.Delivers t → x.Delivers t ∨
    (a.states t = .PRRECV → ∀ w, IsPid w → ¬ (pc w).Wakes t)

theorem Moves.of_quiet (hx : pc (a.currpid c) = x) (hq : x.Quiet y) (hsame : SameSched a b)
    (hmsg : ∀ t, a.states t ≠ .PRCURR → (a.proctab t).hasMessage = true →
      (b.proctab t).hasMessage = true)
    (hleaves : a.states (a.currpid c) ≠ .PRCURR → y.Leaving ∧
      (y.held (a.currpid c) = none ∨ y.held (a.currpid c) = x.held (a.currpid c))) :
    Moves a b pc c x y where
  same := hsame
  message := hmsg
  from_ := hx
  leaves := hleaves
  notEnqueue := hq.notEnqueue
  nonempty hy := absurd hy hq.notDequeue
  raises t resch hy := absurd hy (hq.notWaiting t resch)
  wakes t hwake := Or.inl (hq.wakes t hwake)
  delivers t hdel := Or.inl (hq.delivers t hdel)

section Move
variable (hm : Moves a b pc c x y)
include hm

theorem LockCores.move (h : a.LockCores pc) : b.LockCores (update pc (a.currpid c) y) where
  sched := hm.same.switching.symm ▸ h.sched.congr hm.same
  live d := by
    rw [hm.same.currpid, hm.same.states]
    exact h.live d
  leaving d hd := by
    rw [hm.same.switching] at hd
    rw [hm.same.currpid]
    by_cases hdc : d = c
    · subst hdc
      rw [update_self]
      exact (hm.leaves hd).1
    · rw [update_of_ne (h.sched.currpid_ne hdc)]
      exact h.leaving d hd
  parting w hw hpart := by
    rw [hm.same.currpid]
    by_cases hwc : w = a.currpid c
    · exact ⟨c, hwc.symm⟩
    · rw [update_of_ne hwc] at hpart
      exact h.parting w hw hpart

/-- A process that is not current goes on to hold what it held, or
nothing. -/
theorem Moves.held (hp : a.states p ≠ .PRCURR) :
    (update pc (a.currpid c) y p).held p = none ∨
      (update pc (a.currpid c) y p).held p = (pc p).held p := by
  by_cases hpc : p = a.currpid c
  · subst hpc
    rw [update_self, hm.from_]
    exact (hm.leaves hp).2
  · rw [update_of_ne hpc]
    exact Or.inr rfl

theorem LockOk.move (h : a.LockOk pc p) (hok : a.ProcOk p)
    (hlive : a.states (a.currpid c) ≠ .PRFREE) :
    b.LockOk (update pc (a.currpid c) y) p where
  dead hs := by
    rw [hm.same.states] at hs
    rw [update_of_ne (by rintro rfl; exact hlive hs)]
    exact h.dead hs
  active r hheld hpart := by
    rw [hm.same.states]
    by_cases hpc : p = a.currpid c
    · subst hpc
      rw [update_self] at hheld hpart
      -- A process that is not active is on its way out, and only then it may hold
      -- a lock.
      by_contra hact
      have hcur : a.states (a.currpid c) ≠ .PRCURR := fun hs => hact (Or.inl hs)
      exact hpart ((hm.leaves hcur).1.parting hheld)
    · rw [update_of_ne hpc] at hheld hpart
      exact h.active r hheld hpart
  queued r hr hmem := by
    rw [hm.same.queue] at hmem
    have hs := hok.sending r hr hmem
    -- A sender in a queue is not current: it can only have let go.
    rcases hm.held (p := p) (by simp [hs]) with hnone | hsame
    · exact Or.inl hnone
    · rw [hsame]
      exact h.queued r hr hmem
  receiving hs := by
    rw [hm.same.states] at hs
    rcases hm.held (p := p) (by simp [hs]) with hnone | hsame
    · exact Or.inl hnone
    · rw [hsame]
      exact h.receiving hs
  enqueuing r hpc' := by
    by_cases hpc : p = a.currpid c
    · subst hpc
      rw [update_self] at hpc'
      exact absurd hpc' (hm.notEnqueue r)
    · rw [update_of_ne hpc] at hpc'
      obtain ⟨hs, hnq⟩ := h.enqueuing r hpc'
      refine ⟨(hm.same.states p).trans hs, ?_⟩
      rintro ⟨q, hq, hmem⟩
      exact hnq ⟨q, hq, hm.same.queue ▸ hmem⟩
  dequeuing hpc' := by
    rw [hm.same.queue]
    by_cases hpc : p = a.currpid c
    · subst hpc
      rw [update_self] at hpc'
      exact hm.nonempty hpc'
    · rw [update_of_ne hpc] at hpc'
      exact h.dequeuing hpc'

theorem Sleeper.move (h : a.Sleeper pc t) : b.Sleeper (update pc (a.currpid c) y) t where
  pid := h.pid
  unlocked := by
    have hcur : a.states t ≠ .PRCURR := fun hs => h.ne_of_current hs rfl
    rcases hm.held hcur with hnone | hsame
    · exact hnone
    · rw [hsame]
      exact h.unlocked
  notSender r hr hmem := h.notSender r hr (hm.same.queue ▸ hmem)
  state := by
    rw [hm.same.states]
    refine h.state.imp id fun hs => ⟨hs.1, ?_⟩
    exact hm.message t (by simp [hs.1]) hs.2

theorem Wakings.move (h : a.Wakings pc) (hself : IsPid (a.currpid c)) :
    b.Wakings (update pc (a.currpid c) y) := by
  -- What is new about the wakers: only the process of core `c` changed.
  have hold : ∀ w t, w ≠ a.currpid c → (update pc (a.currpid c) y w).Wakes t →
      (pc w).Wakes t := by
    intro w t hw hwake
    rwa [update_of_ne hw] at hwake
  have hnew : ∀ t, (update pc (a.currpid c) y (a.currpid c)).Wakes t →
      (pc (a.currpid c)).Wakes t ∨ a.Sleeper pc t ∧
        ∀ w, IsPid w → w ≠ a.currpid c → ¬ (pc w).Wakes t ∧ ¬ (pc w).Delivers t := by
    intro t hwake
    rw [update_self] at hwake
    rw [hm.from_]
    exact hm.wakes t hwake
  have hdistinct : ∀ w t, IsPid w → w ≠ a.currpid c →
      (update pc (a.currpid c) y (a.currpid c)).Wakes t → ¬ (pc w).Wakes t := by
    intro w t hw hne hwake hwake'
    rcases hnew t hwake with hwake | ⟨-, hothers⟩
    · exact hne (h.distinct w _ t hw hself hwake' hwake)
    · exact (hothers w hw hne).1 hwake'
  refine ⟨fun w t hw hwake => ?_, fun w w' t hw hw' hwake hwake' => ?_,
    fun w t hw hdel hs w' hw' hwake => ?_, fun w t resch hw hwait hs => ?_⟩
  · refine Sleeper.move hm ?_
    by_cases hwc : w = a.currpid c
    · subst hwc
      rcases hnew t hwake with hwake | ⟨hsleep, -⟩
      · exact h.target _ t hw hwake
      · exact hsleep
    · exact h.target w t hw (hold w t hwc hwake)
  · by_cases hwc : w = a.currpid c
    · subst hwc
      by_contra hne
      exact hdistinct w' t hw' (Ne.symm hne) hwake (hold w' t (Ne.symm hne) hwake')
    · by_cases hwc' : w' = a.currpid c
      · subst hwc'
        exact absurd (hold w t hwc hwake) (hdistinct w t hw hwc hwake')
      · exact h.distinct w w' t hw hw' (hold w t hwc hwake) (hold w' t hwc' hwake')
  · rw [hm.same.states] at hs
    by_cases hwc : w = a.currpid c
    · subst hwc
      by_cases hwc' : w' = a.currpid c
      · subst hwc'
        exact hwake.not_delivers hdel
      · have hwake := hold w' t hwc' hwake
        rw [update_self] at hdel
        rcases hm.delivers t hdel with hdel | hnone
        · exact h.delivering _ t hw (hm.from_.symm ▸ hdel) hs w' hw' hwake
        · exact hnone hs w' hw' hwake
    · rw [update_of_ne hwc] at hdel
      by_cases hwc' : w' = a.currpid c
      · subst hwc'
        rcases hnew t hwake with hwake | ⟨-, hothers⟩
        · exact h.delivering w t hw hdel hs _ hw' hwake
        · exact (hothers w hw hwc).2 hdel
      · exact h.delivering w t hw hdel hs w' hw' (hold w' t hwc' hwake)
  · by_cases hwc : w = a.currpid c
    · subst hwc
      rw [update_self] at hwait
      exact hm.raises t resch hwait
    · rw [update_of_ne hwc] at hwait
      rw [hm.same.states] at hs
      exact hm.message t (by simp [hs]) (h.raised w t resch hw hwait hs)

/-- A step that does not concern the scheduler keeps the invariant, if
it keeps the locks in order. -/
theorem Guarded.move (h : a.Guarded pc holder)
    (hlocks : Exclusive (update pc (a.currpid c) y) holder') :
    b.Guarded (update pc (a.currpid c) y) holder' where
  cores := h.cores.move hm
  locks := hlocks
  procs p hp := (h.procs p hp).move hm (h.cores.sched.procs p hp) (h.cores.live c)
  wakes := h.wakes.move hm (h.cores.sched.pid c)

end Move

/-! ### Locks -/

section Exclusive
variable (h : Exclusive pc holder) (hw : IsPid w)
include h

/-- A statement that leaves the locks alone. -/
theorem Exclusive.congr (hsame : y.held w = (pc w).held w) :
    Exclusive (update pc w y) holder := by
  have hheld : ∀ v, (update pc w y v).held v = (pc v).held v := by
    intro v
    by_cases hv : v = w
    · subst hv
      rw [update_self, hsame]
    · rw [update_of_ne hv]
  refine ⟨fun r v => ?_, fun v r hv hr => ?_⟩
  · rw [hheld]
    exact h.holds r v
  · rw [hheld] at hr
    exact h.lockPid v r hv hr

include hw

/-- `lock_acquire` of a lock that is not taken. -/
theorem Exclusive.acquire (hr : IsPid r) (hfree : holder r = none) (hbefore : (pc w).held w = none)
    (hafter : y.held w = some r) :
    Exclusive (update pc w y) (update holder r (some w)) := by
  refine ⟨fun q v => ?_, fun v q hv hq => ?_⟩
  · by_cases hv : v = w
    · subst hv
      rw [update_self, hafter]
      by_cases hqr : q = r
      · subst hqr
        simp [hw]
      · rw [update_of_ne hqr, h.holds q v, hbefore]
        simp [Ne.symm hqr]
    · rw [update_of_ne hv]
      by_cases hqr : q = r
      · subst hqr
        rw [update_self, ← h.holds q v, hfree]
        simp [Ne.symm hv]
      · rw [update_of_ne hqr]
        exact h.holds q v
  · by_cases hv' : v = w
    · subst hv'
      rw [update_self, hafter] at hq
      exact Option.some.inj hq ▸ hr
    · rw [update_of_ne hv'] at hq
      exact h.lockPid v q hv hq

/-- `lock_release`. -/
theorem Exclusive.release (hbefore : (pc w).held w = some r) (hafter : y.held w = none) :
    Exclusive (update pc w y) (update holder r none) := by
  refine ⟨fun q v => ?_, fun v q hv hq => ?_⟩
  · by_cases hv : v = w
    · subst hv
      rw [update_self, hafter]
      by_cases hqr : q = r
      · subst hqr
        simp
      · rw [update_of_ne hqr, h.holds q v, hbefore]
        simp [Ne.symm hqr]
    · rw [update_of_ne hv]
      by_cases hqr : q = r
      · subst hqr
        rw [update_self]
        constructor
        · intro hnone
          cases hnone
        · rintro ⟨hv', hq⟩
          exact absurd (h.unique hv' hw hq hbefore) hv
      · rw [update_of_ne hqr]
        exact h.holds q v
  · by_cases hv' : v = w
    · subst hv'
      rw [update_self, hafter] at hq
      cases hq
    · rw [update_of_ne hv'] at hq
      exact h.lockPid v q hv hq

end Exclusive

/-! ### Switching -/

/-- The statements that `pc'` has beyond `pc` belong to the process of
core `c`, which neither parts nor takes up anything new. -/
structure Resumes (a : AbsKernel) (pc pc' : Int → Pc) (c : Core) : Prop where
  others : ∀ x, x ≠ a.currpid c → pc' x = pc x
  notParting : ¬ (pc' (a.currpid c)).Parting
  held : ∀ x, (pc' x).held x = (pc x).held x
  wakes : ∀ x t, (pc' x).Wakes t → (pc x).Wakes t
  delivers : ∀ x t, (pc' x).Delivers t → (pc x).Delivers t
  waiting : ∀ x t resch, pc' x = .waiting t resch → pc x = .waiting t resch
  dequeue : ∀ x, pc' x = .recvDequeue → pc x = .recvDequeue

/-- A process that stays where it is. -/
theorem Resumes.refl (h : ¬ (pc (a.currpid c)).Parting) : Resumes a pc pc c :=
  ⟨fun _ _ => rfl, h, fun _ => rfl, fun _ _ hw => hw, fun _ _ hd => hd, fun _ _ _ hw => hw,
    fun _ hd => hd⟩

/-- A process that returns from `resched`. -/
theorem Resumes.update (hy : y = .running ∨ y = .recvReacquire)
    (hheld : (pc (a.currpid c)).held (a.currpid c) = none) :
    Resumes a pc (update pc (a.currpid c) y) c where
  others x hx := update_of_ne hx _ _
  notParting := by
    rw [update_self]
    rcases hy with rfl | rfl <;> exact not_false
  held := by
    refine held_update ?_
    rw [hheld]
    rcases hy with rfl | rfl <;> rfl
  wakes x t hw := by
    refine (of_update (P := (·.Wakes t)) hw ?_).2
    rcases hy with rfl | rfl <;> exact not_false
  delivers x t hd := by
    refine (of_update (P := (·.Delivers t)) hd ?_).2
    rcases hy with rfl | rfl <;> exact not_false
  waiting x t resch hw := by
    refine (of_update (P := (· = .waiting t resch)) hw ?_).2
    rcases hy with rfl | rfl <;> exact nofun
  dequeue x hd := by
    refine (of_update (P := (· = .recvDequeue)) hd ?_).2
    rcases hy with rfl | rfl <;> exact nofun

theorem Exclusive.resumes (h : Exclusive pc holder) (hres : Resumes a pc pc' c) :
    Exclusive pc' holder := by
  refine ⟨fun r w => ?_, fun w r hw hr => ?_⟩
  · rw [hres.held]
    exact h.holds r w
  · rw [hres.held] at hr
    exact h.lockPid w r hw hr

/-- Scheduling keeps the locks of a process in order. -/
theorem LockOk.rescheduled (h : a.LockOk pc p) (hrs : Rescheduled a b) (hok : b.ProcOk p)
    (hheld : (pc' p).held p = (pc p).held p)
    (hpart : ¬ (pc' p).Parting → ¬ (pc p).Parting)
    (henq : ∀ r, pc' p = .sendEnqueue r → pc p = .sendEnqueue r)
    (hdead : a.states p = .PRFREE → pc' p = pc p)
    (hdeq : pc' p = .recvDequeue → pc p = .recvDequeue) : b.LockOk pc' p where
  dead hs := by
    have hs := (hrs.states_eq_iff (by simp [PrState.Active])).mp hs
    rw [hdead hs]
    exact h.dead hs
  active r hr hnp := hrs.active (h.active r (hheld ▸ hr) (hpart hnp))
  queued r hr hmem := by
    rw [hheld]
    exact h.queued r hr (hrs.senders r ▸ hmem)
  receiving hs := by
    rw [hheld]
    exact h.receiving ((hrs.states_eq_iff (by simp [PrState.Active])).mp hs)
  enqueuing r hr := by
    obtain ⟨hs, hnq⟩ := h.enqueuing r (henq r hr)
    have hs' : b.states p = .PRSEND := (hrs.states_eq_iff (by simp [PrState.Active])).mpr hs
    refine ⟨hs', ?_⟩
    rw [queued_iff]
    rintro (⟨d, hd, hon⟩ | ⟨q, hq, hmem⟩)
    · cases hs'.symm.trans (hok.ready_state d hd hon).1
    · exact hnq (queued_iff.mpr (Or.inr ⟨q, hq, hrs.senders q ▸ hmem⟩))
  dequeuing hpc' := hrs.senders p ▸ h.dequeuing (hdeq hpc')

theorem Wakings.rescheduled (h : a.Wakings pc) (hrs : Rescheduled a b)
    (hres : Resumes a pc pc' c) : b.Wakings pc' where
  target w t hw hwake := by
    obtain ⟨hpid, hunl, hsend, hstate⟩ := h.target w t hw (hres.wakes w t hwake)
    refine ⟨hpid, (hres.held t).trans hunl, fun r hr hmem => hsend r hr (hrs.senders r ▸ hmem), ?_⟩
    rw [hrs.states_eq_iff (by simp [PrState.Active]), hrs.states_eq_iff (by simp [PrState.Active]),
      hrs.pcb]
    exact hstate
  distinct w w' t hw hw' hwake hwake' :=
    h.distinct w w' t hw hw' (hres.wakes w t hwake) (hres.wakes w' t hwake')
  delivering w t hw hdel hs w' hw' hwake :=
    h.delivering w t hw (hres.delivers w t hdel)
      ((hrs.states_eq_iff (by simp [PrState.Active])).mp hs) w' hw' (hres.wakes w' t hwake)
  raised w t resch hw hwait hs := by
    rw [hrs.pcb]
    exact h.raised w t resch hw (hres.waiting w t resch hwait)
      ((hrs.states_eq_iff (by simp [PrState.Active])).mp hs)

/-- `resched` on core `c`, whose process is not parting. -/
theorem Guarded.resched (h : a.Guarded pc holder) (hwf : a.Wf) (hb : a.resched c = some b)
    (hres : Resumes a pc pc' c) (hx : ¬ (pc (a.currpid c)).Parting) : b.Guarded pc' holder := by
  have hsched := h.cores.sched.resched hwf hb
  have hrs := h.cores.sched.rescheduled hwf hb
  have hother : ∀ {d : Core}, d ≠ c → pc' (a.currpid d) = pc (a.currpid d) := fun hd =>
    hres.others _ (h.cores.sched.currpid_ne hd)
  refine ⟨⟨hsched.switching_eq.symm ▸ hsched, fun d => ?_, fun d hd => ?_, fun w hw hpart => ?_⟩,
    h.locks.resumes hres, fun p hp => ?_, h.wakes.rescheduled hrs hres⟩
  · by_cases hd : d = c
    · subst hd
      have hcur := hsched.current d fun hmem => hmem.2 rfl
      simp [hcur]
    · rw [resched_currpid hb hd]
      exact fun hfree => h.cores.live d ((hrs.states_eq_iff (by simp [PrState.Active])).mp hfree)
  · rw [hsched.switching_eq] at hd
    obtain ⟨hmem, hdc⟩ := hd
    have hdc : d ≠ c := hdc
    rw [resched_currpid hb hdc, hother hdc]
    exact h.cores.leaving d hmem
  · -- A parting process is on another core, which `resched` leaves alone.
    have hwc : w ≠ a.currpid c := by
      rintro rfl
      exact hres.notParting hpart
    rw [hres.others w hwc] at hpart
    obtain ⟨d, hd⟩ := h.cores.parting w hw hpart
    have hdc : d ≠ c := by
      rintro rfl
      exact hwc hd.symm
    exact ⟨d, by rw [resched_currpid hb hdc, hd]⟩
  · refine (h.procs p hp).rescheduled hrs (hsched.procs p hp) (hres.held p) (fun hnp => ?_)
      (fun r hr => ?_) (fun hs => hres.others p ?_) (hres.dequeue p)
    · by_cases hpc : p = a.currpid c
      · exact hpc ▸ hx
      · rwa [hres.others p hpc] at hnp
    · by_cases hpc : p = a.currpid c
      · subst hpc
        have hnp := hres.notParting
        rw [hr] at hnp
        exact absurd trivial hnp
      · rwa [hres.others p hpc] at hr
    · rintro rfl
      exact h.cores.live c hs

/-! ### Waking -/

section Wake
variable {core : Ulong} (ht : a.Asleep t) (hres : Resumes a pc pc' c)
  (hcur : a.states (a.currpid c) = .PRCURR)
include ht hres hcur

theorem LockCores.wake (h : a.LockCores pc) (hcore : a.states t = .PRSUSP → IsCore core.toInt) :
    (a.wake t core).LockCores pc' := by
  obtain ⟨d, hself, -⟩ := Vars.makeReady_self a.toVars t core
  have hcurr : (a.wake t core).currpid = a.currpid := Vars.makeReady_currpid
  have hsched := h.sched.wake ht hcore
  refine ⟨hsched.switching_eq.symm ▸ hsched, fun e => ?_, fun e he => ?_, fun w hw hpart => ?_⟩
  · rw [hcurr]
    by_cases he : a.currpid e = t
    · have hstate : (a.wake t core).states t = .PRREADY := congrArg Pcb.state hself
      rw [he, hstate]
      simp
    · have hstates : (a.wake t core).states (a.currpid e) = a.states (a.currpid e) :=
        congrArg Pcb.state (Vars.makeReady_of_ne he)
      rw [hstates]
      exact h.live e
  · rw [hsched.switching_eq] at he
    have hec : a.currpid e ≠ a.currpid c := by
      intro heq
      exact he (heq ▸ hcur)
    rw [hcurr, hres.others _ hec]
    exact h.leaving e he
  · rw [hcurr]
    have hwc : w ≠ a.currpid c := by
      rintro rfl
      exact hres.notParting hpart
    rw [hres.others w hwc] at hpart
    exact h.parting w hw hpart

theorem LockOk.wake (h : a.LockOk pc p) (henq : ∀ r, pc t ≠ .sendEnqueue r) :
    (a.wake t core).LockOk pc' p := by
  have hsend : ∀ r, (a.wake t core).queue (.senders r) = a.queue (.senders r) :=
    fun _ => senders_push
  have hne : a.currpid c ≠ t := fun heq => ht.notCurrent (heq ▸ hcur)
  have hqueued : ∀ r, IsPid r → p ∈ (a.wake t core).queue (.senders r) →
      (pc' p).held p = none ∨ (pc' p).held p = some r := by
    intro r hr hm
    rw [hres.held]
    exact h.queued r hr (hsend r ▸ hm)
  have hdequeuing : pc' p = .recvDequeue → (a.wake t core).queue (.senders p) ≠ [] := fun hd =>
    hsend p ▸ h.dequeuing (hres.dequeue p hd)
  by_cases hpt : p = t
  · subst hpt
    have hstate : (a.wake p core).states p = .PRREADY := Vars.makeReady_state ..
    refine ⟨fun hs => ?_, fun _ _ _ => Or.inr hstate, hqueued, fun hs => ?_, fun r hr => ?_,
      hdequeuing⟩
    · cases hstate.symm.trans hs
    · cases hstate.symm.trans hs
    · exact absurd (hres.others p (Ne.symm hne) ▸ hr) (henq r)
  · have hstate : (a.wake t core).states p = a.states p :=
      congrArg Pcb.state (Vars.makeReady_of_ne hpt)
    by_cases hpc : p = a.currpid c
    · -- The waker is current.
      subst hpc
      rw [hcur] at hstate
      refine ⟨fun hs => ?_, fun _ _ _ => Or.inl hstate, hqueued, fun hs => ?_, fun r hr => ?_,
        hdequeuing⟩
      · cases hstate.symm.trans hs
      · cases hstate.symm.trans hs
      · have hnp := hres.notParting
        rw [hr] at hnp
        exact absurd trivial hnp
    · refine h.other (hres.others p hpc) hstate (fun q hm => ?_) fun hne => hsend p ▸ hne
      exact (mem_push.mp hm).resolve_right fun heq => hpt heq.1

omit ht hcur in
theorem Wakings.wake (h : a.Wakings pc) (hwakes : ∀ w, IsPid w → ¬ (pc' w).Wakes t) :
    (a.wake t core).Wakings pc' := by
  have hstate : (a.wake t core).states t = .PRREADY := Vars.makeReady_state ..
  have hother : ∀ x, x ≠ t → (a.wake t core).proctab x = a.proctab x := fun x hx =>
    Vars.makeReady_of_ne hx
  have hstates : ∀ x, x ≠ t → (a.wake t core).states x = a.states x := fun x hx =>
    congrArg Pcb.state (hother x hx)
  have hsend : ∀ r, (a.wake t core).queue (.senders r) = a.queue (.senders r) :=
    fun _ => senders_push
  refine ⟨fun w x hw hwake => ?_, fun w w' x hw hw' hwk hwk' => ?_,
    fun w x hw hdel hs w' hw' hwake => ?_, fun w x resch hw hwait hs => ?_⟩
  · have hxt : x ≠ t := by
      rintro rfl
      exact hwakes w hw hwake
    exact (h.target w x hw (hres.wakes w x hwake)).other (hres.held x) (hother x hxt)
      fun r hm => hsend r ▸ hm
  · exact h.distinct w w' x hw hw' (hres.wakes w x hwk) (hres.wakes w' x hwk')
  · have hxt : x ≠ t := by
      rintro rfl
      exact hwakes w' hw' hwake
    exact h.delivering w x hw (hres.delivers w x hdel) (hstates x hxt ▸ hs) w' hw'
      (hres.wakes w' x hwake)
  · have hxt : x ≠ t := by
      rintro rfl
      cases hstate.symm.trans hs
    rw [hother x hxt]
    exact h.raised w x resch hw (hres.waiting w x resch hwait) (hstates x hxt ▸ hs)

/-- Waking a process that sleeps. The process of core `c` does it. -/
theorem Guarded.wake (h : a.Guarded pc holder)
    (hcore : a.states t = .PRSUSP → IsCore core.toInt) (henq : ∀ r, pc t ≠ .sendEnqueue r)
    (hwakes : ∀ w, IsPid w → ¬ (pc' w).Wakes t) : (a.wake t core).Guarded pc' holder where
  cores := h.cores.wake ht hres hcur hcore
  locks := h.locks.resumes hres
  procs p hp := (h.procs p hp).wake ht hres hcur henq
  wakes := h.wakes.wake hres hwakes

end Wake

/-! ### Blocking -/

section Block
variable (hcur : a.states (a.currpid c) = .PRCURR) {s : PrState}
  (hs : s = .PRRECV ∧ y = .recvRelease ∨ s = .PRSEND ∧ ∃ r, y = .sendEnqueue r)

include hs

/-- A process that blocks is about to part, and wakes nobody. -/
theorem parting_of_blocks : y.Parting ∧ (∀ t, ¬ y.Wakes t) ∧ (∀ t, ¬ y.Delivers t) ∧
    (∀ t resch, y ≠ .waiting t resch) ∧ y ≠ .recvDequeue := by
  rcases hs with ⟨-, rfl⟩ | ⟨-, r, rfl⟩
  · exact ⟨trivial, fun _ => not_false, fun _ => not_false, nofun, nofun⟩
  · exact ⟨trivial, fun _ => not_false, fun _ => not_false, nofun, nofun⟩

include hcur

theorem LockCores.block (h : a.LockCores pc) :
    (a.setState (a.currpid c) s).LockCores (update pc (a.currpid c) y) := by
  have hpart := (parting_of_blocks hs).1
  have hsched : (a.setState (a.currpid c) s).SchedInv (insert c a.switching) :=
    h.sched.block hcur (by rcases hs with ⟨rfl, -⟩ | ⟨rfl, -⟩ <;> simp)
  refine ⟨hsched.switching_eq.symm ▸ hsched, fun e => ?_, fun e he => ?_, fun w hw hp => ?_⟩
  · show (a.setState (a.currpid c) s).states (a.currpid e) ≠ .PRFREE
    by_cases he : a.currpid e = a.currpid c
    · rw [he, states_setState_self]
      rcases hs with ⟨rfl, -⟩ | ⟨rfl, -⟩ <;> simp
    · rw [states_setState_of_ne he]
      exact h.live e
  · rw [hsched.switching_eq] at he
    show (update pc (a.currpid c) y (a.currpid e)).Leaving
    by_cases hec : a.currpid e = a.currpid c
    · rw [hec, update_self]
      exact hpart.leaving
    · rw [update_of_ne hec]
      -- Core `c` itself is new among those whose process is not current.
      refine h.leaving e (he.resolve_left ?_)
      rintro rfl
      exact hec rfl
  · by_cases hwc : w = a.currpid c
    · exact ⟨c, hwc.symm⟩
    · rw [update_of_ne hwc] at hp
      exact h.parting w hw hp

/-- The process itself is on no queue. -/
theorem lockOk_block (hok : a.ProcOk (a.currpid c)) :
    (a.setState (a.currpid c) s).LockOk (update pc (a.currpid c) y) (a.currpid c) := by
  obtain ⟨hpart, -, -, -, hdeq⟩ := parting_of_blocks hs
  have hnq := hok.not_queued (by simp [hcur]) (by simp [hcur])
  refine ⟨fun hst => ?_, fun r _ hnp => ?_, fun r hr hm => ?_, fun hst => ?_, fun r hr => ?_,
    fun hd => ?_⟩
  · rw [states_setState_self] at hst
    rcases hs with ⟨rfl, -⟩ | ⟨rfl, -⟩ <;> cases hst
  · rw [update_self] at hnp
    exact absurd hpart hnp
  · exact absurd ⟨.senders r, hr, hm⟩ hnq
  · rw [update_self]
    rw [states_setState_self] at hst
    rcases hs with ⟨rfl, rfl⟩ | ⟨rfl, -⟩
    · exact Or.inr rfl
    · cases hst
  · rw [update_self] at hr
    rcases hs with ⟨-, rfl⟩ | ⟨rfl, -⟩
    · cases hr
    · exact ⟨states_setState_self, hnq⟩
  · rw [update_self] at hd
    exact absurd hd hdeq

theorem Wakings.block (h : a.Wakings pc) (hself : IsPid (a.currpid c))
    (hlocks : Exclusive pc holder)
    (hheld : y.held (a.currpid c) = (pc (a.currpid c)).held (a.currpid c)) :
    (a.setState (a.currpid c) s).Wakings (update pc (a.currpid c) y) := by
  obtain ⟨-, hnowake, hnodel, hnowait, -⟩ := parting_of_blocks hs
  have hwakes : ∀ {w t}, (update pc (a.currpid c) y w).Wakes t → (pc w).Wakes t :=
    fun {w t} hw => (of_update (P := (·.Wakes t)) hw (hnowake t)).2
  refine ⟨fun w x hw hwake => ?_, fun w w' x hw hw' hwk hwk' => ?_,
    fun w x hw hdel hst w' hw' hwake => ?_, fun w x resch hw hwait hst => ?_⟩
  · have hsleep := h.target w x hw (hwakes hwake)
    have hxc : x ≠ a.currpid c := hsleep.ne_of_current hcur
    exact hsleep.other (held_update hheld x) (update_of_ne hxc _ _) fun _ hm => hm
  · exact h.distinct w w' x hw hw' (hwakes hwk) (hwakes hwk')
  · obtain ⟨-, hdel⟩ := of_update (P := (·.Delivers x)) hdel (hnodel x)
    have hxc : x ≠ a.currpid c := (h.target w' x hw' (hwakes hwake)).ne_of_current hcur
    rw [states_setState_of_ne hxc] at hst
    exact h.delivering w x hw hdel hst w' hw' (hwakes hwake)
  · obtain ⟨hwc, hold⟩ := of_update (P := (· = .waiting x resch)) hwait (hnowait x resch)
    have hxc : x ≠ a.currpid c := by
      rintro rfl
      rw [states_setState_self] at hst
      rcases hs with ⟨rfl, rfl⟩ | ⟨rfl, -⟩
      · -- Both would hold the lock of the receiver.
        have hw' : (pc w).held w = some (a.currpid c) := by rw [hold]; rfl
        exact hwc (hlocks.unique hw hself hw' hheld.symm)
      · cases hst
    rw [states_setState_of_ne hxc] at hst
    show (update a.proctab _ _ x).hasMessage = true
    rw [update_of_ne hxc]
    exact h.raised w x resch hw hold hst

/-- The process of core `c` sets its state to `PRSEND` or `PRRECV`. -/
theorem Guarded.block (h : a.Guarded pc holder)
    (hheld : y.held (a.currpid c) = (pc (a.currpid c)).held (a.currpid c)) :
    (a.setState (a.currpid c) s).Guarded (update pc (a.currpid c) y) holder where
  cores := h.cores.block hcur hs
  locks := h.locks.congr hheld
  procs p hp := by
    by_cases hpc : p = a.currpid c
    · rw [hpc]
      exact lockOk_block hcur hs (h.cores.sched.procs _ (h.cores.sched.pid c))
    · exact (h.procs p hp).other (update_of_ne hpc _ _) (states_setState_of_ne hpc)
        (fun _ hm => hm) id
  wakes := h.wakes.block hcur hs (h.cores.sched.pid c) h.locks hheld

end Block

/-! ### The queues of senders -/

/-- A sender that is on no queue joins one. -/
theorem LockCores.enqueue (h : a.LockCores pc) (hs : a.states (a.currpid c) = .PRSEND)
    (hnq : ¬ a.Queued (a.currpid c)) :
    (a.push (.senders r) (a.currpid c)).LockCores
      (update pc (a.currpid c) (.sendRelease r)) := by
  have hok := h.sched.procs _ (h.sched.pid c)
  have hproc : (a.push (.senders r) (a.currpid c)).ProcOk (a.currpid c) := by
    refine ⟨?_, fun hready => ?_, fun _ _ _ => hs, hok.priority, hok.placed, hok.suspended⟩
    · rintro d hd ⟨i, hi, hm⟩
      rcases mem_push.mp hm with hm | ⟨-, heq⟩
      · exact absurd ⟨.ready d i, ⟨hd, hi⟩, hm⟩ hnq
      · cases heq
    · cases hs.symm.trans hready
  refine ⟨differs_push.same h.sched (fun _ => hproc) (fun d hd => hd ▸ h.sched.affinity d)
    (by simp [hs]) (by show a.states _ ≠ _; simp [hs]), h.live, fun e he => ?_, fun w hw hp => ?_⟩
  · show (update pc (a.currpid c) _ (a.currpid e)).Leaving
    by_cases hec : a.currpid e = a.currpid c
    · rw [hec, update_self]
      trivial
    · rw [update_of_ne hec]
      exact h.leaving e he
  · by_cases hwc : w = a.currpid c
    · exact ⟨c, hwc.symm⟩
    · rw [update_of_ne hwc] at hp
      exact h.parting w hw hp

/-- It is on this one queue only. -/
theorem lockOk_enqueue (hs : a.states w = .PRSEND) (hnq : ¬ a.Queued w) :
    (a.push (.senders r) w).LockOk (update pc w (.sendRelease r)) w := by
  refine ⟨fun hst => ?_, fun _ _ hnp => ?_, fun q hq hm => ?_, fun hst => ?_, fun q hq => ?_,
    fun hd => ?_⟩
  · cases hs.symm.trans hst
  · rw [update_self] at hnp
    exact absurd trivial hnp
  · rcases mem_push.mp hm with hm | ⟨-, heq⟩
    · exact absurd ⟨.senders q, hq, hm⟩ hnq
    · rw [update_self, Queue.senders.inj heq]
      exact Or.inr rfl
  · cases hs.symm.trans hst
  · rw [update_self] at hq
    cases hq
  · rw [update_self] at hd
    cases hd

theorem Wakings.enqueue (h : a.Wakings pc) (hheld : (pc w).held w = some r) :
    (a.push (.senders r) w).Wakings (update pc w (.sendRelease r)) := by
  have hwakes : ∀ {v t}, (update pc w (.sendRelease r) v).Wakes t → (pc v).Wakes t :=
    fun {v t} hv => (of_update (P := (·.Wakes t)) hv not_false).2
  refine ⟨fun v t hv hwake => ?_, fun v v' t hv hv' hwk hwk' => ?_,
    fun v t hv hdel hst v' hv' hwk => ?_, fun v t resch hv hwait hst => ?_⟩
  · have hsleep := h.target v t hv (hwakes hwake)
    -- The one who sleeps holds no lock.
    have htw : t ≠ w := by
      rintro rfl
      cases hheld.symm.trans hsleep.unlocked
    have hsame : (Pc.sendRelease r).held w = (pc w).held w := hheld.symm
    exact hsleep.other (held_update hsame t) rfl
      fun q hm => (mem_push.mp hm).resolve_right fun heq => htw heq.1
  · exact h.distinct v v' t hv hv' (hwakes hwk) (hwakes hwk')
  · obtain ⟨-, hdel⟩ := of_update (P := (·.Delivers t)) hdel not_false
    exact h.delivering v t hv hdel hst v' hv' (hwakes hwk)
  · obtain ⟨-, hwait⟩ := of_update (P := (· = .waiting t resch)) hwait nofun
    exact h.raised v t resch hv hwait hst

/-- The process of core `c` joins the queue of a mailbox. -/
theorem Guarded.enqueue (h : a.Guarded pc holder) (hx : pc (a.currpid c) = .sendEnqueue r) :
    (a.push (.senders r) (a.currpid c)).Guarded (update pc (a.currpid c) (.sendRelease r))
      holder := by
  obtain ⟨hs, hnq⟩ := (h.procs _ (h.cores.sched.pid c)).enqueuing r hx
  have hheld : (pc (a.currpid c)).held (a.currpid c) = some r := by rw [hx]; rfl
  refine ⟨h.cores.enqueue hs hnq, h.locks.congr hheld.symm, fun p hp => ?_, h.wakes.enqueue hheld⟩
  by_cases hpc : p = a.currpid c
  · rw [hpc]
    exact lockOk_enqueue hs hnq
  · refine (h.procs p hp).other (update_of_ne hpc _ _) rfl
      (fun q hm => (mem_push.mp hm).resolve_right fun heq => hpc heq.1) fun hne hnil => ?_
    obtain ⟨x, hx⟩ := List.exists_mem_of_ne_nil _ hne
    have hx' : x ∈ (a.push (.senders r) (a.currpid c)).queue (.senders p) :=
      mem_push.mpr (Or.inl hx)
    rw [hnil] at hx'
    exact absurd hx' List.not_mem_nil

section Dequeue
variable (hcur : a.states (a.currpid c) = .PRCURR)
include hcur

theorem LockCores.dequeue (h : a.LockCores pc) (hsched : b.SchedInv a.switching)
    (hstates : b.states = a.states) (hcurr : b.currpid = a.currpid) :
    b.LockCores (update pc (a.currpid c) (.recvRefill t)) where
  sched := hsched.switching_eq.symm ▸ hsched
  live e := by
    rw [hstates, hcurr]
    exact h.live e
  leaving e he := by
    rw [hsched.switching_eq] at he
    have hec : a.currpid e ≠ a.currpid c := fun heq => he (heq ▸ hcur)
    rw [hcurr, update_of_ne hec]
    exact h.leaving e he
  parting w hw hp := by
    rw [hcurr]
    exact h.parting w hw (of_update (P := Pc.Parting) hp not_false).2

theorem LockOk.dequeue (h : a.LockOk pc p)
    (hheld : (pc (a.currpid c)).held (a.currpid c) = some (a.currpid c)) :
    (a.pop (.senders (a.currpid c))).LockOk (update pc (a.currpid c) (.recvRefill t)) p := by
  by_cases hpc : p = a.currpid c
  · subst hpc
    have hsame : (Pc.recvRefill t).held (a.currpid c) = (pc (a.currpid c)).held (a.currpid c) :=
      hheld.symm
    refine ⟨fun hst => ?_, fun _ _ _ => Or.inl hcur, fun q hq hm => ?_, fun hst => ?_,
      fun q hq => ?_, fun hd => ?_⟩
    · cases hcur.symm.trans hst
    · rw [held_update hsame]
      exact h.queued q hq (mem_of_mem_pop hm)
    · cases hcur.symm.trans hst
    · rw [update_self] at hq
      cases hq
    · rw [update_self] at hd
      cases hd
  · refine h.other (update_of_ne hpc _ _) rfl (fun q hm => mem_of_mem_pop hm) fun hne => ?_
    show update a.queue _ _ (.senders p) ≠ []
    rwa [update_of_ne fun heq => hpc (Queue.senders.inj heq)]

omit hcur in
/-- The process takes up one waking, of somebody whom nobody wakes. -/
theorem Wakings.dequeue (h : a.Wakings pc) (hheld : (pc w).held w = some w)
    (hnew : ∀ v, IsPid v → ¬ (pc v).Wakes t) (hs : a.states t = .PRSEND)
    (hsleep : (a.pop (.senders w)).Sleeper (update pc w (.recvRefill t)) t) :
    (a.pop (.senders w)).Wakings (update pc w (.recvRefill t)) := by
  have hsame : (Pc.recvRefill t).held w = (pc w).held w := hheld.symm
  have hwakes : ∀ v x, (update pc w (.recvRefill t) v).Wakes x →
      v = w ∧ x = t ∨ v ≠ w ∧ (pc v).Wakes x := by
    intro v x hv
    by_cases hvw : v = w
    · subst hvw
      rw [update_self] at hv
      exact Or.inl ⟨rfl, hv.symm⟩
    · rw [update_of_ne hvw] at hv
      exact Or.inr ⟨hvw, hv⟩
  refine ⟨fun v x hv hwake => ?_, fun v v' x hv hv' hwk hwk' => ?_,
    fun v x hv hdel hst v' hv' hwk => ?_, fun v x resch hv hwait hst => ?_⟩
  · rcases hwakes v x hwake with ⟨-, rfl⟩ | ⟨-, hwake⟩
    · exact hsleep
    · exact (h.target v x hv hwake).other (held_update hsame x) rfl fun q hm => mem_of_mem_pop hm
  · rcases hwakes v x hwk with ⟨rfl, rfl⟩ | ⟨-, hold⟩ <;>
      rcases hwakes v' _ hwk' with ⟨rfl, hxt⟩ | ⟨-, hold'⟩
    · rfl
    · exact absurd hold' (hnew v' hv')
    · exact absurd (hxt ▸ hold) (hnew v hv)
    · exact h.distinct v v' x hv hv' hold hold'
  · obtain ⟨-, hdel⟩ := of_update (P := (·.Delivers x)) hdel not_false
    rcases hwakes v' x hwk with ⟨-, rfl⟩ | ⟨-, hwk⟩
    · cases hs.symm.trans hst
    · exact h.delivering v x hv hdel hst v' hv' hwk
  · obtain ⟨-, hwait⟩ := of_update (P := (· = .waiting x resch)) hwait nofun
    exact h.raised v x resch hv hwait hst

/-- The process of core `c` takes the first sender off its queue. It
holds its own lock, so the sender has released it. -/
theorem Guarded.dequeue (h : a.Guarded pc holder) (hwf : a.Wf) {l : List Int}
    (hx : pc (a.currpid c) = .recvDequeue) (hl : a.queue (.senders (a.currpid c)) = t :: l) :
    (a.pop (.senders (a.currpid c))).Guarded (update pc (a.currpid c) (.recvRefill t))
      holder := by
  have hself := h.cores.sched.pid c
  have hmem : t ∈ a.queue (.senders (a.currpid c)) := hl ▸ List.mem_cons_self
  obtain ⟨hsched, ht, hs, hgone⟩ := h.cores.sched.popSender hwf hself hl
  have hheld : (pc (a.currpid c)).held (a.currpid c) = some (a.currpid c) := by rw [hx]; rfl
  have htc : t ≠ a.currpid c := by
    rintro rfl
    cases hs.symm.trans hcur
  have hunl : (pc t).held t = none := by
    refine ((h.procs t ht).queued _ hself hmem).resolve_right fun hheldt => ?_
    exact htc (h.locks.unique ht hself hheldt hheld)
  refine ⟨h.cores.dequeue hcur hsched rfl rfl, h.locks.congr hheld.symm,
    fun p hp => (h.procs p hp).dequeue hcur hheld, h.wakes.dequeue hheld (fun w hw hwake => ?_) hs
      ⟨ht, ?_, fun q hq hm => hgone ⟨.senders q, hq, hm⟩, Or.inl hs⟩⟩
  · exact (h.wakes.target w t hw hwake).notSender _ hself hmem
  · rw [update_of_ne htc]
    exact hunl

end Dequeue

/-! ### Birth and death -/

/-- A process is entered into a free slot. -/
theorem Guarded.entered (h : a.Guarded pc holder) {args : Vars.CreateArgs} {saddr : Ulong}
    {idle : Set Core} (hp : IsPid p) (hfree : a.states p = .PRFREE) (hb : Entered a b args p saddr)
    (hsched : b.SchedInv idle) : b.Guarded pc holder := by
  have hpc := (h.procs p hp).dead hfree
  have hself : b.states p = .PRSUSP := by
    rw [Vars.states, hb.proctab, update_self]
    rfl
  have hother : ∀ x, x ≠ p → b.proctab x = a.proctab x := fun x hx => by
    rw [hb.proctab, update_of_ne hx]
  have hstates : ∀ x, x ≠ p → b.states x = a.states x :=
    fun x hx => congrArg Pcb.state (hother x hx)
  have hne : ∀ e, a.currpid e ≠ p := fun e heq => h.cores.live e (heq ▸ hfree)
  have hunl : ∀ r, (pc p).held p ≠ some r := fun r => by
    rw [hpc]
    exact fun hr => by cases hr
  refine ⟨⟨hsched.switching_eq.symm ▸ hsched, fun e => ?_, fun e he => ?_, fun w hw hpart => ?_⟩,
    h.locks, fun x hx => ?_, ⟨fun w x hw hwake => ?_, h.wakes.distinct,
      fun w x hw hdel hst w' hw' hwk => ?_, fun w x resch hw hwait hst => ?_⟩⟩
  · rw [hb.currpid, hstates _ (hne e)]
    exact h.cores.live e
  · have he : b.states (b.currpid e) ≠ .PRCURR := he
    rw [hb.currpid, hstates _ (hne e)] at he
    rw [hb.currpid]
    exact h.cores.leaving e he
  · rw [hb.currpid]
    exact h.cores.parting w hw hpart
  · have hokx := h.procs x hx
    by_cases hxp : x = p
    · subst hxp
      refine ⟨fun _ => hpc, fun r hr => absurd hr (hunl r), fun r hr hm => Or.inl ?_, fun hst => ?_,
        fun r hr => ?_, fun hd => by cases hpc.symm.trans hd⟩
      · rw [hpc]
        rfl
      · cases hself.symm.trans hst
      · cases hpc.symm.trans hr
    · exact hokx.other rfl (hstates x hxp) (fun q hm => hb.queue ▸ hm) fun hne => hb.queue ▸ hne
  · have hsleep := h.wakes.target w x hw hwake
    have hxp : x ≠ p := by
      rintro rfl
      rcases hsleep.state with hs | ⟨hs, -⟩ <;> cases hfree.symm.trans hs
    exact hsleep.other rfl (hother x hxp) fun r hm => hb.queue ▸ hm
  · have hxp : x ≠ p := by
      rintro rfl
      cases hself.symm.trans hst
    exact h.wakes.delivering w x hw hdel (hstates x hxp ▸ hst) w' hw' hwk
  · have hxp : x ≠ p := by
      rintro rfl
      cases hself.symm.trans hst
    rw [hother x hxp]
    exact h.wakes.raised w x resch hw hwait (hstates x hxp ▸ hst)

section Death
variable (h : a.Guarded pc holder) (hb : Killed a b p) (hsched : b.SchedInv a.switching)
include h hb hsched

/-- The cores after a process was killed. -/
theorem LockCores.killed (hcurr : ∀ d, d ≠ c → b.currpid d = a.currpid d)
    (haff : (a.proctab p).coreAffinity = c) (hx : ¬ (pc (a.currpid c)).Leaving) :
    b.LockCores pc := by
  have hc : c ∉ a.switching := fun hc => hx (h.cores.leaving c hc)
  refine ⟨hsched.switching_eq.symm ▸ hsched, fun e => ?_, fun e he => ?_, fun w hw hpart => ?_⟩
  · -- A process on another core is bound to that core, so it is not the one
    -- that is killed.
    by_cases hec : e = c
    · have hcur := hsched.current c hc
      simp [hec, hcur]
    · rw [hcurr e hec]
      have hep : a.currpid e ≠ p := by
        intro heq
        have hae := h.cores.sched.affinity e
        rw [heq, haff] at hae
        exact hec (Fin.ext (by exact_mod_cast hae.symm))
      exact fun hfree =>
        h.cores.live e ((hb.states_eq_iff hep (by simp [PrState.Active])).mp hfree)
  · rw [hsched.switching_eq] at he
    have hec : e ≠ c := by
      rintro rfl
      exact hc he
    rw [hcurr e hec]
    exact h.cores.leaving e he
  · obtain ⟨d, hd⟩ := h.cores.parting w hw hpart
    have hdc : d ≠ c := by
      rintro rfl
      exact hx (hd ▸ hpart.leaving)
    exact ⟨d, (hcurr d hdc).trans hd⟩

/-- The killed process is in no call, and the others are in theirs as
before. -/
theorem LockOk.killed (hpc : pc p = .running) {x : Int} (hxpid : IsPid x) : b.LockOk pc x := by
  have hok := h.procs x hxpid
  by_cases hxp : x = p
  · subst hxp
    refine ⟨fun _ => hpc, fun r hr => ?_, fun r hr hm => Or.inl ?_, fun hst => ?_, fun r hr => ?_,
      fun hd => by cases hpc.symm.trans hd⟩
    · rw [hpc] at hr
      cases hr
    · rw [hpc]
      rfl
    · cases hb.free.symm.trans hst
    · cases hpc.symm.trans hr
  · have hnot : ∀ {s : PrState}, ¬ s.Active → (b.states x = s ↔ a.states x = s) :=
      hb.states_eq_iff hxp
    refine ⟨fun hst => ?_, fun r hr hnp => ?_, fun r hr hm => ?_, fun hst => ?_, fun r hr => ?_,
      fun hd => hb.senders x hxpid ▸ hok.dequeuing hd⟩
    · exact hok.dead ((hnot (by simp [PrState.Active])).mp hst)
    · have hact := hok.active r hr hnp
      rcases hb.state x hxp with heq | ⟨-, hact'⟩
      · rwa [heq]
      · exact hact'
    · exact hok.queued r hr (hb.senders r hr ▸ hm)
    · exact hok.receiving ((hnot (by simp [PrState.Active])).mp hst)
    · obtain ⟨hst, hnq⟩ := hok.enqueuing r hr
      have hst' := (hnot (s := .PRSEND) (by simp [PrState.Active])).mpr hst
      refine ⟨hst', ?_⟩
      rw [queued_iff]
      rintro (⟨d, hd, hon⟩ | ⟨q, hq, hm⟩)
      · cases hst'.symm.trans ((hsched.procs x hxpid).ready_state d hd hon).1
      · exact hnq (queued_iff.mpr (Or.inr ⟨q, hq, hb.senders q hq ▸ hm⟩))

omit hsched in
/-- Nobody was about to wake the killed process. -/
theorem Wakings.killed (hsend : a.states p ≠ .PRSEND) (hrecv : a.states p ≠ .PRRECV) :
    b.Wakings pc := by
  have hnot : ∀ {s : PrState}, ¬ s.Active → ∀ x, x ≠ p → (b.states x = s ↔ a.states x = s) :=
    fun hs x hxp => hb.states_eq_iff hxp hs
  have halive : ∀ {x : Int} {s : PrState}, s ≠ .PRFREE → b.states x = s → x ≠ p := by
    rintro x s hs hst rfl
    exact hs (hst.symm.trans hb.free)
  refine ⟨fun w x hw hwake => ?_, h.wakes.distinct, fun w x hw hdel hst w' hw' hwk => ?_,
    fun w x resch hw hwait hst => ?_⟩
  · have hsleep := h.wakes.target w x hw hwake
    have hxp : x ≠ p := by
      rintro rfl
      rcases hsleep.state with hs | ⟨hs, -⟩
      · exact hsend hs
      · exact hrecv hs
    refine ⟨hsleep.pid, hsleep.unlocked,
      fun r hr hm => hsleep.notSender r hr (hb.senders r hr ▸ hm), ?_⟩
    rw [hnot (by simp [PrState.Active]) x hxp, hnot (by simp [PrState.Active]) x hxp, hb.pcb x hxp]
    exact hsleep.state
  · have hxp := halive (by decide) hst
    exact h.wakes.delivering w x hw hdel ((hnot (by simp [PrState.Active]) x hxp).mp hst) w' hw' hwk
  · have hxp := halive (by decide) hst
    rw [hb.pcb x hxp]
    exact h.wakes.raised w x resch hw hwait ((hnot (by simp [PrState.Active]) x hxp).mp hst)

/-- A process in no message call is killed from its core `c`. -/
theorem Guarded.killed (hcurr : ∀ d, d ≠ c → b.currpid d = a.currpid d)
    (haff : (a.proctab p).coreAffinity = c) (hpc : pc p = .running)
    (hsend : a.states p ≠ .PRSEND) (hrecv : a.states p ≠ .PRRECV)
    (hx : ¬ (pc (a.currpid c)).Leaving) : b.Guarded pc holder :=
  ⟨LockCores.killed h hb hsched hcurr haff hx, h.locks,
    fun _ hxpid => LockOk.killed h hb hsched hpc hxpid, Wakings.killed h hb hsend hrecv⟩

end Death

end AbsKernel

end Xinu
