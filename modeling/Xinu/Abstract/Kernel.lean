import Xinu.System.Message

/-!
# `Xinu.Abstract.Kernel`: the kernel over lists

The abstract kernel has the variables of the kernel and, in place of the
queue table, one list of process ids for each queue: twelve ready queues
(one per core and priority), and for each process the senders that wait
for it.

Its operations say what the scheduler and the message calls are for, in
terms of these lists. An operation is `none` where the kernel faults,
which is the case of `dispatch` with no ready process. Locks, slots and
queue ids are gone. `Xinu.Proofs.Kernel.Refine` proves that the kernel
does what the abstract kernel does.
-/

namespace Xinu

open Function List

/-- A slot of the process table. -/
def IsPid (p : Int) : Prop := 0 ≤ p ∧ p < NPROC

instance (p : Int) : Decidable (IsPid p) := inferInstanceAs (Decidable (_ ∧ _))

/-- A core number. -/
def IsCore (d : Int) : Prop := 0 ≤ d ∧ d < NCORES

theorem isCore (c : Core) : IsCore c := by
  have := c.isLt
  exact ⟨by omega, by omega⟩

/-- The queues of the running kernel. -/
inductive Queue where
  | ready (core prio : Int)
  | senders (pid : Int)
deriving DecidableEq

namespace Queue

/-- The queue exists. -/
def Valid : Queue → Prop
  | ready core prio => IsCore core ∧ 0 ≤ prio ∧ prio < 3
  | senders pid => IsPid pid

/-- The queue's place in the order in which `sysinit` creates them. -/
def ix : Queue → Nat
  | senders pid => pid.toNat
  | ready core prio => 50 + 3 * core.toNat + prio.toNat

/-- The queue at a place of that order. -/
def ofIx (n : Nat) : Queue :=
  if n < 50 then senders n else ready ((n - 50) / 3 : Nat) ((n - 50) % 3 : Nat)

theorem valid_ready (c : Core) {i : Int} (hi : 0 ≤ i ∧ i < 3) : (ready c i).Valid :=
  ⟨isCore c, hi⟩

end Queue

/-- The kernel's variables, with lists for queues. -/
structure AbsKernel extends Vars where
  queue : Queue → List Int

namespace AbsKernel

def setPcb (a : AbsKernel) (pid : Int) (p : Pcb) : AbsKernel :=
  { a with toVars := a.toVars.setPcb pid p }

def setState (a : AbsKernel) (pid : Int) (s : PrState) : AbsKernel :=
  { a with toVars := a.toVars.setState pid s }

/-- `pid` joins the end of a queue. -/
def push (a : AbsKernel) (q : Queue) (pid : Int) : AbsKernel :=
  { a with queue := update a.queue q (a.queue q ++ [pid]) }

/-- The first process leaves a queue. -/
def pop (a : AbsKernel) (q : Queue) : AbsKernel :=
  { a with queue := update a.queue q (a.queue q).tail }

/-- `pid` leaves whatever queue it is on. -/
def erase (a : AbsKernel) (pid : Int) : AbsKernel :=
  { a with queue := fun q => (a.queue q).erase pid }

/-- The process is on some queue. -/
def Queued (a : AbsKernel) (pid : Int) : Prop := ∃ q : Queue, q.Valid ∧ pid ∈ a.queue q

/-- The process is on one of the three ready queues of the core. -/
def OnReady (a : AbsKernel) (core pid : Int) : Prop :=
  ∃ i, (0 ≤ i ∧ i < 3) ∧ pid ∈ a.queue (.ready core i)

/-! ### The scheduler -/

/-- The first process of priority `lo` moves to the end of priority
`hi`. -/
def promote (a : AbsKernel) (cpuid : Core) (lo hi : Int) : AbsKernel :=
  match a.queue (.ready cpuid lo) with
  | [] => a
  | pid :: _ => (a.pop (.ready cpuid lo)).push (.ready cpuid hi) pid

/-- The low-priority half of aging. -/
def ageLow (a : AbsKernel) (cpuid : Core) : AbsKernel :=
  let a := { a with toVars := a.tickLow cpuid }
  if a.promoteLow cpuid ≤ 0 then
    let a := a.promote cpuid PRIORITY_LOW PRIORITY_MED
    { a with toVars := a.resetLow cpuid }
  else a

/-- Aging: every `QUANTUM` calls a medium process is promoted, and every
`QUANTUM` times that happens a low one. -/
def age (a : AbsKernel) (cpuid : Core) : AbsKernel :=
  let a := { a with toVars := a.tickMedium cpuid }
  if a.promoteMedium cpuid ≤ 0 then
    let a := (a.promote cpuid PRIORITY_MED PRIORITY_HIGH).ageLow cpuid
    { a with toVars := a.resetMedium cpuid }
  else a

/-- A process that is still current goes to the end of its ready
queue. -/
def yield (a : AbsKernel) (cpuid : Core) : AbsKernel :=
  let old := a.currpid cpuid
  if (a.proctab old).state = .PRCURR then
    (a.setState old .PRREADY).push (.ready cpuid (a.proctab old).priority) old
  else a

def highestPrio (a : AbsKernel) (cpuid : Core) : Int :=
  if a.queue (.ready cpuid PRIORITY_HIGH) ≠ [] then PRIORITY_HIGH
  else if a.queue (.ready cpuid PRIORITY_MED) ≠ [] then PRIORITY_MED
  else PRIORITY_LOW

/-- `pid` becomes the current process of the core. -/
def run (a : AbsKernel) (cpuid : Core) (pid : Int) : AbsKernel :=
  { a with toVars := a.toVars.run cpuid pid }

/-- The first process of the highest priority becomes current. -/
def dispatch (a : AbsKernel) (cpuid : Core) : Option AbsKernel :=
  let q := Queue.ready cpuid (a.highestPrio cpuid)
  match a.queue q with
  | [] => none
  | pid :: _ => some ((a.pop q).run cpuid pid)

def resched (a : AbsKernel) (cpuid : Core) : Option AbsKernel :=
  ((a.age cpuid).yield cpuid).dispatch cpuid

section Lemmas
variable {a : AbsKernel} {c : Core} {p d lo hi : Int} {q : Queue}

/-- The current process goes to the end of its ready queue. -/
theorem yield_of_current (h : (a.proctab (a.currpid c)).state = .PRCURR) : a.yield c =
    (a.setState (a.currpid c) .PRREADY).push (.ready c (a.proctab (a.currpid c)).priority)
      (a.currpid c) :=
  if_pos h

/-- A process that has stopped does not. -/
theorem yield_of_stopped (h : (a.proctab (a.currpid c)).state ≠ .PRCURR) : a.yield c = a :=
  if_neg h

/-- What `dispatch` does: the first process of a ready queue runs. -/
theorem dispatch_eq_some {b : AbsKernel} (hb : a.dispatch c = some b) :
    ∃ r l, a.queue (.ready c (a.highestPrio c)) = r :: l ∧
      b = (a.pop (.ready c (a.highestPrio c))).run c r := by
  unfold dispatch at hb
  simp only at hb
  split at hb
  · cases hb
  · next r l hl => exact ⟨r, l, hl, (Option.some.inj hb).symm⟩

@[simp] theorem promote_toVars : (a.promote c lo hi).toVars = a.toVars := by
  unfold promote
  split <;> rfl

theorem ageLow_toVars : ∃ l, (a.ageLow c).toVars = { a.toVars with promoteLow := l } := by
  unfold ageLow
  simp only
  split
  · simp only [Vars.resetLow, promote_toVars, Vars.tickLow]
    exact ⟨_, rfl⟩
  · exact ⟨_, rfl⟩

/-- Aging changes no variable but the two counters. -/
theorem age_toVars : ∃ m l,
    (a.age c).toVars = { a.toVars with promoteMedium := m, promoteLow := l } := by
  unfold age
  simp only
  split
  · obtain ⟨l, hl⟩ := ageLow_toVars (c := c)
      (a := ({ a with toVars := a.tickMedium c } : AbsKernel).promote c PRIORITY_MED PRIORITY_HIGH)
    rw [promote_toVars] at hl
    have hreset := congrArg (fun v => Vars.resetMedium v c) hl
    exact ⟨_, _, hreset⟩
  · exact ⟨_, _, rfl⟩

@[simp] theorem age_proctab : (a.age c).proctab = a.proctab := by
  obtain ⟨m, l, h⟩ := age_toVars (a := a) (c := c)
  rw [h]

@[simp] theorem age_currpid : (a.age c).currpid = a.currpid := by
  obtain ⟨m, l, h⟩ := age_toVars (a := a) (c := c)
  rw [h]

@[simp] theorem age_numproc : (a.age c).numproc = a.numproc := by
  obtain ⟨m, l, h⟩ := age_toVars (a := a) (c := c)
  rw [h]

theorem mem_push {x : Int} {r : Queue} :
    p ∈ (a.push q x).queue r ↔ p ∈ a.queue r ∨ (p = x ∧ r = q) := by
  by_cases hr : r = q
  · subst hr
    simp [push]
  · simp [push, hr]

theorem mem_of_mem_pop {r : Queue} (h : p ∈ (a.pop q).queue r) : p ∈ a.queue r := by
  by_cases hr : r = q
  · subst hr
    simp only [pop, update_self] at h
    exact mem_of_mem_tail h
  · simpa [pop, hr] using h

theorem mem_pop {r : Queue} {x : Int} {l : List Int} (hl : a.queue q = x :: l)
    (h : p ∈ a.queue r) : p ∈ (a.pop q).queue r ∨ (p = x ∧ r = q) := by
  by_cases hr : r = q
  · subst hr
    rw [hl, mem_cons] at h
    simp only [pop, update_self, hl, tail_cons]
    exact h.symm.imp_right fun h => ⟨h, trivial⟩
  · exact Or.inl (by simpa [pop, hr] using h)

/-- Promotion moves a process within the ready queues of its core. -/
theorem onReady_promote (hlo : 0 ≤ lo ∧ lo < 3) (hhi : 0 ≤ hi ∧ hi < 3) :
    (a.promote c lo hi).OnReady d p ↔ a.OnReady d p := by
  unfold promote
  split
  · rfl
  · rename_i x l hl
    constructor
    · rintro ⟨i, hi, hp⟩
      rcases mem_push.mp hp with hp | ⟨rfl, hq⟩
      · exact ⟨i, hi, mem_of_mem_pop hp⟩
      · obtain ⟨rfl, rfl⟩ : d = c ∧ i = _ := by simpa using hq
        exact ⟨lo, hlo, hl ▸ mem_cons_self⟩
    · rintro ⟨i, hi', hp⟩
      rcases mem_pop hl hp with hp | ⟨rfl, hq⟩
      · exact ⟨i, hi', mem_push.mpr (Or.inl hp)⟩
      · obtain ⟨rfl, rfl⟩ : d = c ∧ i = _ := by simpa using hq
        exact ⟨hi, hhi, mem_push.mpr (Or.inr ⟨rfl, rfl⟩)⟩

theorem queue_promote (hq : ∀ i, q ≠ .ready c i) : (a.promote c lo hi).queue q = a.queue q := by
  unfold promote
  split
  · rfl
  · simp [push, pop, update_of_ne (hq _)]

theorem onReady_ageLow : (a.ageLow c).OnReady d p ↔ a.OnReady d p := by
  unfold ageLow
  simp only
  split
  · exact onReady_promote (a := { a with toVars := a.tickLow c }) (by decide) (by decide)
  · rfl

/-- Aging moves processes within the ready queues of its core. -/
theorem onReady_age : (a.age c).OnReady d p ↔ a.OnReady d p := by
  unfold age
  simp only
  split
  · exact onReady_ageLow.trans
      (onReady_promote (a := { a with toVars := a.tickMedium c }) (by decide) (by decide))
  · rfl

theorem queue_ageLow (hq : ∀ i, q ≠ .ready c i) : (a.ageLow c).queue q = a.queue q := by
  unfold ageLow
  simp only
  split
  · exact queue_promote hq
  · rfl

/-- Aging leaves all other queues alone. -/
theorem queue_age (hq : ∀ i, q ≠ .ready c i) : (a.age c).queue q = a.queue q := by
  unfold age
  simp only
  split
  · exact (queue_ageLow hq).trans (queue_promote hq)
  · rfl

@[simp] theorem senders_age {r : Int} : (a.age c).queue (.senders r) = a.queue (.senders r) :=
  queue_age fun _ => by simp

@[simp] theorem senders_push {i x r : Int} :
    (a.push (.ready d i) x).queue (.senders r) = a.queue (.senders r) := by
  simp [push]

@[simp] theorem senders_pop {i r : Int} :
    (a.pop (.ready d i)).queue (.senders r) = a.queue (.senders r) := by
  simp [pop]

/-- A queued process is on a ready queue or waits for another process. -/
theorem queued_iff : a.Queued p ↔ (∃ d, IsCore d ∧ a.OnReady d p) ∨
    ∃ r, IsPid r ∧ p ∈ a.queue (.senders r) := by
  constructor
  · rintro ⟨q, hq, hp⟩
    cases q with
    | ready d i => exact Or.inl ⟨d, hq.1, i, hq.2, hp⟩
    | senders r => exact Or.inr ⟨r, hq, hp⟩
  · rintro (⟨d, hd, i, hi, hp⟩ | ⟨r, hr, hp⟩)
    · exact ⟨.ready d i, ⟨hd, hi⟩, hp⟩
    · exact ⟨.senders r, hr, hp⟩

/-- Aging puts no process on a queue and takes none off. -/
theorem queued_age : (a.age c).Queued p ↔ a.Queued p := by
  simp only [queued_iff, onReady_age, senders_age]

theorem highestPrio_range : 0 ≤ a.highestPrio c ∧ a.highestPrio c < 3 := by
  unfold highestPrio
  split
  · decide
  · split <;> decide

end Lemmas

/-! ### Calls -/

/-- `pid` becomes ready and joins the queue of its core and priority. -/
def wake (a : AbsKernel) (pid : Int) (core : Ulong) : AbsKernel :=
  let a := { a with toVars := a.makeReady pid core }
  a.push (.ready (a.proctab pid).coreAffinity (a.proctab pid).priority) pid

/-- `ready` of a live process. -/
def ready (a : AbsKernel) (cpuid : Core) (pid : Int) (resch : Bool) (core : Ulong) :
    Option AbsKernel :=
  let a := a.wake pid core
  if resch ∧ (cpuid : Int) = (a.proctab pid).coreAffinity then a.resched cpuid else some a

/-- The `switch` of `kill`: the process leaves the system. -/
def killSwitch (a : AbsKernel) (cpuid : Core) (pid : Int) : Option AbsKernel :=
  match (a.proctab pid).state with
  | .PRCURR => (a.setState pid .PRFREE).resched cpuid
  | .PRREADY => some ((a.erase pid).setState pid .PRFREE)
  | _ => some (a.setState pid .PRFREE)

/-! ### Messages -/

/-- `sender` waits for `pid` with its message. -/
def park (a : AbsKernel) (sender pid msg : Int) : AbsKernel :=
  (a.setPcb sender { a.proctab sender with msgout := msg, state := .PRSEND }).push
    (.senders pid) sender

/-- The message goes into the mailbox of `pid`. -/
def deposit (a : AbsKernel) (pid msg : Int) : AbsKernel :=
  a.setPcb pid { a.proctab pid with msgin := msg, hasMessage := true }

/-- The mailbox of `self` is refilled from its first waiting sender. -/
def refill (a : AbsKernel) (self sender : Int) : AbsKernel :=
  let a := a.pop (.senders self)
  let a := a.setPcb self { a.proctab self with msgin := (a.proctab sender).msgout }
  a.setPcb sender { a.proctab sender with msgout := EMPTY }

/-- The mailbox of `self` becomes empty. -/
def drain (a : AbsKernel) (self : Int) : AbsKernel :=
  a.setPcb self { a.proctab self with hasMessage := false }

/-- The locked section of `send`: park at a full mailbox, fill an empty
one, and wake its owner if it waits. -/
def sendSection (a : AbsKernel) (sender pid msg : Int) : Kernel.After × AbsKernel :=
  if isbadpid a.states pid then (.ret .syserr, a)
  else if (a.proctab pid).hasMessage then (.block, a.park sender pid msg)
  else if (a.proctab pid).state = .PRRECV then (.wake pid true, a.deposit pid msg)
  else (.ret .ok, a.deposit pid msg)

/-- The locked section of `sendnow`: refuse at a full mailbox. -/
def sendnowSection (a : AbsKernel) (pid msg : Int) : Kernel.After × AbsKernel :=
  if isbadpid a.states pid ∨ (a.proctab pid).hasMessage then (.ret .syserr, a)
  else if (a.proctab pid).state = .PRRECV then (.wake pid false, a.deposit pid msg)
  else (.ret .ok, a.deposit pid msg)

/-- The second locked section of `recv`: the message, the sender to wake,
and the mailbox refilled or emptied. -/
def recvCollect (a : AbsKernel) (self : Int) : (Int × Option Int) × AbsKernel :=
  match a.queue (.senders self) with
  | [] => (((a.proctab self).msgin, none), a.drain self)
  | sender :: _ => (((a.proctab self).msgin, some sender), a.refill self sender)

end AbsKernel

end Xinu
