import Xinu.Proofs.Kernel.Columns
import Xinu.Proofs.Kernel.Spinlock
import Xinu.System.Entry

/-!
# `Xinu.Proofs.Kernel.BadPid`: process ids that are refused

`enqueue`, `remove`, `ready`, `kill` and `send` test the process id before
they do anything else, so a bad one is refused and nothing has changed.
`sendnow` reads the lock of the slot and takes it before the test. For a
free slot this does no harm: the lock is given back, and its entry is
what it was (`LockRest.acquire_release`). For an id that is no index of
the process table it reads outside of the table.

`pidCall_refused_iff` says this of every state of the kernel that any run
leads to, with a table of locks that any calls of `lock_acquire` and
`lock_release` lead to, on any cores.
-/

namespace Xinu

open Lib Function

/-! ### Locks that are not held -/

/-- Not `lock_free`, which the kernel never calls. -/
def LockCall.Keeps : LockCall → Prop
  | .free _ => False
  | .create | .acquire _ _ | .release _ => True

/-- What any calls but `lock_free` lead to. -/
def LockRun.Unfreed (r : LockRun) : Prop :=
  Reaches LockRun.Booted (fun _ call => call.Keeps) LockRun.exec r

theorem unlocked_ne_locked : SPINLOCK_UNLOCKED ≠ SPINLOCK_LOCKED := by decide

/-- A lock that is not held belongs to no core, and a lock that is not
allocated is not held. -/
structure LockRest (t : Locktab) : Prop where
  open_ : ∀ lock < NLOCK, (t.locktab lock).lock = SPINLOCK_LOCKED ∨
    (t.locktab lock).lock = SPINLOCK_UNLOCKED ∧ (t.locktab lock).core = -1
  free : ∀ lock < NLOCK, (t.locktab lock).state = SPINLOCK_FREE →
    (t.locktab lock).lock ≠ SPINLOCK_LOCKED

namespace LockRest
variable {t t' : Locktab} {lock : Nat} {c : Core}

/-- An entry is written that is in order. -/
theorem setEnt (h : LockRest t) {e : Lockent}
    (hopen : e.lock = SPINLOCK_LOCKED ∨ e.lock = SPINLOCK_UNLOCKED ∧ e.core = -1)
    (hfree : e.state = SPINLOCK_FREE → e.lock ≠ SPINLOCK_LOCKED) : LockRest (t.setEnt lock e) := by
  have hent : ∀ x, (t.setEnt lock e).locktab x = if x = lock then e else t.locktab x := fun x =>
    update_apply ..
  refine ⟨fun x hx => ?_, fun x hx => ?_⟩
  · rw [hent]
    split
    · exact hopen
    · exact h.open_ x hx
  · rw [hent]
    split
    · exact hfree
    · exact h.free x hx

theorem step {r r' : LockRun} (hr : LockInv r) (h : LockRest r.table) {call : LockCall}
    (hcall : call.Keeps) (hrun : r.exec call = .ok r') : LockRest r'.table := by
  cases call with
  | create =>
    rcases hr.lockCreate with ⟨lock, hlock, hnew, -, hcreate⟩ | ⟨-, n, hn, hcreate⟩
    · simp only [LockRun.exec, hcreate, ok_bind] at hrun
      cases hrun
      -- The entry was free, so no core had the lock.
      have hfree := (hr.state_eq_free hlock).mpr hnew
      have hcore := ((h.open_ lock hlock).resolve_left (h.free lock hlock hfree)).2
      have hnext : LockRest (r.table.setEnt lock
          ⟨SPINLOCK_USED, SPINLOCK_UNLOCKED, (r.table.locktab lock).core⟩) :=
        h.setEnt (Or.inr ⟨rfl, hcore⟩) fun _ => unlocked_ne_locked
      exact ⟨hnext.open_, hnext.free⟩
    · simp only [LockRun.exec, hcreate, ok_bind] at hrun
      cases hrun
      exact ⟨h.open_, h.free⟩
  | free lock => exact hcall.elim
  | acquire cpuid lock =>
    obtain ⟨⟨res, table⟩, hacquire, hrun⟩ := bind_eq_ok hrun
    cases hrun
    rcases Locktab.withLock_eq_ok hacquire with ⟨-, rfl⟩ | ⟨-, -, hused, e, he, rfl⟩
    · exact h
    · split at he
      · cases he
      · cases he
        exact h.setEnt (Or.inl rfl) fun hfree => absurd hfree hused
  | release lock =>
    obtain ⟨⟨res, table⟩, hrelease, hrun⟩ := bind_eq_ok hrun
    cases hrun
    rcases Locktab.withLock_eq_ok hrelease with ⟨-, rfl⟩ | ⟨-, -, -, e, he, rfl⟩
    · exact h
    · cases he
      exact h.setEnt (Or.inr ⟨rfl, rfl⟩) fun _ => unlocked_ne_locked

theorem booted {r : LockRun} (hr : r.Booted) : LockRest r.table := by
  obtain ⟨locktab, rfl⟩ := hr
  refine ⟨fun lock hlock => ?_, fun lock hlock _ => ?_⟩
  · rw [Locktab.platforminit_locktab hlock]
    exact Or.inr ⟨rfl, rfl⟩
  · rw [Locktab.platforminit_locktab hlock]
    exact unlocked_ne_locked

/-- Taking an allocated lock and giving it back leaves the table as it
was. -/
theorem acquire_release {r : LockRun} (hr : LockInv r) (h : LockRest r.table)
    (hmem : lock ∈ r.allocated) (hopen : (r.table.locktab lock).lock ≠ SPINLOCK_LOCKED) :
    ∃ t, r.table.lockAcquire c lock = .ok (.ok, t) ∧ t.lockRelease lock = .ok (.ok, r.table) := by
  obtain ⟨hlock, hcore⟩ := (h.open_ lock (hr.lt lock hmem)).resolve_left hopen
  have hacquire : r.table.lockAcquire c lock = .ok (.ok, r.table.setEnt lock
      { r.table.locktab lock with lock := SPINLOCK_LOCKED, core := c }) :=
    hr.withLock_allocated hmem (if_neg hopen)
  refine ⟨_, hacquire, ?_⟩
  -- The allocated ids are the same, so the release finds the lock, too.
  have hr' := hr.step (c := .acquire c lock) (by simp only [LockRun.exec, hacquire, ok_bind]; rfl)
  have hmem' : lock ∈ (LockRun.mk _ r.allocated).allocated := hmem
  have hrelease := hr'.withLock_allocated hmem'
    (f := fun e => .ok { e with core := -1, lock := SPINLOCK_UNLOCKED }) rfl
  refine hrelease.trans ?_
  have hback : ({ r.table.locktab lock with core := -1, lock := SPINLOCK_UNLOCKED } : Lockent) =
      r.table.locktab lock := by
    rw [← hlock, ← hcore]
  simp only [Locktab.setEnt, update_self, update_idem, hback,
    update_eq_self]

end LockRest

theorem lockRest_of_unfreed {r : LockRun} (hr : r.Unfreed) : LockInv r ∧ LockRest r.table := by
  refine Reaches.induction (P := fun r => LockInv r ∧ LockRest r.table) hr ?_ ?_
  · intro r hboot
    exact ⟨.booted hboot, .booted hboot⟩
  · intro r call r' hs hcall hrun
    exact ⟨hs.1.step hrun, hs.2.step hs.1 hcall hrun⟩

/-! ### The machine -/

/-- The kernel is in a state that some run leads to, and the locks are as
some calls of `lock_acquire` and `lock_release` leave them. Those of the
process slots are allocated. -/
structure Machine.Attainable (m : Machine) : Prop where
  kernel : ∃ s : Sys, s.Attainable ∧ s.kernel = m.kernel
  locks : ∃ r : LockRun, r.Unfreed ∧ r.table = m.locks ∧
    ∀ pid, IsPid pid → m.coreComLock pid ∈ r.allocated

/-- `sysinit` has a lock for every call of `lock_create` that it makes. -/
theorem LockRun.Unfreed.lockCreates (n : Nat) : ∀ {r : LockRun}, r.Unfreed →
    r.allocated.length + n ≤ NLOCK → ∃ (ids : List Nat) (r' : LockRun), r'.Unfreed ∧
      ids.length = n ∧
      r.table.lockCreates n = .ok (ids.map some, r'.table) ∧
      ∀ x, x ∈ ids ∨ x ∈ r.allocated → x ∈ r'.allocated := by
  induction n with
  | zero =>
    intro r hr _
    exact ⟨[], r, hr, rfl, rfl, fun x hx => hx.resolve_left List.not_mem_nil⟩
  | succ n ih =>
    intro r hr hlen
    rcases (lockRest_of_unfreed hr).1.lockCreate with
      ⟨lock, hlock, hnew, -, hcreate⟩ | ⟨hfull, -⟩
    · have hr1 : LockRun.Unfreed ⟨_, lock :: r.allocated⟩ := Reaches.step (a := .create) hr trivial
        (by simp only [LockRun.exec, hcreate, ok_bind]; rfl)
      obtain ⟨ids, r', hr', hids, hrun, hmem⟩ := ih hr1 (by simp only [List.length_cons]; omega)
      refine ⟨lock :: ids, r', hr', by simp [hids], ?_, fun x hx => hmem x ?_⟩
      · simp only [Locktab.lockCreates, hcreate, ok_bind, hrun]
        rfl
      · simp only [List.mem_cons] at hx ⊢
        tauto
    · omega

/-- The machine after `sysinit`. -/
theorem Machine.attainable_sysinit (memheap maxaddr end_ : Ulong) (mem : Ulong → Ulong)
    (locktab : Nat → Lockent) :
    ∃ m, Machine.sysinit memheap maxaddr end_ mem locktab = .ok m ∧ m.Attainable ∧
      Kernel.sysinit memheap maxaddr end_ mem = .ok m.kernel := by
  obtain ⟨k, -, hk, -⟩ := Kernel.sysinit_spec memheap maxaddr end_ mem
  have hboot : LockRun.Unfreed ⟨Locktab.platforminit ⟨locktab, 0⟩, []⟩ := ⟨_, ⟨locktab, rfl⟩, .refl⟩
  -- Without this a process slot would have the lock `SYSERR`.
  have henough : 0 + numLocks ≤ NLOCK := by decide
  obtain ⟨ids, r, hr, hlen, hrun, hmem⟩ := hboot.lockCreates numLocks henough
  have hrun : (Locktab.platforminit ⟨locktab, 0⟩).lockCreates numLocks = _ := hrun
  refine ⟨_, by simp only [Machine.sysinit, hk, hrun, ok_bind]; rfl, ⟨?_, r, hr, rfl, ?_⟩, hk⟩
  · exact ⟨⟨k, fun _ => false⟩, ⟨_, ⟨⟨memheap, maxaddr, end_, mem, hk⟩, rfl⟩, .refl⟩, rfl⟩
  · intro pid hpid
    have hlt : 1 + NCORES + 2 * pid.toNat + 1 < ids.length := by
      have := hpid.2
      rw [hlen]
      simp only [numLocks, NCORES, NPROC] at *
      omega
    refine hmem _ (Or.inl ?_)
    simp [List.getElem?_eq_getElem hlt]

/-! ### The calls -/

/-- The call waits for a lock that is held. -/
def PidCall.Waits (m : Machine) (pid : Int) : PidCall → Prop
  | .sendnow _ => IsPid pid ∧ (m.locks.locktab (m.coreComLock pid)).lock = SPINLOCK_LOCKED
  | _ => False

namespace Machine
variable {m : Machine} {c : Core} {pid msg : Int}

/-- `sendnow` on a free slot takes the lock and gives it back. -/
theorem sendnow_free (hm : m.Attainable) (hpid : IsPid pid)
    (hbad : isbadpid m.kernel.states pid = true)
    (hopen : (m.locks.locktab (m.coreComLock pid)).lock ≠ SPINLOCK_LOCKED) :
    m.sendnow c pid msg = .ok (SYSERRint, m) := by
  obtain ⟨r, hr, htable, hids⟩ := hm.locks
  obtain ⟨hinv, hrest⟩ := lockRest_of_unfreed hr
  -- The lock is taken for a slot that has no process, and given back.
  rw [← htable] at hopen
  obtain ⟨t, hacquire, hrelease⟩ := hrest.acquire_release (c := c) hinv (hids pid hpid) hopen
  rw [htable] at hacquire hrelease
  have hpcb : m.kernel.pcb pid = .ok (m.kernel.proctab pid) := if_pos hpid
  have hlock : m.comLock pid = .ok (m.coreComLock pid) := by
    simp only [comLock, hpcb, ok_bind]
    rfl
  have htaken : m.acquire c (m.coreComLock pid) = .ok { m with locks := t } := by
    simp only [acquire, hacquire, ok_bind]
    rfl
  have hgiven : release { m with locks := t } (m.coreComLock pid) = .ok m := by
    simp only [release, hrelease, ok_bind]
    rfl
  have hsection : m.kernel.sendnowSection pid msg = .ok (.ret .syserr, m.kernel) := by
    simp only [Kernel.sendnowSection, hpcb, ok_bind]
    exact if_pos hbad
  simp only [sendnow, hlock, htaken, hsection, hgiven, ok_bind]
  rfl

theorem sendnow_outOfBounds (hpid : ¬ IsPid pid) : m.sendnow c pid msg = .error .outOfBounds := by
  have hpcb : m.kernel.pcb pid = .error .outOfBounds := if_neg hpid
  simp only [sendnow, comLock, hpcb]
  rfl

end Machine

/-- A bad process id is refused by each of the six calls, with nothing
changed and no access outside of a table, unless the call is `sendnow`
and the id is no index of the process table. -/
theorem pidCall_refused_iff {m : Machine} (hm : m.Attainable) (c : Core) {pid : Int}
    (hbad : isbadpid m.kernel.states pid = true) (call : PidCall) (hwait : ¬ call.Waits m pid) :
    call.run m c pid = .ok (SYSERRint, m) ↔ ((∃ msg, call = .sendnow msg) → IsPid pid) := by
  cases call with
  | sendnow msg =>
    constructor
    · intro hrun _
      by_contra hpid
      rw [PidCall.run, Machine.sendnow_outOfBounds hpid] at hrun
      cases hrun
    · intro hpid
      have hpid := hpid ⟨msg, rfl⟩
      exact Machine.sendnow_free hm hpid hbad fun hheld => hwait ⟨hpid, hheld⟩
  | enqueue q =>
    refine iff_of_true ?_ fun h => by obtain ⟨msg, h⟩ := h; cases h
    exact if_pos (by rw [hbad, Bool.or_true])
  | remove =>
    refine iff_of_true ?_ fun h => by obtain ⟨msg, h⟩ := h; cases h
    exact if_pos hbad
  | ready resch core =>
    refine iff_of_true ?_ fun h => by obtain ⟨msg, h⟩ := h; cases h
    rw [PidCall.run, Machine.ready, Kernel.ready, if_pos hbad]
    rfl
  | kill =>
    refine iff_of_true ?_ fun h => by obtain ⟨msg, h⟩ := h; cases h
    have href : m.kernel.killRefuses c pid = true := by simp [Vars.killRefuses, hbad]
    rw [PidCall.run, Machine.kill, Kernel.kill, if_pos href]
    rfl
  | send msg =>
    refine iff_of_true ?_ fun h => by obtain ⟨msg, h⟩ := h; cases h
    exact if_pos hbad

/-- `sendnow` to a free slot after `sysinit`. -/
theorem sendnow_refused_boot :
    ∃ m : Machine, m.Attainable ∧ m.sendnow 0 7 5 = .ok (SYSERRint, m) := by
  obtain ⟨m, hrun, hm, hk⟩ := Machine.attainable_sysinit 0x10000 0x90000 0x8000 (fun _ => 0)
    (fun _ => ⟨0, 0, 0⟩)
  have hbad : isbadpid m.kernel.states 7 = true := by
    have htest : (Kernel.sysinit 0x10000 0x90000 0x8000 (fun _ => 0)).toOption.all
        (fun k => isbadpid k.states 7) = true := by decide +kernel
    rw [hk] at htest
    exact htest
  have hopen : ¬ (PidCall.sendnow 5).Waits m 7 := by
    have htest : (Machine.sysinit 0x10000 0x90000 0x8000 (fun _ => 0)
        (fun _ => ⟨0, 0, 0⟩)).toOption.all
        (fun m => (m.locks.locktab (m.coreComLock 7)).lock ≠ SPINLOCK_LOCKED) = true := by
      decide +kernel
    rw [hrun] at htest
    exact fun hwait => of_decide_eq_true htest hwait.2
  exact ⟨m, hm, (pidCall_refused_iff hm 0 hbad (.sendnow 5) hopen).mpr fun _ => by decide⟩

/-- `sendnow` to the process ids before and after the table. -/
theorem sendnow_badpid : ∃ m : Machine, m.Attainable ∧
    isbadpid m.kernel.states (-1) = true ∧ m.sendnow 0 (-1) 5 = .error .outOfBounds ∧
    isbadpid m.kernel.states NPROC = true ∧ m.sendnow 0 NPROC 5 = .error .outOfBounds := by
  obtain ⟨m, -, hm, -⟩ := Machine.attainable_sysinit 0x10000 0x90000 0x8000 (fun _ => 0)
    (fun _ => ⟨0, 0, 0⟩)
  exact ⟨m, hm, rfl, Machine.sendnow_outOfBounds (by decide), rfl,
    Machine.sendnow_outOfBounds (by decide)⟩

end Xinu
