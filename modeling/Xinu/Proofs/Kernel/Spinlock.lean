import Xinu.Lib.Runs
import Xinu.System.Spinlock

/-!
# `Xinu.Proofs.Kernel.Spinlock`: lock ids do not clash

`LockRun` follows any sequence of calls on the table that `platforminit`
has cleared, and records which ids are allocated. The invariant says that
they are the entries marked as used.

The search of `lock_alloc` makes one lap from wherever the last one
stopped. `lockAllocLoop_spec` is by induction on the rounds: an entry
that was found is the cursor after some number of steps, and a search
without success has looked at all of them. With `Lib.exists_iterate_bump`
these are all the entries.

`lockOp_iff` is about the calls on an id that is not allocated. They are
refused, except on the id `NLOCK`, which `isbadlock` lets pass.
-/

namespace Xinu

open Lib Function List

variable {f : Lockent → Except Fault Lockent} {r : LockRun}

/-! ### Runs -/

/-- The table and the ids that are allocated. -/
structure LockRun where
  table : Locktab
  allocated : List Nat

inductive LockCall where
  | create
  | free (lock : Nat)
  | acquire (cpuid : Core) (lock : Nat)
  | release (lock : Nat)

namespace LockRun

/-- An id is allocated from the call that returns it until it is
freed. -/
def exec (r : LockRun) : LockCall → Except Fault LockRun
  | .create => do
    let (lock, table) ← r.table.lockCreate
    return ⟨table, lock.toList ++ r.allocated⟩
  | .free lock => do
    let (_, table) ← r.table.lockFree lock
    return ⟨table, r.allocated.erase lock⟩
  | .acquire cpuid lock => do
    let (_, table) ← r.table.lockAcquire cpuid lock
    return { r with table := table }
  | .release lock => do
    let (_, table) ← r.table.lockRelease lock
    return { r with table := table }

/-- Only allocated ids are freed. -/
def Permitted (r : LockRun) : LockCall → Prop
  | .free lock => lock ∈ r.allocated
  | _ => True

instance (r : LockRun) : DecidablePred r.Permitted := fun c => by
  rcases c <;> unfold Permitted <;> infer_instance

/-- The table after `platforminit`, with the static variable at zero. -/
def Booted (r : LockRun) : Prop :=
  ∃ locktab, r = ⟨Locktab.platforminit ⟨locktab, 0⟩, []⟩

def Reachable (r : LockRun) : Prop := Reaches Booted Permitted exec r

/-- What any calls lead to, on whatever ids. -/
def Attainable (r : LockRun) : Prop := Reaches Booted (fun _ _ => True) exec r

theorem Reachable.attainable (hr : r.Reachable) : r.Attainable :=
  Reaches.mono hr (fun _ h => h) fun _ _ _ => trivial

end LockRun

/-! ### The search -/

namespace Locktab
variable {t t' : Locktab} {lock : Nat}

theorem ent_of_lt (h : lock < NLOCK) : t.ent lock = .ok (t.locktab lock) := if_pos h

/-- The search returns. It has marked a free entry as used and left the
others alone, or it has looked at as many entries as it has rounds and
changed none. -/
theorem lockAllocLoop_spec (rounds : Nat) : ∀ t : Locktab, t.nextlock < NLOCK →
    (∃ lock, lock < NLOCK ∧ (t.locktab lock).state = SPINLOCK_FREE ∧
      lockAllocLoop rounds t = .ok (some lock, ⟨update t.locktab lock
        { t.locktab lock with state := SPINLOCK_USED }, lock⟩)) ∨
    (∀ k < rounds, (t.locktab ((bump NLOCK)^[k + 1] t.nextlock)).state ≠ SPINLOCK_FREE) ∧
      ∃ n < NLOCK, lockAllocLoop rounds t = .ok (none, { t with nextlock := n }) := by
  induction rounds with
  | zero => exact fun t ht => Or.inr ⟨by simp, t.nextlock, ht, rfl⟩
  | succ rounds ih =>
    intro t ht
    have hnext : t.bumpNextlock.nextlock < NLOCK := bump_lt ht
    by_cases hfree : (t.locktab t.bumpNextlock.nextlock).state = SPINLOCK_FREE
    · refine Or.inl ⟨t.bumpNextlock.nextlock, hnext, hfree, ?_⟩
      simp only [lockAllocLoop, ent_of_lt hnext, ok_bind]
      rw [if_pos (show (t.bumpNextlock.locktab t.bumpNextlock.nextlock).state = _ from hfree)]
      rfl
    · have hrun : lockAllocLoop (rounds + 1) t = lockAllocLoop rounds t.bumpNextlock := by
        simp only [lockAllocLoop, ent_of_lt hnext, ok_bind]
        exact if_neg hfree
      rw [hrun]
      rcases ih t.bumpNextlock hnext with hfound | ⟨hnone, n, hn, hrest⟩
      · exact Or.inl hfound
      · refine Or.inr ⟨fun k hk => ?_, n, hn, hrest⟩
        -- The first look is at the next entry, the others are those of the rest.
        cases k with
        | zero => exact hfree
        | succ k =>
          have hk' := hnone k (by omega)
          rwa [iterate_succ_apply]

/-- `lock_create` returns. It has taken a free entry, used and unlocked
now, or there is none and the entries are as they were. -/
theorem lockCreate_spec (ht : t.nextlock < NLOCK) :
    (∃ lock, lock < NLOCK ∧ (t.locktab lock).state = SPINLOCK_FREE ∧
      t.lockCreate = .ok (some lock, ⟨update t.locktab lock
        ⟨SPINLOCK_USED, SPINLOCK_UNLOCKED, (t.locktab lock).core⟩, lock⟩)) ∨
    (∀ lock < NLOCK, (t.locktab lock).state ≠ SPINLOCK_FREE) ∧
      ∃ n < NLOCK, t.lockCreate = .ok (none, { t with nextlock := n }) := by
  rcases lockAllocLoop_spec NLOCK t ht with ⟨lock, hlock, hfree, hrun⟩ | ⟨hnone, n, hn, hrun⟩
  · refine Or.inl ⟨lock, hlock, hfree, ?_⟩
    simp only [lockCreate, lockAlloc, hrun, ok_bind, ent_of_lt hlock, setEnt, update_self,
      update_idem]
    rfl
  · refine Or.inr ⟨fun lock hlock => ?_, n, hn, ?_⟩
    · obtain ⟨k, hk, rfl⟩ := exists_iterate_bump ht hlock
      exact hnone k hk
    · simp only [lockCreate, lockAlloc, hrun, ok_bind]
      rfl

/-- A call on one lock returns `SYSERR` and changes nothing, or it
changes the entry of a lock that is not free. -/
theorem withLock_eq_ok {res : Syscall} (hrun : t.withLock lock f = .ok (res, t')) :
    (res = .syserr ∧ t' = t) ∨ (res = .ok ∧ lock < NLOCK ∧ (t.locktab lock).state ≠ SPINLOCK_FREE ∧
      ∃ e, f (t.locktab lock) = .ok e ∧ t' = t.setEnt lock e) := by
  obtain ⟨bad, hbad, hrun⟩ := bind_eq_ok hrun
  cases bad with
  | true =>
    cases hrun
    exact Or.inl ⟨rfl, rfl⟩
  | false =>
    obtain ⟨e, hent, hrun⟩ := bind_eq_ok hrun
    obtain ⟨e', hf, hrun⟩ := bind_eq_ok hrun
    cases hrun
    have hlock : lock < NLOCK := by
      by_contra hge
      rw [ent, if_neg hge] at hent
      cases hent
    rw [ent_of_lt hlock] at hent
    cases hent
    refine Or.inr ⟨rfl, hlock, ?_, e', hf, rfl⟩
    rw [isbadlock, if_neg (by omega), ent_of_lt hlock] at hbad
    exact of_decide_eq_false (Except.ok.inj hbad)

theorem foldl_setEnt (e : Lockent) (l : List Nat) (t : Locktab) :
    l.foldl (fun t i => t.setEnt i e) t =
      { t with locktab := fun lock => if lock ∈ l then e else t.locktab lock } := by
  induction l generalizing t with
  | nil => rfl
  | cons i l ih =>
    rw [foldl_cons, ih]
    congr 1
    funext lock
    by_cases hi : lock = i <;> simp [hi, setEnt]

/-- `platforminit` frees every entry. -/
theorem platforminit_locktab (h : lock < NLOCK) :
    t.platforminit.locktab lock = ⟨SPINLOCK_FREE, SPINLOCK_UNLOCKED, -1⟩ := by
  rw [platforminit, foldl_setEnt]
  exact if_pos (mem_range.mpr h)

theorem platforminit_nextlock : t.platforminit.nextlock = t.nextlock := by
  rw [platforminit, foldl_setEnt]

end Locktab

/-! ### The invariant -/

/-- The allocated ids are different, and they are the entries marked as
used. Every other entry is marked as free. -/
structure LockInv (r : LockRun) : Prop where
  cursor : r.table.nextlock < NLOCK
  nodup : r.allocated.Nodup
  lt : ∀ lock ∈ r.allocated, lock < NLOCK
  state : ∀ lock < NLOCK, (r.table.locktab lock).state =
    if lock ∈ r.allocated then SPINLOCK_USED else SPINLOCK_FREE

namespace LockInv
variable {r r' : LockRun} {lock : Nat}

theorem booted (h : r.Booted) : LockInv r := by
  obtain ⟨locktab, rfl⟩ := h
  refine ⟨?_, nodup_nil, by simp, fun lock hlock => ?_⟩
  · rw [Locktab.platforminit_nextlock]
    exact Nat.zero_lt_succ 149
  · rw [Locktab.platforminit_locktab hlock, if_neg not_mem_nil]

variable (hr : LockInv r)
include hr

theorem state_eq_free (hlock : lock < NLOCK) :
    (r.table.locktab lock).state = SPINLOCK_FREE ↔ lock ∉ r.allocated := by
  rw [hr.state lock hlock]
  by_cases h : lock ∈ r.allocated
  · rw [if_pos h]
    exact iff_of_false (by decide) (not_not_intro h)
  · rw [if_neg h]
    exact iff_of_true rfl h

/-- What `lock_create` does, in terms of the allocated ids. -/
theorem lockCreate :
    (∃ lock, lock < NLOCK ∧ lock ∉ r.allocated ∧ r.allocated.length < NLOCK ∧
      r.table.lockCreate = .ok (some lock, ⟨update r.table.locktab lock
        ⟨SPINLOCK_USED, SPINLOCK_UNLOCKED, (r.table.locktab lock).core⟩, lock⟩)) ∨
    r.allocated.length = NLOCK ∧
      ∃ n < NLOCK, r.table.lockCreate = .ok (none, { r.table with nextlock := n }) := by
  have hall := length_eq_iff_forall_mem hr.nodup hr.lt
  rcases Locktab.lockCreate_spec hr.cursor with ⟨lock, hlock, hfree, hrun⟩ | ⟨hnone, n, hn, hrun⟩
  · have hnew := (hr.state_eq_free hlock).mp hfree
    have hle : (lock :: r.allocated).length ≤ NLOCK := by
      have hnd : (lock :: r.allocated).Nodup := nodup_cons.mpr ⟨hnew, hr.nodup⟩
      have hsub : (lock :: r.allocated) ⊆ List.range NLOCK := fun x hx =>
        mem_range.mpr ((mem_cons.mp hx).elim (fun h => h ▸ hlock) (hr.lt x))
      exact (hnd.subperm hsub).length_le.trans_eq length_range
    exact Or.inl ⟨lock, hlock, hnew, hle, hrun⟩
  · refine Or.inr ⟨hall.mpr fun lock hlock => ?_, n, hn, hrun⟩
    exact not_not.mp fun hmem => hnone lock hlock ((hr.state_eq_free hlock).mpr hmem)

/-- What `isbadlock` says of an id other than `NLOCK`. -/
theorem isbadlock (hne : lock ≠ NLOCK) :
    r.table.isbadlock lock = .ok (decide (lock ∉ r.allocated)) := by
  rw [Locktab.isbadlock]
  by_cases hlt : lock < NLOCK
  · rw [if_neg (by omega), Locktab.ent_of_lt hlt]
    exact congrArg Except.ok (decide_eq_decide.mpr (hr.state_eq_free hlt))
  · rw [if_pos (by omega)]
    have hnot : lock ∉ r.allocated := fun hmem => hlt (hr.lt lock hmem)
    exact congrArg Except.ok (decide_eq_true hnot).symm

/-- A call on an id that is not allocated is refused. -/
theorem withLock_refused (hne : lock ≠ NLOCK) (hnot : lock ∉ r.allocated)
    (f : Lockent → Except Fault Lockent) : r.table.withLock lock f = .ok (.syserr, r.table) := by
  simp only [Locktab.withLock, hr.isbadlock hne, decide_eq_true hnot, ok_bind, if_true]
  rfl

/-- A call on an allocated id changes its entry. -/
theorem withLock_allocated (hmem : lock ∈ r.allocated)
    {e : Lockent} (hf : f (r.table.locktab lock) = .ok e) :
    r.table.withLock lock f = .ok (.ok, r.table.setEnt lock e) := by
  have hlt := hr.lt lock hmem
  have hgood : decide (lock ∉ r.allocated) = false := decide_eq_false (not_not_intro hmem)
  simp only [Locktab.withLock, hr.isbadlock hlt.ne, hgood, ok_bind, Locktab.ent_of_lt hlt, hf]
  rfl

/-- A call that keeps the state of the entry keeps the invariant. -/
theorem withLock {res : Syscall} {table : Locktab} (hf : ∀ e e', f e = .ok e' → e'.state = e.state)
    (hrun : r.table.withLock lock f = .ok (res, table)) :
    LockInv { r with table := table } := by
  rcases Locktab.withLock_eq_ok hrun with ⟨-, rfl⟩ | ⟨-, hlock, -, e, he, rfl⟩
  · exact hr
  · refine ⟨hr.cursor, hr.nodup, hr.lt, fun x hx => ?_⟩
    refine Eq.trans ?_ (hr.state x hx)
    by_cases hxl : x = lock
    · subst hxl
      exact (congrArg Lockent.state (update_self ..)).trans (hf _ _ he)
    · exact congrArg Lockent.state (update_of_ne hxl ..)

/-- Every call keeps the invariant. -/
theorem step {c : LockCall} (hrun : r.exec c = .ok r') : LockInv r' := by
  cases c with
  | create =>
    rcases hr.lockCreate with ⟨lock, hlock, hnew, -, hcreate⟩ | ⟨-, n, hn, hcreate⟩
    · simp only [LockRun.exec, hcreate, ok_bind] at hrun
      cases hrun
      refine ⟨hlock, nodup_cons.mpr ⟨hnew, hr.nodup⟩,
        forall_mem_cons.mpr ⟨hlock, hr.lt⟩, fun x hx => ?_⟩
      have hstate := hr.state x hx
      by_cases hxl : x = lock
      · simp [hxl]
      · simpa [hxl] using hstate
    · simp only [LockRun.exec, hcreate, ok_bind] at hrun
      cases hrun
      exact ⟨hn, hr.nodup, hr.lt, hr.state⟩
  | free lock =>
    obtain ⟨⟨res, table⟩, hfree, hrun⟩ := bind_eq_ok hrun
    cases hrun
    by_cases hmem : lock ∈ r.allocated
    · -- An allocated lock is not bad, so the entry is really freed.
      have hdone : r.table.lockFree lock = .ok (.ok, r.table.setEnt lock
          { r.table.locktab lock with state := SPINLOCK_FREE }) := hr.withLock_allocated hmem rfl
      cases hdone.symm.trans hfree
      refine ⟨hr.cursor, hr.nodup.erase lock, fun x hx => hr.lt x (mem_of_mem_erase hx),
        fun x hx => ?_⟩
      have hstate := hr.state x hx
      by_cases hxl : x = lock
      · simp [hxl, Locktab.setEnt, hr.nodup.not_mem_erase]
      · simpa [hxl, Locktab.setEnt, mem_erase_of_ne hxl] using hstate
    · rw [erase_of_not_mem hmem]
      rcases Locktab.withLock_eq_ok hfree with ⟨-, rfl⟩ | ⟨-, hlt, hused, -⟩
      · exact hr
      · exact absurd ((hr.state_eq_free hlt).mpr hmem) hused
  | acquire cpuid lock =>
    obtain ⟨⟨res, table⟩, hacquire, hrun⟩ := bind_eq_ok hrun
    cases hrun
    refine hr.withLock (fun e e' he => ?_) hacquire
    split at he
    · cases he
    · cases he
      rfl
  | release lock =>
    obtain ⟨⟨res, table⟩, hrelease, hrun⟩ := bind_eq_ok hrun
    cases hrun
    refine hr.withLock (fun e e' he => ?_) hrelease
    cases he
    rfl

end LockInv

theorem lockInv_of_attainable (hr : r.Attainable) : LockInv r :=
  Reaches.induction (P := LockInv) hr (fun _ => LockInv.booted) fun _ _ _ h _ hrun => h.step hrun

theorem lockInv_of_reachable (hr : r.Reachable) : LockInv r :=
  lockInv_of_attainable hr.attainable

/-- After any calls, the allocated ids are different. As long as there
are fewer than `NLOCK` of them, `lock_create` returns an id that is not
allocated, with its entry used and unlocked. It returns `SYSERR` exactly
when all are allocated, and then no entry has changed. -/
theorem lockCreate_of_reachable (hr : r.Reachable) :
    r.allocated.Nodup ∧ (∀ lock ∈ r.allocated, lock < NLOCK) ∧
    (r.allocated.length < NLOCK → ∃ lock t', r.table.lockCreate = .ok (some lock, t') ∧
      lock < NLOCK ∧ lock ∉ r.allocated ∧ (t'.locktab lock).state = SPINLOCK_USED ∧
      (t'.locktab lock).lock = SPINLOCK_UNLOCKED ∧
      ∀ x ≠ lock, t'.locktab x = r.table.locktab x) ∧
    ((∃ t', r.table.lockCreate = .ok (none, t')) ↔ r.allocated.length = NLOCK) ∧
    ∀ t', r.table.lockCreate = .ok (none, t') → t'.locktab = r.table.locktab := by
  have hinv := lockInv_of_reachable hr
  refine ⟨hinv.nodup, hinv.lt, ?_⟩
  -- The search ends at a free entry, or it has been at all of them.
  rcases hinv.lockCreate with ⟨lock, hlock, hnew, hlen, hcreate⟩ | ⟨hlen, n, -, hcreate⟩
  · refine ⟨fun _ => ⟨lock, _, hcreate, hlock, hnew, ?_, ?_, fun x hx => ?_⟩, ?_, ?_⟩
    · simp only [update_self]
    · simp only [update_self]
    · exact update_of_ne hx ..
    · rw [hcreate]
      refine iff_of_false ?_ hlen.ne
      rintro ⟨t', h⟩
      cases h
    · rw [hcreate]
      intro t' h
      cases h
  · refine ⟨fun hlt => absurd hlen hlt.ne, iff_of_true ⟨_, hcreate⟩ hlen, ?_⟩
    rw [hcreate]
    intro t' h
    cases h
    rfl

/-- The cleared table of a machine whose memory was zero. -/
def lockBoot : LockRun := ⟨Locktab.platforminit ⟨fun _ => ⟨0, 0, 0⟩, 0⟩, []⟩

theorem lockBoot_reachable : lockBoot.Reachable := ⟨_, ⟨_, rfl⟩, .refl⟩

/-- Three locks are created, core 0 takes the third, and the second is
freed. -/
theorem exists_threeLocks : ∃ r : LockRun, r.Reachable ∧ r.allocated = [3, 1] := by
  let calls : List LockCall := [.create, .create, .create, .acquire 0 3, .free 2]
  have hrun : (follow LockRun.Permitted LockRun.exec lockBoot calls).any
    (·.allocated = [3, 1]) = true := by decide +kernel
  obtain ⟨r, hr, hall⟩ := (Option.any_eq_true _ _).mp hrun
  exact ⟨r, lockBoot_reachable.follow hr, of_decide_eq_true hall⟩

theorem lockCreate_threeLocks : ∃ r : LockRun, r.Reachable ∧ r.allocated = [3, 1] ∧
    ∃ lock t', r.table.lockCreate = .ok (some lock, t') ∧ lock < NLOCK ∧ lock ∉ [3, 1] ∧
      (t'.locktab lock).state = SPINLOCK_USED ∧ (t'.locktab lock).lock = SPINLOCK_UNLOCKED ∧
      ∀ x ≠ lock, t'.locktab x = r.table.locktab x := by
  obtain ⟨r, hr, hall⟩ := exists_threeLocks
  refine ⟨r, hr, hall, ?_⟩
  rw [← hall]
  exact (lockCreate_of_reachable hr).2.2.1 (by rw [hall]; decide)

/-! ### Ids that are not allocated -/

/-- A call on the lock with a given id. -/
inductive LockOp where
  | acquire (cpuid : Core)
  | release
  | free

namespace LockOp

def apply (t : Locktab) (lock : Nat) : LockOp → Except Fault (Syscall × Locktab)
  | .acquire cpuid => t.lockAcquire cpuid lock
  | .release => t.lockRelease lock
  | .free => t.lockFree lock

/-- The call waits for the lock. -/
def Spins (t : Locktab) (lock : Nat) : LockOp → Prop
  | .acquire _ => (t.locktab lock).lock = SPINLOCK_LOCKED
  | .release | .free => False

/-- How the call changes the entry. -/
def change : LockOp → Lockent → Except Fault Lockent
  | .acquire cpuid => fun e =>
    if e.lock = SPINLOCK_LOCKED then .error .nontermination
    else .ok { e with lock := SPINLOCK_LOCKED, core := cpuid }
  | .release => fun e => .ok { e with core := -1, lock := SPINLOCK_UNLOCKED }
  | .free => fun e => .ok { e with state := SPINLOCK_FREE }

theorem apply_eq (t : Locktab) (lock : Nat) (op : LockOp) :
    op.apply t lock = t.withLock lock op.change := by
  cases op with
  | acquire cpuid => rfl
  | release => rfl
  | free => rfl

theorem exists_change {t : Locktab} {lock : Nat} {op : LockOp} (h : ¬ op.Spins t lock) :
    ∃ e, op.change (t.locktab lock) = .ok e := by
  cases op with
  | acquire cpuid => exact ⟨_, if_neg h⟩
  | release => exact ⟨_, rfl⟩
  | free => exact ⟨_, rfl⟩

end LockOp

/-- `isbadlock` reads the entry of `NLOCK`, which is not in the table. -/
theorem Locktab.withLock_NLOCK (t : Locktab) (f : Lockent → Except Fault Lockent) :
    t.withLock NLOCK f = .error .outOfBounds := rfl

/-- After any calls, `lock_acquire`, `lock_release` and `lock_free` refuse
an id that is not allocated and change nothing, and return `OK` on an
allocated one, once the lock is free to take, and change only its entry.
The one id for which this fails is `NLOCK`. -/
theorem lockOp_iff (hr : r.Attainable) (op : LockOp) (lock : Nat) :
    ((lock ∉ r.allocated → op.apply r.table lock = .ok (.syserr, r.table)) ∧
      (lock ∈ r.allocated → ¬ op.Spins r.table lock →
        ∃ t', op.apply r.table lock = .ok (.ok, t') ∧ t'.nextlock = r.table.nextlock ∧
          ∀ x ≠ lock, t'.locktab x = r.table.locktab x)) ↔
    lock ≠ NLOCK := by
  have hinv := lockInv_of_attainable hr
  rw [LockOp.apply_eq]
  constructor
  · rintro ⟨hdead, -⟩ rfl
    -- `isbadlock` refuses ids above `NLOCK` only, and then reads the entry.
    have hnot : NLOCK ∉ r.allocated := fun hmem => absurd (hinv.lt _ hmem) (Nat.lt_irrefl _)
    have hrun := hdead hnot
    rw [Locktab.withLock_NLOCK] at hrun
    cases hrun
  · intro hne
    refine ⟨fun hnot => hinv.withLock_refused hne hnot _, fun hmem hspin => ?_⟩
    obtain ⟨e, he⟩ := LockOp.exists_change hspin
    refine ⟨_, hinv.withLock_allocated hmem he, rfl, fun x hx => ?_⟩
    exact update_of_ne hx _ _

/-- The freed lock is refused, and the one that is held is released. -/
theorem lockOp_threeLocks : ∃ r : LockRun, r.Attainable ∧ r.allocated = [3, 1] ∧
    (LockOp.acquire 1).apply r.table 2 = .ok (.syserr, r.table) ∧
    ∃ t', LockOp.release.apply r.table 3 = .ok (.ok, t') ∧
      ∀ x ≠ 3, t'.locktab x = r.table.locktab x := by
  obtain ⟨r, hr, hall⟩ := exists_threeLocks
  have hiff := lockOp_iff hr.attainable
  obtain ⟨t', hrun, -, hother⟩ := ((hiff .release 3).mpr (by decide)).2 (by rw [hall]; decide) nofun
  exact ⟨r, hr.attainable, hall, ((hiff (.acquire 1) 2).mpr (by decide)).1 (by rw [hall]; decide),
    t', hrun, hother⟩

/-- Each of the three calls on `NLOCK` reads past the table. -/
theorem lockOp_NLOCK :
    lockBoot.Attainable ∧ NLOCK ∉ lockBoot.allocated ∧
    lockBoot.table.lockAcquire 0 NLOCK = .error .outOfBounds ∧
    lockBoot.table.lockRelease NLOCK = .error .outOfBounds ∧
    lockBoot.table.lockFree NLOCK = .error .outOfBounds :=
  ⟨lockBoot_reachable.attainable, by decide, rfl, rfl, rfl⟩

end Xinu
