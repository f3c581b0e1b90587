import Xinu.Proofs.Queue.Ids
import Xinu.Proofs.Queue.Links

/-!
# `Xinu.Proofs.Queue.Remove`: `remove` of a process that is on no queue

`remove` takes a process for queued when its `prev` links lead to a slot
whose own `prev` is `EMPTY`. The entry of a process on no queue still
holds links: zeros from the start, links to itself after `dequeue`, and
its last neighbours after `remove`. `LeadsIn` says that these links lead,
through the entries of processes, to the head of a queue.

`PrevOk` says where a `prev` link of a process can point at all. It holds
in every state of a run, because each call writes `prev` in few places
(`newqueue_prev`, `enqueue_prev`, `unlink_prev`, `dequeue_prev`). From it
follows what the walk of `remove` finds: a head if the links lead to one
(`findHead_chain`), and otherwise nothing (`findHead_none`).

`remove_free_iff` is the result: the call is refused and changes nothing
exactly when the links do not lead to a head. A dequeued process always
satisfies this (`not_leadsIn_of_self`). `remove_free_unlinks_null` is a
short run where a process that was never queued does not.
-/

namespace Xinu.Queuetab

open Lib List

/-- The `prev` link of a process is the entry of a process or the head of
a queue. -/
def PrevOk (t : Queuetab) (f : Fifo) : Prop :=
  ∀ p, 0 ≤ p ∧ p < NPROC →
    (0 ≤ t.prev p ∧ t.prev p < NPROC) ∨ ∃ k < f.count, t.prev p = headSlot k

/-- The `prev` links from `p` lead through entries of processes to the
head of a queue. -/
def LeadsIn (t : Queuetab) (f : Fifo) (p : Int) : Prop :=
  ∃ l, ∃ k < f.count, (∀ x ∈ l, 0 ≤ x ∧ x < NPROC) ∧ Chain t.prev p l (headSlot k)

/-! ### Where `prev` points -/

section PrevOk
variable {state : Int → PrState} {t t' : Queuetab} {f f' : Fifo} {k : Nat} {p : Int}

/-- The neighbours of a member: a process or the head before it, a member
of the same queue or no process after it. -/
theorem Represents.prev_of_mem (hr : t.Represents f) (hk : k < f.count) (hp : p ∈ f.contents k) :
    (0 ≤ t.prev p ∧ t.prev p < NPROC) ∨ t.prev p = headSlot k := by
  obtain ⟨l1, l2, a, b, u, v, har⟩ := hr.around hk hp
  have hu : u ∈ headSlot k :: l1 := by simp [har.before]
  rw [har.prev]
  rcases mem_cons.mp hu with hu | hu
  · exact Or.inr hu
  · exact Or.inl (hr.pids k hk u (by simp [har.contents, hu]))

theorem Represents.next_of_mem (hr : t.Represents f) (hk : k < f.count) (hp : p ∈ f.contents k) :
    (t.next p ∈ f.contents k ∧ t.next p ≠ p) ∨ t.next p = tailSlot k := by
  obtain ⟨l1, l2, a, b, u, v, har⟩ := hr.around hk hp
  have hv : v ∈ l2 ++ [tailSlot k] := by simp [har.after]
  rw [har.next]
  rcases mem_append.mp hv with hv | hv
  · left
    have hnd := hr.nodup k hk
    rw [har.contents] at hnd ⊢
    exact ⟨by simp [hv], fun h => (not_mem_of_nodup_middle hnd).2 (h ▸ hv)⟩
  · exact Or.inr (mem_singleton.mp hv)

/-- A call keeps `PrevOk` if it leaves `prev` alone at the processes that
are on no queue afterwards, or points them at themselves. -/
theorem PrevOk.step (hok : PrevOk t f) (hr : t'.Represents f') (hcount : f.count ≤ f'.count)
    (hkeep : ∀ x, 0 ≤ x ∧ x < NPROC → ¬ f'.Queued x → t'.prev x = t.prev x ∨ t'.prev x = x) :
    PrevOk t' f' := by
  intro x hx
  by_cases hq : f'.Queued x
  · obtain ⟨k, hk, hmem⟩ := hq
    exact (hr.prev_of_mem hk hmem).imp_right fun h => ⟨k, hk, h⟩
  · rcases hkeep x hx hq with h | h
    · rw [h]
      exact (hok x hx).imp_right fun ⟨k, hk, h⟩ => ⟨k, Nat.lt_of_lt_of_le hk hcount, h⟩
    · rw [h]
      exact Or.inl hx

/-- A process that leaves a queue is not followed by a process that is on
no queue afterwards. -/
theorem Represents.next_ne_of_free (hr : t.Represents f) (hk : k < f.count)
    (hp : p ∈ f.contents k) {x : Int} (hx : x < NPROC)
    (hfree : x ∈ f.contents k → x ≠ p → False) : x ≠ t.next p := by
  rintro rfl
  rcases hr.next_of_mem hk hp with ⟨hmem, hne⟩ | htail
  · exact hfree hmem hne
  · exact not_tailSlot_lt (htail ▸ hx)

theorem QueueStep.prevOk {s s' : Queuetab × Fifo} (hstep : QueueStep state s s')
    (hr : s.1.Represents s.2) (hr' : s'.1.Represents s'.2) (hok : PrevOk s.1 s.2) :
    PrevOk s'.1 s'.2 := by
  cases hstep with
  | newqueue hcap hret =>
    refine hok.step hr' (Nat.le_succ _) fun x hx _ => Or.inl (newqueue_prev hret ?_ ?_)
    all_goals
      rw [hr.nextqueue]
      simp only [headSlot, NPROC] at hx ⊢
      omega
  | @enqueue t t' f k p r hk hlive hfree hret =>
    refine hok.step hr' (Nat.le_refl _) fun x hx hq => Or.inl (enqueue_prev hret ?_ ?_)
    · -- The process itself is queued now.
      rintro rfl
      exact hq ⟨k, hk, by simp [Fifo.enqueue]⟩
    · rw [queuetail_qid (Nat.lt_of_lt_of_le hk hr.capacity)]
      rintro rfl
      exact not_tailSlot_lt hx.2
  | @dequeue t t' f k r hk hret =>
    refine hok.step hr' (Nat.le_refl _) fun x hx hq => dequeue_prev hret ?_
    rw [queuehead_qid (Nat.lt_of_lt_of_le hk hr.capacity), hr.next_head hk]
    intro hlt
    cases hc : f.contents k with
    | nil =>
      rw [hc] at hlt
      exact absurd hlt not_tailSlot_lt
    | cons y l =>
      refine hr.next_ne_of_free hk (by simp [hc]) hx.2 fun hmem hne => hq ⟨k, hk, ?_⟩
      -- Every member but the first is still on the list.
      rw [hc] at hmem
      simpa [Fifo.dequeue, hc] using (mem_cons.mp hmem).resolve_left hne
  | @remove t t' f p r hqueued hret =>
    obtain ⟨k, hk, hmem⟩ := hqueued
    refine hok.step hr' (Nat.le_refl _) fun x hx hq => Or.inl (remove_prev hret ?_)
    exact hr.next_ne_of_free hk hmem hx.2 fun hxk hne =>
      hq ⟨k, hk, (mem_erase_of_ne hne).mpr hxk⟩

theorem prevOk_boot : PrevOk boot Fifo.boot := by
  intro p _
  show (0 ≤ (0 : Int) ∧ (0 : Int) < NPROC) ∨ _
  exact Or.inl (by decide)

/-! ### What the walk finds -/

theorem PrevOk.ne_empty (hok : PrevOk t f) (hp : 0 ≤ p ∧ p < NPROC) : t.prev p ≠ EMPTY := by
  rcases hok p hp with h | ⟨k, -, h⟩
  · simp only [EMPTY]
    omega
  · rw [h]
    simp only [headSlot, NPROC, EMPTY]
    omega

/-- If the links lead to no head, the walk stays among the processes
until its steps are used up. -/
theorem findHead_none (hok : PrevOk t f) : ∀ (steps : Nat) (p : Int), 0 ≤ p ∧ p < NPROC →
    ¬ t.LeadsIn f p → t.findHead steps p = .ok none := by
  intro steps
  induction steps with
  | zero =>
    intro p _ _
    rfl
  | succ steps ih =>
    intro p hp hnot
    rcases hok p hp with hprev | ⟨k, hk, hprev⟩
    · have hnext : ¬ t.LeadsIn f (t.prev p) := by
        rintro ⟨l, k, hk, hpids, hchain⟩
        exact hnot ⟨p :: l, k, hk, forall_mem_cons.mpr ⟨hp, hpids⟩, rfl, hchain⟩
      simp only [findHead, getPrev_eq (inTable_pid hp), getPrev_eq (inTable_pid hprev), ok_bind,
        if_neg (hok.ne_empty hprev), ih _ hprev hnext]
    · exact absurd ⟨[p], k, hk, forall_mem_singleton.mpr hp, rfl, hprev⟩ hnot

/-- Links that lead to a head do so within the steps `remove` allows. -/
theorem LeadsIn.findHead_eq_some (hr : t.Represents f) (hok : PrevOk t f)
    (hp : 0 ≤ p ∧ p < NPROC) (h : t.LeadsIn f p) :
    ∃ head, t.findHead NQENT.toNat p = .ok (some head) := by
  obtain ⟨l, k, hk, hpids, hchain⟩ := h
  have hhead : headSlot k ∉ l := headSlot_notMem hpids
  cases l with
  | nil =>
    have hp' : p = headSlot k := hchain
    simp only [hp', headSlot, NPROC] at hp
    omega
  | cons q l =>
    obtain rfl : p = q := hchain.1
    -- A chain to a head repeats no process, so it is shorter than the table.
    have h50 := length_le_of_pids (Chain.nodup hchain hhead) hpids
    have hent : NQENT.toNat = 174 := rfl
    simp only [length_cons] at h50
    exact ⟨headSlot k, findHead_chain hr hk l p _ hchain hpids
      (fun x hx => hok.ne_empty (hpids x (mem_cons_of_mem _ hx))) (by omega)⟩

/-- A process whose entry points at itself, as after `dequeue`, leads
nowhere. -/
theorem not_leadsIn_of_self (hp : 0 ≤ p ∧ p < NPROC) (hself : t.prev p = p) :
    ¬ t.LeadsIn f p := by
  rintro ⟨l, k, -, -, hchain⟩
  induction l with
  | nil =>
    have hp' : p = headSlot k := hchain
    simp only [hp', headSlot, NPROC] at hp
    omega
  | cons q l ih =>
    obtain ⟨rfl, hrest⟩ := hchain
    rw [hself] at hrest
    exact ih hrest

/-- What `remove` does with a live process, given where its links
lead. -/
theorem remove_eq_syserr_iff (hr : t.Represents f) (hok : PrevOk t f)
    (hlive : isbadpid state p = false) :
    t.remove state p = .ok (SYSERRint, t) ↔ ¬ t.LeadsIn f p := by
  have hp := (isbadpid_eq_false.mp hlive).1
  constructor
  · intro hret hlead
    obtain ⟨head, hfind⟩ := hlead.findHead_eq_some hr hok hp
    simp only [remove, hlive, Bool.false_eq_true, if_false, hfind, ok_bind] at hret
    -- With a head found, the value returned is the process.
    obtain ⟨t1, -, hret⟩ := bind_eq_ok hret
    have hpid : p = SYSERRint := congrArg Prod.fst (Except.ok.inj hret)
    simp only [SYSERRint] at hpid
    omega
  · intro hnot
    simp only [remove, hlive, Bool.false_eq_true, if_false, findHead_none hok _ p hp hnot, ok_bind]
    rfl

end PrevOk

/-! ### Whole runs -/

/-- A call of a run in which `remove` may also be called for a live
process that is on no queue, whenever `allowed` holds of it. Such a call
should change nothing, so the lists stay. -/
inductive CallStep (state : Int → PrState) (allowed : Queuetab → Fifo → Int → Prop) :
    Queuetab × Fifo → Queuetab × Fifo → Prop
  | queue {s s' : Queuetab × Fifo} (hstep : QueueStep state s s') : CallStep state allowed s s'
  | removeFree {t t' : Queuetab} {f : Fifo} {p r : Int} (hlive : isbadpid state p = false)
      (hfree : ¬ f.Queued p) (hallowed : allowed t f p)
      (hret : t.remove state p = .ok (r, t')) : CallStep state allowed (t, f) (t', f)

/-- The pairs of table and lists that such a run reaches. -/
def CallReachable (state : Int → PrState) (allowed : Queuetab → Fifo → Int → Prop)
    (t : Queuetab) (f : Fifo) : Prop :=
  Relation.ReflTransGen (CallStep state allowed) (boot, Fifo.boot) (t, f)

section Run
variable {state : Int → PrState} {t : Queuetab} {f : Fifo} {p : Int}

/-- What holds in every state of a run whose extra calls of `remove` are
for processes with no way into a queue. -/
structure CallInv (state : Int → PrState) (t : Queuetab) (f : Fifo) : Prop where
  represents : t.Represents f
  live : Live state f
  prevOk : PrevOk t f

theorem CallStep.preserves {s s' : Queuetab × Fifo}
    (hstep : CallStep state (fun t f p => ¬ t.LeadsIn f p) s s') (hinv : CallInv state s.1 s.2) :
    CallInv state s'.1 s'.2 := by
  cases hstep with
  | queue hstep =>
    obtain ⟨hr', hl'⟩ := hstep.preserves hinv.represents hinv.live
    exact ⟨hr', hl', hstep.prevOk hinv.represents hr' hinv.prevOk⟩
  | removeFree hlive hfree hnot hret =>
    rw [(remove_eq_syserr_iff hinv.represents hinv.prevOk hlive).mpr hnot] at hret
    cases hret
    exact hinv

theorem callInv_of_reachable (h : CallReachable state (fun t f p => ¬ t.LeadsIn f p) t f) :
    CallInv state t f := by
  suffices hall : ∀ s, Relation.ReflTransGen (CallStep state fun t f p => ¬ t.LeadsIn f p)
      (boot, Fifo.boot) s → CallInv state s.1 s.2 from hall (t, f) h
  intro s hs
  induction hs with
  | refl =>
    exact ⟨represents_boot, fun p ⟨k, hk, _⟩ => absurd hk (Nat.not_lt_zero _), prevOk_boot⟩
  | tail _ hstep ih => exact hstep.preserves ih

/-- In every state of a run whose extra calls of `remove` are for
processes with no way into a queue, `remove` of a live process on no
queue is refused and leaves the table as it is exactly when the links of
that process lead to no head. -/
theorem remove_free_iff (h : CallReachable state (fun t f p => ¬ t.LeadsIn f p) t f)
    (hlive : isbadpid state p = false) (_hfree : ¬ f.Queued p) :
    t.remove state p = .ok (SYSERRint, t) ↔ ¬ t.LeadsIn f p :=
  remove_eq_syserr_iff (callInv_of_reachable h).represents (callInv_of_reachable h).prevOk hlive

theorem QueueReachable.call {allowed : Queuetab → Fifo → Int → Prop}
    (h : QueueReachable state t f) :
    CallReachable state allowed t f :=
  Relation.ReflTransGen.lift id (fun _ _ hstep => CallStep.queue hstep) _ _ h

/-- A process that was enqueued and dequeued. -/
theorem remove_free_iff_dequeued : ∃ t : Queuetab, t.prev 7 = 7 ∧
    t.remove (fun _ => .PRSUSP) 7 = .ok (SYSERRint, t) := by
  have hlive : isbadpid (fun _ => .PRSUSP) 7 = false := by decide
  have hrun : (do
      let r ← boot.newqueue
      let r ← r.2.enqueue (fun _ => .PRSUSP) 7 (qid 0)
      let r ← r.2.dequeue (qid 0)
      return r.2.prev 7 : Except Fault Int) = .ok 7 := by decide +kernel
  obtain ⟨⟨q, t1⟩, hnew, hrun⟩ := bind_eq_ok hrun
  obtain ⟨⟨r, t2⟩, henq, hrun⟩ := bind_eq_ok hrun
  obtain ⟨⟨r', t3⟩, hdeq, hrun⟩ := bind_eq_ok hrun
  have hself : t3.prev 7 = 7 := Except.ok.inj hrun
  have hfree : ¬ Fifo.boot.newqueue.Queued 7 := by
    intro hq
    obtain ⟨k, hk, -⟩ := Fifo.queued_of_newqueue hq
    exact absurd hk (Nat.not_lt_zero k)
  have hreach : QueueReachable (fun _ => .PRSUSP) t3
      ((Fifo.boot.newqueue.enqueue 0 7).dequeue 0) :=
    ((Relation.ReflTransGen.single (.newqueue (by decide) hnew)).tail
      (.enqueue (by decide) hlive hfree henq)).tail (.dequeue (by decide) hdeq)
  have hgone : ¬ ((Fifo.boot.newqueue.enqueue 0 7).dequeue 0).Queued 7 := by
    rintro ⟨k, hk, hmem⟩
    obtain rfl : k = 0 := Nat.lt_one_iff.mp hk
    simp [Fifo.dequeue, Fifo.enqueue, Fifo.newqueue, Fifo.boot] at hmem
  exact ⟨t3, hself, (remove_free_iff hreach.call hlive hgone).mpr
    (not_leadsIn_of_self (by decide) hself)⟩

/-- After `sysinit` the null process waits on the ready queue with id
`qid 50`. `remove` of process 5, which was never on a queue, then returns
5 and points the null process at itself: the entry of process 5 holds
zeros, and process 0 leads to the head. -/
theorem remove_free_unlinks_null : ∃ t f t',
    CallReachable (fun _ => .PRSUSP) (fun _ _ _ => True) t f ∧ f.count = capacity ∧
    isbadpid (fun _ => .PRSUSP) 5 = false ∧ ¬ f.Queued 5 ∧
    t.next 0 = tailSlot 50 ∧ t.prev 0 = headSlot 50 ∧
    t.remove (fun _ => .PRSUSP) 5 = .ok (5, t') ∧ t'.next 0 = 0 ∧ t'.prev 0 = 0 := by
  have hlive : isbadpid (fun _ => .PRSUSP) 0 = false := by decide
  have hrun : (do
      let qs ← newqueues capacity boot
      let r ← qs.2.enqueue (fun _ => .PRSUSP) 0 (qid 50)
      let r' ← r.2.remove (fun _ => .PRSUSP) 5
      return (r.2.next 0, r.2.prev 0, r'.1, r'.2.next 0, r'.2.prev 0) : Except Fault _) =
        .ok (tailSlot 50, headSlot 50, 5, 0, 0) := by decide +kernel
  obtain ⟨⟨qs, t1⟩, hnew, hrun⟩ := bind_eq_ok hrun
  obtain ⟨⟨r, t2⟩, henq, hrun⟩ := bind_eq_ok hrun
  obtain ⟨⟨r', t3⟩, hrem, hrun⟩ := bind_eq_ok hrun
  obtain ⟨hnext, hprev, rfl, hnext', hprev'⟩ :
      t2.next 0 = tailSlot 50 ∧ t2.prev 0 = headSlot 50 ∧ r' = 5 ∧ t3.next 0 = 0 ∧
        t3.prev 0 = 0 := by
    simpa [pure, Except.pure] using hrun
  have hnone : ∀ p, ¬ (Fifo.boot.newqueues capacity).Queued p := by
    intro p hq
    obtain ⟨k, hk, -⟩ := Fifo.queued_of_newqueues capacity Fifo.boot hq
    exact absurd hk (Nat.not_lt_zero k)
  have hcount : (Fifo.boot.newqueues capacity).count = capacity :=
    Fifo.count_newqueues capacity Fifo.boot
  have hreach : QueueReachable (fun _ => .PRSUSP) t2
      ((Fifo.boot.newqueues capacity).enqueue 50 0) :=
    (QueueReachable.newqueues capacity .refl (by decide) hnew).tail
      (.enqueue (by rw [hcount]; decide) hlive (hnone 0) henq)
  refine ⟨t2, _, t3, hreach.call, hcount, by decide,
    fun hq => ?_, hnext, hprev, hrem, hnext', hprev'⟩
  rcases Fifo.queued_of_enqueue hq with h | h
  · exact absurd h (by decide)
  · exact hnone 5 h

end Run

end Xinu.Queuetab
