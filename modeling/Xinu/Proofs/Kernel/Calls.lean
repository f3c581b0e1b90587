import Xinu.Proofs.Kernel.Refine

/-!
# `Xinu.Proofs.Kernel.Calls`: the calls refine the abstract calls

The calls above the scheduler: `create`, `kill`, and the locked sections
of the message functions. `create` and the first part of `kill` touch no
queue, so they need no abstract counterpart. `create_cases` and
`release_eq` say which variables they change.
-/

namespace Xinu

open Queuetab (qid)

namespace Vars

variable {v v' : Vars} {c : Core} {args : CreateArgs}

/-- `newpid` finds free slots only. -/
theorem newpidLoop_free : ∀ {rounds : Nat} {n m p : Int},
    v.newpidLoop rounds n = .ok (some p, m) → IsPid p ∧ v.states p = .PRFREE
  | 0, _, _, _, h => by simp [newpidLoop] at h
  | rounds + 1, n, m, p, h => by
    rw [newpidLoop, pcb] at h
    by_cases hin : 0 ≤ bumpNextpid n ∧ bumpNextpid n < NPROC
    · simp only [if_pos hin, ok_bind] at h
      by_cases hfree : (v.proctab (bumpNextpid n)).state = .PRFREE
      · rw [if_pos hfree] at h
        obtain ⟨rfl, -⟩ : bumpNextpid n = p ∧ bumpNextpid n = m := by
          simpa [pure, Except.pure] using h
        exact ⟨hin, hfree⟩
      · rw [if_neg hfree] at h
        exact newpidLoop_free h
    · simp only [if_neg hin] at h
      cases h

/-- What `create` can do: fail, with the heap and `nextpid` changed, or
enter a process into a free slot. -/
theorem create_cases {r : Option Int} (h : v.create c args = .ok (r, v')) :
    (r = none ∧ ∃ hp n, v' = { v with heap := hp, nextpid := n }) ∨
    ∃ pid saddr hp n, r = some pid ∧ IsPid pid ∧ v.states pid = .PRFREE ∧
      v' = { v with
        heap := hp
        nextpid := n
        numproc := v.numproc + 1
        proctab := Function.update v.proctab pid (newPcb (v.proctab pid) args saddr) } := by
  obtain ⟨⟨saddr, hp⟩, -, h⟩ := bind_eq_ok h
  obtain ⟨⟨pid, n⟩, hnew, h⟩ := bind_eq_ok h
  cases pid with
  | none =>
    obtain ⟨rfl, rfl⟩ : none = r ∧ _ = v' := by simpa [pure, Except.pure] using h
    exact Or.inl ⟨rfl, hp, n, rfl⟩
  | some pid =>
    simp only at h
    split at h
    · obtain ⟨rfl, rfl⟩ : none = r ∧ _ = v' := by simpa [pure, Except.pure] using h
      exact Or.inl ⟨rfl, hp, n, rfl⟩
    · obtain ⟨rfl, rfl⟩ : some pid = r ∧ _ = v' := by simpa [pure, Except.pure] using h
      obtain ⟨hpid, hfree⟩ := newpidLoop_free hnew
      exact Or.inr ⟨pid, saddr, _, n, rfl, hpid, hfree, rfl⟩

/-- `kill` changes the count and the heap before its `switch`. -/
theorem release_eq {pid : Int} (h : v.release pid = .ok v') :
    ∃ hp, v' = { v with numproc := v.numproc - 1, heap := hp } := by
  obtain ⟨⟨r, hp⟩, -, h⟩ := bind_eq_ok h
  exact ⟨hp, by simpa [pure, Except.pure] using h.symm⟩

/-- `kill` goes on with a live process of its own core that is no null
process. -/
theorem killRefuses_eq_false {pid : Int} : v.killRefuses c pid = false ↔
    isbadpid v.states pid = false ∧ 4 ≤ pid ∧ (v.proctab pid).coreAffinity = c := by
  simp only [killRefuses, Bool.or_eq_false_iff, decide_eq_false_iff_not]
  constructor
  · rintro ⟨⟨⟨⟨⟨⟨hbad, h0⟩, h1⟩, h2⟩, h3⟩, haff⟩, -⟩
    have hpid := (isbadpid_eq_false.mp hbad).1
    exact ⟨hbad, by omega, (not_not.mp haff).symm⟩
  · rintro ⟨hbad, h4, haff⟩
    refine ⟨⟨⟨⟨⟨⟨hbad, ?_⟩, ?_⟩, ?_⟩, ?_⟩, ?_⟩, (isbadpid_eq_false.mp hbad).2⟩
    all_goals omega

end Vars

namespace Refines

variable {k : Kernel} {a : AbsKernel} {q : Queue} {p : Int} {c : Core} (hr : Refines k a)
include hr

/-- `create` keeps the refinement: no queue changes, and a new process
keeps the message queue of its slot. -/
theorem create {args : Vars.CreateArgs} {r : Option Int} {k' : Kernel}
    (h : k.create c args = .ok (r, k')) :
    a.toVars.create c args = .ok (r, k'.toVars) ∧ Refines k' { a with toVars := k'.toVars } := by
  rw [Kernel.create, hr.vars] at h
  obtain ⟨⟨pid, v⟩, hrun, h⟩ := bind_eq_ok h
  obtain ⟨rfl, rfl⟩ : pid = r ∧ { k with toVars := v } = k' := by
    simpa [pure, Except.pure] using h
  refine ⟨hrun, hr.withVars fun x _ => ?_⟩
  rcases Vars.create_cases hrun with ⟨-, hp, n, rfl⟩ | ⟨pid, saddr, hp, n, -, -, -, rfl⟩
  · rfl
  · by_cases hx : x = pid
    · subst hx
      simp [Vars.newPcb]
    · simp [hx]

theorem killSwitch (hlive : isbadpid a.states p = false)
    (hcurr : a.states p = .PRCURR → (a.setState p .PRFREE).CanResched c)
    (hready : a.states p = .PRREADY → a.Queued p) :
    Simulates (k.killSwitch c p) (a.killSwitch c p) := by
  unfold Kernel.killSwitch AbsKernel.killSwitch
  rw [hr.proctab]
  cases hst : (a.proctab p).state with
  | PRCURR => exact hr.setState.resched (hcurr hst)
  | PRREADY =>
    obtain ⟨r, t', hrun, hr'⟩ := hr.remove hlive (hready hst)
    exact ⟨_, by simp only [hrun, ok_bind]; rfl, hr'.setState⟩
  | _ => exact ⟨_, rfl, hr.setState⟩

/-- `kill` of a process that it does not refuse and whose stack can be
given back. -/
theorem kill {v : Vars} (hno : a.killRefuses c p = false) (hrel : a.release p = .ok v)
    (hcurr : a.states p = .PRCURR →
      (({ a with toVars := v } : AbsKernel).setState p .PRFREE).CanResched c)
    (hready : a.states p = .PRREADY → a.Queued p) :
    Simulates ((k.kill c p).map Prod.snd)
      (({ a with toVars := v } : AbsKernel).killSwitch c p) := by
  obtain ⟨hp, rfl⟩ := Vars.release_eq hrel
  have hr1 := hr.withVars (v := { a.toVars with numproc := a.numproc - 1, heap := hp })
    fun _ _ => rfl
  rw [Kernel.kill, hr.vars, hno]
  simp only [Bool.false_eq_true, if_false, hrel, ok_bind]
  rw [map_snd_return]
  exact hr1.killSwitch (Vars.killRefuses_eq_false.mp hno).1 hcurr hready

/-! ### Messages -/

theorem sendSection {sender : Int} (p msg : Int) (hsender : IsPid sender)
    (hfree : ¬ a.Queued sender) :
    ∃ k', k.sendSection sender p msg = .ok ((a.sendSection sender p msg).1, k') ∧
      Refines k' (a.sendSection sender p msg).2 := by
  unfold Kernel.sendSection AbsKernel.sendSection
  rw [hr.states]
  cases hbad : isbadpid a.states p with
  | true => exact ⟨k, rfl, hr⟩
  | false =>
    obtain ⟨hpid, hlive⟩ := isbadpid_eq_false.mp hbad
    have hstate : (a.proctab p).state ≠ .PRFREE := hlive
    simp only [Bool.false_eq_true, if_false, hr.pcb hpid, hr.pcb hsender, ok_bind, if_neg hstate]
    by_cases hmsg : (a.proctab p).hasMessage = true
    · -- The sender parks: it is live in its new state, and on no queue.
      have hr1 := hr.setPcb (p := sender)
        (x := { a.proctab sender with msgout := msg, state := .PRSEND }) rfl
      obtain ⟨k', hrun, hr'⟩ := hr1.enqueue (q := .senders p) hpid (p := sender)
        (isbadpid_eq_false.mpr ⟨hsender, by
          simp [AbsKernel.setPcb, Vars.setPcb, Vars.states]⟩) hfree
      simp only [if_pos hmsg, hr.msgIds p hpid, hrun, ok_bind]
      exact ⟨k', rfl, hr'⟩
    · have hr1 := hr.setPcb (p := p)
        (x := { a.proctab p with msgin := msg, hasMessage := true }) rfl
      simp only [if_neg hmsg]
      by_cases hrecv : (a.proctab p).state = .PRRECV
      · simp only [if_pos hrecv]
        exact ⟨_, rfl, hr1⟩
      · simp only [if_neg hrecv]
        exact ⟨_, rfl, hr1⟩

theorem sendnowSection (msg : Int) (hpid : IsPid p) :
    ∃ k', k.sendnowSection p msg = .ok ((a.sendnowSection p msg).1, k') ∧
      Refines k' (a.sendnowSection p msg).2 := by
  unfold Kernel.sendnowSection AbsKernel.sendnowSection
  simp only [hr.pcb hpid, ok_bind, hr.states]
  cases hbad : isbadpid a.states p with
  | true => exact ⟨k, by simp; rfl, by simpa using hr⟩
  | false =>
    have hstate : (a.proctab p).state ≠ .PRFREE := (isbadpid_eq_false.mp hbad).2
    simp only [Bool.false_eq_true, if_false, false_or, hstate]
    by_cases hmsg : (a.proctab p).hasMessage = true
    · simp only [if_pos hmsg]
      exact ⟨k, rfl, hr⟩
    · have hr1 := hr.setPcb (p := p)
        (x := { a.proctab p with msgin := msg, hasMessage := true }) rfl
      simp only [if_neg hmsg]
      by_cases hrecv : (a.proctab p).state = .PRRECV
      · simp only [if_pos hrecv]
        exact ⟨_, rfl, hr1⟩
      · simp only [if_neg hrecv]
        exact ⟨_, rfl, hr1⟩

theorem recvCheck (hpid : IsPid p) :
    ∃ k', k.recvCheck p = .ok (!(a.proctab p).hasMessage, k') ∧
      Refines k' (if (a.proctab p).hasMessage then a else a.setState p .PRRECV) := by
  simp only [Kernel.recvCheck, hr.pcb hpid, ok_bind]
  cases (a.proctab p).hasMessage with
  | true => exact ⟨k, rfl, hr⟩
  | false => exact ⟨_, rfl, hr.setState⟩

theorem recvCollect (hpid : IsPid p) :
    ∃ k', k.recvCollect p = .ok ((a.recvCollect p).1, k') ∧ Refines k' (a.recvCollect p).2 := by
  have hq : (Queue.senders p).Valid := hpid
  simp only [Kernel.recvCollect, hr.pcb hpid, ok_bind, hr.msgIds p hpid, hr.nonempty hq,
    AbsKernel.recvCollect]
  cases hl : a.queue (.senders p) with
  | nil =>
    refine ⟨k.setPcb p { a.proctab p with hasMessage := false }, ?_, hr.setPcb rfl⟩
    rw [hr.proctab]
    rfl
  | cons sender l =>
    have hsender : IsPid sender := hr.wf.pids _ hq sender (hl ▸ List.mem_cons_self)
    obtain ⟨k1, hdeq, hr1⟩ := hr.dequeue hq
    rw [hl, List.headD_cons] at hdeq
    -- The writes after `dequeue`, one slot at a time.
    have hr2 := hr1.setPcb (p := p)
      (x := { (a.pop (.senders p)).proctab p with msgin :=
        ((a.pop (.senders p)).proctab sender).msgout })
      rfl
    have hr3 := hr2.setPcb (p := sender) (x := { (((a.pop (.senders p)).setPcb p
      { (a.pop (.senders p)).proctab p with
        msgin := ((a.pop (.senders p)).proctab sender).msgout })).proctab sender with
          msgout := EMPTY }) rfl
    refine ⟨_, ?_, hr3⟩
    simp only [List.isEmpty_cons, Bool.not_false, if_true, hdeq, ok_bind, hr1.pcb hsender]
    rw [hr1.proctab, hr2.proctab]
    rfl

theorem recvnow (hpid : IsPid (a.currpid c)) :
    ∃ k', k.recvnow c = .ok (if (a.proctab (a.currpid c)).hasMessage then
        some (a.proctab (a.currpid c)).msgin else none, k') ∧
      Refines k' (if (a.proctab (a.currpid c)).hasMessage then a.drain (a.currpid c) else a) := by
  simp only [Kernel.recvnow, hr.currpid, hr.pcb hpid, ok_bind]
  cases (a.proctab (a.currpid c)).hasMessage with
  | true => exact ⟨_, rfl, hr.setPcb rfl⟩
  | false => exact ⟨k, rfl, hr⟩

end Refines

end Xinu
