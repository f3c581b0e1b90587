import Mathlib.Data.Set.Insert
import Xinu.Abstract.Kernel

/-!
# `Xinu.Abstract.Invariant`: the scheduler's invariant

The invariant has two parts. `ProcOk a p` is about one process: its state
says which queue it is on, if any, and its core and priority fit.
`SchedInv a idle` says that every process is in order and that each core
has its current process. While a call switches processes, the core it
runs on has none. `idle` is the set of such cores.

An operation that touches one process keeps `ProcOk` of all the others by
`ProcOk.congr`, so only the process it touches needs an argument. The
steps of `resched` are `SchedInv.age`, `SchedInv.yield` and
`SchedInv.dispatch`.
-/

namespace Xinu

open Function List

namespace Vars

variable {v : Vars} {p x : Int} {s : PrState}

theorem states_setState : (v.setState p s).states = update v.states p s := by
  funext x
  by_cases hx : x = p
  · subst hx
    simp [states, setState, setPcb]
  · simp [states, setState, setPcb, hx]

@[simp] theorem coreAffinity_setState :
    ((v.setState p s).proctab x).coreAffinity = (v.proctab x).coreAffinity := by
  by_cases hx : x = p
  · subst hx
    simp [setState, setPcb]
  · simp [setState, setPcb, hx]

@[simp] theorem priority_setState :
    ((v.setState p s).proctab x).priority = (v.proctab x).priority := by
  by_cases hx : x = p
  · subst hx
    simp [setState, setPcb]
  · simp [setState, setPcb, hx]

end Vars

namespace AbsKernel

variable {a b : AbsKernel} {c : Core} {p x d : Int} {q : Queue} {s : PrState}

theorem states_setState_self : (a.setState p s).states p = s :=
  (congrFun Vars.states_setState _).trans (update_self ..)

theorem states_setState_of_ne (hx : x ≠ p) : (a.setState p s).states x = a.states x :=
  (congrFun Vars.states_setState _).trans (update_of_ne hx _ _)

/-! ### Well-formed queues -/

/-- Every queue lists processes without repetition, and no process is on
two queues. -/
structure Wf (a : AbsKernel) : Prop where
  pids : ∀ q : Queue, q.Valid → ∀ p ∈ a.queue q, IsPid p
  nodup : ∀ q : Queue, q.Valid → (a.queue q).Nodup
  disjoint : ∀ q q' : Queue, q.Valid → q'.Valid → ∀ p, p ∈ a.queue q → p ∈ a.queue q' → q = q'

section
variable (hwf : a.Wf)
include hwf

/-- The first process of a queue is on no queue once it has left. -/
theorem Wf.not_queued_pop {l : List Int} (hq : q.Valid) (hl : a.queue q = p :: l) :
    ¬ (a.pop q).Queued p := by
  rintro ⟨q', hq', hp⟩
  by_cases heq : q' = q
  · subst heq
    have hnd := hwf.nodup q' hq
    rw [hl, nodup_cons] at hnd
    simp only [pop, update_self, hl, tail_cons] at hp
    exact hnd.1 hp
  · simp only [pop, update_of_ne heq] at hp
    exact heq (hwf.disjoint q' q hq' hq p hp (hl ▸ mem_cons_self))

theorem Wf.pop : (a.pop q).Wf where
  pids r hr x hx := hwf.pids r hr x (mem_of_mem_pop hx)
  nodup r hr := by
    by_cases heq : r = q
    · subst heq
      simpa [AbsKernel.pop] using (hwf.nodup r hr).tail
    · simpa [AbsKernel.pop, heq] using hwf.nodup r hr
  disjoint r r' hr hr' x hx hx' :=
    hwf.disjoint r r' hr hr' x (mem_of_mem_pop hx) (mem_of_mem_pop hx')

theorem Wf.push (hp : IsPid p) (hfree : ¬ a.Queued p) : (a.push q p).Wf where
  pids r hr x hx := by
    rcases mem_push.mp hx with hx | ⟨rfl, -⟩
    · exact hwf.pids r hr x hx
    · exact hp
  nodup r hr := by
    by_cases heq : r = q
    · subst heq
      simp only [AbsKernel.push, update_self]
      rw [nodup_append_comm, singleton_append, nodup_cons]
      exact ⟨fun hm => hfree ⟨r, hr, hm⟩, hwf.nodup r hr⟩
    · simpa [AbsKernel.push, heq] using hwf.nodup r hr
  disjoint r r' hr hr' x hx hx' := by
    rcases mem_push.mp hx with hold | ⟨hxp, hrq⟩ <;>
      rcases mem_push.mp hx' with hold' | ⟨hxp', hrq'⟩
    · exact hwf.disjoint r r' hr hr' x hold hold'
    · exact absurd ⟨r, hr, hxp' ▸ hold⟩ hfree
    · exact absurd ⟨r', hr', hxp ▸ hold'⟩ hfree
    · exact hrq.trans hrq'.symm

theorem Wf.promote {lo hi : Int} (hlo : (Queue.ready c lo).Valid) :
    (a.promote c lo hi).Wf := by
  unfold AbsKernel.promote
  split
  · exact hwf
  · rename_i p l hl
    exact hwf.pop.push (hwf.pids _ hlo p (hl ▸ mem_cons_self)) (hwf.not_queued_pop hlo hl)

theorem Wf.congr (h : b.queue = a.queue) : b.Wf :=
  ⟨h ▸ hwf.pids, h ▸ hwf.nodup, h ▸ hwf.disjoint⟩

theorem Wf.age : (a.age c).Wf := by
  have hlow : ∀ {a : AbsKernel}, a.Wf → (a.ageLow c).Wf := by
    intro a hwf
    unfold ageLow
    simp only
    split
    · exact (Wf.promote (hwf.congr (b := { a with toVars := a.tickLow c }) rfl)
        (Queue.valid_ready c (by decide))).congr rfl
    · exact hwf.congr rfl
  unfold AbsKernel.age
  simp only
  split
  · exact (hlow (Wf.promote (hwf.congr (b := { a with toVars := a.tickMedium c }) rfl)
      (Queue.valid_ready c (by decide)))).congr rfl
  · exact hwf.congr rfl

/-- Once the first process has left its queue, every other one is where
it was. -/
theorem Wf.mem_pop_iff {l : List Int} (hq : q.Valid) (hl : a.queue q = p :: l)
    {r : Queue} (hr : r.Valid) : x ∈ (a.pop q).queue r ↔ x ∈ a.queue r ∧ x ≠ p := by
  constructor
  · intro hx
    refine ⟨mem_of_mem_pop hx, ?_⟩
    rintro rfl
    exact hwf.not_queued_pop hq hl ⟨r, hr, hx⟩
  · rintro ⟨hx, hne⟩
    exact (mem_pop hl hx).resolve_right fun h => hne h.1

end

/-! ### The invariant -/

/-- The state of a process says which queue it is on, and its core and
priority fit. -/
structure ProcOk (a : AbsKernel) (p : Int) : Prop where
  ready_state : ∀ d, IsCore d → a.OnReady d p →
    a.states p = .PRREADY ∧ (a.proctab p).coreAffinity = d
  ready_queued : a.states p = .PRREADY → a.OnReady (a.proctab p).coreAffinity p
  sending : ∀ r, IsPid r → p ∈ a.queue (.senders r) → a.states p = .PRSEND
  priority : a.states p ≠ .PRFREE → 0 ≤ (a.proctab p).priority ∧ (a.proctab p).priority < 3
  placed : a.states p ≠ .PRFREE → a.states p ≠ .PRSUSP → IsCore (a.proctab p).coreAffinity
  suspended : a.states p = .PRSUSP → (a.proctab p).coreAffinity = -1

/-- Every process is in order, and every core outside `idle` has its
current process. -/
structure SchedInv (a : AbsKernel) (idle : Set Core) : Prop where
  procs : ∀ p, IsPid p → a.ProcOk p
  pid : ∀ c, IsPid (a.currpid c)
  affinity : ∀ c, (a.proctab (a.currpid c)).coreAffinity = c
  current : ∀ c, c ∉ idle → a.states (a.currpid c) = .PRCURR
  currentOnly : ∀ p, IsPid p → a.states p = .PRCURR → ∃ c, c ∉ idle ∧ a.currpid c = p

/-- `ProcOk` reads the columns and the queues of one process only. -/
theorem ProcOk.congr (h : a.ProcOk p) (hstate : b.states p = a.states p)
    (haff : (b.proctab p).coreAffinity = (a.proctab p).coreAffinity)
    (hprio : (b.proctab p).priority = (a.proctab p).priority)
    (hready : ∀ d, IsCore d → (b.OnReady d p ↔ a.OnReady d p))
    (hsend : ∀ r, IsPid r → p ∈ b.queue (.senders r) → p ∈ a.queue (.senders r)) : b.ProcOk p where
  ready_state d hd hp := by
    rw [hstate, haff]
    exact h.ready_state d hd ((hready d hd).mp hp)
  ready_queued hs := by
    rw [hstate] at hs
    rw [haff]
    exact (hready _ (h.placed (by simp [hs]) (by simp [hs]))).mpr (h.ready_queued hs)
  sending r hr hp := hstate ▸ h.sending r hr (hsend r hr hp)
  priority hs := hprio ▸ h.priority (hstate ▸ hs)
  placed hs hs' := haff ▸ h.placed (hstate ▸ hs) (hstate ▸ hs')
  suspended hs := haff ▸ h.suspended (hstate ▸ hs)

/-- The same when no queue changed. -/
theorem ProcOk.congr_queue (h : a.ProcOk p) (hstate : b.states p = a.states p)
    (haff : (b.proctab p).coreAffinity = (a.proctab p).coreAffinity)
    (hprio : (b.proctab p).priority = (a.proctab p).priority) (hq : b.queue = a.queue) :
    b.ProcOk p :=
  h.congr hstate haff hprio (fun d _ => by rw [OnReady, OnReady, hq]) fun r _ hp => hq ▸ hp

/-- A process that is neither ready nor sending is on no queue. -/
theorem ProcOk.not_queued (h : a.ProcOk p) (hr : a.states p ≠ .PRREADY)
    (hs : a.states p ≠ .PRSEND) : ¬ a.Queued p := by
  rw [queued_iff]
  rintro (⟨d, hd, hp⟩ | ⟨r, hr', hp⟩)
  · exact hr (h.ready_state d hd hp).1
  · exact hs (h.sending r hr' hp)

/-- A process on no queue, with a state that asks for none. -/
theorem ProcOk.of_not_queued (hfree : ¬ a.Queued p) (hready : a.states p ≠ .PRREADY)
    (hprio : a.states p ≠ .PRFREE → 0 ≤ (a.proctab p).priority ∧ (a.proctab p).priority < 3)
    (hplaced : a.states p ≠ .PRFREE → a.states p ≠ .PRSUSP →
      IsCore (a.proctab p).coreAffinity)
    (hsusp : a.states p = .PRSUSP → (a.proctab p).coreAffinity = -1) : a.ProcOk p where
  ready_state d hd hp := absurd (queued_iff.mpr (Or.inl ⟨d, hd, hp⟩)) hfree
  ready_queued hs := absurd hs hready
  sending r hr hp := absurd (queued_iff.mpr (Or.inr ⟨r, hr, hp⟩)) hfree
  priority := hprio
  placed := hplaced
  suspended := hsusp

/-- A process on the ready queue of its core. -/
theorem ProcOk.of_ready (hs : a.states p = .PRREADY) (hcore : IsCore (a.proctab p).coreAffinity)
    (hprio : 0 ≤ (a.proctab p).priority ∧ (a.proctab p).priority < 3)
    (hmem : ∀ d, IsCore d → (a.OnReady d p ↔ d = (a.proctab p).coreAffinity))
    (hsend : ∀ r, IsPid r → p ∉ a.queue (.senders r)) : a.ProcOk p where
  ready_state d hd hp := ⟨hs, ((hmem d hd).mp hp).symm⟩
  ready_queued _ := (hmem _ hcore).mpr rfl
  sending r hr hp := absurd hp (hsend r hr)
  priority _ := hprio
  placed _ _ := hcore
  suspended h := by rw [hs] at h; cases h

/-! ### Changes of one process -/

/-- `b` is `a` except for process `p`, as far as the invariant is
concerned. -/
structure Differs (a b : AbsKernel) (p : Int) : Prop where
  currpid : b.currpid = a.currpid
  states : ∀ x, x ≠ p → b.states x = a.states x
  affinity : ∀ x, x ≠ p → (b.proctab x).coreAffinity = (a.proctab x).coreAffinity
  priority : ∀ x, x ≠ p → (b.proctab x).priority = (a.proctab x).priority
  ready : ∀ x, x ≠ p → ∀ d, IsCore d → (b.OnReady d x ↔ a.OnReady d x)
  senders : ∀ x, x ≠ p → ∀ r, IsPid r → x ∈ b.queue (.senders r) → x ∈ a.queue (.senders r)

theorem Differs.procOk (hd : Differs a b p) (hx : x ≠ p) (h : a.ProcOk x) : b.ProcOk x :=
  h.congr (hd.states x hx) (hd.affinity x hx) (hd.priority x hx) (hd.ready x hx) (hd.senders x hx)

theorem Differs.trans {e : AbsKernel} (h1 : Differs a b p) (h2 : Differs b e p) :
    Differs a e p where
  currpid := h2.currpid.trans h1.currpid
  states x hx := (h2.states x hx).trans (h1.states x hx)
  affinity x hx := (h2.affinity x hx).trans (h1.affinity x hx)
  priority x hx := (h2.priority x hx).trans (h1.priority x hx)
  ready x hx d hd := (h2.ready x hx d hd).trans (h1.ready x hx d hd)
  senders x hx r hr h := h1.senders x hx r hr (h2.senders x hx r hr h)

/-- Writing one process's entry. -/
theorem differs_setPcb {y : Pcb} : Differs a (a.setPcb p y) p := by
  have hproc : ∀ x, x ≠ p → (a.setPcb p y).proctab x = a.proctab x := fun x hx =>
    update_of_ne hx _ _
  refine ⟨rfl, fun x hx => ?_, fun x hx => ?_, fun x hx => ?_, fun _ _ _ _ => Iff.rfl,
    fun _ _ _ _ h => h⟩
  · exact congrArg Pcb.state (hproc x hx)
  · rw [hproc x hx]
  · rw [hproc x hx]

theorem differs_setState : Differs a (a.setState p s) p := differs_setPcb

/-- Joining a queue. -/
theorem differs_push : Differs a (a.push q p) p := by
  refine ⟨rfl, fun _ _ => rfl, fun _ _ => rfl, fun _ _ => rfl, fun x hx d _ => ?_,
    fun x hx r _ h => (mem_push.mp h).resolve_right fun heq => hx heq.1⟩
  constructor
  · rintro ⟨i, hi, h⟩
    exact ⟨i, hi, (mem_push.mp h).resolve_right fun heq => hx heq.1⟩
  · rintro ⟨i, hi, h⟩
    exact ⟨i, hi, mem_push.mpr (Or.inl h)⟩

/-- Leaving a queue as its first process. -/
theorem Wf.differs_pop (hwf : a.Wf) {l : List Int} (hq : q.Valid) (hl : a.queue q = p :: l) :
    Differs a (a.pop q) p := by
  refine ⟨rfl, fun _ _ => rfl, fun _ _ => rfl, fun _ _ => rfl, fun x hx d hd => ?_,
    fun x hx r _ h => mem_of_mem_pop h⟩
  constructor
  · rintro ⟨i, hi, h⟩
    exact ⟨i, hi, mem_of_mem_pop h⟩
  · rintro ⟨i, hi, h⟩
    have hr : (Queue.ready d i).Valid := ⟨hd, hi⟩
    exact ⟨i, hi, (hwf.mem_pop_iff hq hl hr).mpr ⟨h, hx⟩⟩

/-- Leaving whatever queue it is on. -/
theorem differs_erase : Differs a (a.erase p) p := by
  have hmem : ∀ x, x ≠ p → ∀ q, x ∈ (a.erase p).queue q ↔ x ∈ a.queue q := fun x hx q =>
    mem_erase_of_ne hx
  refine ⟨rfl, fun _ _ => rfl, fun _ _ => rfl, fun _ _ => rfl, fun x hx d _ => ?_,
    fun x hx r _ h => (hmem x hx _).mp h⟩
  simp only [OnReady, hmem x hx]

section Differs
variable {idle : Set Core} (hdiff : Differs a b p)
include hdiff

/-- A change of a process that is not current before or after. A core
that is switching may still have it as its old process. -/
theorem Differs.same (h : a.SchedInv idle) (hproc : IsPid p → b.ProcOk p)
    (haff : ∀ c, a.currpid c = p → (b.proctab p).coreAffinity = c)
    (hbefore : a.states p ≠ .PRCURR) (hafter : b.states p ≠ .PRCURR) : b.SchedInv idle := by
  refine ⟨fun x hx => ?_, fun c => ?_, fun c => ?_, fun c hc => ?_, fun x hx hs => ?_⟩
  · by_cases hxp : x = p
    · exact hxp ▸ hproc (hxp ▸ hx)
    · exact hdiff.procOk hxp (h.procs x hx)
  · rw [hdiff.currpid]
    exact h.pid c
  · rw [hdiff.currpid]
    by_cases hcp : a.currpid c = p
    · rw [hcp]
      exact haff c hcp
    · rw [hdiff.affinity _ hcp]
      exact h.affinity c
  · have hcp : a.currpid c ≠ p := fun heq => hbefore (heq ▸ h.current c hc)
    rw [hdiff.currpid, hdiff.states _ hcp]
    exact h.current c hc
  · have hxp : x ≠ p := fun heq => hafter (heq ▸ hs)
    rw [hdiff.currpid]
    exact h.currentOnly x hx (hdiff.states x hxp ▸ hs)

/-- A current process gives up its core. -/
theorem Differs.leave (h : a.SchedInv idle) (hp : a.currpid c = p) (hproc : b.ProcOk p)
    (haff : (b.proctab p).coreAffinity = c) (hafter : b.states p ≠ .PRCURR) :
    b.SchedInv (insert c idle) := by
  -- A process is bound to one core, so it is current on no other.
  have hne : ∀ d, d ≠ c → a.currpid d ≠ p := fun d hd heq => hd (by
    have hdc : (d : Int) = c := by rw [← h.affinity d, ← h.affinity c, heq, hp]
    exact Fin.ext (by exact_mod_cast hdc))
  refine ⟨fun x hx => ?_, fun d => ?_, fun d => ?_, fun d hd => ?_, fun x hx hs => ?_⟩
  · by_cases hxp : x = p
    · exact hxp ▸ hproc
    · exact hdiff.procOk hxp (h.procs x hx)
  · rw [hdiff.currpid]
    exact h.pid d
  · rw [hdiff.currpid]
    by_cases hdc : d = c
    · rw [hdc, hp, haff]
    · rw [hdiff.affinity _ (hne d hdc)]
      exact h.affinity d
  · obtain ⟨hdc, hdi⟩ := not_or.mp hd
    rw [hdiff.currpid, hdiff.states _ (hne d hdc)]
    exact h.current d hdi
  · have hxp : x ≠ p := fun heq => hafter (heq ▸ hs)
    obtain ⟨d, hdi, hd⟩ := h.currentOnly x hx (hdiff.states x hxp ▸ hs)
    rw [hdiff.currpid]
    refine ⟨d, ?_, hd⟩
    rintro (rfl | hmem)
    · exact hxp (hd.symm.trans hp)
    · exact hdi hmem

end Differs

/-! ### The steps of `resched` -/

section Sched
variable {idle : Set Core}

/-- A current process with the core's affinity is the one that runs on
it. -/
theorem SchedInv.currpid_of_current (h : a.SchedInv idle) (hp : IsPid p)
    (hcur : a.states p = .PRCURR) (haff : (a.proctab p).coreAffinity = c) : a.currpid c = p := by
  obtain ⟨d, -, hd⟩ := h.currentOnly p hp hcur
  have hdc : (d : Int) = c := by rw [← h.affinity d, hd, haff]
  obtain rfl : d = c := Fin.ext (by exact_mod_cast hdc)
  exact hd

/-- The process of a core without a current process is not current
elsewhere. -/
theorem SchedInv.not_current (h : a.SchedInv idle) (hc : c ∈ idle) :
    a.states (a.currpid c) ≠ .PRCURR := by
  intro hs
  obtain ⟨c', hne, heq⟩ := h.currentOnly _ (h.pid c) hs
  have haff : (c' : Int) = c := by rw [← h.affinity c', ← h.affinity c, heq]
  obtain rfl : c' = c := Fin.ext (by exact_mod_cast haff)
  exact hne hc

theorem SchedInv.age (h : a.SchedInv idle) : (a.age c).SchedInv idle where
  procs p hp := (h.procs p hp).congr (by rw [Vars.states, age_proctab]; rfl) (by rw [age_proctab])
    (by rw [age_proctab]) (fun d _ => onReady_age) fun r _ hp => senders_age ▸ hp
  pid d := by rw [age_currpid]; exact h.pid d
  affinity d := by rw [age_currpid, age_proctab]; exact h.affinity d
  current d hd := by rw [Vars.states, age_currpid, age_proctab]; exact h.current d hd
  currentOnly p hp hs := by
    rw [Vars.states, age_proctab] at hs
    rw [age_currpid]
    exact h.currentOnly p hp hs

/-- A process that joins a ready queue is on that one only, if it was on
none before. -/
theorem onReady_push_self {e i : Int} (hi : 0 ≤ i ∧ i < 3) (hfree : ¬ a.Queued p) (hd : IsCore d) :
    (a.push (.ready e i) p).OnReady d p ↔ d = e := by
  constructor
  · rintro ⟨j, hj, hp⟩
    rcases mem_push.mp hp with hp | ⟨-, heq⟩
    · exact absurd ⟨.ready d j, ⟨hd, hj⟩, hp⟩ hfree
    · exact (Queue.ready.inj heq).1
  · rintro rfl
    exact ⟨i, hi, mem_push.mpr (Or.inr ⟨rfl, rfl⟩)⟩

theorem not_mem_senders_push {e i r : Int} (hfree : ¬ a.Queued p) (hr : IsPid r) :
    p ∉ (a.push (.ready e i) p).queue (.senders r) := by
  rw [mem_push]
  rintro (hp | ⟨-, heq⟩)
  · exact hfree ⟨.senders r, hr, hp⟩
  · cases heq

/-- After `yield` the core has no current process. -/
theorem SchedInv.yield (h : a.SchedInv idle) : (a.yield c).SchedInv (insert c idle) := by
  by_cases hs : a.states (a.currpid c) = .PRCURR
  · have hcur := h.procs _ (h.pid c)
    have hprio := hcur.priority (by simp [hs])
    have hfree := hcur.not_queued (by simp [hs]) (by simp [hs])
    rw [yield_of_current hs]
    have hstate : (a.setState (a.currpid c) .PRREADY).states (a.currpid c) = .PRREADY :=
      states_setState_self
    have haff : ((a.setState (a.currpid c) .PRREADY).proctab (a.currpid c)).coreAffinity = c :=
      Vars.coreAffinity_setState.trans (h.affinity c)
    refine (differs_setState.trans differs_push).leave h rfl (.of_ready hstate ?_ ?_ ?_ ?_)
      haff (fun heq => by cases hstate.symm.trans heq)
    · exact haff.symm ▸ isCore c
    · exact (Vars.priority_setState (v := a.toVars)).symm ▸ hprio
    · intro d hd
      exact (onReady_push_self hprio hfree hd).trans (by rw [← haff]; rfl)
    · exact fun r hr => not_mem_senders_push hfree hr
  · rw [yield_of_stopped hs]
    have hc : c ∈ idle := by
      by_contra hc
      exact hs (h.current c hc)
    rwa [Set.insert_eq_of_mem hc]

/-- `yield` queues a process that was on no queue. -/
theorem Wf.yield (hwf : a.Wf) (h : a.SchedInv idle) : (a.yield c).Wf := by
  by_cases hs : a.states (a.currpid c) = .PRCURR
  · rw [yield_of_current hs]
    exact Wf.push (hwf.congr rfl) (h.pid c)
      ((h.procs _ (h.pid c)).not_queued (by simp [hs]) (by simp [hs]))
  · rwa [yield_of_stopped hs]

/-- `dispatch` gives the core its current process. -/
theorem SchedInv.dispatch (h : a.SchedInv idle) (hc : c ∈ idle) (hwf : a.Wf)
    (hb : a.dispatch c = some b) : b.SchedInv (idle \ {c}) := by
  have hq := Queue.valid_ready c (highestPrio_range (a := a) (c := c))
  obtain ⟨p, l, hl, rfl⟩ := dispatch_eq_some hb
  have hmem : p ∈ a.queue (.ready c (a.highestPrio c)) := hl ▸ mem_cons_self
  have hpid := hwf.pids _ hq p hmem
  have hp := h.procs p hpid
  obtain ⟨hready, haff⟩ := hp.ready_state c (isCore c) ⟨_, highestPrio_range, hmem⟩
  have hdiff : Differs a ((a.pop (.ready c (a.highestPrio c))).setState p .PRCURR) p :=
    (hwf.differs_pop hq hl).trans differs_setState
  have hstate : ((a.pop (.ready c (a.highestPrio c))).setState p .PRCURR).states p = .PRCURR :=
    states_setState_self
  have haff' : ∀ x, (((a.pop (.ready c (a.highestPrio c))).setState p .PRCURR).proctab
      x).coreAffinity = (a.proctab x).coreAffinity := fun x => Vars.coreAffinity_setState
  -- `run` writes `currpid` and `preempt` on top of the new state.
  refine ⟨fun x hx => ?_, fun d => ?_, fun d => ?_, fun d hdi => ?_, fun x hx hs => ?_⟩
  · refine ProcOk.congr_queue (a := (a.pop (.ready c (a.highestPrio c))).setState p .PRCURR) ?_
      rfl rfl rfl rfl
    by_cases hxp : x = p
    · subst hxp
      refine .of_not_queued (hwf.not_queued_pop hq hl) ?_ (fun _ => ?_) (fun _ _ => ?_)
        fun hsusp => ?_
      · simp [hstate]
      · exact (Vars.priority_setState (v := a.toVars)).symm ▸ hp.priority (by simp [hready])
      · rw [haff', haff]
        exact isCore c
      · cases hstate.symm.trans hsusp
    · exact hdiff.procOk hxp (h.procs x hx)
  · show IsPid (update a.currpid c p d)
    by_cases hdc : d = c
    · subst hdc
      rwa [update_self]
    · rw [update_of_ne hdc]
      exact h.pid d
  · show (((a.pop (.ready c (a.highestPrio c))).setState p .PRCURR).proctab
      (update a.currpid c p d)).coreAffinity = d
    rw [haff']
    by_cases hdc : d = c
    · subst hdc
      rw [update_self, haff]
    · rw [update_of_ne hdc]
      exact h.affinity d
  · show ((a.pop (.ready c (a.highestPrio c))).setState p .PRCURR).states
      (update a.currpid c p d) = .PRCURR
    by_cases hdc : d = c
    · subst hdc
      rwa [update_self]
    · rw [update_of_ne hdc]
      have hd := h.current d fun hmem => hdi ⟨hmem, hdc⟩
      have hne : a.currpid d ≠ p := fun heq => by
        rw [heq, hready] at hd
        cases hd
      exact (hdiff.states _ hne).trans hd
  · by_cases hxp : x = p
    · exact ⟨c, by simp, hxp ▸ update_self ..⟩
    · have hs' : a.states x = .PRCURR := (hdiff.states x hxp).symm.trans hs
      obtain ⟨d, hd, hdx⟩ := h.currentOnly x hx hs'
      have hdc : d ≠ c := fun heq => hd (heq ▸ hc)
      exact ⟨d, fun hmem => hd hmem.1, (update_of_ne hdc _ _).trans hdx⟩

theorem SchedInv.resched (h : a.SchedInv idle) (hwf : a.Wf) (hb : a.resched c = some b) :
    b.SchedInv (idle \ {c}) := by
  have hyield := (h.age (c := c)).yield (c := c)
  have hdisp := hyield.dispatch (Set.mem_insert c idle)
    ((hwf.age (c := c)).yield (h.age (c := c))) hb
  rwa [Set.insert_sdiff_of_mem idle (Set.mem_singleton c)] at hdisp

/-- A core that was switching has its process again. -/
theorem SchedInv.resched_of_idle (h : a.SchedInv idle) (hidle : ∀ d ∈ idle, d = c) (hwf : a.Wf)
    (hb : a.resched c = some b) : b.SchedInv ∅ := by
  have hsub : idle ⊆ {c} := hidle
  have hres := h.resched hwf hb
  rwa [Set.sdiff_eq_empty.mpr hsub] at hres

/-- A core with its current process among the ready ones dispatches. -/
theorem dispatch_isSome (h : ∃ p, a.OnReady c p) : ∃ b, a.dispatch c = some b := by
  obtain ⟨p, i, hi, hp⟩ := h
  have hne : a.queue (.ready c (a.highestPrio c)) ≠ [] := by
    unfold highestPrio
    split
    · assumption
    · split
      · assumption
      · rename_i hhigh hmed
        obtain rfl | rfl | rfl : i = PRIORITY_LOW ∨ i = PRIORITY_MED ∨ i = PRIORITY_HIGH := by
          simp only [PRIORITY_LOW, PRIORITY_MED, PRIORITY_HIGH]
          omega
        · exact ne_nil_of_mem hp
        · exact absurd (ne_nil_of_mem hp) hmed
        · exact absurd (ne_nil_of_mem hp) hhigh
  unfold AbsKernel.dispatch
  simp only
  split
  · rename_i hnil
    exact absurd hnil hne
  · exact ⟨_, rfl⟩

/-- `yield` takes no process off a ready queue. -/
theorem onReady_yield (h : a.OnReady d p) : (a.yield c).OnReady d p := by
  by_cases hs : (a.proctab (a.currpid c)).state = .PRCURR
  · obtain ⟨i, hi, hp⟩ := h
    rw [yield_of_current hs]
    exact ⟨i, hi, mem_push.mpr (Or.inl hp)⟩
  · rwa [yield_of_stopped hs]

/-- A core with a ready process can be rescheduled. -/
theorem resched_isSome (h : a.OnReady c p) : ∃ b, a.resched c = some b :=
  dispatch_isSome ⟨p, onReady_yield (onReady_age.mpr h)⟩

/-- A current process can always be rescheduled: it is ready itself. -/
theorem SchedInv.resched_isSome (h : a.SchedInv idle) (hc : c ∉ idle) :
    ∃ b, a.resched c = some b := by
  refine dispatch_isSome ⟨a.currpid c, ?_⟩
  have hs : a.states (a.currpid c) = .PRCURR := h.current c hc
  have hprio := (h.procs _ (h.pid c)).priority (by simp [hs])
  have hcond : ((a.age c).proctab ((a.age c).currpid c)).state = .PRCURR := by
    rw [age_proctab, age_currpid]
    exact hs
  rw [yield_of_current hcond]
  simp only [age_proctab, age_currpid]
  exact ⟨_, hprio, mem_push.mpr (Or.inr ⟨rfl, rfl⟩)⟩

/-- Different cores run different processes. -/
theorem SchedInv.currpid_ne (h : a.SchedInv idle) {d : Core} (hd : d ≠ c) :
    a.currpid d ≠ a.currpid c := by
  intro heq
  have haff : (d : Int) = c := by rw [← h.affinity d, ← h.affinity c, heq]
  exact hd (Fin.ext (by exact_mod_cast haff))

/-- `resched` changes the process of its own core only. -/
theorem resched_currpid (hb : a.resched c = some b) {d : Core} (hd : d ≠ c) :
    b.currpid d = a.currpid d := by
  obtain ⟨r, l, -, rfl⟩ := @dispatch_eq_some ((a.age c).yield c) c b hb
  show update ((a.age c).yield c).currpid c _ d = a.currpid d
  rw [update_of_ne hd]
  by_cases hs : ((a.age c).proctab ((a.age c).currpid c)).state = .PRCURR
  · rw [yield_of_current hs]
    show (a.age c).currpid d = _
    rw [age_currpid]
  · rw [yield_of_stopped hs, age_currpid]

end Sched

end AbsKernel

end Xinu
