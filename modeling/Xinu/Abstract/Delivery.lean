import Xinu.Abstract.Effects
import Xinu.System.Smp

/-!
# `Xinu.Abstract.Delivery`: messages between the steps of the cores

The invariant of the cores has three parts. `Cores` is the scheduler's
invariant, with the cores whose process has given up its turn and not
called `resched` yet. `Wakes` is about the processes that are at a
`ready`: nobody else wakes the same process, and it sleeps until then.
`Logged` is about the mailbox of one process: what was accepted for it
is what it has taken, then the message in its mailbox, then the messages
of the senders that wait, in the order of their queue.

Each step changes few processes, so each lemma says which ones and
leaves the rest to `Logged.congr` and `Wakes.congr`.
-/

namespace Xinu

open Function List

variable {resch : Bool} {self sender : Int} {y : Point} {w t : Int}

/-- The process has given up its turn, or is about to. -/
def Point.Yielding : Point → Prop
  | .resched | .recvResched => True
  | _ => False

/-- The process is in `recv` and has not taken a message yet. -/
def Point.Receiving : Point → Prop
  | .recvResched | .recvCollect => True
  | _ => False

namespace AbsKernel

variable {a b : AbsKernel} {c : Core} {p x r : Int} {idle : Set Core}
  {point point' : Int → Point} {acc del : Int → List Int}

/-! ### The cores -/

/-- The cores whose process is not current. -/
def switching (a : AbsKernel) : Set Core := { c | a.states (a.currpid c) ≠ .PRCURR }

/-- The invariant determines the cores that are switching. -/
theorem SchedInv.switching_eq (h : a.SchedInv idle) : a.switching = idle := by
  ext c
  constructor
  · intro hc
    by_contra hni
    exact hc (h.current c hni)
  · intro hc
    exact h.not_current hc

/-- Only a process at a `resched` is not current on its core. -/
structure Cores (a : AbsKernel) (point : Int → Point) : Prop where
  sched : a.SchedInv a.switching
  yielding : ∀ c ∈ a.switching, (point (a.currpid c)).Yielding
  live : ∀ c, a.states (a.currpid c) ≠ .PRFREE

theorem Cores.of_schedInv (h : a.SchedInv idle)
    (hyield : ∀ c ∈ idle, (point (a.currpid c)).Yielding)
    (hlive : ∀ c, a.states (a.currpid c) ≠ .PRFREE) : a.Cores point where
  sched := h.switching_eq.symm ▸ h
  yielding := h.switching_eq.symm ▸ hyield
  live := hlive

/-- A process that is not at a `resched` is current. -/
theorem Cores.current (h : a.Cores point) (hc : ¬ (point (a.currpid c)).Yielding) :
    a.states (a.currpid c) = .PRCURR := by
  by_contra hcur
  exact hc (h.yielding c hcur)

/-- After `resched` the core has a current process again. The old process
may be at any point. -/
theorem Cores.resched (h : a.SchedInv idle) (hwf : a.Wf)
    (hyield : ∀ d ∈ idle, d ≠ c → (point (a.currpid d)).Yielding)
    (hlive : ∀ d, d ≠ c → a.states (a.currpid d) ≠ .PRFREE) (hb : a.resched c = some b)
    (hpoint : ∀ x, x ≠ a.currpid c → point' x = point x) : b.Cores point' := by
  have hinv := h.resched hwf hb
  have hres := h.rescheduled hwf hb
  refine .of_schedInv hinv ?_ ?_
  · rintro d ⟨hd, hdc⟩
    have hne : d ≠ c := hdc
    rw [resched_currpid hb hne, hpoint _ (h.currpid_ne hne)]
    exact hyield d hd hne
  · intro d
    by_cases hd : d = c
    · subst hd
      have hcur := hinv.current d fun hm => hm.2 rfl
      simp [hcur]
    · rw [resched_currpid hb hd]
      intro hfree
      exact hlive d hd ((hres.states_eq_iff (by simp [PrState.Active])).mp hfree)

/-- A step of the current process of core `c` that changes no state. -/
theorem Cores.collect (h : a.Cores point) (hcur : a.states (a.currpid c) = .PRCURR)
    (hsched : b.SchedInv a.switching) (hcurr : b.currpid = a.currpid)
    (hstates : ∀ x, b.states x = a.states x) : b.Cores (update point (a.currpid c) y) := by
  refine .of_schedInv hsched ?_ ?_
  · intro d hd
    have hdc : d ≠ c := by
      rintro rfl
      exact hd hcur
    rw [hcurr, update_of_ne (h.sched.currpid_ne hdc)]
    exact h.yielding d hd
  · intro d
    rw [hcurr, hstates]
    exact h.live d

/-- The process of core `c` gives up its turn. -/
theorem Cores.leave (h : a.Cores point) (hsched : b.SchedInv (insert c a.switching))
    (hcurr : b.currpid = a.currpid) (hstates : ∀ x, x ≠ a.currpid c → b.states x = a.states x)
    (hself : b.states (a.currpid c) ≠ .PRFREE) (hy : y.Yielding) :
    b.Cores (update point (a.currpid c) y) := by
  refine .of_schedInv hsched ?_ ?_
  · intro d hd
    rw [hcurr]
    by_cases hdc : d = c
    · rw [hdc, update_self]
      exact hy
    · rw [update_of_ne (h.sched.currpid_ne hdc)]
      exact h.yielding d (hd.resolve_left hdc)
  · intro d
    rw [hcurr]
    by_cases hdc : d = c
    · rwa [hdc]
    · rw [hstates _ (h.sched.currpid_ne hdc)]
      exact h.live d

/-! ### Processes at a `ready` -/

/-- A process at a `ready` wakes a process that sleeps, and no other
process is about to wake it. -/
structure Wakes (a : AbsKernel) (point : Int → Point) : Prop where
  target : ∀ w t resch, IsPid w → point w = .ready t resch →
    IsPid t ∧ (∀ r, IsPid r → t ∉ a.queue (.senders r)) ∧
      (a.states t = .PRSEND ∨ a.states t = .PRRECV ∧ (a.proctab t).hasMessage = true)
  distinct : ∀ w w' t resch resch', IsPid w → IsPid w' → point w = .ready t resch →
    point w' = .ready t resch' → w = w'

/-- A process that reaches `x`, which is no `ready`, is not at a
`ready`. -/
theorem ready_of_update {x : Point} (hx : ∀ t resch, x ≠ .ready t resch)
    (hp : update point p x w = .ready t resch) : w ≠ p ∧ point w = .ready t resch := by
  by_cases hw : w = p
  · rw [hw, update_self] at hp
    exact absurd hp (hx t resch)
  · rw [update_of_ne hw] at hp
    exact ⟨hw, hp⟩

theorem ready_of_running
    (hp : update point p .running w = .ready t resch) : point w = .ready t resch :=
  (ready_of_update (by simp) hp).2

/-- The sleeping processes that are about to be woken did not change. -/
theorem Wakes.congr (h : a.Wakes point)
    (hpoint : ∀ w t resch, IsPid w → point' w = .ready t resch → point w = .ready t resch)
    (hsame : ∀ w t resch, IsPid w → point' w = .ready t resch → b.states t = a.states t ∧
      (b.proctab t).hasMessage = (a.proctab t).hasMessage ∧
      ∀ r, IsPid r → t ∈ b.queue (.senders r) → t ∈ a.queue (.senders r)) : b.Wakes point' where
  target w t resch hw hp := by
    obtain ⟨ht, hq, hs⟩ := h.target w t resch hw (hpoint w t resch hw hp)
    obtain ⟨hstate, hmsg, hsend⟩ := hsame w t resch hw hp
    rw [hstate, hmsg]
    exact ⟨ht, fun r hr hm => hq r hr (hsend r hr hm), hs⟩
  distinct w w' t resch resch' hw hw' hp hp' :=
    h.distinct w w' t resch resch' hw hw' (hpoint w t resch hw hp) (hpoint w' t resch' hw' hp')

/-- A process takes up the waking of `t`, whom nobody is about to wake. -/
theorem Wakes.add (h : a.Wakes point) {t : Int} (ht : IsPid t)
    (hnone : ∀ w resch, IsPid w → point w ≠ .ready t resch)
    (hsend : ∀ r, IsPid r → t ∉ a.queue (.senders r))
    (hstate : a.states t = .PRSEND ∨ a.states t = .PRRECV ∧ (a.proctab t).hasMessage = true) :
    a.Wakes (update point p (.ready t resch)) := by
  have hnew : ∀ w t' resch', update point p (.ready t resch) w = .ready t' resch' →
      point w = .ready t' resch' ∨ w = p ∧ t' = t := by
    intro w t' resch' hp
    by_cases hw : w = p
    · rw [hw, update_self] at hp
      exact Or.inr ⟨hw, (Point.ready.inj hp).1.symm⟩
    · rw [update_of_ne hw] at hp
      exact Or.inl hp
  refine ⟨?_, ?_⟩
  · intro w t' resch' hw hp
    rcases hnew w t' resch' hp with hp | ⟨-, rfl⟩
    · exact h.target w t' resch' hw hp
    · exact ⟨ht, hsend, hstate⟩
  · intro w w' t' resch1 resch2 hw hw' hp hp'
    rcases hnew w t' resch1 hp with hp | ⟨hwp, rfl⟩ <;>
      rcases hnew w' _ resch2 hp' with hp' | ⟨hwp', ht'⟩
    · exact h.distinct w w' t' resch1 resch2 hw hw' hp hp'
    · exact absurd (ht' ▸ hp) (hnone w resch1 hw)
    · exact absurd hp' (hnone w' resch2 hw')
    · rw [hwp, hwp']

/-- A current process is not about to be woken. -/
theorem Wakes.ne_of_current (h : a.Wakes point) (hcur : a.states p = .PRCURR)
    (hw : IsPid w) (hp : point w = .ready t resch) : t ≠ p := by
  rintro rfl
  obtain ⟨-, -, hs⟩ := h.target w t resch hw hp
  rcases hs with hs | ⟨hs, -⟩ <;> cases hcur.symm.trans hs

/-- A process that is about to be woken sleeps. -/
theorem Wakes.asleep (h : a.Wakes point) (hsched : a.SchedInv idle)
    (hw : IsPid w) (hp : point w = .ready t resch) : a.Asleep t ∧ a.states t ≠ .PRSUSP := by
  obtain ⟨ht, hq, hs⟩ := h.target w t resch hw hp
  have hnq : ¬ a.Queued t := by
    rw [queued_iff]
    rintro (⟨d, hd, hon⟩ | ⟨r, hr, hm⟩)
    · have hready := ((hsched.procs t ht).ready_state d hd hon).1
      rcases hs with hs | ⟨hs, -⟩ <;> cases hready.symm.trans hs
    · exact hq r hr hm
  rcases hs with hs | ⟨hs, -⟩ <;>
    exact ⟨⟨ht, by simp [hs], by simp [hs], by simp [hs], hnq⟩, by simp [hs]⟩

/-! ### The mailbox of one process -/

/-- A process that reaches a point outside of `recv` is not
receiving. -/
theorem receiving_of_update (hy : ¬ y.Receiving)
    (hx : (update point p y x).Receiving) : x ≠ p ∧ (point x).Receiving := by
  by_cases hxp : x = p
  · rw [hxp, update_self] at hx
    exact absurd hx hy
  · rw [update_of_ne hxp] at hx
    exact ⟨hxp, hx⟩

/-- The message in the mailbox, if there is one. -/
def mailbox (a : AbsKernel) (p : Int) : List Int :=
  if (a.proctab p).hasMessage then [(a.proctab p).msgin] else []

/-- The messages of the senders that wait for `p`, in order. -/
def parked (a : AbsKernel) (p : Int) : List Int :=
  (a.queue (.senders p)).map fun q => (a.proctab q).msgout

/-- The accepted messages are the taken ones, the one in the mailbox, and
those of the waiting senders. Senders wait only at a full mailbox, and a
process in `recv` finds a message when it runs. -/
structure Logged (a : AbsKernel) (point : Int → Point) (acc del : Int → List Int) (p : Int) :
    Prop where
  dead : a.states p = .PRFREE → a.queue (.senders p) = []
  full : a.queue (.senders p) ≠ [] → (a.proctab p).hasMessage = true
  receiving : (point p).Receiving → (a.proctab p).hasMessage = true ∨ a.states p = .PRRECV
  log : a.states p ≠ .PRFREE → acc p = del p ++ a.mailbox p ++ a.parked p

/-- Neither the mailbox of `p` nor its senders changed. -/
theorem Logged.congr (h : a.Logged point acc del p)
    (hfree : b.states p = .PRFREE ↔ a.states p = .PRFREE)
    (hrecv : (point' p).Receiving → (point p).Receiving ∧
      (a.states p = .PRRECV → (a.proctab p).hasMessage = true ∨ b.states p = .PRRECV))
    (hmsg : (b.proctab p).hasMessage = (a.proctab p).hasMessage)
    (hin : (b.proctab p).msgin = (a.proctab p).msgin)
    (hsend : b.queue (.senders p) = a.queue (.senders p))
    (hout : ∀ q ∈ a.queue (.senders p), (b.proctab q).msgout = (a.proctab q).msgout) :
    b.Logged point' acc del p where
  dead hs := hsend ▸ h.dead (hfree.mp hs)
  full hs := hmsg ▸ h.full (hsend ▸ hs)
  receiving hp := by
    rw [hmsg]
    rcases h.receiving (hrecv hp).1 with hm | hs
    · exact Or.inl hm
    · exact (hrecv hp).2 hs
  log hs := by
    have hmail : b.mailbox p = a.mailbox p := by rw [mailbox, mailbox, hmsg, hin]
    have hparked : b.parked p = a.parked p := by
      rw [parked, parked, hsend]
      exact map_congr_left hout
    rw [hmail, hparked]
    exact h.log fun hfr => hs (hfree.mpr hfr)

theorem Logged.congr_log {acc' del' : Int → List Int} (h : a.Logged point acc del p)
    (hacc : acc' p = acc p) (hdel : del' p = del p) : a.Logged point acc' del' p :=
  ⟨h.dead, h.full, h.receiving, fun hs => by rw [hacc, hdel]; exact h.log hs⟩

/-- The invariant between two steps of the cores. -/
structure Delivery (a : AbsKernel) (point : Int → Point) (acc del : Int → List Int) : Prop where
  cores : a.Cores point
  wakes : a.Wakes point
  logged : ∀ p, IsPid p → a.Logged point acc del p

/-- A step that changes no process and no queue. -/
theorem Delivery.congr (h : a.Delivery point acc del) (hb : Unchanged a b) :
    b.Delivery point acc del := by
  have hstates : ∀ x, b.states x = a.states x := fun x => by rw [Vars.states, hb.proctab]; rfl
  have hsame : SameSched a b := ⟨hb.currpid, hb.queue, hstates, fun x => by rw [hb.proctab],
    fun x => by rw [hb.proctab]⟩
  refine ⟨.of_schedInv (h.cores.sched.congr hsame) ?_ ?_,
    h.wakes.congr (fun _ _ _ _ hp => hp) ?_, ?_⟩
  · intro c hc
    rw [hb.currpid]
    exact h.cores.yielding c hc
  · intro c
    rw [hb.currpid, hstates]
    exact h.cores.live c
  · intro w t resch hw hp
    rw [hstates, hb.proctab, hb.queue]
    exact ⟨rfl, rfl, fun _ _ hm => hm⟩
  · intro p hp
    exact (h.logged p hp).congr (by rw [hstates]) (fun hx => ⟨hx, fun hs =>
      Or.inr ((hstates p).trans hs)⟩) (by rw [hb.proctab]) (by rw [hb.proctab]) (by rw [hb.queue])
      fun q _ => by rw [hb.proctab]

/-! ### Switching and waking -/

/-- Scheduling does not touch messages or sleeping processes. -/
theorem Wakes.rescheduled (h : a.Wakes point) (hres : Rescheduled a b)
    (hready : ∀ w t resch, point' w = .ready t resch → point w = .ready t resch) :
    b.Wakes point' := by
  refine h.congr (fun w t resch _ hp => hready w t resch hp) ?_
  intro w t resch hw hp
  obtain ⟨-, -, hs⟩ := h.target w t resch hw (hready w t resch hp)
  refine ⟨?_, by rw [hres.pcb], fun r _ hm => hres.senders r ▸ hm⟩
  -- A sleeping process is neither current nor ready.
  rcases hs with hs | ⟨hs, -⟩ <;> rw [hs, hres.states_eq_iff (by simp [PrState.Active]), hs]

theorem Logged.rescheduled (h : a.Logged point acc del p) (hres : Rescheduled a b)
    (hrecv : (point' p).Receiving → (point p).Receiving) : b.Logged point' acc del p := by
  refine h.congr (hres.states_eq_iff (by simp [PrState.Active])) ?_ (by rw [hres.pcb])
    (by rw [hres.pcb]) (hres.senders p) fun q _ => by rw [hres.pcb]
  intro hp
  exact ⟨hrecv hp, fun hs => Or.inr ((hres.states_eq_iff (by simp [PrState.Active])).mpr hs)⟩

/-- `resched` on core `c`, by a process at `point`. -/
theorem Delivery.resched (h : a.Delivery point acc del) (hwf : a.Wf) (hb : a.resched c = some b)
    (hpoint : ∀ x, x ≠ a.currpid c → point' x = point x)
    (hready : ∀ w t resch, point' w = .ready t resch → point w = .ready t resch)
    (hrecv : ∀ p, (point' p).Receiving → (point p).Receiving) : b.Delivery point' acc del := by
  have hres := h.cores.sched.rescheduled hwf hb
  exact ⟨.resched h.cores.sched hwf (fun d hd _ => h.cores.yielding d hd)
    (fun d _ => h.cores.live d) hb hpoint, h.wakes.rescheduled hres hready,
    fun p hp => (h.logged p hp).rescheduled hres (hrecv p)⟩

/-- Waking a process `t` that sleeps. If it waits in `recv`, there is a
message for it. -/
theorem Delivery.wake (h : a.Delivery point acc del) {t : Int} {core : Ulong} (ht : a.Asleep t)
    (hcore : a.states t = .PRSUSP → IsCore core.toInt)
    (hmsg : a.states t = .PRRECV → (a.proctab t).hasMessage = true)
    (hpoint : ∀ x, (point x).Yielding → point' x = point x)
    (hready : ∀ w t' resch, IsPid w → point' w = .ready t' resch →
      point w = .ready t' resch ∧ t' ≠ t)
    (hrecv : ∀ p, (point' p).Receiving → (point p).Receiving) :
    (a.wake t core).Delivery point' acc del := by
  obtain ⟨d, hself, -⟩ := Vars.makeReady_self a.toVars t core
  have hpcb : (a.wake t core).proctab t =
    { a.proctab t with state := .PRREADY, coreAffinity := d } :=
    hself
  have hstate : (a.wake t core).states t = .PRREADY := congrArg Pcb.state hself
  have hother : ∀ x, x ≠ t → (a.wake t core).proctab x = a.proctab x := by
    intro x hx
    exact Vars.makeReady_of_ne hx
  have hsend : ∀ r, (a.wake t core).queue (.senders r) = a.queue (.senders r) := fun r =>
    senders_push
  have hcurr : (a.wake t core).currpid = a.currpid := Vars.makeReady_currpid
  have hout : ∀ q, ((a.wake t core).proctab q).msgout = (a.proctab q).msgout := by
    intro q
    by_cases hq : q = t
    · rw [hq, hpcb]
    · rw [hother q hq]
  refine ⟨.of_schedInv (h.cores.sched.wake ht hcore) ?_ ?_, h.wakes.congr ?_ ?_, ?_⟩
  · intro c hc
    have hy := h.cores.yielding c hc
    rw [hcurr, hpoint _ hy]
    exact hy
  · intro c
    rw [hcurr]
    by_cases hct : a.currpid c = t
    · simp [hct, hstate]
    · rw [Vars.states, hother _ hct]
      exact h.cores.live c
  · intro w t' resch hw hp
    exact (hready w t' resch hw hp).1
  · intro w t' resch hw hp
    have hne := (hready w t' resch hw hp).2
    rw [Vars.states, hother t' hne]
    exact ⟨rfl, rfl, fun r _ hm => hsend r ▸ hm⟩
  · intro p hp
    by_cases hpt : p = t
    · subst hpt
      refine (h.logged p hp).congr ?_ ?_ (by rw [hpcb]) (by rw [hpcb]) (hsend p) fun q _ => hout q
      · rw [hstate]
        simp [ht.notFree]
      · -- A receiver that is woken finds its message.
        exact fun hx => ⟨hrecv p hx, fun hs => Or.inl (hmsg hs)⟩
    · have hst : (a.wake t core).states p = a.states p := by
        rw [Vars.states, hother p hpt]
        rfl
      refine (h.logged p hp).congr (by rw [hst]) ?_ (by rw [hother p hpt]) (by rw [hother p hpt])
        (hsend p) fun q _ => hout q
      exact fun hx => ⟨hrecv p hx, fun hs => Or.inr (hst.trans hs)⟩

/-! ### Birth and death -/

/-- A new process starts with no messages. -/
theorem Delivery.entered (h : a.Delivery point acc del) {args : Vars.CreateArgs} {pid : Int}
    {saddr : Ulong} (hpid : IsPid pid) (hfree : a.states pid = .PRFREE)
    (hb : Entered a b args pid saddr) (hsched : b.SchedInv a.switching) :
    b.Delivery (update point pid .running) (update acc pid [])
      (update del pid []) := by
  have hself : b.proctab pid = Vars.newPcb (a.proctab pid) args saddr := by
    rw [hb.proctab, update_self]
  have hother : ∀ x, x ≠ pid → b.proctab x = a.proctab x := by
    intro x hx
    rw [hb.proctab, update_of_ne hx]
  have hnone := (h.logged pid hpid).dead hfree
  have hne : ∀ c, a.currpid c ≠ pid := by
    intro c heq
    exact h.cores.live c (heq ▸ hfree)
  -- A free process is on no queue, and nobody is about to wake it.
  have hnq : ∀ q r, IsPid r → q ∈ a.queue (.senders r) → IsPid q → q ≠ pid := by
    rintro q r hr hm hq rfl
    cases hfree.symm.trans ((h.cores.sched.procs q hq).sending r hr hm)
  refine ⟨.of_schedInv hsched ?_ ?_,
    h.wakes.congr (fun w t resch _ hp => ready_of_running hp) ?_, ?_⟩
  · intro c hc
    rw [hb.currpid, update_of_ne (hne c)]
    exact h.cores.yielding c hc
  · intro c
    rw [hb.currpid, Vars.states, hother _ (hne c)]
    exact h.cores.live c
  · intro w t resch hw hp
    obtain ⟨-, -, hs⟩ := h.wakes.target w t resch hw (ready_of_running hp)
    have htp : t ≠ pid := by
      rintro rfl
      rcases hs with hs | ⟨hs, -⟩ <;> cases hfree.symm.trans hs
    rw [Vars.states, hother t htp, hb.queue]
    exact ⟨rfl, rfl, fun _ _ hm => hm⟩
  · intro p hp
    by_cases hpp : p = pid
    · subst hpp
      have hqueue : b.queue (.senders p) = [] := by rw [hb.queue, hnone]
      have hmsg : (b.proctab p).hasMessage = false := by rw [hself]; rfl
      refine ⟨fun _ => hqueue, fun hs => absurd hqueue hs, ?_, ?_⟩
      · intro hr
        rw [update_self] at hr
        exact hr.elim
      · intro _
        simp [mailbox, parked, hqueue, hmsg]
    · have hst : b.states p = a.states p := by
        rw [Vars.states, hother p hpp]
        rfl
      refine ((h.logged p hp).congr (by rw [hst]) ?_ (by rw [hother p hpp]) (by rw [hother p hpp])
        (by rw [hb.queue]) ?_).congr_log (update_of_ne hpp _ _)
        (update_of_ne hpp _ _)
      · rw [update_of_ne hpp]
        exact fun hx => ⟨hx, fun hs => Or.inr (hst.trans hs)⟩
      · intro q hq
        by_cases hqp : q = pid
        · subst hqp
          exact absurd rfl (hnq q p hp hq hpid)
        · rw [hother q hqp]

/-- A process outside of the message calls is killed. -/
theorem Delivery.killed (h : a.Delivery point acc del) {pid : Int} (hpid : IsPid pid)
    (hsend : a.states pid ≠ .PRSEND) (hrecv : a.states pid ≠ .PRRECV)
    (hnone : a.queue (.senders pid) = []) (hb : Killed a b pid)
    (hcores : b.Cores (update point pid .running)) :
    b.Delivery (update point pid .running) acc del := by
  refine ⟨hcores, h.wakes.congr (fun w t resch _ hp => ready_of_running hp) ?_, ?_⟩
  · intro w t resch hw hp
    obtain ⟨ht, -, hs⟩ := h.wakes.target w t resch hw (ready_of_running hp)
    have htp : t ≠ pid := by
      rintro rfl
      rcases hs with hs | ⟨hs, -⟩
      · exact hsend hs
      · exact hrecv hs
    refine ⟨?_, by rw [hb.pcb t htp], fun r hr hm => hb.senders r hr ▸ hm⟩
    rcases hs with hs | ⟨hs, -⟩ <;> rw [hs, hb.states_eq_iff htp (by simp [PrState.Active]), hs]
  · intro p hp
    by_cases hpp : p = pid
    · subst hpp
      have hqueue : b.queue (.senders p) = [] := by rw [hb.senders p hp, hnone]
      refine ⟨fun _ => hqueue, fun hs => absurd hqueue hs, ?_, fun hs => absurd hb.free hs⟩
      intro hr
      rw [update_self] at hr
      exact hr.elim
    · refine (h.logged p hp).congr (hb.states_eq_iff hpp (by simp [PrState.Active])) ?_
        (by rw [hb.pcb p hpp]) (by rw [hb.pcb p hpp]) (hb.senders p hp) ?_
      · rw [update_of_ne hpp]
        intro hx
        exact ⟨hx, fun hs => Or.inr ((hb.states_eq_iff hpp (by simp [PrState.Active])).mpr hs)⟩
      · intro q hq
        by_cases hqp : q = pid
        · subst hqp
          exact absurd ((h.cores.sched.procs q hpid).sending p hp hq) hsend
        · rw [hb.pcb q hqp]

/-! ### Messages -/

section Messages
variable (h : a.Delivery point acc del) (hcur : a.states (a.currpid c) = .PRCURR)
include h hcur

/-- A current process is on no queue. -/
theorem Delivery.not_sender (hr : IsPid r) : a.currpid c ∉ a.queue (.senders r) := by
  intro hm
  cases hcur.symm.trans ((h.cores.sched.procs _ (h.cores.sched.pid c)).sending r hr hm)

/-- The locked section of `send` at a full mailbox. -/
theorem Delivery.park {msg : Int} (hr : IsPid r) (hlive : a.states r ≠ .PRFREE)
    (hfull : (a.proctab r).hasMessage = true) :
    (a.park (a.currpid c) r msg).Delivery (update point (a.currpid c) .resched)
      (update acc r (acc r ++ [msg])) del := by
  have hself : (a.park (a.currpid c) r msg).proctab (a.currpid c) =
      { a.proctab (a.currpid c) with msgout := msg, state := .PRSEND } := update_self ..
  have hother : ∀ x, x ≠ a.currpid c → (a.park (a.currpid c) r msg).proctab x = a.proctab x := by
    intro x hx
    exact update_of_ne hx _ _
  have hstate : (a.park (a.currpid c) r msg).states (a.currpid c) = .PRSEND := by
    rw [Vars.states, hself]
  have hstates : ∀ x, x ≠ a.currpid c → (a.park (a.currpid c) r msg).states x = a.states x := by
    intro x hx
    rw [Vars.states, hother x hx]
    rfl
  -- A current process becomes a waiting one: no slot is freed or taken.
  have hfree : ∀ x, (a.park (a.currpid c) r msg).states x = .PRFREE ↔ a.states x = .PRFREE := by
    intro x
    by_cases hx : x = a.currpid c
    · rw [hx, hstate, hcur]
      simp
    · rw [hstates x hx]
  have hbox : ∀ x, ((a.park (a.currpid c) r msg).proctab x).hasMessage = (a.proctab x).hasMessage ∧
      ((a.park (a.currpid c) r msg).proctab x).msgin = (a.proctab x).msgin := by
    intro x
    by_cases hx : x = a.currpid c
    · rw [hx, hself]
      exact ⟨rfl, rfl⟩
    · rw [hother x hx]
      exact ⟨rfl, rfl⟩
  -- The message of the new sender is the only one that is written, and the
  -- new sender was on no queue.
  have hout : ∀ p, IsPid p → ∀ q ∈ a.queue (.senders p),
      ((a.park (a.currpid c) r msg).proctab q).msgout = (a.proctab q).msgout := by
    intro p hp q hq
    have hqc : q ≠ a.currpid c := fun heq => h.not_sender hcur hp (heq ▸ hq)
    rw [hother q hqc]
  have hrecv : ∀ p, (update point (a.currpid c) .resched p).Receiving →
      p ≠ a.currpid c ∧ (point p).Receiving := fun p hp =>
    receiving_of_update (y := .resched) not_false hp
  have hsched : (a.park (a.currpid c) r msg).SchedInv (insert c a.switching) :=
    h.cores.sched.park hcur
  refine ⟨h.cores.leave hsched rfl hstates (by simp [hstate]) trivial,
    h.wakes.congr (fun w t resch _ hp => (ready_of_update (by simp) hp).2) ?_, ?_⟩
  · intro w t resch hw hp
    have htc := h.wakes.ne_of_current hcur hw (ready_of_update (by simp) hp).2
    rw [hstates t htc, hother t htc]
    refine ⟨rfl, rfl, fun r' _ hm => (mem_push.mp hm).resolve_right ?_⟩
    exact fun heq => htc heq.1
  · intro p hp
    by_cases hpr : p = r
    · subst hpr
      have hqueue : (a.park (a.currpid c) p msg).queue (.senders p) =
          a.queue (.senders p) ++ [a.currpid c] := update_self ..
      refine ⟨fun hs => absurd ((hfree p).mp hs) hlive, fun _ => (hbox p).1.trans hfull, ?_, ?_⟩
      · intro _
        exact Or.inl ((hbox p).1.trans hfull)
      · -- The message of the new sender comes last.
        intro _
        have hparked : (a.park (a.currpid c) p msg).parked p = a.parked p ++ [msg] := by
          rw [parked, parked, hqueue, map_append, map_congr_left (hout p hp)]
          simp [hself]
        have hmail : (a.park (a.currpid c) p msg).mailbox p = a.mailbox p := by
          rw [mailbox, mailbox, (hbox p).1, (hbox p).2]
        rw [update_self, hparked, hmail, (h.logged p hp).log hlive]
        simp
    · have hqueue : (a.park (a.currpid c) r msg).queue (.senders p) = a.queue (.senders p) :=
        update_of_ne (by simp [hpr]) _ _
      refine ((h.logged p hp).congr (hfree p) ?_ (hbox p).1 (hbox p).2 hqueue
        (hout p hp)).congr_log (update_of_ne hpr _ _) rfl
      intro hx
      exact ⟨(hrecv p hx).2, fun hs => Or.inr ((hstates p (hrecv p hx).1).trans hs)⟩

/-- The locked section of `send` and `sendnow` at an empty mailbox, with
`y` the point it leads to. -/
theorem Delivery.deposit {msg : Int} (hr : IsPid r) (hlive : a.states r ≠ .PRFREE)
    (hempty : (a.proctab r).hasMessage = false)
    (hy : y = .running ∨ a.states r = .PRRECV ∧ ∃ resch, y = .ready r resch) :
    (a.deposit r msg).Delivery (update point (a.currpid c) y)
      (update acc r (acc r ++ [msg])) del := by
  have hself : (a.deposit r msg).proctab r =
      { a.proctab r with msgin := msg, hasMessage := true } := update_self ..
  have hother : ∀ x, x ≠ r → (a.deposit r msg).proctab x = a.proctab x := by
    intro x hx
    exact update_of_ne hx _ _
  have hsame : SameSched a (a.deposit r msg) := sameSched_deposit
  have hout : ∀ q, ((a.deposit r msg).proctab q).msgout = (a.proctab q).msgout := by
    intro q
    by_cases hq : q = r
    · rw [hq, hself]
    · rw [hother q hq]
  -- Senders only wait at a full mailbox.
  have hnone : a.queue (.senders r) = [] := by
    by_contra hne
    cases hempty.symm.trans ((h.logged r hr).full hne)
  have hyrecv : ¬ y.Receiving := by
    rcases hy with rfl | ⟨-, resch, rfl⟩ <;> exact not_false
  refine ⟨h.cores.collect hcur (h.cores.sched.congr hsame) rfl hsame.states, ?_, ?_⟩
  · -- The owner of an empty mailbox is not woken as a receiver.
    have hold : ∀ w resch, IsPid w → point w = .ready r resch → a.states r = .PRSEND := by
      intro w resch hw hp
      obtain ⟨-, -, hs⟩ := h.wakes.target w r resch hw hp
      rcases hs with hs | ⟨-, hm⟩
      · exact hs
      · cases hempty.symm.trans hm
    have hwakes : (a.deposit r msg).Wakes point := by
      refine ⟨fun w t resch hw hp => ?_, h.wakes.distinct⟩
      obtain ⟨ht, hq, hs⟩ := h.wakes.target w t resch hw hp
      refine ⟨ht, hq, ?_⟩
      rw [hsame.states]
      by_cases htr : t = r
      · subst htr
        exact Or.inl (hold w resch hw hp)
      · rwa [hother t htr]
    rcases hy with rfl | ⟨hs, resch, rfl⟩
    · exact hwakes.congr (fun w t resch _ hp => ready_of_running hp)
        fun _ _ _ _ _ => ⟨rfl, rfl, fun _ _ hm => hm⟩
    · refine hwakes.add hr (fun w resch hw hp => ?_) (fun r' hr' hm => ?_)
        (Or.inr ⟨(hsame.states r).trans hs, by rw [hself]⟩)
      · cases (hold w resch hw hp).symm.trans hs
      · cases hs.symm.trans ((h.cores.sched.procs r hr).sending r' hr' hm)
  · intro p hp
    by_cases hpr : p = r
    · subst hpr
      have hfull : ((a.deposit p msg).proctab p).hasMessage = true := by rw [hself]
      refine ⟨fun hs => absurd ((hsame.states p).symm.trans hs) hlive, fun _ => hfull,
        fun _ => Or.inl hfull, ?_⟩
      intro _
      have hlog := (h.logged p hp).log hlive
      have hmail : (a.deposit p msg).mailbox p = [msg] := by simp [mailbox, hself]
      have hparked : (a.deposit p msg).parked p = [] := by
        rw [parked, show (a.deposit p msg).queue = a.queue from rfl, hnone]
        rfl
      rw [update_self, hmail, hparked, hlog]
      simp [mailbox, parked, hempty, hnone]
    · refine ((h.logged p hp).congr (b := a.deposit r msg) (by rw [hsame.states]) ?_
        (by rw [hother p hpr]) (by rw [hother p hpr]) rfl fun q _ => hout q).congr_log
        (update_of_ne hpr _ _) rfl
      intro hx
      exact ⟨(receiving_of_update hyrecv hx).2, fun hs => Or.inr ((hsame.states p).trans hs)⟩

/-- The first locked section of `recv`, when the process waits. -/
theorem Delivery.wait :
    (a.setState (a.currpid c) .PRRECV).Delivery
      (update point (a.currpid c) .recvResched) acc del := by
  have hself : (a.setState (a.currpid c) .PRRECV).proctab (a.currpid c) =
      { a.proctab (a.currpid c) with state := .PRRECV } := update_self ..
  have hother : ∀ x, x ≠ a.currpid c →
      (a.setState (a.currpid c) .PRRECV).proctab x = a.proctab x := by
    intro x hx
    exact update_of_ne hx _ _
  have hstate : (a.setState (a.currpid c) .PRRECV).states (a.currpid c) = .PRRECV := by
    rw [Vars.states, hself]
  have hstates : ∀ x, x ≠ a.currpid c →
      (a.setState (a.currpid c) .PRRECV).states x = a.states x := by
    intro x hx
    rw [Vars.states, hother x hx]
    rfl
  have hbox : ∀ x, ((a.setState (a.currpid c) .PRRECV).proctab x).hasMessage =
        (a.proctab x).hasMessage ∧
      ((a.setState (a.currpid c) .PRRECV).proctab x).msgin = (a.proctab x).msgin ∧
      ((a.setState (a.currpid c) .PRRECV).proctab x).msgout = (a.proctab x).msgout := by
    intro x
    by_cases hx : x = a.currpid c
    · rw [hx, hself]
      exact ⟨rfl, rfl, rfl⟩
    · rw [hother x hx]
      exact ⟨rfl, rfl, rfl⟩
  refine ⟨h.cores.leave (h.cores.sched.block hcur (Or.inl rfl)) rfl hstates
    (by simp [hstate]) trivial,
    h.wakes.congr (fun w t resch _ hp => (ready_of_update (by simp) hp).2) ?_, ?_⟩
  · intro w t resch hw hp
    have htc := h.wakes.ne_of_current hcur hw (ready_of_update (by simp) hp).2
    rw [hstates t htc, hother t htc]
    exact ⟨rfl, rfl, fun _ _ hm => hm⟩
  · intro p hp
    have hl := h.logged p hp
    by_cases hpc : p = a.currpid c
    · -- The process waits now, so it need not find a message.
      have hlive : a.states p ≠ .PRFREE := by simp [hpc, hcur]
      have hwait : (a.setState (a.currpid c) .PRRECV).states p = .PRRECV := hpc ▸ hstate
      refine ⟨fun hs => absurd (hwait.symm.trans hs) (by simp), fun hs => ?_, fun _ => Or.inr hwait,
        fun _ => ?_⟩
      · exact (hbox p).1.trans (hl.full hs)
      · have hmail : (a.setState (a.currpid c) .PRRECV).mailbox p = a.mailbox p := by
          rw [mailbox, mailbox, (hbox p).1, (hbox p).2.1]
        have hparked : (a.setState (a.currpid c) .PRRECV).parked p = a.parked p :=
          map_congr_left fun q _ => (hbox q).2.2
        rw [hmail, hparked]
        exact hl.log hlive
    · refine hl.congr (by rw [hstates p hpc]) ?_ (hbox p).1 (hbox p).2.1 rfl fun q _ => (hbox q).2.2
      intro hx
      rw [update_of_ne hpc] at hx
      exact ⟨hx, fun hs => Or.inr ((hstates p hpc).trans hs)⟩

/-- The section of `recv` that takes the last message. -/
theorem Delivery.drain (hfull : (a.proctab (a.currpid c)).hasMessage = true)
    (hnone : a.queue (.senders (a.currpid c)) = []) :
    (a.drain (a.currpid c)).Delivery (update point (a.currpid c) .running) acc
      (update del (a.currpid c)
        (del (a.currpid c) ++ [(a.proctab (a.currpid c)).msgin])) := by
  have hself : (a.drain (a.currpid c)).proctab (a.currpid c) =
      { a.proctab (a.currpid c) with hasMessage := false } := update_self ..
  have hother : ∀ x, x ≠ a.currpid c → (a.drain (a.currpid c)).proctab x = a.proctab x := by
    intro x hx
    exact update_of_ne hx _ _
  have hsame : SameSched a (a.drain (a.currpid c)) := sameSched_drain
  have hout : ∀ q, ((a.drain (a.currpid c)).proctab q).msgout = (a.proctab q).msgout := by
    intro q
    by_cases hq : q = a.currpid c
    · rw [hq, hself]
    · rw [hother q hq]
  refine ⟨h.cores.collect hcur (h.cores.sched.congr hsame) rfl hsame.states,
    h.wakes.congr (fun w t resch _ hp => ready_of_running hp) ?_, ?_⟩
  · intro w t resch hw hp
    have htc := h.wakes.ne_of_current hcur hw (ready_of_running hp)
    rw [hsame.states, hother t htc]
    exact ⟨rfl, rfl, fun _ _ hm => hm⟩
  · intro p hp
    by_cases hpc : p = a.currpid c
    · have hlive : a.states p ≠ .PRFREE := by simp [hpc, hcur]
      have hlog := (h.logged p hp).log hlive
      subst hpc
      refine ⟨fun _ => hnone, fun hs => absurd hnone hs, ?_, ?_⟩
      · intro hx
        rw [update_self] at hx
        exact hx.elim
      · intro _
        rw [update_self, hlog]
        simp [mailbox, parked, hself, hfull, hnone, show (a.drain (a.currpid c)).queue =
          a.queue from rfl]
    · refine ((h.logged p hp).congr (b := a.drain (a.currpid c)) (by rw [hsame.states]) ?_
        (by rw [hother p hpc]) (by rw [hother p hpc]) rfl fun q _ => hout q).congr_log rfl
        (update_of_ne hpc _ _)
      intro hx
      rw [update_of_ne hpc] at hx
      exact ⟨hx, fun hs => Or.inr ((hsame.states p).trans hs)⟩

omit h hcur in
/-- The entries after a refill: the mailbox of `self` gets the message of
the sender, which gives it away. -/
theorem refill_proctab (hne : sender ≠ self) :
    (a.refill self sender).proctab self =
      { a.proctab self with msgin := (a.proctab sender).msgout } ∧
    (a.refill self sender).proctab sender = { a.proctab sender with msgout := EMPTY } ∧
    ∀ x, x ≠ self → x ≠ sender → (a.refill self sender).proctab x = a.proctab x := by
  refine ⟨?_, ?_, fun x hx hx' => ?_⟩
  · simp [refill, setPcb, Vars.setPcb, pop, hne.symm]
  · simp [refill, setPcb, Vars.setPcb, pop, hne]
  · simp [refill, setPcb, Vars.setPcb, pop, hx, hx']

omit h hcur in
theorem refill_states (hne : sender ≠ self) (x : Int) :
    (a.refill self sender).states x = a.states x := by
  obtain ⟨hself, hsender, hother⟩ := refill_proctab (a := a) hne
  show ((a.refill self sender).proctab x).state = (a.proctab x).state
  by_cases hx : x = self
  · rw [hx, hself]
  · by_cases hx' : x = sender
    · rw [hx', hsender]
    · rw [hother x hx hx']

omit h hcur in
theorem refill_hasMessage (hne : sender ≠ self) (x : Int) :
    ((a.refill self sender).proctab x).hasMessage = (a.proctab x).hasMessage := by
  obtain ⟨hself, hsender, hother⟩ := refill_proctab (a := a) hne
  by_cases hx : x = self
  · rw [hx, hself]
  · by_cases hx' : x = sender
    · rw [hx', hsender]
    · rw [hother x hx hx']

/-- The section of `recv` that takes a message and refills the mailbox
from the first waiting sender. -/
theorem Delivery.refill (hwf : a.Wf) {sender : Int} {l : List Int}
    (hl : a.queue (.senders (a.currpid c)) = sender :: l) :
    (a.refill (a.currpid c) sender).Delivery
      (update point (a.currpid c) (.ready sender false)) acc
      (update del (a.currpid c)
        (del (a.currpid c) ++ [(a.proctab (a.currpid c)).msgin])) := by
  have hpid := h.cores.sched.pid c
  have hq : (Queue.senders (a.currpid c)).Valid := hpid
  have hmem : sender ∈ a.queue (.senders (a.currpid c)) := hl ▸ mem_cons_self
  have hsp := hwf.pids _ hq sender hmem
  have hsend : a.states sender = .PRSEND := (h.cores.sched.procs sender hsp).sending _ hpid hmem
  have hne : sender ≠ a.currpid c := by
    rintro rfl
    cases hcur.symm.trans hsend
  obtain ⟨hself, hsender, hother⟩ := refill_proctab (a := a) hne
  -- The sender leaves the queue asleep, and `recv` goes on to wake it.
  obtain ⟨hsched, hasleep, -⟩ := h.cores.sched.refill hwf hpid hl
  have hstates := refill_states (a := a) hne
  have hmsg := refill_hasMessage (a := a) hne
  have hout : ∀ q, q ≠ sender →
      ((a.refill (a.currpid c) sender).proctab q).msgout = (a.proctab q).msgout := by
    intro q hqs
    by_cases hqc : q = a.currpid c
    · rw [hqc, hself]
    · rw [hother q hqc hqs]
  have hwakes : (a.refill (a.currpid c) sender).Wakes point :=
    h.wakes.congr (fun _ _ _ _ hp => hp) fun _ t _ _ _ =>
      ⟨hstates t, hmsg t, fun _ _ hm => mem_of_mem_pop hm⟩
  refine ⟨h.cores.collect hcur hsched rfl hstates, hwakes.add hsp (fun w resch hw hp => ?_)
    (fun r hr hm => hasleep.free ⟨.senders r, hr, hm⟩) (Or.inl ((hstates sender).trans hsend)), ?_⟩
  · -- The sender was on a queue, so nobody else is about to wake it.
    exact (h.wakes.target w sender resch hw hp).2.1 _ hpid hmem
  · intro p hp
    by_cases hpc : p = a.currpid c
    · subst hpc
      have hfull := (h.logged _ hp).full (by simp [hl])
      have hqueue : (a.refill (a.currpid c) sender).queue (.senders (a.currpid c)) = l := by
        show update a.queue _ _ _ = l
        rw [update_self, hl, tail_cons]
      have hnot : sender ∉ l := by
        have hnd := hwf.nodup _ hq
        rw [hl, nodup_cons] at hnd
        exact hnd.1
      refine ⟨fun hs => ?_, fun _ => (hmsg _).trans hfull, ?_, ?_⟩
      · rw [hstates, hcur] at hs
        cases hs
      · intro hx
        rw [update_self] at hx
        exact hx.elim
      · -- The message of the first sender moves into the mailbox.
        intro _
        have hmail : (a.refill (a.currpid c) sender).mailbox (a.currpid c) =
            [(a.proctab sender).msgout] := by
          simp [mailbox, hself, hfull]
        have hparked : (a.refill (a.currpid c) sender).parked (a.currpid c) =
            l.map fun q => (a.proctab q).msgout := by
          rw [parked, hqueue]
          exact map_congr_left fun q hm => hout q fun heq => hnot (heq ▸ hm)
        rw [update_self, hmail, hparked, (h.logged _ hp).log (by simp [hcur])]
        simp [mailbox, parked, hfull, hl]
    · have hqueue : (a.refill (a.currpid c) sender).queue (.senders p) = a.queue (.senders p) :=
        update_of_ne (by simp [hpc]) _ _
      have hin : ((a.refill (a.currpid c) sender).proctab p).msgin = (a.proctab p).msgin := by
        by_cases hps : p = sender
        · rw [hps, hsender]
        · rw [hother p hpc hps]
      refine ((h.logged p hp).congr (by rw [hstates]) ?_ (hmsg p) hin hqueue ?_).congr_log rfl
        (update_of_ne hpc _ _)
      · intro hx
        rw [update_of_ne hpc] at hx
        exact ⟨hx, fun hs => Or.inr ((hstates p).trans hs)⟩
      · -- The sender was on this queue only.
        intro q hm
        refine hout q ?_
        rintro rfl
        have hqp : (Queue.senders p).Valid := hp
        exact hpc (Queue.senders.inj (hwf.disjoint _ _ hqp hq q hm hmem))

end Messages

end AbsKernel

end Xinu
