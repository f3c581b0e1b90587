import Mathlib.Data.BitVec
import Xinu.Lib.Atomic

/-!
# `Xinu.Lib.Multicore`: routines on a memory that cores share

A machine whose cores run short routines on one memory. An exclusive load
makes a reservation on its address. A store to the address by any core
ends it, and it may be lost for any other reason at any time. An
exclusive store writes only while its core has the reservation. Each
instruction is one step, and the cores take their steps in any order.

`Sound` is what has to be checked of a routine, instruction by
instruction, with an assertion at each point: the assertion may use the
value at the reserved address, because while the reservation lasts nobody
has written there. `refines` is the rule: every run of the cores is one
of the atomic machine.
-/

namespace Xinu.Lib.Multicore

open Function

/-! ### Registers -/

inductive Cond where
  | eq | ne
  /-- Greater or equal as signed numbers. -/
  | ge
deriving DecidableEq

def Cond.holds {w : Nat} (x y : BitVec w) : Cond → Bool
  | .eq => decide (x = y)
  | .ne => decide (x ≠ y)
  | .ge => y.sle x

theorem Cond.holds_eq {w : Nat} {x y : BitVec w} : Cond.holds x y .eq = true ↔ x = y :=
  decide_eq_true_iff

/-- A core inside a routine. The flags are the two numbers that were
compared last. -/
structure Frame (R : Type) (w : Nat) where
  pc : Nat
  regs : R → BitVec w
  flags : BitVec w × BitVec w

/-- Instructions that work on registers and flags only. -/
inductive Local (R : Type) (w : Nat) where
  /-- Hints and barriers. -/
  | nop
  /-- `rd := value` -/
  | li (rd : R) (value : BitVec w)
  /-- `rd := rs` -/
  | mov (rd rs : R)
  /-- `rd := rs + value` -/
  | addi (rd rs : R) (value : BitVec w)
  /-- Compare two registers. -/
  | cmp (rs rt : R)
  /-- Compare a register with a constant. -/
  | cmpi (rs : R) (value : BitVec w)
  /-- `rd := value`, if the flags say so. -/
  | movc (cond : Cond) (rd : R) (value : BitVec w)
  /-- Jump, if the flags say so. -/
  | bc (cond : Cond) (target : Nat)
deriving DecidableEq

section Frames
variable {R : Type} {w : Nat} [DecidableEq R]

/-- Go on with the next instruction. -/
def Frame.next (f : Frame R w) : Frame R w := { f with pc := f.pc + 1 }

/-- Write a register and go on. -/
def Frame.put (f : Frame R w) (rd : R) (x : BitVec w) : Frame R w :=
  { f with pc := f.pc + 1, regs := update f.regs rd x }

def Local.exec (f : Frame R w) : Local R w → Frame R w
  | .nop => f.next
  | .li rd value => f.put rd value
  | .mov rd rs => f.put rd (f.regs rs)
  | .addi rd rs value => f.put rd (f.regs rs + value)
  | .cmp rs rt => { f.next with flags := (f.regs rs, f.regs rt) }
  | .cmpi rs value => { f.next with flags := (f.regs rs, value) }
  | .movc cond rd value =>
    if cond.holds f.flags.1 f.flags.2 then f.put rd value else f.next
  | .bc cond target =>
    if cond.holds f.flags.1 f.flags.2 then { f with pc := target } else f.next

end Frames

/-! ### The machine -/

inductive Op (R : Type) (w : Nat) where
  | loc (i : Local R w)
  /-- Exclusive load: `rd := mem[ra]`, with a reservation. -/
  | ldx (rd ra : R)
  /-- Exclusive store of `rs` at `ra`: `rd` becomes 0, or 1 if it fails. -/
  | stx (rd rs ra : R)
  /-- Give the reservation up. -/
  | clrex
  /-- `mem[ra] := rs` -/
  | st (rs ra : R)
  | ret
deriving DecidableEq

/-- Routines, one for each member of `K`. A member is a routine with its
arguments. -/
structure Program (K R : Type) (w : Nat) where
  code : K → List (Op R w)
  /-- What the registers hold when the routine is called. -/
  Entry : K → (R → BitVec w) → Prop
  /-- The register with the result. -/
  res : R

/-- The memory and the cores. A core that runs no routine is idle. -/
structure State (C K R : Type) (w : Nat) where
  mem : BitVec w → BitVec w
  /-- The address on which the core has a reservation. -/
  monitor : C → Option (BitVec w)
  running : C → Option (K × Frame R w)

inductive Move (C K R : Type) (w : Nat) where
  | call (c : C) (k : K) (f : Frame R w)
  /-- One instruction. -/
  | step (c : C)
  /-- The reservation of a core is lost. -/
  | lose (c : C)
  | ret (c : C)

section Machine
variable {C K R : Type} {w : Nat} [DecidableEq C] [DecidableEq R]

namespace State

/-- Core `c` is at frame `f` of routine `k`. -/
def goto (s : State C K R w) (c : C) (k : K) (f : Frame R w) : State C K R w :=
  { s with running := update s.running c (some (k, f)) }

def setMonitor (s : State C K R w) (c : C) (m : Option (BitVec w)) : State C K R w :=
  { s with monitor := update s.monitor c m }

/-- A store ends every reservation on its address. -/
def store (s : State C K R w) (a x : BitVec w) : State C K R w :=
  { s with
    mem := update s.mem a x
    monitor := fun c => if s.monitor c = some a then none else s.monitor c }

/-- One instruction of core `c`. -/
def execOp (s : State C K R w) (c : C) (k : K) (f : Frame R w) : Op R w → State C K R w
  | .loc i => s.goto c k (i.exec f)
  | .ldx rd ra => (s.setMonitor c (some (f.regs ra))).goto c k (f.put rd (s.mem (f.regs ra)))
  | .stx rd rs ra =>
    if s.monitor c = some (f.regs ra) then
      (s.store (f.regs ra) (f.regs rs)).goto c k (f.put rd 0)
    else (s.setMonitor c none).goto c k (f.put rd 1)
  | .clrex => (s.setMonitor c none).goto c k f.next
  | .st rs ra => (s.store (f.regs ra) (f.regs rs)).goto c k f.next
  | .ret => s

/-- The instruction that core `c` is at. -/
def op (P : Program K R w) (s : State C K R w) (c : C) : Option (K × Frame R w × Op R w) :=
  match s.running c with
  | none => none
  | some (k, f) => (P.code k)[f.pc]?.map fun o => (k, f, o)

omit [DecidableEq C] [DecidableEq R] in
theorem op_eq_some {P : Program K R w} {s : State C K R w} {c : C} {k : K} {f : Frame R w}
    {o : Op R w} :
    s.op P c = some (k, f, o) ↔ s.running c = some (k, f) ∧ (P.code k)[f.pc]? = some o := by
  rw [op]
  cases s.running c <;> grind

/-- A core takes steps up to the return of its routine. -/
def Permitted (P : Program K R w) (s : State C K R w) : Move C K R w → Prop
  | .call c k f => s.running c = none ∧ f.pc = 0 ∧ P.Entry k f.regs
  | .step c => ∃ x ∈ s.op P c, x.2.2 ≠ .ret
  | .lose _ => True
  | .ret c => ∃ x ∈ s.op P c, x.2.2 = .ret

def exec (P : Program K R w) (s : State C K R w) : Move C K R w → Except Empty (State C K R w)
  | .call c k f => .ok (s.goto c k f)
  | .step c =>
    match s.op P c with
    | none => .ok s
    | some (k, f, o) => .ok (s.execOp c k f o)
  | .lose c => .ok (s.setMonitor c none)
  | .ret c => .ok { s with running := update s.running c none }

instance (P : Program K R w) [∀ k regs, Decidable (P.Entry k regs)] (s : State C K R w) :
    (a : Move C K R w) → Decidable (s.Permitted P a)
  | .call _ _ _ => inferInstanceAs (Decidable (_ ∧ _ ∧ _))
  | .step _ | .ret _ => inferInstanceAs (Decidable (∃ x ∈ _, _))
  | .lose _ => inferInstanceAs (Decidable True)

/-- The event of an action. -/
def event (P : Program K R w) : State C K R w × Move C K R w → Option (Event C K (BitVec w))
  | (_, .call c k _) => some (.call c k)
  | (s, .ret c) => (s.running c).map fun x => .ret c x.1 (x.2.regs P.res)
  | _ => none

end State

/-! ### What the routines are for -/

/-- Each routine works on one word. -/
structure Contract (K : Type) (w : Nat) where
  addr : K → BitVec w
  /-- `Effect k x r y`: the call may find `x`, return `r` and leave `y`. -/
  Effect : K → BitVec w → BitVec w → BitVec w → Prop

/-- The machine on which each call is one step. -/
abbrev Words (C K : Type) (w : Nat) := Atomic C K (BitVec w) (BitVec w → BitVec w)

/-- What the routines do to the memory. -/
def Contract.effect (Q : Contract K w) (k : K) (mem : BitVec w → BitVec w) (r : BitVec w)
    (mem' : BitVec w → BitVec w) : Prop :=
  ∃ y, Q.Effect k (mem (Q.addr k)) r y ∧ mem' = update mem (Q.addr k) y

/-! ### The rule -/

/-- What an access to `a` that finds `x` and leaves `y` does to the
result of a call: nothing, and then `y` is `x`, or the call is done. -/
def Commit (Q : Contract K w) (k : K) (a x y : BitVec w) (st st' : Option (BitVec w)) : Prop :=
  (st' = st ∧ y = x) ∨ (st = none ∧ a = Q.addr k ∧ ∃ r, Q.Effect k x r y ∧ st' = some r)

/-- An assertion about a core in a routine: the frame, the address of its
reservation with the value there, and the result, once the call is done. -/
abbrev Assert (R : Type) (w : Nat) :=
  Frame R w → Option (BitVec w × BitVec w) → Option (BitVec w) → Prop

/-- The obligation for an instruction of routine `k` at frame `f`. -/
def Obliged (Q : Contract K w) (k : K) (Inv : Assert R w) (res : R)
    (f : Frame R w) (link : Option (BitVec w × BitVec w)) (st : Option (BitVec w)) : Op R w → Prop
  | .loc i => Inv (i.exec f) link st
  | .ldx rd ra => ∀ x, ∃ st', Commit Q k (f.regs ra) x x st st' ∧
    Inv (f.put rd x) (some (f.regs ra, x)) st'
  | .stx rd rs ra =>
    (∀ x, link = some (f.regs ra, x) →
      ∃ st', Commit Q k (f.regs ra) x (f.regs rs) st st' ∧ Inv (f.put rd 0) none st') ∧
    Inv (f.put rd 1) none st
  | .clrex => Inv f.next none st
  | .st rs ra => ∀ x, ∃ st', Commit Q k (f.regs ra) x (f.regs rs) st st' ∧
    ∀ link, Inv f.next link st'
  | .ret => st = some (f.regs res)

/-- What has to be checked of a routine. -/
structure Sound (P : Program K R w) (Q : Contract K w) (k : K) (Inv : Assert R w) : Prop where
  /-- The assertion holds at the call, whatever reservation is left over. -/
  call : ∀ f link, f.pc = 0 → P.Entry k f.regs → Inv f link none
  /-- It does not depend on having a reservation. -/
  lose : ∀ f link st, Inv f link st → Inv f none st
  /-- It is kept by each instruction. -/
  step : ∀ f link st o, Inv f link st → (P.code k)[f.pc]? = some o →
    Obliged Q k Inv P.res f link st o

/-- The value at the reserved address, with the address. -/
def State.link (s : State C K R w) (c : C) : Option (BitVec w × BitVec w) :=
  (s.monitor c).map fun a => (a, s.mem a)

section Links
variable (s : State C K R w) {c d : C}

omit [DecidableEq R] in
theorem State.link_setMonitor (m : Option (BitVec w)) :
    (s.setMonitor c m).link c = m.map fun a => (a, s.mem a) := by
  simp [State.link, State.setMonitor]

omit [DecidableEq R] in
theorem State.link_setMonitor_of_ne (hd : d ≠ c) (m : Option (BitVec w)) :
    (s.setMonitor c m).link d = s.link d := by
  simp [State.link, State.setMonitor, update_of_ne hd]

omit [DecidableEq C] [DecidableEq R] in
/-- A store ends a reservation or does not touch its address. -/
theorem State.link_store (a x : BitVec w) (d : C) :
    (s.store a x).link d = s.link d ∨ (s.store a x).link d = none := by
  simp only [State.link, State.store]
  split
  · exact .inr rfl
  · rename_i hne
    refine .inl ?_
    cases hm : s.monitor d with
    | none => rfl
    | some b =>
      have hb : b ≠ a := by
        rintro rfl
        exact hne hm
      rw [Option.map_some, Option.map_some, update_of_ne hb]

end Links

variable {P : Program K R w} {Q : Contract K w} {Inv : K → Assert R w}

/-- A core, and the same core of the atomic machine. -/
def Agree (Inv : K → Assert R w)
    (link : Option (BitVec w × BitVec w)) :
    Option (K × Frame R w) → Option (K × Option (BitVec w)) → Prop
  | none, none => True
  | some (k, f), some (k', st) => k' = k ∧ Inv k f link st
  | none, some _ => False
  | some _, none => False

section Agree
variable {link link' : Option (BitVec w × BitVec w)} {x : Option (K × Frame R w)}
  {y : Option (K × Option (BitVec w))}

omit [DecidableEq R] in
theorem Agree.eq_none_iff (h : Agree Inv link x y) : y = none ↔ x = none := by
  match x, y with
  | none, none => simp
  | some _, some _ => simp

omit [DecidableEq R] in
theorem Agree.exists_inv {k : K} {f : Frame R w} (h : Agree Inv link (some (k, f)) y) :
    ∃ st, y = some (k, st) ∧ Inv k f link st := by
  match y with
  | some (_, st) => exact ⟨st, by rw [h.1], h.2⟩

theorem Agree.undisturbed (hs : ∀ k, Sound P Q k (Inv k)) (h : Agree Inv link x y)
    (hlink : link' = link ∨ link' = none) : Agree Inv link' x y := by
  rcases hlink with rfl | rfl
  · exact h
  · match x, y with
    | none, none => trivial
    | some (k, f), some (_, st) => exact ⟨h.1, (hs k).lose f link st h.2⟩

end Agree

/-- The cores and the atomic machine agree. -/
structure Rel (Q : Contract K w) (Inv : K → Assert R w) (s : State C K R w) (t : Words C K w) :
    Prop where
  mem : t.state = s.mem
  core : ∀ c, Agree Inv (s.link c) (s.running c) (t.running c)

/-- The atomic machine comes to agree with `s'` by steps that nobody sees. -/
def Catches (Q : Contract K w) (Inv : K → Assert R w) (s' : State C K R w) (t : Words C K w) :
    Prop :=
  ∃ l t', Run (Atomic.Permitted Q.effect) Atomic.exec t l t' ∧ l.filterMap Atomic.event = [] ∧
    Rel Q Inv s' t'

namespace Rel
variable {s s' : State C K R w} {t t' : Words C K w} {c : C} (hs : ∀ k, Sound P Q k (Inv k))
include hs

/-- Core `c` goes on. The reservations of the others are as they were or
lost. -/
theorem update (h : Rel Q Inv s t) {x : Option (K × Frame R w)}
    {y : Option (K × Option (BitVec w))} (hmem : t'.state = s'.mem)
    (hrun : s'.running = update s.running c x)
    (hrun' : t'.running = update t.running c y)
    (hlink : ∀ d ≠ c, s'.link d = s.link d ∨ s'.link d = none)
    (hagree : Agree Inv (s'.link c) x y) :
    Rel Q Inv s' t' := by
  refine ⟨hmem, fun d => ?_⟩
  rw [hrun, hrun']
  by_cases hd : d = c
  · subst hd
    rwa [update_self, update_self]
  · rw [update_of_ne hd, update_of_ne hd]
    exact (h.core d).undisturbed hs (hlink d hd)

/-- What core `c` does in one step, as the atomic machine sees it. -/
theorem access (h : Rel Q Inv s t) {k : K} {f' : Frame R w}
    {st st' : Option (BitVec w)} {a y : BitVec w} (ht : t.running c = some (k, st))
    (hcommit : Commit Q k a (s.mem a) y st st') (hmem : s'.mem = Function.update s.mem a y)
    (hrun : s'.running = Function.update s.running c (some (k, f')))
    (hlink : ∀ d ≠ c, s'.link d = s.link d ∨ s'.link d = none) (hinv : Inv k f' (s'.link c) st') :
    Catches Q Inv s' t := by
  rcases hcommit with ⟨rfl, rfl⟩ | ⟨rfl, rfl, r, heff, rfl⟩
  · -- The memory is the same, and the atomic machine does nothing.
    rw [update_eq_self] at hmem
    refine ⟨[], t, .nil t, rfl, h.update (y := some (k, st')) hs (h.mem.trans hmem.symm) hrun ?_
      hlink ⟨rfl, hinv⟩⟩
    rw [← ht, update_eq_self]
  · have hguard : Atomic.Permitted Q.effect t (.commit c k r s'.mem) :=
      ⟨ht, y, by rw [h.mem]; exact heff, by rw [h.mem, hmem]⟩
    exact ⟨_, _, .single hguard rfl, rfl, h.update hs rfl hrun rfl hlink ⟨rfl, hinv⟩⟩

/-- One instruction. -/
theorem execOp (h : Rel Q Inv s t) {k : K} {f : Frame R w}
    {o : Op R w} (hrun : s.running c = some (k, f)) (hop : (P.code k)[f.pc]? = some o)
    (hret : o ≠ .ret) :
    Catches Q Inv (s.execOp c k f o) t := by
  have hcore := h.core c
  rw [hrun] at hcore
  obtain ⟨st, ht, hinv⟩ := hcore.exists_inv
  -- An instruction that leaves the memory alone accesses an address and
  -- finds there what it leaves.
  have hquiet : ∀ a st' m f', Commit Q k a (s.mem a) (s.mem a) st st' →
      Inv k f' (m.map fun a => (a, s.mem a)) st' →
      Catches Q Inv ((s.setMonitor c m).goto c k f') t := by
    intro a st' m f' hcommit hinv'
    refine h.access hs ht hcommit (update_eq_self a s.mem).symm rfl
      (fun d hd => .inl (s.link_setMonitor_of_ne hd m)) ?_
    rw [← s.link_setMonitor m] at hinv'
    exact hinv'
  have hstore : ∀ a x st' f', Commit Q k a (s.mem a) x st st' →
      Inv k f' ((s.store a x).link c) st' →
      Catches Q Inv ((s.store a x).goto c k f') t := fun a x st' f' hcommit hinv' =>
    h.access hs ht hcommit rfl rfl (fun d _ => s.link_store a x d) hinv'
  have hob := (hs k).step f _ st o hinv hop
  cases o with
  | ret => exact absurd rfl hret
  | loc i =>
    exact h.access hs ht (.inl ⟨rfl, rfl⟩) (update_eq_self 0 s.mem).symm rfl
      (fun _ _ => .inl rfl) hob
  | ldx rd ra =>
    obtain ⟨st', hc, hi⟩ := hob _
    exact hquiet _ st' _ _ hc hi
  | clrex => exact hquiet 0 st none _ (.inl ⟨rfl, rfl⟩) hob
  | st rs ra =>
    obtain ⟨st', hc, hi⟩ := hob _
    exact hstore _ _ st' _ hc (hi _)
  | stx rd rs ra =>
    rw [State.execOp]
    split
    · -- The core has its reservation, so the word is what it was when it
      -- was loaded.
      rename_i hm
      obtain ⟨st', hc, hi⟩ := hob.1 _ (by rw [State.link, hm, Option.map_some])
      refine hstore _ _ st' _ hc ?_
      rw [State.link, show (s.store (f.regs ra) (f.regs rs)).monitor c = none from if_pos hm]
      exact hi
    · exact hquiet 0 st none _ (.inl ⟨rfl, rfl⟩) hob.2

/-- One action. -/
theorem step (h : Rel Q Inv s t) (a : Move C K R w)
    (hguard : s.Permitted P a) (hexec : s.exec P a = .ok s') :
    ∃ l t', Run (Atomic.Permitted Q.effect) Atomic.exec t l t' ∧
      l.filterMap Atomic.event = (State.event P (s, a)).toList ∧ Rel Q Inv s' t' := by
  cases a with
  | call c k f =>
    cases hexec
    obtain ⟨hidle, hpc, hentry⟩ := hguard
    have hcall : Atomic.Permitted Q.effect t (.call c k) := (h.core c).eq_none_iff.mpr hidle
    exact ⟨_, _, .single hcall rfl, rfl, h.update hs h.mem rfl rfl (fun _ _ => .inl rfl)
      ⟨rfl, (hs k).call f _ hpc hentry⟩⟩
  | step c =>
    obtain ⟨⟨k, f, o⟩, hop, hret⟩ := hguard
    rw [State.exec, Option.mem_def.mp hop] at hexec
    cases hexec
    obtain ⟨hrun, hcode⟩ := State.op_eq_some.mp hop
    exact h.execOp hs hrun hcode hret
  | lose c =>
    cases hexec
    refine ⟨[], t, .nil t, rfl, h.update hs h.mem (update_eq_self c _).symm
      (update_eq_self c _).symm (fun d hd => .inl (s.link_setMonitor_of_ne hd none)) ?_⟩
    exact (h.core c).undisturbed hs (.inr (s.link_setMonitor none))
  | ret c =>
    obtain ⟨⟨k, f, o⟩, hop, rfl⟩ := hguard
    cases hexec
    obtain ⟨hrun, hcode⟩ := State.op_eq_some.mp hop
    have hcore := h.core c
    rw [hrun] at hcore
    obtain ⟨st, ht, hinv⟩ := hcore.exists_inv
    obtain rfl : st = some (f.regs P.res) := (hs k).step f _ st _ hinv hcode
    have hback : Atomic.Permitted Q.effect t (.ret c) := ⟨k, _, ht⟩
    refine ⟨_, _, .single hback rfl, ?_, h.update hs h.mem rfl rfl (fun _ _ => .inl rfl)
      trivial⟩
    simp [Atomic.event, State.event, ht, hrun]

end Rel

/-- The rule. From idle cores, whatever the cores do in whatever order,
the calls, the returns and the results are those of a run of the atomic
machine, which leaves the same memory and the same cores idle. -/
theorem refines (hs : ∀ k, Sound P Q k (Inv k)) {s s' : State C K R w}
    {l : List (State C K R w × Move C K R w)} (hidle : ∀ c, s.running c = none)
    (hrun : Run (State.Permitted P) (State.exec P) s l s') :
    ∃ l' t', Run (Atomic.Permitted Q.effect) Atomic.exec ⟨s.mem, fun _ : C => none⟩ l' t' ∧
      l'.filterMap Atomic.event = l.filterMap (State.event P) ∧ t'.state = s'.mem ∧
      ∀ c, t'.running c = none ↔ s'.running c = none := by
  have hrel : Rel Q Inv s ⟨s.mem, fun _ => none⟩ :=
    ⟨rfl, fun c => by rw [hidle c]; trivial⟩
  obtain ⟨l', t', hrun', hev, hrel⟩ := Run.simulates (Rel Q Inv)
    (fun s a s1 t h hg he => h.step hs a hg he) hrun hrel
  exact ⟨l', t', hrun', hev, hrel.mem, fun c => (hrel.core c).eq_none_iff⟩

end Machine

end Xinu.Lib.Multicore
