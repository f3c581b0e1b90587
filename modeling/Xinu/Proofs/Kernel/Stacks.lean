import Xinu.Proofs.Kernel.Columns
import Xinu.Proofs.Kernel.Create
import Xinu.Proofs.Kernel.Scheduler

/-!
# `Xinu.Proofs.Kernel.Stacks`: the memory of the processes

`create` takes the stack of a new process from the free list of its
core, and `kill` gives it back. `Vars.accounted` adds what is on the free
lists to the stacks of the live processes.

`create` asks for memory before it looks for a slot of the process table,
and it returns without giving the memory back when there is no slot. So
the sum drops with every `create` that finds the table full
(`leaked_fullTable`). While every `create` that gets memory also gets a
slot, the sum is constant (`accounted_of_reachable`).

The invariant `Held` says that the allocated blocks of the heap are the
stacks of the live processes and the blocks that were lost so.
`Held.exec` is the step: it takes what the heap and the scheduler keep,
`HeapInv` and `SchedInv`, and what the calls leave alone, `Frame`.
-/

namespace Xinu

open Lib Function List

variable {memheap maxaddr end_ : Ulong} {mem : Ulong → Ulong} {call : Call}

/-- The bytes on the free lists. -/
def Heap.freeBytes (h : Heap) : Nat := ∑ n, (h.freelist n).length.toNat

/-- `getmem(nbytes)` on the core finds no memory. -/
def Heap.NoMemory (h : Heap) (cpuid : Core) (nbytes : Ulong) : Prop :=
  ∃ r, h.getmem cpuid nbytes = .ok r ∧ r.1 = SYSERR

instance (h : Heap) (cpuid : Core) (nbytes : Ulong) : Decidable (h.NoMemory cpuid nbytes) :=
  match hrun : h.getmem cpuid nbytes with
  | .ok r => decidable_of_iff (r.1 = SYSERR) (by simp [Heap.NoMemory, hrun])
  | .error _ => isFalse (by simp [Heap.NoMemory, hrun])

namespace Vars

/-- The live processes other than the null processes. -/
def users (v : Vars) : Finset Int := v.live.filter fun p => 4 ≤ p

/-- The bytes of their stacks, as the heap hands them out. -/
def stackBytes (v : Vars) : Nat := ∑ p ∈ v.users, (roundmb (v.proctab p).stklen).toNat

/-- The free bytes and the bytes of the stacks. -/
def accounted (v : Vars) : Nat := v.heap.freeBytes + v.stackBytes

/-- There is a free slot in the process table. -/
def HasSlot (v : Vars) : Prop := ∃ p ∈ Kernel.slots, v.states p = .PRFREE

instance (v : Vars) : Decidable v.HasSlot := inferInstanceAs (Decidable (∃ p ∈ _, _))

/-- The stack size can be rounded up. If there is memory for the stack,
then the stack has room for the accounting block and the arguments. -/
def Fitting (v : Vars) (cpuid : Core) (a : CreateArgs) : Prop :=
  (stackSize a.ssize).toNat + 7 < 2 ^ 32 ∧
    (v.heap.NoMemory cpuid (stackSize a.ssize) ∨
      16 + 4 * a.nargs.toNat ≤ (stackSize a.ssize).toNat)

instance (v : Vars) (cpuid : Core) (a : CreateArgs) : Decidable (v.Fitting cpuid a) :=
  inferInstanceAs (Decidable (_ ∧ (_ ∨ _)))

/-- In addition, if there is memory for the stack, then there is a free
slot. -/
def Provided (v : Vars) (cpuid : Core) (a : CreateArgs) : Prop :=
  v.Fitting cpuid a ∧ (v.heap.NoMemory cpuid (stackSize a.ssize) ∨ v.HasSlot)

instance (v : Vars) (cpuid : Core) (a : CreateArgs) : Decidable (v.Provided cpuid a) :=
  inferInstanceAs (Decidable (_ ∧ (_ ∨ _)))

theorem mem_users {v : Vars} {p : Int} :
    p ∈ v.users ↔ (IsPid p ∧ v.states p ≠ .PRFREE) ∧ 4 ≤ p := by
  rw [users, Finset.mem_filter, mem_live]

theorem users_congr {v w : Vars} (h : ∀ x, w.states x = .PRFREE ↔ v.states x = .PRFREE) :
    w.users = v.users := by
  rw [users, users, live_congr h]

/-! ### `newpid` -/

section Newpid
variable {v : Vars}

theorem bumpNextpid_eq {n : Int} (hn : IsPid n) : bumpNextpid n = (n + 1) % NPROC := by
  obtain ⟨h0, hlt⟩ := hn
  unfold bumpNextpid NPROC at *
  split <;> omega

/-- `newpid` returns. When it reports that there is no slot, the loop has
been at every slot that many places further on. -/
theorem newpidLoop_spec (rounds : Nat) : ∀ n, IsPid n → ∃ r m,
    v.newpidLoop rounds n = .ok (r, m) ∧ IsPid m ∧
      (r = none → ∀ j : Nat, j < rounds → v.states ((n + 1 + j) % NPROC) ≠ .PRFREE) := by
  induction rounds with
  | zero =>
    intro n hn
    exact ⟨none, n, rfl, hn, fun _ j hj => absurd hj (Nat.not_lt_zero j)⟩
  | succ rounds ih =>
    intro n hn
    have hbump := bumpNextpid_eq hn
    have hnext : IsPid (bumpNextpid n) := by
      rw [hbump]
      exact ⟨Int.emod_nonneg _ (by decide), Int.emod_lt_of_pos _ (by decide)⟩
    have hpcb : v.pcb (bumpNextpid n) = .ok (v.proctab (bumpNextpid n)) := if_pos hnext
    by_cases hfree : (v.proctab (bumpNextpid n)).state = .PRFREE
    · refine ⟨some (bumpNextpid n), bumpNextpid n, ?_, hnext, fun h => by cases h⟩
      simp only [newpidLoop, hpcb, ok_bind, if_pos hfree]
      rfl
    · obtain ⟨r, m, hrun, hm, hnone⟩ := ih _ hnext
      refine ⟨r, m, ?_, hm, fun hr j hj => ?_⟩
      · simp only [newpidLoop, hpcb, ok_bind, if_neg hfree]
        exact hrun
      · -- The loop sees slot `n + 1` first, and then what it sees from there.
        cases j with
        | zero =>
          rw [Nat.cast_zero, Int.add_zero, ← hbump]
          exact hfree
        | succ j =>
          have hslot := hnone hr j (by omega)
          rwa [hbump, show ((n + 1) % NPROC + 1 + (j : Int)) % NPROC =
            (n + 1 + (j + 1 : Nat)) % NPROC by
            unfold NPROC; omega] at hslot

theorem newpid_spec (hn : IsPid v.nextpid) :
    ∃ r m, v.newpid = .ok (r, m) ∧ IsPid m ∧ (r = none → ¬ v.HasSlot) := by
  obtain ⟨r, m, hrun, hm, hnone⟩ := newpidLoop_spec (v := v) NPROC.toNat v.nextpid hn
  refine ⟨r, m, hrun, hm, fun hr => ?_⟩
  rintro ⟨p, hp, hfree⟩
  obtain ⟨i, hi, rfl⟩ := mem_map.mp hp
  have hi : i < 50 := mem_range.mp hi
  -- Slot `i` is that many places after `nextpid`, counted around.
  have hslot := hnone hr ((i - v.nextpid - 1) % NPROC).toNat (by unfold NPROC; omega)
  refine hslot ?_
  rwa [show (v.nextpid + 1 + (((i - v.nextpid - 1) % NPROC).toNat : Int)) % NPROC = (i : Int) by
    unfold NPROC; omega]

end Newpid

/-! ### The allocated blocks are the stacks -/

/-- The addresses of the stack of a process. -/
def stackSpan (v : Vars) (p : Int) : Span :=
  ⟨(v.proctab p).stkbase.toNat, (roundmb (v.proctab p).stklen).toNat⟩

/-- The allocated blocks of the heap are the stacks of the live processes
and the blocks `lost`, and `newpid` searches inside the table. -/
structure Held (h₀ : Heap) (v : Vars) (lost : List Heap.Alloc) : Prop where
  nextpid : IsPid v.nextpid
  blocks : ∃ (stack : Int → Heap.Alloc) (free : Core → List Span),
    (∀ p ∈ v.users, (stack p).ptr = (v.proctab p).stkbase ∧
      (stack p).request.nbytes = (v.proctab p).stklen) ∧
    Heap.HeapInv h₀ ⟨v.heap, v.users.toList.map stack ++ lost⟩ free

/-- The sum is what the regions had at boot. -/
theorem Held.accounted_eq {h₀ : Heap} {v : Vars} (hs : Held h₀ v []) :
    v.accounted = ∑ n, (h₀.regionSpan n).len := by
  obtain ⟨stack, free, hstack, hinv⟩ := hs.blocks
  rw [← hinv.balance, append_nil, accounted, Heap.freeBytes, map_map, Finset.sum_map_toList]
  congr 1
  refine Finset.sum_congr rfl fun p hp => ?_
  rw [← (hstack p hp).2]
  rfl

namespace Held

variable {h₀ : Heap} {v w : Vars} {c : Core} {p : Int} {lost : List Heap.Alloc}

/-- Scheduling moves no stack. -/
theorem congr (hs : Held h₀ v lost) (hheap : w.heap = v.heap) (hnext : w.nextpid = v.nextpid)
    (husers : w.users = v.users)
    (hstk : ∀ x, (w.proctab x).stkbase = (v.proctab x).stkbase ∧
      (w.proctab x).stklen = (v.proctab x).stklen) : Held h₀ w lost where
  nextpid := hnext ▸ hs.nextpid
  blocks := by
    obtain ⟨stack, free, hstack, hinv⟩ := hs.blocks
    refine ⟨stack, free, fun x hx => ?_, by rwa [hheap, husers]⟩
    rw [husers] at hx
    rw [(hstk x).1, (hstk x).2]
    exact hstack x hx

/-- The stack of a process can be given back. It is free then, and the
others stay. -/
theorem release (hs : Held h₀ v lost) (hp : p ∈ v.users) :
    ∃ h', v.heap.freemem (v.proctab p).stkbase (v.proctab p).stklen = .ok (.ok, h') ∧
      (∀ x, (v.stackSpan p).Contains x → ∃ n, h'.FreeAt n x) ∧
      ∀ w : Vars, w.heap = h' → w.nextpid = v.nextpid → w.users = v.users.erase p →
        (∀ x ∈ w.users, (w.proctab x).stkbase = (v.proctab x).stkbase ∧
          (w.proctab x).stklen = (v.proctab x).stklen) → Held h₀ w lost := by
  obtain ⟨stack, free, hstack, hinv⟩ := hs.blocks
  have hperm : (v.users.toList.map stack ++ lost).Perm
      (stack p :: ((v.users.erase p).toList.map stack ++ lost)) := by
    have hins := Finset.toList_insert (Finset.notMem_erase p v.users)
    rw [Finset.insert_erase hp] at hins
    exact (hins.map stack).append_right lost
  have hinv := hinv.perm hperm
  obtain ⟨h', free', hrun, hinv', -⟩ := hinv.freemem mem_cons_self
  have hspan : (stack p).span = v.stackSpan p := by
    rw [Heap.Alloc.span, stackSpan, (hstack p hp).1, (hstack p hp).2]
  have hfreed : ∀ x, (v.stackSpan p).Contains x → ∃ n, h'.FreeAt n x := by
    intro x hx
    rw [← hspan] at hx
    obtain ⟨n, hwithin⟩ := hinv.inRegion _ mem_cons_self
    refine ⟨n, hinv'.lists.freeAt_iff.mpr ((hinv'.partition n x).mpr ⟨?_, ?_⟩)⟩
    · rw [hinv'.fixed, ← hinv.fixed]
      exact hwithin.contains hx
    · rw [Heap.liveAt_erase hinv.disjoint mem_cons_self]
      exact fun hlive => hlive.2 hx
  rw [erase_cons_head] at hinv'
  rw [(hstack p hp).1, (hstack p hp).2] at hrun
  refine ⟨h', hrun, hfreed, fun w hheap hnext husers hstk =>
    ⟨hnext ▸ hs.nextpid, stack, free', ?_, ?_⟩⟩
  · intro x hx
    rw [(hstk x hx).1, (hstk x hx).2]
    exact hstack x (Finset.mem_of_mem_erase (husers ▸ hx))
  · rwa [hheap, husers]

/-- A new process is entered, with a block that `getmem` returned as its
stack. -/
theorem enter {stack : Int → Heap.Alloc} {free : Core → List Span}
    (hstack : ∀ p ∈ v.users, (stack p).ptr = (v.proctab p).stkbase ∧
      (stack p).request.nbytes = (v.proctab p).stklen) {a : CreateArgs} {saddr : Ulong}
    {req : Heap.Request} (hreq : req.nbytes = stackSize a.ssize) {h' : Heap} {m : Int}
    (hinv : Heap.HeapInv h₀ ⟨h', ⟨saddr, req⟩ :: (v.users.toList.map stack ++ lost)⟩ free)
    (hfits : 16 + 4 * a.nargs.toNat ≤ (stackSize a.ssize).toNat) (hm : IsPid m) (hp : IsPid p)
    (hfree : v.states p = .PRFREE) (hnull : 4 ≤ p) :
    Held h₀ ({ v with heap := h', nextpid := m }.enter a saddr p) lost := by
  have hnot : p ∉ v.users := fun hmem => (mem_users.mp hmem).1.2 hfree
  have hself : (({ v with heap := h', nextpid := m }.enter a saddr p).proctab p) =
      newPcb (v.proctab p) a saddr := update_self ..
  have hother : ∀ x, x ≠ p → ({ v with heap := h', nextpid := m }.enter a saddr p).proctab x =
      v.proctab x := fun x hx => update_of_ne hx _ _
  have husers : ({ v with heap := h', nextpid := m }.enter a saddr p).users = insert p v.users := by
    ext x
    rw [Finset.mem_insert, mem_users, mem_users]
    by_cases hx : x = p
    · subst hx
      simp [states, hself, newPcb, hp, hnull]
    · simp only [states, hother x hx, hx, false_or]
  refine ⟨hm, update stack p ⟨saddr, req⟩, free, fun x hx => ?_, ?_⟩
  · rw [husers, Finset.mem_insert] at hx
    by_cases hxp : x = p
    · subst hxp
      rw [update_self, hself]
      exact ⟨rfl, hreq⟩
    · rw [update_of_ne hxp, hother x hxp]
      exact hstack x (hx.resolve_left hxp)
  · have hmap : v.users.toList.map stack =
        v.users.toList.map (update stack p ⟨saddr, req⟩) := by
      refine map_congr_left fun x hx => (update_of_ne ?_ _ _).symm
      rintro rfl
      exact hnot (Finset.mem_toList.mp hx)
    have hperm : (⟨saddr, req⟩ :: (v.users.toList.map stack ++ lost)).Perm
        ((insert p v.users).toList.map (update stack p ⟨saddr, req⟩) ++ lost) := by
      have hins := (Finset.toList_insert hnot).map (update stack p ⟨saddr, req⟩)
      rw [map_cons, update_self, ← hmap] at hins
      exact hins.symm.append_right lost
    rw [husers]
    refine Heap.HeapInv.perm ?_ hperm
    -- The block lies in one region, so its addresses do not wrap round,
    -- and it is at least as long as the stack that `create` writes to.
    obtain ⟨n, hwithin⟩ := hinv.inRegion _ mem_cons_self
    have hstop : (Heap.regionSpan h' n).stop < 2 ^ 32 := hinv.layout.stop_lt n
    have hround := toNat_roundmb req.noWrap
    have hlen : (stackSize a.ssize).toNat ≤ (roundmb req.nbytes).toNat := by
      rw [← hreq, hround]
      omega
    have hend : saddr.toNat + (roundmb req.nbytes).toNat ≤ (Heap.regionSpan h' n).stop := hwithin.2
    have hpads := toNat_pads_le a.nargs
    refine initStack_rule (P := fun h => Heap.HeapInv h₀
      ⟨h, ⟨saddr, req⟩ :: (v.users.toList.map stack ++ lost)⟩ free) (by omega)
      (fun h x y hh hlo hhi => ?_) (by omega) hinv
    exact hh.write mem_cons_self
      (show saddr.toNat ≤ x.toNat ∧ x.toNat < saddr.toNat + (roundmb req.nbytes).toNat from
        ⟨hlo, by omega⟩)

/-- `create` returns and keeps the stacks. When it gets memory and no
slot, one more block is lost. When there is a slot for the memory or no
memory, nothing is lost, and a `create` that fails leaves the heap as it
was. -/
theorem create (hs : Held h₀ v lost) {a : CreateArgs} (hfit : v.Fitting c a)
    (hnull : ∀ p, IsPid p → v.states p = .PRFREE → 4 ≤ p) :
    ∃ r w lost', v.create c a = .ok (r, w) ∧ Held h₀ w lost' ∧
      (v.heap.NoMemory c (stackSize a.ssize) ∨ v.HasSlot →
        lost' = lost ∧ (r = none → w.heap = v.heap)) := by
  obtain ⟨stack, free, hstack, hinv⟩ := hs.blocks
  obtain ⟨r, m, hnew, hm, hnone⟩ := newpid_spec hs.nextpid
  obtain ⟨hwrap, hcase⟩ := hfit
  -- Without memory `create` fails, whatever `newpid` finds.
  have hfail : v.heap.getmem c (stackSize a.ssize) = .ok (SYSERR, v.heap) →
      v.create c a = .ok (none, { v with nextpid := m }) := by
    intro hget
    simp only [Vars.create, hget, hnew, ok_bind]
    cases r <;> rfl
  by_cases hzero : stackSize a.ssize = 0
  · exact ⟨none, _, lost, hfail (if_pos hzero), ⟨hm, stack, free, hstack, hinv⟩,
      fun _ => ⟨rfl, fun _ => rfl⟩⟩
  · rcases hinv.getmem_cases c ⟨stackSize a.ssize, hzero, hwrap⟩ with
      hget | ⟨saddr, h', free', hne, hget, hinv', -⟩
    · exact ⟨none, _, lost, hfail hget, ⟨hm, stack, free, hstack, hinv⟩,
        fun _ => ⟨rfl, fun _ => rfl⟩⟩
    · have hmem : ¬ v.heap.NoMemory c (stackSize a.ssize) := by
        rintro ⟨x, hx, hsys⟩
        rw [hget] at hx
        exact hne (by rw [← hsys, ← Except.ok.inj hx])
      have hfits := hcase.resolve_left hmem
      cases r with
      | none =>
        -- The block is in no free list and belongs to no process.
        refine ⟨none, { v with heap := h', nextpid := m }, ⟨saddr, ⟨_, hzero, hwrap⟩⟩ :: lost, ?_,
          ⟨hm, stack, free', hstack, hinv'.perm perm_middle.symm⟩,
          fun hslot => absurd (hslot.resolve_left hmem) (hnone rfl)⟩
        simp only [Vars.create, hget, hnew, ok_bind]
        rfl
      | some pid =>
        obtain ⟨hpid, hfree⟩ := newpidLoop_free hnew
        refine ⟨some pid, _, lost, ?_, enter hstack rfl hinv' hfits hm hpid hfree
          (hnull pid hpid hfree), fun _ => ⟨rfl, fun h => by cases h⟩⟩
        simp only [Vars.create, hget, hnew, ok_bind, if_neg hne]
        rfl

end Held

end Vars

/-- The heap after a `kill` that is not refused is the one `freemem`
left. -/
theorem Kernel.kill_heap {k k' : Kernel} {c : Core} {p : Int} {r : Syscall}
    (href : k.killRefuses c p = false) (h : k.kill c p = .ok (r, k')) :
    ∃ res h', k.heap.freemem (k.proctab p).stkbase (k.proctab p).stklen = .ok (res, h') ∧
      k'.heap = h' ∧ k'.nextpid = k.nextpid := by
  rw [kill, href] at h
  obtain ⟨v, hrel, h⟩ := bind_eq_ok h
  obtain ⟨k1, hswitch, h⟩ := bind_eq_ok h
  cases h
  obtain ⟨⟨res, h'⟩, hfree, hrel⟩ := bind_eq_ok hrel
  cases hrel
  have hframe := killSwitch_frame hswitch
  exact ⟨res, h', hfree, hframe.heap, hframe.nextpid⟩

/-! ### One call -/

namespace AbsKernel

variable {a b : AbsKernel} {c : Core} {p : Int}

/-- The same slots are free. -/
def SameFree (a b : AbsKernel) : Prop := ∀ x, b.states x = .PRFREE ↔ a.states x = .PRFREE

theorem SameFree.trans {e : AbsKernel} (h : SameFree a b) (h' : SameFree b e) : SameFree a e :=
  fun x => (h' x).trans (h x)

theorem SameFree.users (h : SameFree a b) : b.users = a.users := Vars.users_congr h

theorem Rescheduled.sameFree (h : Rescheduled a b) : SameFree a b :=
  fun _ => h.states_eq_iff (by simp [PrState.Active])

theorem SameSched.sameFree (h : SameSched a b) : SameFree a b := fun x => by rw [h.states x]

/-- An entry is written, and the process was live and is live. -/
theorem sameFree_setPcb {y : Pcb} (hlive : a.states p ≠ .PRFREE) (hy : y.state ≠ .PRFREE) :
    SameFree a (a.setPcb p y) := by
  intro x
  have hproc : (a.setPcb p y).proctab x = if x = p then y else a.proctab x :=
    update_apply ..
  rw [Vars.states, hproc]
  by_cases hx : x = p
  · subst hx
    rw [if_pos rfl]
    exact iff_of_false hy hlive
  · rw [if_neg hx]
    rfl

theorem sameFree_wake {core : Ulong} (hlive : a.states p ≠ .PRFREE) :
    SameFree a (a.wake p core) := by
  obtain ⟨d, hself, -⟩ := Vars.makeReady_self a.toVars p core
  intro x
  by_cases hx : x = p
  · subst hx
    have hstate : (a.wake x core).states x = .PRREADY := congrArg Pcb.state hself
    simp [hstate, hlive]
  · have hother : (a.wake p core).proctab x = a.proctab x := Vars.makeReady_of_ne hx
    rw [Vars.states, hother, Vars.states]

theorem sameFree_refill {self sender : Int} : SameFree a (a.refill self sender) := by
  intro x
  have hstate : (a.refill self sender).states x = a.states x := by
    simp only [Vars.states, refill, setPcb, Vars.setPcb, pop, update_apply]
    split <;> split <;> simp_all
  rw [hstate]

/-- Only `create` and `kill` change which slots are free. -/
theorem Effect.sameFree (he : Effect a c call b) (h : a.SchedInv ∅) (hwf : a.Wf)
    (hcreate : ∀ args, call ≠ .create args) (hkill : ∀ pid, call ≠ .kill pid) : SameFree a b := by
  have hcur : a.states (a.currpid c) ≠ .PRFREE := by
    rw [h.current c (Set.notMem_empty c)]
    decide
  cases he with
  | same hsame =>
    intro x
    rw [Vars.states, hsame.proctab]
    rfl
  | create hpid hfree hb => exact absurd rfl (hcreate _)
  | kill hno hb hnum => exact absurd rfl (hkill _)
  | ready hp hsusp hres => exact (sameFree_wake (by simp [hsusp])).trans hres.sameFree
  | resched hres => exact hres.sameFree
  | park hpid hlive hfull hres =>
    refine SameFree.trans ?_ hres.sameFree
    exact sameFree_setPcb hcur (by simp)
  | deposit hcall hpid hlive hempty hstate => exact sameSched_deposit.sameFree
  | @deliver call pid msg core b hcall hpid hempty hstate hres =>
    have hdep : SameSched a (a.deposit pid msg) := sameSched_deposit
    refine (hdep.sameFree.trans (sameFree_wake ?_)).trans hres.sameFree
    rw [hdep.states, hstate]
    decide
  | wait hempty hres => exact (sameFree_setPcb hcur (by simp)).trans hres.sameFree
  | drain hcall hnone => exact sameSched_drain.sameFree
  | @refill call sender l core hcall hl =>
    -- The sender that is woken was blocked in `send`.
    have hmem : sender ∈ a.queue (.senders (a.currpid c)) := hl ▸ mem_cons_self
    have hpid : IsPid sender := hwf.pids (.senders (a.currpid c)) (h.pid c) sender hmem
    have hsend := (h.procs sender hpid).sending _ (h.pid c) hmem
    refine sameFree_refill.trans (sameFree_wake fun hfree => ?_)
    rw [sameFree_refill sender, hsend] at hfree
    cases hfree
  | recvnow hfull => exact sameSched_drain.sameFree

/-- A process that was killed is the one user less. -/
theorem Killed.users (h : Killed a b p) : b.users = a.users.erase p := by
  ext x
  rw [Finset.mem_erase, Vars.mem_users, Vars.mem_users]
  by_cases hx : x = p
  · subst hx
    simp [h.free]
  · simp only [ne_eq, h.states_eq_iff hx (s := .PRFREE) (by simp [PrState.Active]), hx,
      not_false_eq_true, true_and]

/-- The null processes are live. -/
def NullsLive (a : AbsKernel) : Prop := ∀ c : Core, a.states c ≠ .PRFREE

/-- A free slot does not belong to a null process. -/
theorem NullsLive.null_of_free (h : a.NullsLive) (hp : IsPid p) (hfree : a.states p = .PRFREE) :
    4 ≤ p := by
  by_contra hlt
  obtain ⟨c, rfl⟩ := exists_core (p := p) ⟨hp.1, by omega⟩
  exact h c hfree

theorem Steady.nullsLive (h : a.Steady) : a.NullsLive :=
  fun c hfree => h.ne_null (p := c) (by simp [hfree, PrState.Active]) c rfl

theorem NullsLive.effect (h : a.NullsLive) (he : Effect a c call b)
    (hinv : a.SchedInv ∅) (hwf : a.Wf) : b.NullsLive := by
  intro d
  cases call with
  | create args =>
    rcases he.create_cases with hsame | ⟨pid, saddr, -, hfree, hb⟩
    · rw [Vars.states, hsame.proctab]
      exact h d
    · have hne : (d : Int) ≠ pid := fun heq => h d (heq ▸ hfree)
      rw [Vars.states, hb.proctab, update_of_ne hne]
      exact h d
  | kill pid =>
    rcases he.kill_cases with hsame | ⟨hno, hb⟩
    · rw [Vars.states, hsame.proctab]
      exact h d
    · obtain ⟨-, hnull, -⟩ := Vars.killRefuses_eq_false.mp hno
      have hne : (d : Int) ≠ pid := by
        have := (isCore d).2
        unfold NCORES at this
        omega
      exact fun hfree => h d ((hb.states_eq_iff hne (by simp [PrState.Active])).mp hfree)
  | ready | resched | send | sendnow | recv | recvResume | recvnow =>
    exact fun hfree => h d ((he.sameFree hinv hwf (by simp) (by simp) d).mp hfree)

end AbsKernel

/-- The calls of the scheduler, with `create` only where it is provided
for. -/
def Sys.Provided (s : Sys) (cpuid : Core) : Call → Prop
  | .create args => s.kernel.Provided cpuid args
  | call => call.Scheduling

instance (s : Sys) (cpuid : Core) (call : Call) : Decidable (s.Provided cpuid call) := by
  rcases call <;> dsimp only [Sys.Provided] <;> infer_instance

theorem Sys.Provided.scheduling {s : Sys} {c : Core} (h : s.Provided c call) :
    call.Scheduling := by
  cases call with
  | create args => exact trivial
  | ready | resched | kill | send | sendnow | recv | recvResume | recvnow => exact h

section Step
variable {h₀ : Heap} {k k' : Kernel} {a : AbsKernel} {c : Core} {p : Int}

/-- A process that `kill` does not refuse is a user. -/
theorem Refines.mem_users (hr : Refines k a) (href : a.killRefuses c p = false) : p ∈ k.users := by
  obtain ⟨hgood, hnull, -⟩ := Vars.killRefuses_eq_false.mp href
  rw [hr.vars]
  exact Vars.mem_users.mpr ⟨isbadpid_eq_false.mp hgood, hnull⟩

variable {lost : List Heap.Alloc} (hr : Refines k a) (hs : Vars.Held h₀ k.toVars lost)
include hr hs

theorem Vars.Held.create_returns (hnull : a.NullsLive) {args : Vars.CreateArgs}
    (hfit : k.Fitting c args) :
    ∃ r k' lost', k.create c args = .ok (r, k') ∧ Vars.Held h₀ k'.toVars lost' ∧
      (k.heap.NoMemory c (Vars.stackSize args.ssize) ∨ k.HasSlot →
        lost' = lost ∧ (r = none → k'.heap = k.heap)) := by
  obtain ⟨r, v, lost', hrun, hs', hslot⟩ := hs.create hfit fun p hp hfree =>
    hnull.null_of_free hp (hr.states ▸ hfree)
  exact ⟨r, { k with toVars := v }, lost', by simp only [Kernel.create, hrun, ok_bind]; rfl,
    hs', hslot⟩

theorem Vars.Held.kill (hinv : a.SchedInv ∅)
    (hsend : a.killRefuses c p = false → a.states p ≠ .PRSEND) {r : Syscall}
    (hrun : k.kill c p = .ok (r, k')) : Vars.Held h₀ k'.toVars lost := by
  rcases hr.kill_ends hinv (Set.notMem_empty c) hsend hrun with
    ⟨-, rfl, -⟩ | ⟨-, href, b, hr', -, hkilled, -⟩
  · exact hs
  · obtain ⟨h', hfree, -, hrest⟩ := hs.release (hr.mem_users href)
    obtain ⟨res, h'', hfree', hheap, hnext⟩ := Kernel.kill_heap (hr.vars ▸ href) hrun
    cases hfree.symm.trans hfree'
    refine hrest _ hheap hnext ?_ fun x hx => ?_
    · rw [hr.vars, hr'.vars]
      exact hkilled.users
    · rw [hr'.vars, hkilled.users] at hx
      rw [hr.proctab, hr'.proctab, hkilled.pcb x (Finset.ne_of_mem_erase hx)]
      exact ⟨rfl, rfl⟩

theorem Vars.Held.kill_returns (hinv : a.SchedInv ∅) (hsteady : a.Steady) :
    ∃ r, k.kill c p = .ok r := by
  cases href : a.killRefuses c p with
  | true => exact ⟨_, by rw [Kernel.kill, hr.vars, href, if_pos rfl]⟩
  | false =>
    obtain ⟨h', hfree, -, -⟩ := hs.release (hr.mem_users href)
    rw [hr.vars] at hfree
    exact hr.kill_returns hinv hsteady (v := { a.toVars with numproc := a.numproc - 1, heap := h' })
      (by simp only [Vars.release, hfree, ok_bind]; rfl)

end Step

/-- One call keeps the account. A block is lost only by a `create` that
finds memory and no slot. -/
theorem Vars.Held.exec {h₀ : Heap} {lost : List Heap.Alloc} {s s' : Sys} {a b : AbsKernel}
    {c : Core} (hs : Vars.Held h₀ s.kernel.toVars lost) (hr : Refines s.kernel a)
    (hinv : a.SchedInv ∅) (hnull : a.NullsLive)
    (hfit : ∀ args, call = .create args → s.kernel.Fitting c args)
    (hkill : ∀ pid, call = .kill pid → s.kernel.killRefuses c pid = false →
      s.kernel.states pid ≠ .PRSEND)
    (hr' : Refines s'.kernel b) (he : AbsKernel.Effect a c call b) (hrun : s.exec c call = .ok s') :
    ∃ lost', Vars.Held h₀ s'.kernel.toVars lost' ∧ ((∀ args, call = .create args →
        s.kernel.heap.NoMemory c (Vars.stackSize args.ssize) ∨ s.kernel.HasSlot) →
          lost' = lost) := by
  cases call with
  | create args =>
    obtain ⟨⟨r, k'⟩, hcreate, hrun⟩ := bind_eq_ok hrun
    cases hrun
    obtain ⟨r', k'', lost', hcreate', hs', hslot⟩ := hs.create_returns hr hnull (hfit args rfl)
    cases hcreate.symm.trans hcreate'
    exact ⟨lost', hs', fun h => (hslot (h args rfl)).1⟩
  | kill pid =>
    obtain ⟨⟨r, k'⟩, hcall, hrun⟩ := bind_eq_ok hrun
    cases hrun
    refine ⟨lost, hs.kill hr hinv ?_ hcall, fun _ => rfl⟩
    have hsend := hkill pid rfl
    rwa [hr.vars] at hsend
  | ready | resched | send | sendnow | recv | recvResume | recvnow =>
    have hframe := Sys.exec_frame (by simp) (by simp) hrun
    have hfree := he.sameFree hinv hr.wf (by simp) (by simp)
    refine ⟨lost, hs.congr hframe.heap hframe.nextpid ?_ hframe.stack, fun _ => rfl⟩
    rw [hr.vars, hr'.vars]
    exact hfree.users

/-! ### Whole runs -/

/-- The states of the runs from the state `s0` whose calls satisfy
`ok`. -/
def Sys.ReachableFrom (ok : Sys → Core → Call → Prop) (s0 s : Sys) : Prop :=
  Lib.Reaches (· = s0) (Sys.Allowed ok) (fun s a => s.exec a.1 a.2) s

/-- After `sysinit` nothing is allocated, and there are no users. -/
theorem Vars.held_sysinit {k : Kernel}
    (hb : Heap.BootHeap memheap maxaddr) (hrun : Kernel.sysinit memheap maxaddr end_ mem = .ok k) :
    (∃ a, Refines k a ∧ a.SchedInv ∅ ∧ a.Steady) ∧
      Vars.Held (Heap.sysinit memheap maxaddr mem) k.toVars [] := by
  obtain ⟨k', a, hrun', ⟨hr, ha⟩, hheap, hnext⟩ := Kernel.sysinit_spec memheap maxaddr end_ mem
  obtain rfl : k = k' := Except.ok.inj (hrun.symm.trans hrun')
  have husers : k.users = ∅ := by
    refine Finset.eq_empty_of_forall_notMem fun p hp => ?_
    obtain ⟨⟨hpid, hlive⟩, hnull⟩ := Vars.mem_users.mp hp
    exact hlive (hr.states ▸ ha.free p hpid hnull)
  refine ⟨⟨a, hr, ha.schedInv, ha.steady⟩, ?_, fun _ => ⟨0, 1, by decide, by decide⟩,
    fun n => [(Heap.sysinit memheap maxaddr mem).regionSpan n], fun p hp => ?_, ?_⟩
  · rw [hnext]
    decide
  · rw [husers] at hp
    exact absurd hp (Finset.notMem_empty p)
  · rw [husers, Finset.toList_empty, hheap]
    exact Heap.heapInv_sysinit hb mem

theorem held_nil_of_reachable {s0 s : Sys} (hb : Heap.BootHeap memheap maxaddr)
    (hboot : Kernel.sysinit memheap maxaddr end_ mem = .ok s0.kernel)
    (h : Sys.ReachableFrom Sys.Provided s0 s) :
    (∃ a, Refines s.kernel a ∧ a.SchedInv ∅ ∧ a.Steady) ∧
      Vars.Held (Heap.sysinit memheap maxaddr mem) s.kernel.toVars [] := by
  refine Lib.Reaches.induction
    (P := fun s => (∃ a, Refines s.kernel a ∧ a.SchedInv ∅ ∧ a.Steady) ∧
      Vars.Held (Heap.sysinit memheap maxaddr mem) s.kernel.toVars []) h ?_ ?_
  · intro s hs
    subst hs
    exact Vars.held_sysinit hb hboot
  · rintro s ⟨c, call⟩ s' ⟨⟨a, hr, hinv, hsteady⟩, hs⟩ ⟨hperm, hok⟩ hrun
    -- No process is ever blocked in a send, as the calls have no messages.
    have hspare : ∀ pid, call = .kill pid → s.kernel.killRefuses c pid = false →
        s.kernel.states pid ≠ .PRSEND := by
      intro pid _ href
      obtain ⟨hgood, -⟩ := Vars.killRefuses_eq_false.mp href
      rw [hr.states]
      exact hsteady.noSend pid (isbadpid_eq_false.mp hgood).1
    obtain ⟨b, hr', hinv', he, -⟩ := Sys.exec_effect hr hinv hperm hspare hrun
    obtain ⟨lost, hs', hlost⟩ := hs.exec hr hinv hsteady.nullsLive
      (fun args hcall => by subst hcall; exact hok.1) hspare hr' he hrun
    obtain rfl := hlost fun args hcall => by subst hcall; exact hok.2
    exact ⟨⟨b, hr', hinv', hsteady.effect hok.scheduling he⟩, hs'⟩

/-- In every run of `create`, `ready`, `resched` and `kill` from
`sysinit` in which each `create` is provided for, the free bytes and the
bytes of the stacks add up to what they were at boot. The next `create`
and the next `kill` return, and a `create` that fails leaves the heap as
it was. -/
theorem accounted_of_reachable {s0 s : Sys} (hb : Heap.BootHeap memheap maxaddr)
    (hboot : Kernel.sysinit memheap maxaddr end_ mem = .ok s0.kernel)
    (h : Sys.ReachableFrom Sys.Provided s0 s) :
    s.kernel.accounted = s0.kernel.accounted ∧
    (∀ c args, s.kernel.Provided c args → ∃ r k', s.kernel.create c args = .ok (r, k') ∧
      (r = none → k'.heap = s.kernel.heap)) ∧
    ∀ c pid, ∃ r, s.kernel.kill c pid = .ok r := by
  obtain ⟨⟨a, hr, hinv, hsteady⟩, hs⟩ := held_nil_of_reachable hb hboot h
  obtain ⟨-, hs0⟩ := Vars.held_sysinit hb hboot
  refine ⟨hs.accounted_eq.trans hs0.accounted_eq.symm, fun c args hprov => ?_, fun c pid =>
    hs.kill_returns hr hinv hsteady⟩
  obtain ⟨r, k', lost, hrun, -, hnone⟩ := hs.create_returns hr hsteady.nullsLive
    hprov.1
  exact ⟨r, k', hrun, (hnone hprov.2).2⟩

/-- A run from `sysinit` given by its calls, whose last state passes a
test. -/
theorem Sys.exists_reachableFrom (ok : Sys → Core → Call → Prop)
    [∀ s cpuid call, Decidable (ok s cpuid call)] (memheap maxaddr end_ : Ulong)
    (mem : Ulong → Ulong) (calls : List (Core × Call)) (test : Sys → Bool)
    (h : (Sys.boot ok memheap maxaddr end_ mem calls).any test = true) :
    ∃ s0 s : Sys, Kernel.sysinit memheap maxaddr end_ mem = .ok s0.kernel ∧
      Sys.ReachableFrom ok s0 s ∧ test s = true := by
  unfold Sys.boot at h
  split at h
  · rename_i k hk
    obtain ⟨s, hs, htest⟩ := (Option.any_eq_true ..).mp h
    exact ⟨⟨k, fun _ => false⟩, s, hk, Lib.Reaches.follow ⟨_, rfl, .refl⟩ hs, htest⟩
  · cases h

/-- After `killRun` one process is left. Its stack is the one block that
is not free. -/
theorem accounted_killRun : ∃ s0 s : Sys, s.kernel.numproc = 5 ∧ s.kernel.stackBytes = 4096 ∧
    s.kernel.accounted = s0.kernel.accounted := by
  obtain ⟨s0, s, hboot, hreach, htest⟩ := Sys.exists_reachableFrom Sys.Provided 0x10000 0x90000
    0x8000 (fun _ => 0) killRun (fun s => s.kernel.numproc = 5 && s.kernel.stackBytes = 4096)
    (by decide +kernel)
  simp only [Bool.and_eq_true, decide_eq_true_eq] at htest
  exact ⟨s0, s, htest.1, htest.2, (accounted_of_reachable (by decide) hboot hreach).1⟩

/-- `create` of a process with the smallest stack, until the table is
full. -/
def fillTable : List (Core × Call) := List.replicate 46 (0, .create highPriority)

/-- With the process table full, a `create` fails and the stack it
allocated is on no free list and in no process. -/
theorem leaked_fullTable : ∃ s0 s : Sys, ∃ k' : Kernel, Heap.BootHeap 0x10000 0x110000 ∧
    Kernel.sysinit 0x10000 0x110000 0x8000 (fun _ => 0) = .ok s0.kernel ∧
    Sys.ReachableFrom (fun _ _ call => call.Scheduling) s0 s ∧
    s.kernel.accounted = s0.kernel.accounted ∧
    s.kernel.create 0 highPriority = .ok (none, k') ∧
    k'.heap.freeBytes + 4096 = s.kernel.heap.freeBytes ∧
    k'.accounted + 4096 = s0.kernel.accounted := by
  obtain ⟨s0, s, hboot, hreach, htest⟩ := Sys.exists_reachableFrom
    (fun _ _ call => call.Scheduling) 0x10000 0x110000 0x8000 (fun _ => 0) fillTable
    (fun s => s.kernel.accounted = 0x100000 && match s.kernel.create 0 highPriority with
      | .ok (none, k') => k'.heap.freeBytes + 4096 = s.kernel.heap.freeBytes &&
          k'.accounted + 4096 = 0x100000
      | _ => false)
    (by decide +kernel)
  have hstart : (Kernel.sysinit 0x10000 0x110000 0x8000 (fun _ => 0)).toOption.all
      (fun k => k.accounted = 0x100000) = true := by decide +kernel
  rw [hboot] at hstart
  have hstart : s0.kernel.accounted = 0x100000 := of_decide_eq_true hstart
  simp only [Bool.and_eq_true, decide_eq_true_eq] at htest
  obtain ⟨hacc, htest⟩ := htest
  split at htest
  · rename_i k' hrun
    simp only [Bool.and_eq_true, decide_eq_true_eq] at htest
    exact ⟨s0, s, k', by decide, hboot, hreach, hacc.trans hstart.symm, hrun, htest.1,
      htest.2.trans hstart.symm⟩
  · cases htest

end Xinu
