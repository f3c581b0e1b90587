import Xinu.Proofs.Kernel.Aging
import Xinu.System.Clock

/-!
# `Xinu.Proofs.Kernel.Clock`: the clocks and the quanta

Between two calls each of the counters `preempt`, `promote_medium` and
`promote_low` of a core is between 1 and `QUANTUM`, so a decrement never
finds a zero (`resched_counters`). The clock of a core is its number of
ticks, split into seconds and thousandths (`Counted.run`). The seconds
are a word of 32 bits, so the clock is right up to `2 ^ 32` seconds
(`clock_counts_iff`).
-/

namespace Xinu

open Function BitVec

/-- The value of a counter between two calls. -/
def InQuantum (x : Ulong) : Prop := 1 ≤ x.toNat ∧ x.toNat ≤ QUANTUM.toNat

theorem inQuantum_QUANTUM : InQuantum QUANTUM := by
  unfold InQuantum
  decide

/-- A counter that does not come to zero when it is decremented stays in
its range. -/
theorem InQuantum.sub_one {x : Ulong} (h : InQuantum x) (hne : ¬x - 1 ≤ 0) : InQuantum (x - 1) := by
  rw [AbsKernel.le_zero_iff, AbsKernel.toNat_sub_one h.1] at hne
  rw [InQuantum, AbsKernel.toNat_sub_one h.1]
  have := h.2
  omega

/-- The counters of `resched` are in their ranges. -/
structure Vars.Counting (v : Vars) : Prop where
  medium : ∀ c, InQuantum (v.promoteMedium c)
  low : ∀ c, InQuantum (v.promoteLow c)

theorem Vars.Counting.congr {v v' : Vars} (h : v.Counting)
    (hmedium : v'.promoteMedium = v.promoteMedium) (hlow : v'.promoteLow = v.promoteLow) :
    v'.Counting := by
  refine ⟨?_, ?_⟩
  · rw [hmedium]
    exact h.medium
  · rw [hlow]
    exact h.low

/-- A new value for one of the counters. -/
theorem inQuantum_update {f : Core → Ulong} {c : Core} {x : Ulong} (h : ∀ c, InQuantum (f c))
    (hx : InQuantum x) (d : Core) : InQuantum (update f c x d) := by
  by_cases hd : d = c
  · rw [hd, update_self]
    exact hx
  · rw [update_of_ne hd]
    exact h d

namespace Kernel

variable {k k' : Kernel} {c d : Core} {pid lo hi : Int} {q : Ulong}

/-! ### `resched` -/

theorem enqueue_toVars (h : k.enqueue pid q = .ok k') : k'.toVars = k.toVars := by
  obtain ⟨⟨_, queues⟩, -, h⟩ := bind_eq_ok h
  rw [← Except.ok.inj h]

theorem dequeue_toVars (h : k.dequeue q = .ok (pid, k')) : k'.toVars = k.toVars := by
  obtain ⟨⟨_, queues⟩, -, h⟩ := bind_eq_ok h
  rw [← (ok_pair h).2]

/-- A promotion only changes queues. -/
theorem promote_toVars (h : k.promote c lo hi = .ok k') : k'.toVars = k.toVars := by
  obtain ⟨from_, -, h⟩ := bind_eq_ok h
  obtain ⟨to_, -, h⟩ := bind_eq_ok h
  obtain ⟨ne, -, h⟩ := bind_eq_ok h
  cases ne with
  | true =>
    obtain ⟨⟨pid, k1⟩, hdeq, h⟩ := bind_eq_ok h
    rw [enqueue_toVars h, dequeue_toVars hdeq]
  | false => rw [← Except.ok.inj h]

theorem ageLow_counters (hlow : ∀ c, InQuantum (k.promoteLow c)) (h : k.ageLow c = .ok k') :
    (∀ c, InQuantum (k'.promoteLow c)) ∧ k'.promoteMedium = k.promoteMedium ∧
      k'.preempt = k.preempt := by
  unfold Kernel.ageLow at h
  simp only at h
  split at h
  · obtain ⟨k1, hprom, h⟩ := bind_eq_ok h
    rw [← Except.ok.inj h, promote_toVars hprom]
    refine ⟨?_, rfl, rfl⟩
    -- The counter was decremented to zero and is set again.
    simp only [Vars.resetLow, Vars.tickLow, update_idem]
    exact inQuantum_update hlow inQuantum_QUANTUM
  · rename_i hne
    simp only [Vars.tickLow, update_self] at hne
    rw [← Except.ok.inj h]
    exact ⟨inQuantum_update hlow ((hlow c).sub_one hne), rfl, rfl⟩

theorem age_counters (hk : k.Counting) (h : k.age c = .ok k') :
    k'.Counting ∧ k'.preempt = k.preempt := by
  unfold Kernel.age at h
  simp only at h
  split at h
  · obtain ⟨k1, hprom, h⟩ := bind_eq_ok h
    obtain ⟨k2, hage, h⟩ := bind_eq_ok h
    have hvars := promote_toVars hprom
    obtain ⟨hlow, hmedium, hpreempt⟩ := ageLow_counters (by rw [hvars]; exact hk.low) hage
    rw [hvars] at hmedium hpreempt
    rw [← Except.ok.inj h]
    refine ⟨⟨?_, hlow⟩, hpreempt⟩
    simp only [Vars.resetMedium, hmedium, Vars.tickMedium, update_idem]
    exact inQuantum_update hk.medium inQuantum_QUANTUM
  · rename_i hne
    simp only [Vars.tickMedium, update_self] at hne
    rw [← Except.ok.inj h]
    exact ⟨⟨inQuantum_update hk.medium ((hk.medium c).sub_one hne), hk.low⟩, rfl⟩

theorem yield_counters (hk : k.Counting) (h : k.yield c = .ok k') :
    k'.Counting ∧ k'.preempt = k.preempt := by
  unfold Kernel.yield at h
  obtain ⟨p, -, h⟩ := bind_eq_ok h
  split at h
  · obtain ⟨q, -, h⟩ := bind_eq_ok h
    rw [enqueue_toVars h]
    exact ⟨⟨hk.medium, hk.low⟩, rfl⟩
  · rw [← Except.ok.inj h]
    exact ⟨hk, rfl⟩

/-- The next process gets a whole quantum. -/
theorem dispatch_counters (hk : k.Counting) (h : k.dispatch c = .ok k') :
    k'.Counting ∧ k'.preempt = update k.preempt c QUANTUM := by
  obtain ⟨highest, -, h⟩ := bind_eq_ok h
  obtain ⟨q, -, h⟩ := bind_eq_ok h
  obtain ⟨⟨pid, k1⟩, hdeq, h⟩ := bind_eq_ok h
  obtain ⟨p, -, h⟩ := bind_eq_ok h
  rw [← Except.ok.inj h, dequeue_toVars hdeq]
  exact ⟨⟨hk.medium, hk.low⟩, rfl⟩

theorem resched_counters (hk : k.Counting) (h : k.resched c = .ok k') :
    k'.Counting ∧ k'.preempt = update k.preempt c QUANTUM := by
  obtain ⟨k1, hage, h⟩ := bind_eq_ok h
  obtain ⟨k2, hyield, h⟩ := bind_eq_ok h
  obtain ⟨hk1, hp1⟩ := age_counters hk hage
  obtain ⟨hk2, hp2⟩ := yield_counters hk1 hyield
  obtain ⟨hk', hp'⟩ := dispatch_counters hk2 h
  exact ⟨hk', by rw [hp', hp2, hp1]⟩

end Kernel

/-! ### The clock -/

/-- The counters when the clock of each core has made `n c` ticks. -/
structure Clocked.Counted (s : Clocked) (n : Core → Nat) : Prop where
  counting : s.Counting
  preempt : ∀ c, InQuantum (s.preempt c)
  ticks : ∀ c, (s.clkticks c).toNat = n c % 1000
  time : ∀ c, (s.clktime c).toNat = n c / 1000 % 2 ^ 32

namespace Clocked

variable {s s' : Clocked} {c d : Core}

theorem tick_toKernel : (s.tick c).toKernel = s.toKernel := by
  unfold tick
  simp only
  split <;> rfl

/-- A tick on the core. -/
theorem tick_clock {n : Nat} (hticks : (s.clkticks c).toNat = n % 1000)
    (htime : (s.clktime c).toNat = n / 1000 % 2 ^ 32) :
    ((s.tick c).clkticks c).toNat = (n + 1) % 1000 ∧
      ((s.tick c).clktime c).toNat = (n + 1) / 1000 % 2 ^ 32 := by
  have hnext : (s.clkticks c + 1).toNat = n % 1000 + 1 := by
    rw [toNat_add, hticks]
    show (n % 1000 + 1) % 2 ^ 32 = _
    omega
  have hfull : CLKTICKS_PER_SEC = s.clkticks c + 1 ↔ n % 1000 + 1 = 1000 := by
    rw [← toNat_inj, hnext]
    exact eq_comm
  unfold tick
  simp only [update_self]
  by_cases h : n % 1000 + 1 = 1000
  · rw [if_pos (hfull.mpr h)]
    simp only [update_self, toNat_add, htime]
    constructor
    · show 0 = (n + 1) % 1000
      omega
    · show (n / 1000 % 2 ^ 32 + 1) % 2 ^ 32 = (n + 1) / 1000 % 2 ^ 32
      omega
  · rw [if_neg (fun h' => h (hfull.mp h'))]
    simp only [update_self, hnext, htime]
    omega

/-- A tick on another core. -/
theorem tick_of_ne (hd : d ≠ c) :
    (s.tick c).clkticks d = s.clkticks d ∧ (s.tick c).clktime d = s.clktime d := by
  unfold tick
  simp only
  split
  · simp [update_of_ne hd]
  · simp [update_of_ne hd]

theorem counted_clkinit : s.clkinit.Counted fun _ => 0 where
  counting := ⟨fun _ => inQuantum_QUANTUM, fun _ => inQuantum_QUANTUM⟩
  preempt _ := inQuantum_QUANTUM
  ticks _ := rfl
  time _ := rfl

section
variable {n : Core → Nat} (h : s.Counted n)
include h

theorem Counted.resched (hs : s.resched c = .ok s') : s'.Counted n := by
  obtain ⟨k, hk, hs⟩ := bind_eq_ok hs
  obtain ⟨hcounting, hpreempt⟩ := Kernel.resched_counters h.counting hk
  rw [← Except.ok.inj hs]
  refine ⟨hcounting, ?_, h.ticks, h.time⟩
  show ∀ c, InQuantum (k.preempt c)
  rw [hpreempt]
  exact inQuantum_update h.preempt inQuantum_QUANTUM

/-- A tick is counted on its core. -/
theorem Counted.tick (c d : Core) :
    ((s.tick c).clkticks d).toNat = update n c (n c + 1) d % 1000 ∧
      ((s.tick c).clktime d).toNat = update n c (n c + 1) d / 1000 % 2 ^ 32 := by
  by_cases hd : d = c
  · rw [hd, update_self]
    exact tick_clock (h.ticks c) (h.time c)
  · rw [update_of_ne hd, (tick_of_ne hd).1, (tick_of_ne hd).2]
    exact ⟨h.ticks d, h.time d⟩

/-- The interrupt counts a tick. It ends the quantum of the process or
leaves some of it. -/
theorem Counted.clkhandler (hs : s.clkhandler c = .ok s') :
    s'.Counted (update n c (n c + 1)) := by
  have hclock : ∀ d, (((s.tick c).spend c).clkticks d).toNat =
        update n c (n c + 1) d % 1000 ∧
      (((s.tick c).spend c).clktime d).toNat =
        update n c (n c + 1) d / 1000 % 2 ^ 32 := h.tick c
  have hvars : (s.tick c).toVars = s.toVars := congrArg Kernel.toVars tick_toKernel
  have hmedium : (s.tick c).promoteMedium = s.promoteMedium := congrArg Vars.promoteMedium hvars
  have hlow : (s.tick c).promoteLow = s.promoteLow := congrArg Vars.promoteLow hvars
  have hcounting : ((s.tick c).spend c).Counting := h.counting.congr hmedium hlow
  have hpreempt : ((s.tick c).spend c).preempt =
      update s.preempt c (s.preempt c - 1) := by
    show update (s.tick c).preempt c ((s.tick c).preempt c - 1) = _
    rw [hvars]
  unfold Clocked.clkhandler at hs
  generalize (s.tick c).spend c = s1 at hs hclock hcounting hpreempt
  simp only [hpreempt, update_self] at hs
  split at hs
  · -- The zero is there only inside the call: `resched` replaces it by `QUANTUM`.
    obtain ⟨k, hk, hs⟩ := bind_eq_ok hs
    obtain ⟨hcounting', hpreempt'⟩ := Kernel.resched_counters hcounting hk
    rw [← Except.ok.inj hs]
    refine ⟨hcounting', ?_, fun d => (hclock d).1, fun d => (hclock d).2⟩
    show ∀ c, InQuantum (k.preempt c)
    rw [hpreempt', hpreempt, update_idem]
    exact inQuantum_update h.preempt inQuantum_QUANTUM
  · rename_i hne
    rw [← Except.ok.inj hs]
    refine ⟨hcounting, ?_, fun d => (hclock d).1, fun d => (hclock d).2⟩
    rw [hpreempt]
    exact inQuantum_update h.preempt ((h.preempt c).sub_one hne)

/-- A call counts the tick that it makes. -/
theorem Counted.exec {call : ClockCall} (hkeeps : call.Keeps s) (hs : s.exec call = .ok s') :
    s'.Counted fun c => n c + (ClockCall.ticksOn c (s, call)).toNat := by
  cases call with
  | clkhandler cpuid =>
    have hn : (fun c => n c + (ClockCall.ticksOn c (s, .clkhandler cpuid)).toNat) =
        update n cpuid (n cpuid + 1) := by
      funext c
      by_cases hc : c = cpuid
      · rw [hc, update_self, ClockCall.ticksOn, decide_eq_true rfl]
        rfl
      · rw [update_of_ne hc, ClockCall.ticksOn, decide_eq_false (Ne.symm hc)]
        rfl
    rw [hn]
    exact h.clkhandler hs
  | resched cpuid => exact h.resched hs
  | other k =>
    obtain ⟨hpreempt, hmedium, hlow⟩ := hkeeps
    rw [← Except.ok.inj hs]
    refine ⟨h.counting.congr hmedium hlow, ?_, h.ticks, h.time⟩
    show ∀ c, InQuantum (k.preempt c)
    rw [hpreempt]
    exact h.preempt

/-- A run counts its ticks. -/
theorem Counted.run {l : List (Clocked × ClockCall)}
    (hrun : Lib.Run (fun s call => call.Keeps s) Clocked.exec s l s') :
    s'.Counted fun c => n c + l.countP (ClockCall.ticksOn c) := by
  induction hrun generalizing n with
  | nil s => exact h
  | @cons s s1 s' call l hkeeps hexec _ ih =>
    have hrest := ih (h.exec hkeeps hexec)
    have hcount : (fun c => n c + ((s, call) :: l).countP (ClockCall.ticksOn c)) = fun c =>
        n c + (ClockCall.ticksOn c (s, call)).toNat + l.countP (ClockCall.ticksOn c) := by
      funext c
      rw [List.countP_cons, Nat.add_assoc, Nat.add_comm (Bool.toNat _)]
      cases ClockCall.ticksOn c (s, call) <;> rfl
    rw [hcount]
    exact hrest

end

/-! ### Runs of any length -/

/-- The counters are not part of `OnlyNull`. -/
theorem onlyNull_spend (h : s.OnlyNull) : ((s.tick c).spend c).OnlyNull := by
  rw [← tick_toKernel (c := c)] at h
  exact ⟨h.currpid, h.state, h.priority, h.readylist, h.high, h.med, h.low⟩

/-- Where only the null process runs, the clock goes on. -/
theorem clkhandler_of_onlyNull (h : s.OnlyNull) : ∃ s', s.clkhandler 0 = .ok s' ∧ s'.OnlyNull := by
  have hspent : ((s.tick 0).spend 0).OnlyNull := onlyNull_spend h
  unfold Clocked.clkhandler
  generalize (s.tick 0).spend 0 = s1 at hspent
  by_cases hzero : s1.preempt 0 ≤ 0
  · obtain ⟨k, hk, hnull⟩ := hspent.resched
    refine ⟨{ s1 with toKernel := k }, ?_, hnull⟩
    rw [if_pos hzero, Clocked.resched, hk]
    rfl
  · exact ⟨s1, if_neg hzero, hspent⟩

/-- The clock of core 0 can make any number of ticks. -/
theorem run_of_onlyNull (n : Nat) {s : Clocked} (h : s.OnlyNull) :
    ∃ l s', Lib.Run (fun s call => call.Keeps s) Clocked.exec s l s' ∧
      l.countP (ClockCall.ticksOn 0) = n := by
  induction n generalizing s with
  | zero => exact ⟨[], s, .nil s, rfl⟩
  | succ n ih =>
    obtain ⟨s1, hs1, hnull⟩ := clkhandler_of_onlyNull h
    obtain ⟨l, s', hrun, hcount⟩ := ih hnull
    refine ⟨(s, .clkhandler 0) :: l, s', .cons trivial hs1 hrun, ?_⟩
    rw [List.countP_cons, hcount]
    rfl

/-- After `sysinit` core 0 only has its null process. -/
theorem exists_onlyNull : ∃ s0 : Clocked, s0.clkinit.OnlyNull := by
  -- One evaluation of `sysinit`. Everything after it is about all states.
  have htest : (Kernel.sysinit 0x10000 0x90000 0x8000 (fun _ => 0)).toOption.any
      (fun k => decide k.OnlyNull) = true := by decide +kernel
  cases hk : (Kernel.sysinit 0x10000 0x90000 0x8000 (fun _ => 0)).toOption with
  | none =>
    rw [hk] at htest
    cases htest
  | some k =>
    rw [hk] at htest
    have h : k.OnlyNull := of_decide_eq_true htest
    exact ⟨⟨k, fun _ => 0, fun _ => 0⟩, h.currpid, h.state, h.priority, h.readylist, h.high, h.med,
      h.low⟩

/-! ### The theorem -/

/-- What is asked of the counters of a core after `n` ticks. -/
structure Right (s : Clocked) (c : Core) (n : Nat) : Prop where
  clock : (s.clktime c).toNat * CLKTICKS_PER_SEC.toNat + (s.clkticks c).toNat = n
  ticks : s.clkticks c < CLKTICKS_PER_SEC
  preempt : InQuantum (s.preempt c)
  medium : InQuantum (s.promoteMedium c)
  low : InQuantum (s.promoteLow c)

/-- Between two calls the counters are right as long as the seconds of the
clock fit into a word. Only the clock itself can be wrong. -/
theorem clock_counts_iff {s0 s : Clocked} {l : List (Clocked × ClockCall)}
    (hrun : Lib.Run (fun s call => call.Keeps s) Clocked.exec s0.clkinit l s) (c : Core) :
    s.Right c (l.countP (ClockCall.ticksOn c)) ↔
      l.countP (ClockCall.ticksOn c) < CLKTICKS_PER_SEC.toNat * 2 ^ 32 := by
  have h := counted_clkinit.run hrun
  have hticks := h.ticks c
  have htime := h.time c
  rw [Nat.zero_add] at hticks htime
  have hsec : CLKTICKS_PER_SEC.toNat = 1000 := rfl
  constructor
  · intro hright
    have hclock := hright.clock
    rw [htime, hticks, hsec] at hclock
    rw [hsec]
    omega
  · intro hlt
    rw [hsec] at hlt
    refine ⟨?_, ?_, h.preempt c, h.counting.medium c, h.counting.low c⟩
    · rw [htime, hticks, hsec]
      omega
    · rw [lt_def, hticks, hsec]
      omega

/-- One and a half seconds. -/
theorem clock_counts_seconds : ∃ (s0 s : Clocked) (l : List (Clocked × ClockCall)),
    Lib.Run (fun s call => call.Keeps s) Clocked.exec s0.clkinit l s ∧
      l.countP (ClockCall.ticksOn 0) = 1500 ∧ s.Right 0 1500 := by
  obtain ⟨s0, hnull⟩ := exists_onlyNull
  obtain ⟨l, s, hrun, hcount⟩ := run_of_onlyNull 1500 hnull
  have hright := (clock_counts_iff hrun 0).mpr (by rw [hcount]; decide)
  exact ⟨s0, s, l, hrun, hcount, hcount ▸ hright⟩

/-- After `2 ^ 32` seconds the clock is at zero again. -/
theorem clock_wraps : ∃ (s0 s : Clocked) (l : List (Clocked × ClockCall)),
    Lib.Run (fun s call => call.Keeps s) Clocked.exec s0.clkinit l s ∧
      l.countP (ClockCall.ticksOn 0) = CLKTICKS_PER_SEC.toNat * 2 ^ 32 ∧
      s.clktime 0 = 0 ∧ s.clkticks 0 = 0 := by
  obtain ⟨s0, hnull⟩ := exists_onlyNull
  obtain ⟨l, s, hrun, hcount⟩ := run_of_onlyNull (CLKTICKS_PER_SEC.toNat * 2 ^ 32) hnull
  have h := counted_clkinit.run hrun
  have htime := h.time 0
  have hticks := h.ticks 0
  rw [Nat.zero_add, hcount] at htime hticks
  refine ⟨s0, s, l, hrun, hcount, eq_of_toNat_eq htime, eq_of_toNat_eq hticks⟩

end Clocked

end Xinu
