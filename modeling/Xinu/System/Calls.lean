import Xinu.Lib.Runs
import Xinu.System.Message

/-!
# `Xinu.System.Calls`: the running system

A step of the system is one call of the process that runs on some core,
taken as a whole. `Sys` is the kernel together with the one thing that a
process remembers across a switch: that it has blocked inside `recv` and
collects its message when it runs again.

`Permitted` says which calls a process can make. `Reachable ok s` holds
of the states of the runs that start with `sysinit` and whose calls
satisfy `ok`.
-/

namespace Xinu

open Function

/-- The kernel calls of a running process. -/
inductive Call where
  | create (args : Vars.CreateArgs)
  | ready (pid : Int) (resch : Bool) (core : Ulong)
  | resched
  | kill (pid : Int)
  | send (pid msg : Int)
  | sendnow (pid msg : Int)
  | recv
  /-- The rest of a `recv` that blocked. -/
  | recvResume
  | recvnow

/-- Whether the call, made on core `cpuid`, calls `resched`: `kill` does
when it kills the current process, `send` when it blocks or wakes a
process of its own core, and `recv` when it blocks. -/
def Vars.reschedules (v : Vars) (cpuid : Core) : Call → Bool
  | .resched => true
  | .ready pid resch core =>
    resch && decide ((cpuid : Int) = ((v.makeReady pid core).proctab pid).coreAffinity)
  | .kill pid => !v.killRefuses cpuid pid && decide (v.states pid = .PRCURR)
  | .send pid _ => !isbadpid v.states pid && ((v.proctab pid).hasMessage ||
      decide (v.states pid = .PRRECV ∧ (cpuid : Int) = (v.proctab pid).coreAffinity))
  | .recv => !(v.proctab (v.currpid cpuid)).hasMessage
  | .create _ | .sendnow _ _ | .recvResume | .recvnow => false

/-- The call, made on core `cpuid`, does not kill process `p`. -/
def Vars.Spares (v : Vars) (cpuid : Core) (p : Int) : Call → Prop
  | .kill pid => v.killRefuses cpuid pid = false → pid ≠ p
  | _ => True

instance (v : Vars) (cpuid : Core) (p : Int) (call : Call) : Decidable (v.Spares cpuid p call) := by
  rcases call <;> dsimp only [Vars.Spares] <;> infer_instance

/-- The system between two calls. -/
structure Sys where
  kernel : Kernel
  /-- The process blocked in `recv` and has not returned from it. -/
  inRecv : Int → Bool

namespace Sys

/-- The process that runs on the core. -/
def self (s : Sys) (cpuid : Core) : Int := s.kernel.currpid cpuid

/-- A new process starts at its first instruction. -/
def afterCreate (s : Sys) (r : Option Int × Kernel) : Sys where
  kernel := r.2
  inRecv := match r.1 with
    | none => s.inRecv
    | some pid => update s.inRecv pid false

/-- One call of the process that runs on core `cpuid`. -/
def exec (s : Sys) (cpuid : Core) : Call → Except Fault Sys
  | .create args => do
    let r ← s.kernel.create cpuid args
    return s.afterCreate r
  | .ready pid resch core => do
    let (_, k) ← s.kernel.ready cpuid pid resch core
    return { s with kernel := k }
  | .resched => do
    let k ← s.kernel.resched cpuid
    return { s with kernel := k }
  | .kill pid => do
    let (_, k) ← s.kernel.kill cpuid pid
    return { s with kernel := k }
  | .send pid msg => do
    let (_, k) ← s.kernel.send cpuid pid msg
    return { s with kernel := k }
  | .sendnow pid msg => do
    let (_, k) ← s.kernel.sendnow cpuid pid msg
    return { s with kernel := k }
  | .recv => do
    let (r, k) ← s.kernel.recv cpuid
    return ⟨k, update s.inRecv (s.self cpuid) r.isNone⟩
  | .recvResume => do
    let (_, k) ← s.kernel.recvResume cpuid
    return ⟨k, update s.inRecv (s.self cpuid) false⟩
  | .recvnow => do
    let (_, k) ← s.kernel.recvnow cpuid
    return { s with kernel := k }

/-- The calls the process on core `cpuid` can make. A priority is at most
`PRIORITY_HIGH`. `ready` is for a suspended process, with an existing
core. A process that blocked in `recv` goes on with it. The clock may
call `resched` at any time. -/
def Permitted (s : Sys) (cpuid : Core) : Call → Prop
  | .create args => s.inRecv (s.self cpuid) = false ∧ (args.priority.toNat : Int) ≤ PRIORITY_HIGH
  | .ready pid _ core => s.inRecv (s.self cpuid) = false ∧ (0 ≤ pid ∧ pid < NPROC) ∧
      s.kernel.states pid = .PRSUSP ∧ core.toNat < NCORES
  | .resched => True
  | .recvResume => s.inRecv (s.self cpuid) = true
  | _ => s.inRecv (s.self cpuid) = false

instance (s : Sys) (cpuid : Core) (call : Call) : Decidable (s.Permitted cpuid call) := by
  rcases call <;> dsimp only [Permitted] <;> infer_instance

/-- The system once `sysinit` has returned. -/
def Booted (s : Sys) : Prop :=
  (∃ memheap maxaddr end_ mem, Kernel.sysinit memheap maxaddr end_ mem = .ok s.kernel) ∧
    s.inRecv = fun _ => false

/-- A permitted call that satisfies `ok`, with the core it is made on. -/
def Allowed (ok : Sys → Core → Call → Prop) (s : Sys) (a : Core × Call) : Prop :=
  s.Permitted a.1 a.2 ∧ ok s a.1 a.2

instance (ok : Sys → Core → Call → Prop) [∀ s cpuid call, Decidable (ok s cpuid call)] (s : Sys)
    (a : Core × Call) : Decidable (Allowed ok s a) := inferInstanceAs (Decidable (_ ∧ _))

/-- The states of the runs from `sysinit` whose calls satisfy `ok`. -/
def Reachable (ok : Sys → Core → Call → Prop) (s : Sys) : Prop :=
  Lib.Reaches Booted (Allowed ok) (fun s a => s.exec a.1 a.2) s

/-! ### Runs given by their calls -/

section Boot
variable {ok : Sys → Core → Call → Prop} [∀ s cpuid call, Decidable (ok s cpuid call)]

/-- `sysinit`, then the given calls: `none` when one of them is not
permitted, does not satisfy `ok`, or does not return. -/
def boot (ok : Sys → Core → Call → Prop) [∀ s cpuid call, Decidable (ok s cpuid call)]
    (memheap maxaddr end_ : Ulong) (mem : Ulong → Ulong) (calls : List (Core × Call)) :
    Option Sys :=
  match Kernel.sysinit memheap maxaddr end_ mem with
  | .ok k => Lib.follow (Allowed ok) (fun s a => s.exec a.1 a.2) ⟨k, fun _ => false⟩ calls
  | .error _ => none

/-- What a run leads to is reachable. -/
theorem reachable_boot {memheap maxaddr end_ : Ulong} {mem : Ulong → Ulong}
    {calls : List (Core × Call)} {s : Sys} (h : boot ok memheap maxaddr end_ mem calls = some s) :
    Reachable ok s := by
  unfold boot at h
  split at h
  · rename_i k hk
    have hboot : Booted ⟨k, fun _ => false⟩ := ⟨⟨memheap, maxaddr, end_, mem, hk⟩, rfl⟩
    have hinit : Reachable ok ⟨k, fun _ => false⟩ := ⟨_, hboot, .refl⟩
    exact Lib.Reaches.follow hinit h
  · cases h

/-- A run whose last state passes a test reaches such a state. -/
theorem exists_reachable (ok : Sys → Core → Call → Prop)
    [∀ s cpuid call, Decidable (ok s cpuid call)] (memheap maxaddr end_ : Ulong)
    (mem : Ulong → Ulong) (calls : List (Core × Call)) (test : Sys → Bool)
    (h : (boot ok memheap maxaddr end_ mem calls).any test = true) :
    ∃ s, Reachable ok s ∧ test s = true := by
  obtain ⟨s, hs, htest⟩ := (Option.any_eq_true _ _).mp h
  exact ⟨s, reachable_boot hs, htest⟩

end Boot

end Sys

end Xinu
