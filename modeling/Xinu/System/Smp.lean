import Xinu.Lib.Runs
import Xinu.System.Message

/-!
# `Xinu.System.Smp`: the cores step by step

In `Xinu.System.Calls` a call is one step. Here a call is several steps,
with the other cores in between: each section under a lock is a step, and
so are the `ready` and the `resched` that follow it. `Point` says where a
process is between two of its steps, and the clock may switch processes
at any point.

The state also keeps, for each process, what the message calls promise
about: the messages accepted for it and the messages its `recv` calls
have taken, each in order. No step reads these two lists.
-/

namespace Xinu

open Function

/-- Where a process is between two of its steps. -/
inductive Point where
  /-- In no call. -/
  | running
  /-- At the `resched` that ends a `send` to a full mailbox. -/
  | resched
  /-- At the `ready` that ends a `send`, `sendnow` or `recv`. -/
  | ready (pid : Int) (resch : Bool)
  /-- In `recv`, at the `resched` between its two locked sections. -/
  | recvResched
  /-- In `recv`, before its second locked section. -/
  | recvCollect
deriving DecidableEq

/-- Where the locked section of `send` or `sendnow` leaves its process. -/
def Point.ofAfter : Kernel.After → Point
  | .ret _ => .running
  | .block => .resched
  | .wake pid resch => .ready pid resch

/-- The steps of the process that runs on a core. -/
inductive Action where
  | create (args : Vars.CreateArgs)
  | ready (pid : Int) (resch : Bool) (core : Ulong)
  | kill (pid : Int)
  /-- `send` up to the end of its locked section. -/
  | send (pid msg : Int)
  /-- `sendnow` up to the end of its locked section. -/
  | sendnow (pid msg : Int)
  /-- `recv` up to the end of its first locked section. -/
  | recv
  /-- The next step of the call the process is in. -/
  | proceed
  /-- `resched`, called by the process or by the clock. -/
  | tick

/-- The cores between two steps. -/
structure Smp where
  kernel : Kernel
  point : Int → Point
  /-- The messages accepted for a process. -/
  accepted : Int → List Int
  /-- The messages that the `recv` calls of a process have taken. -/
  delivered : Int → List Int

namespace Smp

/-- The process that runs on the core. -/
def self (s : Smp) (cpuid : Core) : Int := s.kernel.currpid cpuid

/-- The process `self` reaches the point `x`. -/
def reach (s : Smp) (self : Int) (x : Point) : Smp :=
  { s with point := update s.point self x }

/-- `msg` is accepted for `pid`, unless the call is refused. -/
def accept (s : Smp) (pid msg : Int) (after : Kernel.After) : Smp :=
  if after = .ret .syserr then s
  else { s with accepted := update s.accepted pid (s.accepted pid ++ [msg]) }

/-- The section of `recv` that takes the message, run by `self`. -/
def collect (s : Smp) (self : Int) : Except Fault Smp := do
  let ((msg, sender), k) ← s.kernel.recvCollect self
  let s := { s with
    kernel := k
    delivered := update s.delivered self (s.delivered self ++ [msg]) }
  match sender with
  | none => return s.reach self .running
  | some senderpid => return s.reach self (.ready senderpid false)

/-- A new process has no messages yet. -/
def enter (s : Smp) : Option Int → Smp
  | none => s
  | some pid => { s.reach pid .running with
      accepted := update s.accepted pid []
      delivered := update s.delivered pid [] }

/-- The next step of the process that runs on core `cpuid`. -/
def proceed (s : Smp) (cpuid : Core) : Except Fault Smp :=
  match s.point (s.self cpuid) with
  | .running => .ok s
  | .resched => do
    let k ← s.kernel.resched cpuid
    return { s.reach (s.self cpuid) .running with kernel := k }
  | .ready pid resch => do
    let p ← s.kernel.pcb pid
    let (_, k) ← s.kernel.ready cpuid pid resch (BitVec.ofInt 32 p.coreAffinity)
    return { s.reach (s.self cpuid) .running with kernel := k }
  | .recvResched => do
    let k ← s.kernel.resched cpuid
    return { s.reach (s.self cpuid) .recvCollect with kernel := k }
  | .recvCollect => s.collect (s.self cpuid)

/-- One step on core `cpuid`. -/
def exec (s : Smp) (cpuid : Core) : Action → Except Fault Smp
  | .create args => do
    let (pid, k) ← s.kernel.create cpuid args
    return { s.enter pid with kernel := k }
  | .ready pid resch core => do
    let (_, k) ← s.kernel.ready cpuid pid resch core
    return { s with kernel := k }
  | .kill pid => do
    let (r, k) ← s.kernel.kill cpuid pid
    match r with
    | .ok => return { s.reach pid .running with kernel := k }
    | .syserr => return { s with kernel := k }
  | .send pid msg => do
    let (after, k) ← s.kernel.sendSection (s.self cpuid) pid msg
    return { (s.accept pid msg after).reach (s.self cpuid) (.ofAfter after) with kernel := k }
  | .sendnow pid msg => do
    let (after, k) ← s.kernel.sendnowSection pid msg
    return { (s.accept pid msg after).reach (s.self cpuid) (.ofAfter after) with kernel := k }
  | .recv => do
    let (wait, k) ← s.kernel.recvCheck (s.self cpuid)
    -- With a message there, the lock is kept until the message is taken.
    if wait then return { s.reach (s.self cpuid) .recvResched with kernel := k }
    else collect { s with kernel := k } (s.self cpuid)
  | .proceed => s.proceed cpuid
  | .tick => do
    let k ← s.kernel.resched cpuid
    return { s with kernel := k }

/-- The steps that are possible on core `cpuid`. A process starts a call
only outside of one, and `create` and `ready` get what they expect.
`kill` spares processes that are blocked in `send` or `recv` and those
that have senders blocked on them. -/
def Permitted (s : Smp) (cpuid : Core) : Action → Prop
  | .create args => s.point (s.self cpuid) = .running ∧
      (args.priority.toNat : Int) ≤ PRIORITY_HIGH
  | .ready pid _ core => s.point (s.self cpuid) = .running ∧ (0 ≤ pid ∧ pid < NPROC) ∧
      s.kernel.states pid = .PRSUSP ∧ core.toNat < NCORES
  | .kill pid => s.point (s.self cpuid) = .running ∧
      (s.kernel.killRefuses cpuid pid = false → s.kernel.states pid ≠ .PRSEND ∧
        s.kernel.states pid ≠ .PRRECV ∧ s.kernel.senders pid = [])
  | .send _ _ | .sendnow _ _ | .recv => s.point (s.self cpuid) = .running
  | .proceed => s.point (s.self cpuid) ≠ .running
  | .tick => True

instance (s : Smp) (cpuid : Core) (act : Action) : Decidable (s.Permitted cpuid act) := by
  rcases act <;> dsimp only [Permitted] <;> infer_instance

/-- `sysinit` has returned and no message was sent. -/
def Booted (s : Smp) : Prop :=
  (∃ memheap maxaddr end_ mem, Kernel.sysinit memheap maxaddr end_ mem = .ok s.kernel) ∧
    (∀ p, s.point p = .running) ∧ (∀ p, s.accepted p = []) ∧ ∀ p, s.delivered p = []

/-- The states that the cores reach, whatever the order of their
steps. -/
def Reachable (s : Smp) : Prop :=
  Lib.Reaches Booted (fun s (a : Core × Action) => s.Permitted a.1 a.2)
    (fun s a => s.exec a.1 a.2) s

/-- `sysinit`, then the given steps, as far as `ok` allows them. -/
def boot (ok : Smp → Core → Action → Prop) [∀ s cpuid act, Decidable (ok s cpuid act)]
    (memheap maxaddr end_ : Ulong) (mem : Ulong → Ulong) (steps : List (Core × Action)) :
    Option Smp :=
  match Kernel.sysinit memheap maxaddr end_ mem with
  | .ok k => Lib.follow (fun s (a : Core × Action) => ok s a.1 a.2)
      (fun s a => s.exec a.1 a.2) ⟨k, fun _ => .running, fun _ => [], fun _ => []⟩ steps
  | .error _ => none

/-- A run that passes a test gives a state that does and is reached by the
steps that `ok` allows. -/
theorem exists_reachable (ok : Smp → Core → Action → Prop)
    [∀ s cpuid act, Decidable (ok s cpuid act)] (memheap maxaddr end_ : Ulong)
    (mem : Ulong → Ulong) (steps : List (Core × Action)) (test : Smp → Bool)
    (h : (boot ok memheap maxaddr end_ mem steps).any test = true) :
    ∃ s : Smp, Lib.Reaches Booted (fun s (a : Core × Action) => ok s a.1 a.2)
      (fun s a => s.exec a.1 a.2) s ∧ test s = true := by
  unfold boot at h
  split at h
  · rename_i k hk
    obtain ⟨s, hs, htest⟩ := (Option.any_eq_true _ _).mp h
    exact ⟨s, Lib.Reaches.follow ⟨_, ⟨⟨memheap, maxaddr, end_, mem, hk⟩, fun _ => rfl, fun _ => rfl,
      fun _ => rfl⟩, .refl⟩ hs, htest⟩
  · cases h

end Smp

end Xinu
