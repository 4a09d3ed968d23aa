import TokioExecutorProofs.MutexTables
import TokioExecutorProofs.ServiceBasics

/-!
The memory that all clones of the IO service share. There is one count of
accepted unfinished futures, an atomic outside of any lock.
-/

namespace TokioExecutorProofs.IoServiceState

open ExecutorServiceLifecycleBits
open ServiceBasics
open MutexTables

inductive Lock where
  | submission
  | abortHandles
  deriving DecidableEq, Repr

structure TokioIoExecutorServiceState where
  lifecycle : UInt8 := 0
  activeTasks : Nat := 0
  taskCapacity : NonZeroUsize
  locks : MutexTable Lock Actor := fun _ => none
  /-- Version of the capacity watch channel. -/
  capacityGeneration : Nat := 0
  /-- Calls of `termination_notify.notify_waiters` so far. -/
  notifyWaitersCalls : Nat := 0

namespace TokioIoExecutorServiceState

variable (g : TokioIoExecutorServiceState)

def acquire (l : Lock) (a : Actor) : Option TokioIoExecutorServiceState :=
  (MutexTables.acquire g.locks l a).map fun locks => { g with locks := locks }

def release (l : Lock) : TokioIoExecutorServiceState :=
  { g with locks := MutexTables.release g.locks l }

def isNotRunning : Bool := load g.lifecycle != .running

def shutdown : TokioIoExecutorServiceState :=
  { g with lifecycle := ExecutorServiceLifecycleBits.shutdown g.lifecycle }

def stop : TokioIoExecutorServiceState :=
  { g with lifecycle := ExecutorServiceLifecycleBits.stop g.lifecycle }

/-- The capacity check of `try_accept_task`. -/
def isSaturated : Bool := decide (g.taskCapacity.get ≤ g.activeTasks)

/-- The increment of `try_accept_task`. -/
def acceptTask : TokioIoExecutorServiceState := { g with activeTasks := g.activeTasks + 1 }

/-- The decrement of the guard. -/
def finishTask : TokioIoExecutorServiceState := { g with activeTasks := g.activeTasks - 1 }

def notifyCapacityChanged : TokioIoExecutorServiceState :=
  { g with capacityGeneration := g.capacityGeneration + 1 }

def notifyWaiters : TokioIoExecutorServiceState :=
  { g with notifyWaitersCalls := g.notifyWaitersCalls + 1 }

def isTerminated : Bool := g.isNotRunning && g.activeTasks == 0

/-- The value that `lifecycle()` derives from a loaded byte and a count read
later. -/
def lifecycleOf (loaded : ExecutorServiceLifecycle) (activeTasks : Nat) :
    ExecutorServiceLifecycle :=
  if loaded != .running && activeTasks == 0 then .terminated else loaded

variable {g}

@[grind =] theorem map_acquire_eq_some {α : Type*} {l : Lock} {a : Actor}
    {f : TokioIoExecutorServiceState → α} {y : α} :
    (g.acquire l a).map f = some y ↔
      g.locks l = none ∧
        f { g with locks := Function.update g.locks l (some a) } = y := by
  simp only [acquire, Option.map_eq_some_iff, MutexTables.acquire_eq_some]
  constructor
  · rintro ⟨_, ⟨_, ⟨hfree, rfl⟩, rfl⟩, rfl⟩
    exact ⟨hfree, rfl⟩
  · rintro ⟨hfree, rfl⟩
    exact ⟨_, ⟨_, ⟨hfree, rfl⟩, rfl⟩, rfl⟩

theorem isNotRunning_iff : g.isNotRunning = true ↔ load g.lifecycle ≠ .running := by
  simp [isNotRunning]

theorem isTerminated_iff :
    g.isTerminated = true ↔ load g.lifecycle ≠ .running ∧ g.activeTasks = 0 := by
  simp [isTerminated, isNotRunning]

theorem isSaturated_eq_false : g.isSaturated = false ↔ g.activeTasks < g.taskCapacity.get := by
  simp [isSaturated]

end TokioIoExecutorServiceState

end TokioExecutorProofs.IoServiceState
