import TokioExecutorProofs.ServiceBasics
import TokioExecutorProofs.MutexTables

/-!
The memory that all clones of the blocking service share. Each atomic access
and each lock operation of the source is one function here; the watch channel
and the two notifiers are counted, since a waiter can only observe whether a
notification came after its own check.
-/

namespace TokioExecutorProofs.BlockingServiceState

open ExecutorServiceLifecycleBits
open ServiceBasics
open MutexTables

inductive Lock where
  | submission
  | abortHandles
  | taskCounts
  deriving DecidableEq, Repr

structure TokioExecutorTaskCounts where
  queued : Nat := 0
  running : Nat := 0
  deriving DecidableEq, Repr

namespace TokioExecutorTaskCounts

def acceptTask (counts : TokioExecutorTaskCounts) : TokioExecutorTaskCounts :=
  { counts with queued := counts.queued + 1 }

/-- Subtraction of natural numbers saturates as `saturating_sub` does. -/
def markStarted (counts : TokioExecutorTaskCounts) : TokioExecutorTaskCounts :=
  { queued := counts.queued - 1, running := counts.running + 1 }

def finishTask (started : Bool) (counts : TokioExecutorTaskCounts) :
    TokioExecutorTaskCounts :=
  if started then { counts with running := counts.running - 1 }
  else { counts with queued := counts.queued - 1 }

def isEmpty (counts : TokioExecutorTaskCounts) : Bool :=
  counts.queued == 0 && counts.running == 0

theorem isEmpty_iff (counts : TokioExecutorTaskCounts) :
    counts.isEmpty = true ↔ counts.queued + counts.running = 0 := by
  simp [isEmpty]

end TokioExecutorTaskCounts

structure TokioExecutorServiceState where
  lifecycle : UInt8 := 0
  taskCounts : TokioExecutorTaskCounts := {}
  taskCapacity : NonZeroUsize
  locks : MutexTable Lock Actor := fun _ => none
  /-- Version of the capacity watch channel. -/
  capacityGeneration : Nat := 0
  /-- Calls of the monitor's `notify_all` so far. -/
  notifyAllCalls : Nat := 0
  /-- Calls of `terminated_notify.notify_waiters` so far. -/
  notifyWaitersCalls : Nat := 0

namespace TokioExecutorServiceState

variable (g : TokioExecutorServiceState)

def acquire (l : Lock) (a : Actor) : Option TokioExecutorServiceState :=
  (MutexTables.acquire g.locks l a).map fun locks => { g with locks := locks }

def release (l : Lock) : TokioExecutorServiceState :=
  { g with locks := MutexTables.release g.locks l }

def isNotRunning : Bool := load g.lifecycle != .running

def shutdown : TokioExecutorServiceState :=
  { g with lifecycle := ExecutorServiceLifecycleBits.shutdown g.lifecycle }

def stop : TokioExecutorServiceState :=
  { g with lifecycle := ExecutorServiceLifecycleBits.stop g.lifecycle }

/-- The test of `try_accept_task`. -/
def isSaturated : Bool :=
  decide (g.taskCapacity.get ≤ saturatingAdd g.taskCounts.queued g.taskCounts.running)

def acceptTask : TokioExecutorServiceState :=
  { g with taskCounts := g.taskCounts.acceptTask }

def markTaskStarted : TokioExecutorServiceState :=
  { g with taskCounts := g.taskCounts.markStarted }

/-- The count update inside `finish_task`. -/
def finishTask (started : Bool) : TokioExecutorServiceState :=
  { g with taskCounts := g.taskCounts.finishTask started }

def notifyCapacityChanged : TokioExecutorServiceState :=
  { g with capacityGeneration := g.capacityGeneration + 1 }

def notifyAll : TokioExecutorServiceState :=
  { g with notifyAllCalls := g.notifyAllCalls + 1 }

def notifyWaiters : TokioExecutorServiceState :=
  { g with notifyWaitersCalls := g.notifyWaitersCalls + 1 }

/-- The predicate of `wait_termination`, `notify_if_terminated` and
`finish_task`. -/
def isTerminated : Bool := g.isNotRunning && g.taskCounts.isEmpty

/-- The value that `lifecycle()` derives from a loaded byte and counts read
later. -/
def lifecycleOf (loaded : ExecutorServiceLifecycle) (counts : TokioExecutorTaskCounts) :
    ExecutorServiceLifecycle :=
  if loaded != .running && counts.isEmpty then .terminated else loaded

variable {g}

theorem acquire_eq_some {l : Lock} {a : Actor} {g' : TokioExecutorServiceState} :
    g.acquire l a = some g' ↔
      g.locks l = none ∧ g' = { g with locks := Function.update g.locks l (some a) } := by
  simp only [acquire, Option.map_eq_some_iff, MutexTables.acquire_eq_some]
  constructor
  · rintro ⟨locks, ⟨hfree, rfl⟩, rfl⟩
    exact ⟨hfree, rfl⟩
  · rintro ⟨hfree, rfl⟩
    exact ⟨_, ⟨hfree, rfl⟩, rfl⟩

@[grind =] theorem map_acquire_eq_some {α : Type*} {l : Lock} {a : Actor}
    {f : TokioExecutorServiceState → α} {y : α} :
    (g.acquire l a).map f = some y ↔
      g.locks l = none ∧
        f { g with locks := Function.update g.locks l (some a) } = y := by
  simp only [Option.map_eq_some_iff, acquire_eq_some]
  constructor
  · rintro ⟨_, ⟨hfree, rfl⟩, rfl⟩
    exact ⟨hfree, rfl⟩
  · rintro ⟨hfree, rfl⟩
    exact ⟨_, ⟨hfree, rfl⟩, rfl⟩

theorem isNotRunning_iff : g.isNotRunning = true ↔ load g.lifecycle ≠ .running := by
  simp [isNotRunning]

theorem isTerminated_iff :
    g.isTerminated = true ↔
      load g.lifecycle ≠ .running ∧ g.taskCounts.queued + g.taskCounts.running = 0 := by
  simp only [isTerminated, Bool.and_eq_true, isNotRunning_iff,
    TokioExecutorTaskCounts.isEmpty_iff]

theorem isSaturated_eq_false
    (hbound : g.taskCounts.queued + g.taskCounts.running ≤ g.taskCapacity.get) :
    g.isSaturated = false ↔
      g.taskCounts.queued + g.taskCounts.running < g.taskCapacity.get := by
  have := g.taskCapacity.le_max
  rw [isSaturated, decide_eq_false_iff_not, saturatingAdd]
  omega

end TokioExecutorServiceState

/-! ### The shared part of `finish_task` -/

/-- Positions inside `finish_task`. The `wake` positions run the callbacks of
user wakers. -/
inductive FinishPc where
  | lock
  | update
  | unlock (terminated : Bool)
  | notifyCapacity (terminated : Bool)
  | wakeCapacity (terminated : Bool)
  | notifyAll
  | notifyWaiters
  | wakeTermination
  deriving DecidableEq, Repr

/-- One step of `finish_task(started)`; the second component is the next
position, or `none` once it returns. -/
def finishTaskStep (a : Actor) (started : Bool) (g : TokioExecutorServiceState) :
    FinishPc → Option (TokioExecutorServiceState × Option FinishPc)
  | .lock => (g.acquire .taskCounts a).map fun g' => (g', some .update)
  | .update =>
      -- Nobody sees the counts before the unlock, so the update is placed at
      -- the lifecycle load that follows it in the closure.
      some (g.finishTask started, some (.unlock (g.finishTask started).isTerminated))
  | .unlock terminated => some (g.release .taskCounts, some (.notifyCapacity terminated))
  | .notifyCapacity terminated =>
      some (g.notifyCapacityChanged, some (.wakeCapacity terminated))
  | .wakeCapacity terminated => some (g, if terminated then some .notifyAll else none)
  | .notifyAll => some (g.notifyAll, some .notifyWaiters)
  | .notifyWaiters => some (g.notifyWaiters, some .wakeTermination)
  | .wakeTermination => some (g, none)

namespace FinishPc

/-- The count update has not happened yet. -/
def isPending : FinishPc → Bool
  | .lock | .update => true
  | _ => false

/-- The capacity bump has not happened yet although the update has. -/
def owesCapacity : FinishPc → Bool
  | .unlock _ | .notifyCapacity _ => true
  | _ => false

/-- The update ended the last task of a closed service and synchronous waiters
are still to be notified. -/
def owesNotifyAll : FinishPc → Bool
  | .unlock terminated | .notifyCapacity terminated | .wakeCapacity terminated => terminated
  | .notifyAll => true
  | _ => false

/-- As `owesNotifyAll`, for asynchronous waiters. -/
def owesNotifyWaiters : FinishPc → Bool
  | .unlock terminated | .notifyCapacity terminated | .wakeCapacity terminated => terminated
  | .notifyAll | .notifyWaiters => true
  | _ => false

/-- The step at this position runs user wakers. -/
def runsUserCode : FinishPc → Bool
  | .wakeCapacity _ | .wakeTermination => true
  | _ => false

def holds : FinishPc → Lock → Bool
  | .update, .taskCounts | .unlock _, .taskCounts => true
  | _, _ => false

end FinishPc

end TokioExecutorProofs.BlockingServiceState
