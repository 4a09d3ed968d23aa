import TokioExecutorProofs.BlockingServiceState

/-!
One submission to the blocking service, with everything that belongs to the
accepted task: the tracker, the registration marker, the registry entry with
its cancellation hook, the one-shot channel, Tokio's task and the shared task
slot. A step of this module changes one task and the shared state.

A position whose name starts with `wake`, and `dropTask` and `executing`, is
a place where the step runs code of the user.
-/

namespace TokioExecutorProofs.BlockingTask

open ServiceBasics
open BlockingServiceState

inductive TaskKind where
  | runnable
  | callable
  | trackedCallable
  deriving DecidableEq, Repr

/-- `TASK_STATE_QUEUED`, `TASK_STATE_RUNNING` and `TASK_STATE_FINISHED`. -/
inductive TrackerState where
  | queued
  | running
  | finished
  deriving DecidableEq, Repr

/-- What an invoked callable produces. -/
inductive RunOutcome where
  | ok
  | failed
  | panicked
  deriving DecidableEq, Repr

/-- The one-shot task state behind a result handle. -/
inductive TaskStatus where
  | pending
  | running
  | completed (outcome : RunOutcome)
  | cancelled
  | dropped
  deriving DecidableEq, Repr

namespace TaskStatus

def isTerminal : TaskStatus → Bool
  | pending | running => false
  | completed _ | cancelled | dropped => true

end TaskStatus

/-- The one-shot channel seen from its receiver. -/
inductive Channel where
  | empty
  | full
  | closed
  deriving DecidableEq, Repr

/-- `remove_abort_handle`. The removed entry is a temporary of the expression
statement, so it is dropped before the guard of the registry lock. -/
inductive RemovePc where
  | finishMarker
  | lock
  | remove
  | dropEntry
  | wakeDropped
  | unlock
  deriving DecidableEq, Repr

/-- Dropping the user closure of a payload: its reference to the
`TaskSlotCell`, then the user task. -/
inductive ClosurePc where
  | dropSlotRef
  | wakeDropped
  | dropTask
  deriving DecidableEq, Repr

/-- `TokioServiceTaskGuard::drop`. -/
inductive GuardPc where
  | remove (r : RemovePc)
  | swap
  | finish (started : Bool) (f : FinishPc)
  deriving DecidableEq, Repr

/-- A `try_submit*` call. -/
inductive SubmitterPc where
  | lockSubmission
  | checkRunning
  | acceptLock
  | accept
  | acceptUnlock (accepted : Bool)
  | rejectUnlock (reason : SubmissionError)
  | rejected (reason : SubmissionError)
  | shareSlot
  | spawn
  | registerLock
  | register
  | registerUnlock (inserted : Bool)
  | dropHook
  | wakeDropped
  | unlockSubmission
  | send
  | dropClosure (c : ClosurePc)
  | dropGuard (d : GuardPc)
  | returned
  deriving DecidableEq, Repr

/-- Tokio's blocking task: in the queue of the pool, executed by a pool thread,
or destroyed unrun. -/
inductive WorkerPc where
  | absent
  | queued
  | recv
  | markStarted
  | startLock
  | start
  | startUnlock
  | takeSlot
  | startSlot
  | invoke
  | executing
  | publish (outcome : RunOutcome)
  | wakePublished
  | ranClosure (c : ClosurePc)
  | ranGuard (d : GuardPc)
  | refusedGuard (d : GuardPc)
  | refusedClosure (c : ClosurePc)
  | dropReceiver
  | destroyClosure (c : ClosurePc)
  | destroyGuard (d : GuardPc)
  | complete
  | finished
  deriving DecidableEq, Repr

/-- One entry in the loop of `abort_tracked_tasks`. -/
inductive SweepPc where
  | isFinished
  | abort
  | finishQueued
  | finish (f : FinishPc)
  | cancelUnstarted
  | wakeCancelled
  | dropHook (counted : Bool)
  | wakeDropped (counted : Bool)
  | next (counted : Bool)
  deriving DecidableEq, Repr

/-- Where the `TrackedAbortHandle` of a task is. -/
inductive EntryPc where
  | absent
  | registered
  /-- In the local `handles` of the stop call `k`. -/
  | taken (k : Nat)
  | sweeping (k : Nat) (h : SweepPc)
  /-- Removed from the map and not dropped yet. -/
  | removed
  | gone
  deriving DecidableEq, Repr

/-- A `cancel()` call through the handle or a cancellation handle. -/
inductive CancelPc where
  | cancel
  | wakeCancelled
  | remove (r : RemovePc)
  | finishQueued
  | finish (f : FinishPc)
  | abort
  | returned (cancelled : Bool)
  deriving DecidableEq, Repr

structure Task where
  kind : TaskKind
  submitter : SubmitterPc := .lockSubmission
  worker : WorkerPc := .absent
  cancels : List CancelPc := []
  /-- `TokioServiceTaskTracker::task_state`. -/
  taskState : TrackerState := .queued
  /-- `TokioTaskRegistration::finished`. -/
  markerFinished : Bool := false
  entry : EntryPc := .absent
  channel : Channel := .empty
  /-- Tokio's cancelled bit. -/
  aborted : Bool := false
  /-- The slot is still in the `TaskSlotCell`. -/
  slotInCell : Bool := false
  status : TaskStatus := .pending
  -- History: written by the steps below and read by no step.
  /-- The tracker has been moved to running. -/
  everRunning : Bool := false
  /-- Applications of `mark_task_started`. -/
  starts : Nat := 0
  /-- Applications of `finish_task`, with their argument. -/
  finishes : List Bool := []
  /-- Invocations of the user callable. -/
  invocations : Nat := 0
  /-- What the invoked callable returned. -/
  returned : Option RunOutcome := none
  /-- The stop calls whose report counts the task. -/
  countedBy : List Nat := []
  deriving Repr

/-! ### References to the shared task slot

The payload closure and the cancellation hook own one reference to the
`TaskSlotCell` each. Who owns it is read off the positions: the variable that
holds the closure or the hook is alive exactly there.
-/

def ClosurePc.ownsSlotRef : ClosurePc → Bool
  | .dropSlotRef => true
  | .wakeDropped | .dropTask => false

def SubmitterPc.ownsClosure : SubmitterPc → Bool
  | .spawn | .registerLock | .register | .registerUnlock _ | .dropHook | .wakeDropped
  | .unlockSubmission | .send => true
  | .dropClosure c => c.ownsSlotRef
  | .lockSubmission | .checkRunning | .acceptLock | .accept | .acceptUnlock _
  | .rejectUnlock _ | .rejected _ | .shareSlot | .dropGuard _ | .returned => false

def WorkerPc.ownsClosure : WorkerPc → Bool
  | .markStarted | .startLock | .start | .startUnlock | .takeSlot | .startSlot | .invoke
  | .executing | .publish _ | .wakePublished | .refusedGuard _ => true
  | .ranClosure c | .refusedClosure c | .destroyClosure c => c.ownsSlotRef
  | .absent | .queued | .recv | .ranGuard _ | .dropReceiver | .destroyGuard _ | .complete
  | .finished => false

def SubmitterPc.ownsHook : SubmitterPc → Bool
  | .spawn | .registerLock | .register | .registerUnlock false | .dropHook => true
  | .lockSubmission | .checkRunning | .acceptLock | .accept | .acceptUnlock _
  | .rejectUnlock _ | .rejected _ | .shareSlot | .registerUnlock true | .wakeDropped
  | .unlockSubmission | .send | .dropClosure _ | .dropGuard _ | .returned => false

def SweepPc.ownsHook : SweepPc → Bool
  | .isFinished | .abort | .finishQueued | .finish _ | .cancelUnstarted | .wakeCancelled
  | .dropHook _ => true
  | .wakeDropped _ | .next _ => false

def EntryPc.ownsHook : EntryPc → Bool
  | .registered | .taken _ | .removed => true
  | .sweeping _ h => h.ownsHook
  | .absent | .gone => false

namespace Task

variable (τ : Task)

def hasSlot : Bool := τ.kind != .runnable

def payloadSlotRef : Bool :=
  τ.submitter.ownsClosure || τ.channel == .full || τ.worker.ownsClosure

def hookSlotRef : Bool := τ.submitter.ownsHook || τ.entry.ownsHook

/-- Drop a reference to the `TaskSlotCell` while `others` tells whether the
other one is alive. The last drop destroys the cell, and an unresolved slot in
it publishes `Dropped`; the second component tells that the result waiter is
then woken. -/
def dropSlotRef (others : Bool) : Task × Bool :=
  if others then (τ, false)
  else if τ.slotInCell && τ.status == .pending then
    ({ τ with slotInCell := false, status := .dropped }, true)
  else ({ τ with slotInCell := false }, false)

/-- `TaskSlotCell::cancel_unstarted`: it takes a slot that is still in the cell
and resolves it unless the user has cancelled it already. -/
def cancelUnstarted : Task :=
  if τ.slotInCell then
    { τ with slotInCell := false
             status := if τ.status = .pending then .cancelled else τ.status }
  else τ

/-- The compare-exchange of `finish_queued`. -/
def finishQueued : Task × Bool :=
  if τ.taskState = .queued then ({ τ with taskState := .finished }, true)
  else (τ, false)

/-- Record the application of `finish_task` at the update. -/
def recordFinish (started : Bool) (f : FinishPc) : Task :=
  if f = .update then { τ with finishes := τ.finishes ++ [started] } else τ

variable {τ}

@[simp] theorem recordFinish_taskState {started : Bool} {f : FinishPc} :
    (τ.recordFinish started f).taskState = τ.taskState := by
  unfold recordFinish
  split <;> rfl

@[simp] theorem recordFinish_finishes {started : Bool} {f : FinishPc} :
    (τ.recordFinish started f).finishes =
      if f = .update then τ.finishes ++ [started] else τ.finishes := by
  unfold recordFinish
  split <;> rfl

@[simp] theorem cancelUnstarted_taskState : τ.cancelUnstarted.taskState = τ.taskState := by
  unfold cancelUnstarted
  split <;> rfl

@[simp] theorem cancelUnstarted_finishes : τ.cancelUnstarted.finishes = τ.finishes := by
  unfold cancelUnstarted
  split <;> rfl

end Task

/-! ### Subroutines -/

/-- One step of `remove_abort_handle`; the last component is the next position,
or `none` once it returns. -/
def removeAbortHandleStep (a : Actor) (g : TokioExecutorServiceState) (τ : Task) :
    RemovePc → Option (TokioExecutorServiceState × Task × Option RemovePc)
  | .finishMarker => some (g, { τ with markerFinished := true }, some .lock)
  | .lock => (g.acquire .abortHandles a).map fun g' => (g', τ, some .remove)
  | .remove =>
      if τ.entry = .registered then some (g, { τ with entry := .removed }, some .dropEntry)
      else some (g, τ, some .unlock)
  | .dropEntry =>
      let (τ', woken) := τ.dropSlotRef τ.payloadSlotRef
      some (g, { τ' with entry := .gone }, some (if woken then .wakeDropped else .unlock))
  | .wakeDropped => some (g, τ, some .unlock)
  | .unlock => some (g.release .abortHandles, τ, none)

/-- One step of dropping the closure of a payload. -/
def closureStep (τ : Task) : ClosurePc → Task × Option ClosurePc
  | .dropSlotRef =>
      let (τ', woken) := τ.dropSlotRef τ.hookSlotRef
      (τ', some (if woken then .wakeDropped else .dropTask))
  | .wakeDropped => (τ, some .dropTask)
  | .dropTask => (τ, none)

/-- One step of `TokioServiceTaskGuard::drop`. -/
def guardStep (a : Actor) (g : TokioExecutorServiceState) (τ : Task) :
    GuardPc → Option (TokioExecutorServiceState × Task × Option GuardPc)
  | .remove r =>
      (removeAbortHandleStep a g τ r).map fun (g', τ', next) =>
        (g', τ', match next with | some r' => some (.remove r') | none => some .swap)
  | .swap =>
      match τ.taskState with
      | .queued => some (g, { τ with taskState := .finished }, some (.finish false .lock))
      | .running => some (g, { τ with taskState := .finished }, some (.finish true .lock))
      | .finished => some (g, τ, none)
  | .finish started f =>
      (finishTaskStep a started g f).map fun (g', next) =>
        (g', τ.recordFinish started f, next.map (.finish started))

/-! ### A `try_submit*` call -/

/-- One step of a `try_submit*` call for task `t`. `runtimeClosed` tells whether
`spawn_blocking` finds the runtime shut down and drops the closure at once. -/
def submitterStep (t : TaskId) (runtimeClosed : Bool) (g : TokioExecutorServiceState)
    (τ : Task) : Option (TokioExecutorServiceState × Task) :=
  match τ.submitter with
  | .lockSubmission =>
      (g.acquire .submission (.submitter t)).map fun g' =>
        (g', { τ with submitter := .checkRunning })
  | .checkRunning =>
      let pc := if g.isNotRunning then .rejectUnlock .shutdown else .acceptLock
      some (g, { τ with submitter := pc })
  | .acceptLock =>
      (g.acquire .taskCounts (.submitter t)).map fun g' => (g', { τ with submitter := .accept })
  | .accept =>
      if g.isSaturated then some (g, { τ with submitter := .acceptUnlock false })
      else some (g.acceptTask, { τ with submitter := .acceptUnlock true })
  | .acceptUnlock accepted =>
      let pc := if accepted then .shareSlot else .rejectUnlock .saturated
      some (g.release .taskCounts, { τ with submitter := pc })
  | .rejectUnlock reason =>
      some (g.release .submission, { τ with submitter := .rejected reason })
  | .rejected _ => none
  | .shareSlot =>
      -- `TaskEndpointPair::new` and `share_task_slot`; a runnable has no slot.
      some (g, { τ with submitter := .spawn, slotInCell := τ.hasSlot })
  | .spawn =>
      if runtimeClosed then
        some (g, { τ with submitter := .registerLock, worker := .finished, channel := .closed })
      else some (g, { τ with submitter := .registerLock, worker := .queued })
  | .registerLock =>
      (g.acquire .abortHandles (.submitter t)).map fun g' =>
        (g', { τ with submitter := .register })
  | .register =>
      if !τ.markerFinished && τ.worker != .finished then
        some (g, { τ with submitter := .registerUnlock true, entry := .registered })
      else some (g, { τ with submitter := .registerUnlock false })
  | .registerUnlock inserted =>
      let pc := if inserted then .unlockSubmission else .dropHook
      some (g.release .abortHandles, { τ with submitter := pc })
  | .dropHook =>
      -- The hook of an entry that was not inserted dies at the end of
      -- `register_abort_handle`, still inside the admission section.
      let (τ', woken) := τ.dropSlotRef τ.payloadSlotRef
      let pc := if woken then .wakeDropped else .unlockSubmission
      some (g, { τ' with entry := .gone, submitter := pc })
  | .wakeDropped => some (g, { τ with submitter := .unlockSubmission })
  | .unlockSubmission => some (g.release .submission, { τ with submitter := .send })
  | .send =>
      match τ.channel with
      | .empty => some (g, { τ with submitter := .returned, channel := .full })
      | .full => none
      | .closed => some (g, { τ with submitter := .dropClosure .dropSlotRef })
  | .dropClosure c =>
      let (τ', next) := closureStep τ c
      let pc := match next with
        | some c' => .dropClosure c'
        | none => .dropGuard (.remove .finishMarker)
      some (g, { τ' with submitter := pc })
  | .dropGuard d =>
      (guardStep (.submitter t) g τ d).map fun (g', τ', next) =>
        let pc := match next with | some d' => .dropGuard d' | none => .returned
        (g', { τ' with submitter := pc })
  | .returned => none

/-! ### Tokio's blocking task -/

/-- A pool thread takes the task from the queue. Tokio drops the closure of an
aborted task instead of running it. -/
def pickUpStep (τ : Task) : Option Task :=
  if τ.worker = .queued then
    some { τ with worker := if τ.aborted then .dropReceiver else .recv }
  else none

/-- A runtime that shuts down destroys a queued closure. -/
def destroyStep (τ : Task) : Option Task :=
  if τ.worker = .queued then some { τ with worker := .dropReceiver } else none

/-- The closure runs the user task after `mark_started` has returned true. -/
def Task.enterTask (τ : Task) : WorkerPc := if τ.hasSlot then .takeSlot else .invoke

/-- One step of the thread that executes or destroys the spawned closure of task
`t`. `outcome` is what the user callable produces if it returns now. -/
def workerStep (t : TaskId) (outcome : RunOutcome) (g : TokioExecutorServiceState)
    (τ : Task) : Option (TokioExecutorServiceState × Task) :=
  match τ.worker with
  | .absent | .queued | .finished => none
  | .recv =>
      match τ.channel with
      | .full => some (g, { τ with worker := .markStarted, channel := .closed })
      | .empty | .closed => none
  | .markStarted =>
      match τ.taskState with
      | .queued =>
          some (g, { τ with worker := .startLock, taskState := .running, everRunning := true })
      | .running => some (g, { τ with worker := τ.enterTask })
      | .finished =>
          -- The bindings of the pattern die in reverse order: the guard first.
          some (g, { τ with worker := .refusedGuard (.remove .finishMarker) })
  | .startLock =>
      (g.acquire .taskCounts (.worker t)).map fun g' => (g', { τ with worker := .start })
  | .start =>
      some (g.markTaskStarted, { τ with worker := .startUnlock, starts := τ.starts + 1 })
  | .startUnlock => some (g.release .taskCounts, { τ with worker := τ.enterTask })
  | .takeSlot =>
      if τ.slotInCell then some (g, { τ with worker := .startSlot, slotInCell := false })
      else some (g, { τ with worker := .ranClosure .dropSlotRef })
  | .startSlot =>
      if τ.status = .pending then some (g, { τ with worker := .invoke, status := .running })
      else some (g, { τ with worker := .ranClosure .dropSlotRef })
  | .invoke => some (g, { τ with worker := .executing, invocations := τ.invocations + 1 })
  | .executing =>
      let pc := if τ.hasSlot then .publish outcome else .ranClosure .dropSlotRef
      some (g, { τ with worker := pc, returned := some outcome })
  | .publish result => some (g, { τ with worker := .wakePublished, status := .completed result })
  | .wakePublished => some (g, { τ with worker := .ranClosure .dropSlotRef })
  | .ranClosure c =>
      let (τ', next) := closureStep τ c
      let pc := match next with
        | some c' => .ranClosure c'
        | none => .ranGuard (.remove .finishMarker)
      some (g, { τ' with worker := pc })
  | .ranGuard d =>
      (guardStep (.worker t) g τ d).map fun (g', τ', next) =>
        let pc := match next with | some d' => .ranGuard d' | none => .complete
        (g', { τ' with worker := pc })
  | .refusedGuard d =>
      (guardStep (.worker t) g τ d).map fun (g', τ', next) =>
        let pc := match next with
          | some d' => .refusedGuard d'
          | none => .refusedClosure .dropSlotRef
        (g', { τ' with worker := pc })
  | .refusedClosure c =>
      let (τ', next) := closureStep τ c
      let pc := match next with | some c' => .refusedClosure c' | none => .complete
      some (g, { τ' with worker := pc })
  | .dropReceiver =>
      -- A payload that was sent and not received dies with the receiver.
      let pc := if τ.channel = .full then .destroyClosure .dropSlotRef else .complete
      some (g, { τ with worker := pc, channel := .closed })
  | .destroyClosure c =>
      let (τ', next) := closureStep τ c
      let pc := match next with
        | some c' => .destroyClosure c'
        | none => .destroyGuard (.remove .finishMarker)
      some (g, { τ' with worker := pc })
  | .destroyGuard d =>
      (guardStep (.worker t) g τ d).map fun (g', τ', next) =>
        let pc := match next with | some d' => .destroyGuard d' | none => .complete
        (g', { τ' with worker := pc })
  | .complete => some (g, { τ with worker := .finished })

/-! ### The registry entry in the hands of a stop call -/

/-- `std::mem::take` of the registry by the stop call `k`. -/
def takeEntry (k : Nat) (τ : Task) : Task :=
  if τ.entry = .registered then { τ with entry := .taken k } else τ

/-- One step of the stop call `k` on the entry that it is sweeping. -/
def sweepStep (k : Nat) (g : TokioExecutorServiceState) (τ : Task) :
    SweepPc → Option (TokioExecutorServiceState × Task × SweepPc)
  | .isFinished => some (g, τ, if τ.worker = .finished then .dropHook false else .abort)
  | .abort => some (g, { τ with aborted := true }, .finishQueued)
  | .finishQueued =>
      let (τ', won) := τ.finishQueued
      some (g, τ', if won then .finish .lock else .dropHook false)
  | .finish f =>
      (finishTaskStep (.closer k) false g f).map fun (g', next) =>
        (g', τ.recordFinish false f, match next with
          | some f' => .finish f'
          | none => if τ.hasSlot then .cancelUnstarted else .dropHook true)
  | .cancelUnstarted =>
      some (g, τ.cancelUnstarted,
        if τ.slotInCell && τ.status == .pending then .wakeCancelled else .dropHook true)
  | .wakeCancelled => some (g, τ, .dropHook true)
  | .dropHook counted =>
      let (τ', woken) := τ.dropSlotRef τ.payloadSlotRef
      some (g, τ', if woken then .wakeDropped counted else .next counted)
  | .wakeDropped counted => some (g, τ, .next counted)
  | .next _ => none

/-! ### Cancellation by the user -/

/-- One step of a `cancel()` call at a position, by the actor `a`. -/
def cancelStep (a : Actor) (g : TokioExecutorServiceState) (τ : Task) :
    CancelPc → Option (TokioExecutorServiceState × Task × CancelPc)
  | .cancel =>
      if τ.status = .pending then some (g, { τ with status := .cancelled }, .wakeCancelled)
      else some (g, τ, .returned false)
  | .wakeCancelled => some (g, τ, .remove .finishMarker)
  | .remove r =>
      (removeAbortHandleStep a g τ r).map fun (g', τ', next) =>
        (g', τ', match next with | some r' => .remove r' | none => .finishQueued)
  | .finishQueued =>
      let (τ', won) := τ.finishQueued
      some (g, τ', if won then .finish .lock else .abort)
  | .finish f =>
      (finishTaskStep a false g f).map fun (g', next) =>
        (g', τ.recordFinish false f, match next with | some f' => .finish f' | none => .abort)
  | .abort => some (g, { τ with aborted := true }, .returned true)
  | .returned _ => none

/-- One step of the `j`th `cancel()` call for task `t`. -/
def cancellerStep (t : TaskId) (j : Nat) (g : TokioExecutorServiceState) (τ : Task) :
    Option (TokioExecutorServiceState × Task) :=
  match τ.cancels[j]? with
  | none => none
  | some c =>
      (cancelStep (.canceller t j) g τ c).map fun (g', τ', c') =>
        (g', { τ' with cancels := τ'.cancels.set j c' })

end TokioExecutorProofs.BlockingTask
