import TokioExecutorProofs.IoServiceState

/-!
One submission to the IO service: the `try_spawn` call with its hand-off, the
one-shot channel, Tokio's task, the registry entry and the guard that gives the
capacity back. A step of this module changes one task and the shared state.

The steps at `dropFuture`, `polling` and the positions that start with `wake`
run code of the user.
-/

namespace TokioExecutorProofs.IoTask

open ServiceBasics
open IoServiceState

/-- What a poll of the user future produces. Its destructor may panic, too. -/
inductive PollOutcome where
  | pending
  | ok
  | failed
  | panicked
  deriving DecidableEq, Repr

/-- The result behind a `JoinHandle`. -/
inductive TaskResult where
  | ok
  | failed
  | panicked
  | cancelled
  deriving DecidableEq, Repr

/-- The one-shot channel seen from its receiver. -/
inductive Channel where
  | empty
  | full
  | closed
  deriving DecidableEq, Repr

/-- `TokioIoServiceTaskGuard::drop`. -/
inductive GuardPc where
  | finishMarker
  | lock
  | remove
  | unlock
  | dec
  | notifyCapacity
  | wakeCapacity
  | notifyWaiters
  | wakeTermination
  deriving DecidableEq, Repr

/-- A `try_spawn` call: `prepare_spawn` up to the unlock, then `deliver`. A
hand-off that is dropped undelivered takes the positions from `abandonFuture`. -/
inductive SubmitterPc where
  | lockSubmission
  | checkRunning
  | getActive
  | inc
  | rejectUnlock (reason : SubmissionError)
  | rejected (reason : SubmissionError)
  | spawn
  | registerLock
  | register
  | registerUnlock
  | unlockSubmission
  | send
  | dropFuture
  | dropGuard (d : GuardPc)
  | returned
  | abandonFuture
  | abandonSender
  | abandonGuard (d : GuardPc)
  | abandoned
  deriving DecidableEq, Repr

/-- Tokio's task. `idle` lies between two polls, before or after the task has
received its payload. -/
inductive WorkerPc where
  | absent
  | idle (received : Bool)
  | recv
  | polling
  | dropReceiver
  | dropFuture
  | dropGuard (d : GuardPc)
  | complete
  | finished
  deriving DecidableEq, Repr

/-- Where the `TrackedAbortHandle` of a task is. -/
inductive EntryPc where
  | absent
  | registered
  /-- In the local `handles` of the stop call `k`. -/
  | taken (k : Nat)
  /-- The stop call `k` has found the task unfinished. -/
  | aborting (k : Nat)
  | gone
  deriving DecidableEq, Repr

/-- `TokioTaskHandle::cancel`. -/
inductive CancelPc where
  | isFinished
  | abort
  | returned (cancelled : Bool)
  deriving DecidableEq, Repr

structure Task where
  submitter : SubmitterPc := .lockSubmission
  worker : WorkerPc := .absent
  cancels : List CancelPc := []
  /-- `TokioTaskRegistration::finished`. -/
  markerFinished : Bool := false
  entry : EntryPc := .absent
  channel : Channel := .empty
  /-- Tokio's cancelled bit. -/
  aborted : Bool := false
  /-- The output that Tokio stores when the task completes. -/
  output : TaskResult := .cancelled
  -- History: written by the steps below and read by no step.
  /-- The user future has been dropped completely. -/
  futureDropped : Bool := false
  /-- Decrements of `active_tasks` by the guard of this task. -/
  decrements : Nat := 0
  /-- The stop calls whose report counts the task. -/
  countedBy : List Nat := []
  deriving Repr

/-! ### `TokioIoServiceTaskGuard::drop` -/

/-- One step of dropping the guard; the last component is the next position, or
`none` once it is dropped. -/
def guardStep (a : Actor) (g : TokioIoExecutorServiceState) (τ : Task) :
    GuardPc → Option (TokioIoExecutorServiceState × Task × Option GuardPc)
  | .finishMarker => some (g, { τ with markerFinished := true }, some .lock)
  | .lock => (g.acquire .abortHandles a).map fun g' => (g', τ, some .remove)
  | .remove =>
      let entry := if τ.entry = .registered then .gone else τ.entry
      some (g, { τ with entry := entry }, some .unlock)
  | .unlock => some (g.release .abortHandles, τ, some .dec)
  | .dec => some (g.finishTask, { τ with decrements := τ.decrements + 1 }, some .notifyCapacity)
  | .notifyCapacity => some (g.notifyCapacityChanged, τ, some .wakeCapacity)
  | .wakeCapacity => some (g, τ, some .notifyWaiters)
  | .notifyWaiters => some (g.notifyWaiters, τ, some .wakeTermination)
  | .wakeTermination => some (g, τ, none)

/-! ### A `try_spawn` call -/

/-- One step of a `try_spawn` call for task `t`. `runtimeClosed` tells whether
`spawn` finds the runtime shut down and drops the receiver at once. -/
def submitterStep (t : TaskId) (runtimeClosed : Bool) (g : TokioIoExecutorServiceState)
    (τ : Task) : Option (TokioIoExecutorServiceState × Task) :=
  match τ.submitter with
  | .lockSubmission =>
      (g.acquire .submission (.submitter t)).map fun g' =>
        (g', { τ with submitter := .checkRunning })
  | .checkRunning =>
      let pc := if g.isNotRunning then .rejectUnlock .shutdown else .getActive
      some (g, { τ with submitter := pc })
  | .getActive =>
      let pc := if g.isSaturated then .rejectUnlock .saturated else .inc
      some (g, { τ with submitter := pc })
  | .inc => some (g.acceptTask, { τ with submitter := .spawn })
  | .rejectUnlock reason =>
      some (g.release .submission, { τ with submitter := .rejected reason })
  | .rejected _ => none
  | .spawn =>
      if runtimeClosed then
        some (g, { τ with submitter := .registerLock, worker := .finished, channel := .closed })
      else some (g, { τ with submitter := .registerLock, worker := .idle false })
  | .registerLock =>
      (g.acquire .abortHandles (.submitter t)).map fun g' =>
        (g', { τ with submitter := .register })
  | .register =>
      let entry := if !τ.markerFinished && τ.worker != .finished then .registered else .gone
      some (g, { τ with submitter := .registerUnlock, entry := entry })
  | .registerUnlock =>
      some (g.release .abortHandles, { τ with submitter := .unlockSubmission })
  | .unlockSubmission => some (g.release .submission, { τ with submitter := .send })
  | .send =>
      match τ.channel with
      | .empty => some (g, { τ with submitter := .returned, channel := .full })
      | .full => none
      | .closed => some (g, { τ with submitter := .dropFuture })
  | .dropFuture =>
      some (g, { τ with submitter := .dropGuard .finishMarker, futureDropped := true })
  | .dropGuard d =>
      (guardStep (.submitter t) g τ d).map fun (g', τ', next) =>
        let pc := match next with | some d' => .dropGuard d' | none => .returned
        (g', { τ' with submitter := pc })
  | .returned => none
  | .abandonFuture =>
      some (g, { τ with submitter := .abandonSender, futureDropped := true })
  | .abandonSender =>
      some (g, { τ with submitter := .abandonGuard .finishMarker, channel := .closed })
  | .abandonGuard d =>
      (guardStep (.submitter t) g τ d).map fun (g', τ', next) =>
        let pc := match next with | some d' => .abandonGuard d' | none => .abandoned
        (g', { τ' with submitter := pc })
  | .abandoned => none

/-- A registered hand-off is dropped instead of being delivered. -/
def abandonStep (τ : Task) : Option Task :=
  if τ.submitter = .send then some { τ with submitter := .abandonFuture } else none

/-! ### Tokio's task -/

/-- Tokio drops the future of the task: the receiver, or the payload if the task
has received it. -/
def WorkerPc.cancelled (received : Bool) : WorkerPc :=
  if received then .dropFuture else .dropReceiver

/-- A runtime thread takes up the task. It cancels an aborted task instead of
polling it. -/
def pickUpStep (τ : Task) : Option Task :=
  match τ.worker with
  | .idle received =>
      let pc := if τ.aborted then .cancelled received
        else if received then .polling else .recv
      some { τ with worker := pc }
  | _ => none

/-- A runtime that shuts down cancels a task between two polls. -/
def destroyStep (τ : Task) : Option Task :=
  match τ.worker with
  | .idle received => some { τ with worker := .cancelled received }
  | _ => none

/-- One step of the thread that runs Tokio's task. `outcome` is what the user
future produces if its poll or its destructor returns now. -/
def workerStep (t : TaskId) (outcome : PollOutcome) (g : TokioIoExecutorServiceState)
    (τ : Task) : Option (TokioIoExecutorServiceState × Task) :=
  match τ.worker with
  | .absent | .idle _ | .finished => none
  | .recv =>
      match τ.channel with
      | .full => some (g, { τ with worker := .polling, channel := .closed })
      | .empty => some (g, { τ with worker := .idle false })
      | .closed => some (g, { τ with worker := .complete })
  | .polling =>
      -- A finished or panicked await drops the payload inside the same poll.
      match outcome with
      | .pending => some (g, { τ with worker := .idle true })
      | .ok => some (g, { τ with worker := .dropFuture, output := .ok })
      | .failed => some (g, { τ with worker := .dropFuture, output := .failed })
      | .panicked => some (g, { τ with worker := .dropFuture, output := .panicked })
  | .dropReceiver =>
      -- A payload that was sent and not received dies with the receiver.
      let pc := if τ.channel = .full then .dropFuture else .complete
      some (g, { τ with worker := pc, channel := .closed })
  | .dropFuture =>
      -- Tokio catches the panic of a destructor; it takes the place of the result.
      let output := if outcome = .panicked then .panicked else τ.output
      some (g, { τ with
        worker := .dropGuard .finishMarker, futureDropped := true, output := output })
  | .dropGuard d =>
      (guardStep (.worker t) g τ d).map fun (g', τ', next) =>
        let pc := match next with | some d' => .dropGuard d' | none => .complete
        (g', { τ' with worker := pc })
  | .complete => some (g, { τ with worker := .finished })

/-! ### The registry entry in the hands of a stop call -/

/-- `std::mem::take` of the registry by the stop call `k`. -/
def takeEntry (k : Nat) (τ : Task) : Task :=
  if τ.entry = .registered then { τ with entry := .taken k } else τ

/-! ### The handle -/

/-- `TokioTaskHandle::is_done`. -/
def isDone (τ : Task) : Bool := τ.worker == .finished

/-- `TokioTaskHandle::poll`: the result of the task once it has finished. -/
def pollHandle (τ : Task) : Option TaskResult :=
  if τ.worker = .finished then some τ.output else none

/-- One step of a `cancel()` call. -/
def cancelStep (τ : Task) : CancelPc → Option (Task × CancelPc)
  | .isFinished => some (τ, if τ.worker = .finished then .returned false else .abort)
  | .abort => some ({ τ with aborted := true }, .returned true)
  | .returned _ => none

/-- One step of the `j`th `cancel()` call. -/
def cancellerStep (j : Nat) (τ : Task) : Option Task :=
  match τ.cancels[j]? with
  | none => none
  | some c => (cancelStep τ c).map fun (τ', c') => { τ' with cancels := τ'.cancels.set j c' }

end TokioExecutorProofs.IoTask
