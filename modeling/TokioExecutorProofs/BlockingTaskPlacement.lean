import TokioExecutorProofs.BlockingService

namespace TokioExecutorProofs.BlockingTaskPlacement

open ServiceBasics
open BlockingServiceState
open BlockingServiceState.TokioExecutorServiceState
open BlockingTask
open BlockingService
open ProcessFamilies

/-! ### What the subroutines leave alone -/

theorem dropSlotRef_frame (τ : Task) (others : Bool) :
    ∃ inCell status, (τ.dropSlotRef others).1 =
      { τ with slotInCell := inCell, status := status } := by
  unfold Task.dropSlotRef
  split
  · exact ⟨_, _, rfl⟩
  · split <;> exact ⟨_, _, rfl⟩

theorem removeAbortHandleStep_frame {a : Actor} {g g' : TokioExecutorServiceState}
    {τ τ' : Task} {r : RemovePc} {next : Option RemovePc}
    (h : removeAbortHandleStep a g τ r = some (g', τ', next)) :
    ∃ marker entry inCell status, τ' =
      { τ with markerFinished := marker, entry := entry, slotInCell := inCell,
               status := status } := by
  cases r <;> simp only [removeAbortHandleStep] at h
  case dropEntry =>
    obtain ⟨inCell, status, heq⟩ := dropSlotRef_frame τ τ.payloadSlotRef
    simp only [Option.some.injEq, Prod.mk.injEq, heq] at h
    exact ⟨_, _, _, _, h.2.1.symm⟩
  case remove =>
    split at h <;> simp only [Option.some.injEq, Prod.mk.injEq] at h <;>
      exact ⟨_, _, _, _, h.2.1.symm⟩
  case lock =>
    simp only [Option.map_eq_some_iff, Prod.mk.injEq] at h
    obtain ⟨_, _, _, h, _⟩ := h
    exact ⟨_, _, _, _, h.symm⟩
  all_goals
    simp only [Option.some.injEq, Prod.mk.injEq] at h
    exact ⟨_, _, _, _, h.2.1.symm⟩

theorem closureStep_frame {τ τ' : Task} {c : ClosurePc} {next : Option ClosurePc}
    (h : closureStep τ c = (τ', next)) :
    ∃ inCell status, τ' = { τ with slotInCell := inCell, status := status } := by
  cases c <;> simp only [closureStep, Prod.mk.injEq] at h
  case dropSlotRef =>
    obtain ⟨inCell, status, heq⟩ := dropSlotRef_frame τ τ.hookSlotRef
    rw [heq] at h
    exact ⟨_, _, h.1.symm⟩
  all_goals exact ⟨_, _, h.1.symm⟩

theorem guardStep_frame {a : Actor} {g g' : TokioExecutorServiceState} {τ τ' : Task}
    {d : GuardPc} {next : Option GuardPc}
    (h : guardStep a g τ d = some (g', τ', next)) :
    ∃ marker entry inCell status state finishes, τ' =
      { τ with markerFinished := marker, entry := entry, slotInCell := inCell,
               status := status, taskState := state, finishes := finishes } := by
  cases d <;> simp only [guardStep] at h
  case remove r =>
    simp only [Option.map_eq_some_iff, Prod.mk.injEq, Prod.exists] at h
    obtain ⟨_, _, _, hstep, _, rfl, _⟩ := h
    obtain ⟨marker, entry, inCell, status, rfl⟩ := removeAbortHandleStep_frame hstep
    exact ⟨marker, entry, inCell, status, _, _, rfl⟩
  case swap =>
    split at h <;> simp only [Option.some.injEq, Prod.mk.injEq] at h <;>
      exact ⟨_, _, _, _, _, _, h.2.1.symm⟩
  case finish =>
    simp only [Option.map_eq_some_iff, Prod.mk.injEq, Prod.exists, Task.recordFinish] at h
    obtain ⟨_, _, _, _, h, _⟩ := h
    split at h <;> exact ⟨_, _, _, _, _, _, h.symm⟩

theorem cancelStep_frame {a : Actor} {g g' : TokioExecutorServiceState} {τ τ' : Task}
    {c c' : CancelPc} (h : cancelStep a g τ c = some (g', τ', c')) :
    ∃ marker entry inCell status state finishes aborted, τ' =
      { τ with markerFinished := marker, entry := entry, slotInCell := inCell,
               status := status, taskState := state, finishes := finishes,
               aborted := aborted } := by
  cases c <;> simp only [cancelStep] at h
  case remove r =>
    simp only [Option.map_eq_some_iff, Prod.mk.injEq, Prod.exists] at h
    obtain ⟨_, _, _, hstep, _, rfl, _⟩ := h
    obtain ⟨marker, entry, inCell, status, rfl⟩ := removeAbortHandleStep_frame hstep
    exact ⟨marker, entry, inCell, status, _, _, _, rfl⟩
  case finish =>
    simp only [Option.map_eq_some_iff, Prod.mk.injEq, Prod.exists, Task.recordFinish] at h
    obtain ⟨_, _, _, _, h, _⟩ := h
    split at h <;> exact ⟨_, _, _, _, _, _, _, h.symm⟩
  case finishQueued =>
    unfold Task.finishQueued at h
    split at h <;> simp only [Option.some.injEq, Prod.mk.injEq] at h <;>
      exact ⟨_, _, _, _, _, _, _, h.2.1.symm⟩
  case cancel =>
    split at h <;> simp only [Option.some.injEq, Prod.mk.injEq] at h <;>
      exact ⟨_, _, _, _, _, _, _, h.2.1.symm⟩
  case returned => cases h
  all_goals
    simp only [Option.some.injEq, Prod.mk.injEq] at h
    exact ⟨_, _, _, _, _, _, _, h.2.1.symm⟩

theorem sweepStep_frame {k : Nat} {g g' : TokioExecutorServiceState} {τ τ' : Task}
    {p p' : SweepPc} (h : sweepStep k g τ p = some (g', τ', p')) :
    ∃ inCell status state finishes aborted, τ' =
      { τ with slotInCell := inCell, status := status, taskState := state,
               finishes := finishes, aborted := aborted } := by
  cases p <;> simp only [sweepStep] at h
  case finish =>
    simp only [Option.map_eq_some_iff, Prod.mk.injEq, Prod.exists, Task.recordFinish] at h
    obtain ⟨_, _, _, _, h, _⟩ := h
    split at h <;> exact ⟨_, _, _, _, _, h.symm⟩
  case finishQueued =>
    unfold Task.finishQueued at h
    split at h <;> simp only [Option.some.injEq, Prod.mk.injEq] at h <;>
      exact ⟨_, _, _, _, _, h.2.1.symm⟩
  case cancelUnstarted =>
    unfold Task.cancelUnstarted at h
    split at h <;> simp only [Option.some.injEq, Prod.mk.injEq] at h <;>
      exact ⟨_, _, _, _, _, h.2.1.symm⟩
  case dropHook =>
    obtain ⟨inCell, status, heq⟩ := dropSlotRef_frame τ τ.payloadSlotRef
    simp only [Option.some.injEq, Prod.mk.injEq, heq] at h
    exact ⟨_, _, _, _, _, h.2.1.symm⟩
  case next => cases h
  all_goals
    simp only [Option.some.injEq, Prod.mk.injEq] at h
    exact ⟨_, _, _, _, _, h.2.1.symm⟩

theorem submitterStep_frame {t : TaskId} {runtimeClosed : Bool}
    {g g' : TokioExecutorServiceState} {τ τ' : Task}
    (h : submitterStep t runtimeClosed g τ = some (g', τ')) :
    ∃ submitter worker channel marker entry inCell status state finishes, τ' =
      { τ with submitter := submitter, worker := worker, channel := channel,
               markerFinished := marker, entry := entry, slotInCell := inCell,
               status := status, taskState := state, finishes := finishes } ∧
      (worker = τ.worker ∨ τ.submitter = .spawn ∧ (worker = .queued ∨ worker = .finished)) := by
  cases hs : τ.submitter <;> simp only [submitterStep, hs] at h
  case rejected | returned => cases h
  case dropClosure c =>
    rcases hc : closureStep τ c with ⟨τ₁, next⟩
    obtain ⟨_, _, rfl⟩ := closureStep_frame hc
    simp only [Option.some.injEq, Prod.mk.injEq, hc] at h
    exact ⟨_, _, _, _, _, _, _, _, _, h.2.symm, .inl rfl⟩
  case dropGuard d =>
    simp only [Option.map_eq_some_iff, Prod.mk.injEq, Prod.exists] at h
    obtain ⟨_, _, _, hstep, _, h⟩ := h
    obtain ⟨_, _, _, _, _, _, rfl⟩ := guardStep_frame hstep
    exact ⟨_, _, _, _, _, _, _, _, _, h.symm, .inl rfl⟩
  case dropHook =>
    obtain ⟨_, _, heq⟩ := dropSlotRef_frame τ τ.payloadSlotRef
    simp only [Option.some.injEq, Prod.mk.injEq, heq] at h
    exact ⟨_, _, _, _, _, _, _, _, _, h.2.symm, .inl rfl⟩
  case lockSubmission | acceptLock | registerLock =>
    simp only [map_acquire_eq_some, Prod.mk.injEq] at h
    exact ⟨_, _, _, _, _, _, _, _, _, h.2.2.symm, .inl rfl⟩
  case spawn =>
    split at h
    all_goals simp only [Option.some.injEq, Prod.mk.injEq] at h
    · exact ⟨_, _, _, _, _, _, _, _, _, h.2.symm, .inr ⟨rfl, .inr rfl⟩⟩
    · exact ⟨_, _, _, _, _, _, _, _, _, h.2.symm, .inr ⟨rfl, .inl rfl⟩⟩
  case accept | register | send =>
    split at h
    all_goals
      simp only [Option.some.injEq, Prod.mk.injEq, reduceCtorEq] at h
      try exact ⟨_, _, _, _, _, _, _, _, _, h.2.symm, .inl rfl⟩
  all_goals
    simp only [Option.some.injEq, Prod.mk.injEq] at h
    exact ⟨_, _, _, _, _, _, _, _, _, h.2.symm, .inl rfl⟩

theorem workerStep_frame {t : TaskId} {outcome : RunOutcome}
    {g g' : TokioExecutorServiceState} {τ τ' : Task}
    (h : workerStep t outcome g τ = some (g', τ')) :
    ∃ worker channel marker entry inCell status state finishes everRunning starts invocations
        returned, τ' =
      { τ with worker := worker, channel := channel, markerFinished := marker, entry := entry,
               slotInCell := inCell, status := status, taskState := state,
               finishes := finishes, everRunning := everRunning, starts := starts,
               invocations := invocations, returned := returned } ∧
      (invocations = τ.invocations ∨ τ.worker = .invoke) ∧
      (everRunning = τ.everRunning ∨ everRunning = true) := by
  cases hs : τ.worker <;> simp only [workerStep, hs] at h
  case absent | queued | finished => cases h
  case invoke =>
    simp only [Option.some.injEq, Prod.mk.injEq] at h
    exact ⟨_, _, _, _, _, _, _, _, _, _, _, _, h.2.symm, .inr rfl, .inl rfl⟩
  case ranClosure c | refusedClosure c | destroyClosure c =>
    rcases hc : closureStep τ c with ⟨τ₁, next⟩
    obtain ⟨_, _, rfl⟩ := closureStep_frame hc
    simp only [Option.some.injEq, Prod.mk.injEq, hc] at h
    exact ⟨_, _, _, _, _, _, _, _, _, _, _, _, h.2.symm, .inl rfl, .inl rfl⟩
  case ranGuard d | refusedGuard d | destroyGuard d =>
    simp only [Option.map_eq_some_iff, Prod.mk.injEq, Prod.exists] at h
    obtain ⟨_, _, _, hstep, _, h⟩ := h
    obtain ⟨_, _, _, _, _, _, rfl⟩ := guardStep_frame hstep
    exact ⟨_, _, _, _, _, _, _, _, _, _, _, _, h.symm, .inl rfl, .inl rfl⟩
  case startLock =>
    simp only [map_acquire_eq_some, Prod.mk.injEq] at h
    exact ⟨_, _, _, _, _, _, _, _, _, _, _, _, h.2.2.symm, .inl rfl, .inl rfl⟩
  case markStarted =>
    split at h <;> simp only [Option.some.injEq, Prod.mk.injEq] at h
    · exact ⟨_, _, _, _, _, _, _, _, _, _, _, _, h.2.symm, .inl rfl, .inr rfl⟩
    · exact ⟨_, _, _, _, _, _, _, _, _, _, _, _, h.2.symm, .inl rfl, .inl rfl⟩
    · exact ⟨_, _, _, _, _, _, _, _, _, _, _, _, h.2.symm, .inl rfl, .inl rfl⟩
  case recv | takeSlot | startSlot =>
    split at h
    all_goals
      simp only [Option.some.injEq, Prod.mk.injEq, reduceCtorEq] at h
      try exact ⟨_, _, _, _, _, _, _, _, _, _, _, _, h.2.symm, .inl rfl, .inl rfl⟩
  all_goals
    simp only [Option.some.injEq, Prod.mk.injEq] at h
    exact ⟨_, _, _, _, _, _, _, _, _, _, _, _, h.2.symm, .inl rfl, .inl rfl⟩

theorem cancellerStep_cases {t : TaskId} {j : Nat} {g g' : TokioExecutorServiceState}
    {τ τ' : Task} (h : cancellerStep t j g τ = some (g', τ')) :
    ∃ c τ₁ c', τ.cancels[j]? = some c ∧
      cancelStep (.canceller t j) g τ c = some (g', τ₁, c') ∧
      τ' = { τ₁ with cancels := τ.cancels.set j c' } := by
  unfold cancellerStep at h
  cases hc : τ.cancels[j]? with
  | none => simp [hc] at h
  | some c =>
      simp only [hc, Option.map_eq_some_iff, Prod.mk.injEq, Prod.exists] at h
      obtain ⟨_, τ₁, c', hstep, rfl, rfl⟩ := h
      refine ⟨c, τ₁, c', rfl, hstep, ?_⟩
      obtain ⟨_, _, _, _, _, _, _, rfl⟩ := cancelStep_frame hstep
      rfl

/-- What a step of one task leaves alone, and what it can only add to. -/
theorem taskStep_frame {t : TaskId} {g g' : TokioExecutorServiceState} {τ τ' : Task}
    {a : Action} (h : TaskStep t g τ a g' τ') :
    τ'.kind = τ.kind ∧
      (τ'.submitter = τ.submitter ∨
        ∃ runtimeClosed, a = .submitter t runtimeClosed ∧
          submitterStep t runtimeClosed g τ = some (g', τ')) ∧
      (τ'.invocations = τ.invocations ∨ τ.worker = .invoke) ∧
      (τ.everRunning = true → τ'.everRunning = true) ∧
      ∀ k ∈ τ.countedBy, k ∈ τ'.countedBy := by
  cases h with
  | submitter h =>
      have hstep := h
      obtain ⟨_, _, _, _, _, _, _, _, _, rfl, _⟩ := submitterStep_frame h
      exact ⟨rfl, .inr ⟨_, rfl, hstep⟩, .inl rfl, id, fun _ => id⟩
  | worker h =>
      obtain ⟨_, _, _, _, _, _, _, _, _, _, _, _, rfl, hinvocations, hever⟩ :=
        workerStep_frame h
      refine ⟨rfl, .inl rfl, hinvocations, ?_, fun _ => id⟩
      intro hran
      rcases hever with rfl | rfl
      · exact hran
      · rfl
  | pickUp h =>
      unfold pickUpStep at h
      split at h <;> cases h
      exact ⟨rfl, .inl rfl, .inl rfl, id, fun _ => id⟩
  | destroy h =>
      unfold destroyStep at h
      split at h <;> cases h
      exact ⟨rfl, .inl rfl, .inl rfl, id, fun _ => id⟩
  | callCancel h =>
      unfold callCancelStep at h
      split at h <;> cases h
      exact ⟨rfl, .inl rfl, .inl rfl, id, fun _ => id⟩
  | canceller h =>
      obtain ⟨_, _, _, _, hstep, rfl⟩ := cancellerStep_cases h
      obtain ⟨_, _, _, _, _, _, _, rfl⟩ := cancelStep_frame hstep
      exact ⟨rfl, .inl rfl, .inl rfl, id, fun _ => id⟩
  | sweep _ h =>
      obtain ⟨_, _, _, _, _, rfl⟩ := sweepStep_frame h
      exact ⟨rfl, .inl rfl, .inl rfl, id, fun _ => id⟩
  | sweepNext => exact ⟨rfl, .inl rfl, .inl rfl, id, fun _ => id⟩
  | finishSweep =>
      refine ⟨rfl, .inl rfl, .inl rfl, id, fun k hk => ?_⟩
      unfold finishSweep
      dsimp only
      split
      · exact List.mem_append_left _ hk
      · exact hk

/-! ### Where the payload is

The payload travels from the submitter through the channel to the pool thread,
or dies on the way. The two positions are grouped by what they mean for it.
-/

inductive SubmitterPhase where
  | early
  /-- Spawned, and no decision about the registry entry yet. -/
  | undecided
  | decided
  | droppingClosure
  | droppingGuard (d : GuardPc)
  | returned
  deriving DecidableEq, Repr

inductive WorkerPhase where
  | absent
  | waiting
  | received
  | starting
  | running
  /-- The payload dies with its user task never invoked. -/
  | unran
  | droppingGuard (ran : Bool) (d : GuardPc)
  | droppedGuard
  | ended
  deriving DecidableEq, Repr

/-- Where the `TokioServiceTaskGuard` of the payload is. -/
inductive GuardStage where
  | alive
  | dropping (d : GuardPc)
  | dropped
  deriving DecidableEq, Repr

@[grind] def submitterPhase : SubmitterPc → SubmitterPhase
  | .lockSubmission | .checkRunning | .acceptLock | .accept | .acceptUnlock _
  | .rejectUnlock _ | .rejected _ | .shareSlot | .spawn => .early
  | .registerLock | .register | .registerUnlock false | .dropHook => .undecided
  | .registerUnlock true | .wakeDropped | .unlockSubmission | .send => .decided
  | .dropClosure _ => .droppingClosure
  | .dropGuard d => .droppingGuard d
  | .returned => .returned

@[grind] def workerPhase : WorkerPc → WorkerPhase
  | .absent => .absent
  | .queued | .recv | .dropReceiver => .waiting
  | .markStarted => .received
  | .startLock | .start => .starting
  | .startUnlock | .takeSlot | .startSlot | .invoke | .executing | .publish _
  | .wakePublished | .ranClosure _ => .running
  | .ranGuard d => .droppingGuard true d
  | .refusedGuard d | .destroyGuard d => .droppingGuard false d
  | .destroyClosure _ => .unran
  | .refusedClosure _ => .droppedGuard
  | .complete | .finished => .ended

@[grind] def consistent (w : WorkerPhase) (c : Channel) : SubmitterPhase → Prop
  | .early => w = .absent ∧ c = .empty
  | .undecided | .decided => w = .waiting ∧ c = .empty ∨ w = .ended ∧ c = .closed
  | .droppingClosure | .droppingGuard _ => w = .ended ∧ c = .closed
  | .returned => w = .waiting ∧ c = .full ∨ w ≠ .absent ∧ w ≠ .waiting ∧ c = .closed

@[grind →] theorem consistent_cases {w : WorkerPhase} {c : Channel} {s : SubmitterPhase}
    (h : consistent w c s) :
    (w = .absent ∧ c = .empty ∧ s = .early) ∨
    (w = .waiting ∧ c = .empty ∧ (s = .undecided ∨ s = .decided)) ∨
    (w = .waiting ∧ c = .full ∧ s = .returned) ∨
    (w = .ended ∧ c = .closed ∧ s ≠ .early) ∨
    (w ≠ .absent ∧ w ≠ .waiting ∧ w ≠ .ended ∧ c = .closed ∧ s = .returned) := by
  cases s <;> simp only [consistent] at h <;> grind -linarith

def Placed (τ : Task) : Prop :=
  consistent (workerPhase τ.worker) τ.channel (submitterPhase τ.submitter)

@[grind] def workerGuard : WorkerPhase → GuardStage
  | .absent | .waiting | .received | .starting | .running | .unran => .alive
  | .droppingGuard _ d => .dropping d
  | .droppedGuard | .ended => .dropped

@[grind] def guardStageOf (w : WorkerPhase) : SubmitterPhase → GuardStage
  | .early | .undecided | .decided | .droppingClosure => .alive
  | .droppingGuard d => .dropping d
  | .returned => workerGuard w

def guardStage (τ : Task) : GuardStage :=
  guardStageOf (workerPhase τ.worker) (submitterPhase τ.submitter)

/-- The stage after a step of the guard's drop. -/
@[grind] def GuardStage.after : Option GuardPc → GuardStage
  | some d => .dropping d
  | none => .dropped

@[grind =] theorem submitterPhase_eq_returned {pc : SubmitterPc} :
    submitterPhase pc = .returned ↔ pc = .returned := by
  cases pc with
  | registerUnlock inserted => cases inserted <;> simp [submitterPhase]
  | _ => simp [submitterPhase]

theorem worker_of_absent {pc : WorkerPc} (h : workerPhase pc = .absent) : pc = .absent := by
  cases pc <;> simp_all [workerPhase]

theorem worker_of_ended {pc : WorkerPc} (h : workerPhase pc = .ended) :
    pc = .complete ∨ pc = .finished := by
  cases pc <;> simp_all [workerPhase]

theorem workerPhase_enterTask (τ : Task) : workerPhase τ.enterTask = .running := by
  unfold Task.enterTask
  split <;> rfl

/-- Whether the tracker has been moved to running, as far as the phase tells. -/
@[grind] def ranPhase : WorkerPhase → Option Bool
  | .absent | .waiting | .received | .unran | .droppedGuard => some false
  | .starting | .running => some true
  | .droppingGuard ran _ => some ran
  | .ended => none

@[grind] def isStarting : WorkerPhase → Bool
  | .starting => true
  | .absent | .waiting | .received | .running | .unran | .droppingGuard _ _
  | .droppedGuard | .ended => false

/-- No decision about the registry entry yet. -/
@[grind] def isOpen : SubmitterPhase → Bool
  | .early | .undecided => true
  | .decided | .droppingClosure | .droppingGuard _ | .returned => false

/-- The submission has taken a place in the counts. -/
@[grind] def isAccepted : SubmitterPc → Bool
  | .lockSubmission | .checkRunning | .acceptLock | .accept | .acceptUnlock false
  | .rejectUnlock _ | .rejected _ => false
  | .acceptUnlock true | .shareSlot | .spawn | .registerLock | .register | .registerUnlock _
  | .dropHook | .wakeDropped | .unlockSubmission | .send | .dropClosure _ | .dropGuard _
  | .returned => true

/-- What the submission and Tokio's task can do to everything but the slot. -/
inductive PayloadMove (a : Actor) (g : TokioExecutorServiceState) (τ : Task) :
    TokioExecutorServiceState → Task → Prop
  | carry {g' s w ch inCell status invocations returned}
      (hlocks : ∃ locks, g' = { g with locks := locks })
      (haccepted : isAccepted s = isAccepted τ.submitter)
      (hopen : isOpen (submitterPhase s) = isOpen (submitterPhase τ.submitter))
      (hreturned : τ.submitter = .returned → s = .returned)
      (hran : ∀ b, ranPhase (workerPhase w) = some b →
        ranPhase (workerPhase τ.worker) = some b)
      (hstarting : isStarting (workerPhase w) = isStarting (workerPhase τ.worker))
      (hstage : guardStageOf (workerPhase w) (submitterPhase s) = guardStage τ ∨
        guardStage τ = .alive ∧
          guardStageOf (workerPhase w) (submitterPhase s) = .dropping (.remove .finishMarker)) :
      PayloadMove a g τ g'
        { τ with submitter := s, worker := w, channel := ch, slotInCell := inCell,
                 status := status, invocations := invocations, returned := returned }
  | accept (hs : τ.submitter = .accept) (hfree : g.isSaturated = false) :
      PayloadMove a g τ g.acceptTask { τ with submitter := .acceptUnlock true }
  | register (hs : τ.submitter = .register) (hmarker : τ.markerFinished = false)
      (hw : τ.worker ≠ .finished) :
      PayloadMove a g τ g { τ with submitter := .registerUnlock true, entry := .registered }
  | dropHook {s inCell status} (hs : τ.submitter = .dropHook)
      (haccepted : isAccepted s = true) (hphase : submitterPhase s = .decided) :
      PayloadMove a g τ g
        { τ with submitter := s, entry := .gone, slotInCell := inCell, status := status }
  | markStarted (hw : τ.worker = .markStarted) (hstate : τ.taskState = .queued) :
      PayloadMove a g τ g
        { τ with worker := .startLock, taskState := .running, everRunning := true }
  /-- `Err(TASK_STATE_RUNNING)` in `mark_started`. -/
  | markedAlready (hw : τ.worker = .markStarted) (hstate : τ.taskState = .running) :
      PayloadMove a g τ g { τ with worker := τ.enterTask }
  | start (hw : τ.worker = .start) :
      PayloadMove a g τ g.markTaskStarted
        { τ with worker := .startUnlock, starts := τ.starts + 1 }
  | guard {g' d τ₁ next s w} (hd : guardStage τ = .dropping d)
      (hstep : guardStep a g τ d = some (g', τ₁, next))
      (haccepted : isAccepted s = isAccepted τ.submitter)
      (hopen : isOpen (submitterPhase s) = isOpen (submitterPhase τ.submitter))
      (hreturned : τ.submitter = .returned → s = .returned)
      (hran : ∀ b, ranPhase (workerPhase w) = some b →
        ranPhase (workerPhase τ.worker) = some b)
      (hstarting : isStarting (workerPhase w) = isStarting (workerPhase τ.worker))
      (hstage : guardStageOf (workerPhase w) (submitterPhase s) = GuardStage.after next) :
      PayloadMove a g τ g' { τ₁ with submitter := s, worker := w }

section Placement

variable {t : TaskId} {g g' : TokioExecutorServiceState} {τ τ' : Task}

/-- The worker has received its payload and has not ended. -/
def WorkerPhase.hasPayload : WorkerPhase → Bool
  | .absent | .waiting | .ended => false
  | .received | .starting | .running | .unran | .droppingGuard _ _ | .droppedGuard => true

/-- A worker that has its payload got it from a submission that has returned. -/
theorem submitter_of_placed (hp : Placed τ)
    (hw : WorkerPhase.hasPayload (workerPhase τ.worker) = true) : τ.submitter = .returned := by
  rcases consistent_cases hp with h | h | h | h | h
  · simp [h.1, WorkerPhase.hasPayload] at hw
  · simp [h.1, WorkerPhase.hasPayload] at hw
  · simp [h.1, WorkerPhase.hasPayload] at hw
  · simp [h.1, WorkerPhase.hasPayload] at hw
  · exact submitterPhase_eq_returned.mp h.2.2.2.2

theorem guardStage_of_placed (hp : Placed τ)
    (hw : workerGuard (workerPhase τ.worker) = .alive) : guardStage τ = .alive := by
  rw [Placed] at hp
  rw [guardStage]
  cases hphase : submitterPhase τ.submitter with
  | droppingGuard d =>
      rw [hphase] at hp
      rw [hp.1] at hw
      cases hw
  | returned => exact hw
  | early | undecided | decided | droppingClosure => rfl

theorem Placed.congr (hp : Placed τ) (hw : workerPhase τ'.worker = workerPhase τ.worker)
    (hchannel : τ'.channel = τ.channel)
    (hs : submitterPhase τ'.submitter = submitterPhase τ.submitter) : Placed τ' := by
  rw [Placed, hw, hchannel, hs]
  exact hp

theorem placed_of_submitterStep {runtimeClosed : Bool} (hp : Placed τ)
    (h : submitterStep t runtimeClosed g τ = some (g', τ')) : Placed τ' := by
  cases hs : τ.submitter <;> simp only [submitterStep, hs] at h
  case rejected | returned => cases h
  case lockSubmission | acceptLock | registerLock =>
    simp only [map_acquire_eq_some, Prod.mk.injEq] at h
    obtain ⟨_, _, rfl⟩ := h
    exact hp.congr rfl rfl (by rw [hs]; rfl)
  case rejectUnlock | shareSlot | wakeDropped | unlockSubmission =>
    obtain ⟨_, rfl⟩ := Prod.mk.inj (Option.some.inj h)
    exact hp.congr rfl rfl (by rw [hs]; rfl)
  case checkRunning =>
    obtain ⟨_, rfl⟩ := Prod.mk.inj (Option.some.inj h)
    exact hp.congr rfl rfl (by rw [hs]; dsimp only; split <;> rfl)
  case acceptUnlock accepted =>
    obtain ⟨_, rfl⟩ := Prod.mk.inj (Option.some.inj h)
    exact hp.congr rfl rfl (by rw [hs]; cases accepted <;> rfl)
  case registerUnlock inserted =>
    obtain ⟨_, rfl⟩ := Prod.mk.inj (Option.some.inj h)
    exact hp.congr rfl rfl (by rw [hs]; cases inserted <;> rfl)
  case accept =>
    split at h <;> obtain ⟨_, rfl⟩ := Prod.mk.inj (Option.some.inj h) <;>
      exact hp.congr rfl rfl (by rw [hs]; rfl)
  all_goals rw [Placed, hs] at hp
  case spawn =>
    split at h <;> obtain ⟨_, rfl⟩ := Prod.mk.inj (Option.some.inj h)
    · exact .inr ⟨rfl, rfl⟩
    · exact .inl ⟨rfl, hp.2⟩
  case register =>
    split at h <;> obtain ⟨_, rfl⟩ := Prod.mk.inj (Option.some.inj h) <;> exact hp
  case dropHook =>
    obtain ⟨_, _, heq⟩ := dropSlotRef_frame τ τ.payloadSlotRef
    simp only [Option.some.injEq, Prod.mk.injEq, heq] at h
    obtain ⟨_, rfl⟩ := h
    rw [Placed]
    dsimp only
    split <;> exact hp
  case send =>
    split at h
    · rename_i hempty
      obtain ⟨_, rfl⟩ := Prod.mk.inj (Option.some.inj h)
      rcases hp with ⟨hw, _⟩ | ⟨_, hclosed⟩
      · exact .inl ⟨hw, rfl⟩
      · simp [hclosed] at hempty
    · cases h
    · rename_i hclosed
      obtain ⟨_, rfl⟩ := Prod.mk.inj (Option.some.inj h)
      rcases hp with ⟨_, hempty⟩ | hended
      · simp [hclosed] at hempty
      · exact hended
  case dropClosure c =>
    rcases hc : closureStep τ c with ⟨τ₁, next⟩
    obtain ⟨_, _, rfl⟩ := closureStep_frame hc
    simp only [Option.some.injEq, Prod.mk.injEq, hc] at h
    obtain ⟨_, rfl⟩ := h
    cases next <;> exact hp
  case dropGuard d =>
    simp only [Option.map_eq_some_iff, Prod.mk.injEq, Prod.exists] at h
    obtain ⟨_, _, next, hstep, rfl, rfl⟩ := h
    obtain ⟨_, _, _, _, _, _, rfl⟩ := guardStep_frame hstep
    obtain ⟨hended, hclosed⟩ := hp
    cases next with
    | some d' => exact ⟨hended, hclosed⟩
    | none => exact .inr ⟨by simp [hended], by simp [hended], hclosed⟩

theorem Placed.work (hp : Placed τ) (hw : WorkerPhase.hasPayload (workerPhase τ.worker) = true)
    (hw' : WorkerPhase.hasPayload (workerPhase τ'.worker) = true ∨ workerPhase τ'.worker = .ended)
    (hchannel : τ'.channel = τ.channel) (hs : τ'.submitter = τ.submitter) : Placed τ' := by
  have hreturned := submitter_of_placed hp hw
  have hclosed : τ.channel = .closed := by
    rw [Placed, hreturned] at hp
    rcases hp with ⟨hwaiting, _⟩ | ⟨_, _, hclosed⟩
    · simp [hwaiting, WorkerPhase.hasPayload] at hw
    · exact hclosed
  rw [Placed, hs, hreturned]
  refine .inr ⟨?_, ?_, hchannel.trans hclosed⟩
  · rintro habsent
    simp [habsent, WorkerPhase.hasPayload] at hw'
  · rintro hwaiting
    simp [hwaiting, WorkerPhase.hasPayload] at hw'

theorem placed_of_workerStep {outcome : RunOutcome} (hp : Placed τ)
    (h : workerStep t outcome g τ = some (g', τ')) : Placed τ' := by
  have henter := workerPhase_enterTask τ
  cases hs : τ.worker <;> simp only [workerStep, hs] at h
  case absent | queued | finished => cases h
  case recv =>
    split at h <;> cases h
    rename_i hfull
    have hreturned : submitterPhase τ.submitter = .returned := by
      rw [Placed, hs, hfull] at hp
      cases hphase : submitterPhase τ.submitter <;> simp [hphase, consistent] at hp
      rfl
    rw [Placed, hreturned]
    exact .inr ⟨by simp [workerPhase], by simp [workerPhase], rfl⟩
  case markStarted =>
    split at h <;> obtain ⟨_, rfl⟩ := Prod.mk.inj (Option.some.inj h)
    · exact hp.work (by rw [hs]; rfl) (.inl rfl) rfl rfl
    · exact hp.work (by rw [hs]; rfl) (.inl (by rw [henter]; rfl)) rfl rfl
    · exact hp.work (by rw [hs]; rfl) (.inl rfl) rfl rfl
  case startLock =>
    simp only [map_acquire_eq_some, Prod.mk.injEq] at h
    obtain ⟨_, _, rfl⟩ := h
    exact hp.congr (by rw [hs]; rfl) rfl rfl
  case start =>
    obtain ⟨_, rfl⟩ := Prod.mk.inj (Option.some.inj h)
    exact hp.work (by rw [hs]; rfl) (.inl rfl) rfl rfl
  case startUnlock =>
    obtain ⟨_, rfl⟩ := Prod.mk.inj (Option.some.inj h)
    exact hp.congr (by rw [hs]; exact henter) rfl rfl
  case takeSlot | startSlot =>
    split at h <;> obtain ⟨_, rfl⟩ := Prod.mk.inj (Option.some.inj h) <;>
      exact hp.congr (by rw [hs]; rfl) rfl rfl
  case invoke | publish | wakePublished | complete =>
    obtain ⟨_, rfl⟩ := Prod.mk.inj (Option.some.inj h)
    exact hp.congr (by rw [hs]; rfl) rfl rfl
  case executing =>
    obtain ⟨_, rfl⟩ := Prod.mk.inj (Option.some.inj h)
    exact hp.congr (by rw [hs]; dsimp only; split <;> rfl) rfl rfl
  case dropReceiver =>
    obtain ⟨_, rfl⟩ := Prod.mk.inj (Option.some.inj h)
    rw [Placed, hs] at hp
    rw [Placed]
    dsimp only
    split <;> rename_i hchannel
    · cases hphase : submitterPhase τ.submitter <;> rw [hphase] at hp <;>
        simp_all [consistent, workerPhase]
    · cases hphase : submitterPhase τ.submitter <;> rw [hphase] at hp <;>
        simp_all [consistent, workerPhase]
  case ranClosure c | destroyClosure c =>
    rcases hc : closureStep τ c with ⟨τ₁, next⟩
    obtain ⟨_, _, rfl⟩ := closureStep_frame hc
    simp only [Option.some.injEq, Prod.mk.injEq, hc] at h
    obtain ⟨_, rfl⟩ := h
    cases next <;> exact hp.work (by rw [hs]; rfl) (.inl rfl) rfl rfl
  case refusedClosure c =>
    rcases hc : closureStep τ c with ⟨τ₁, next⟩
    obtain ⟨_, _, rfl⟩ := closureStep_frame hc
    simp only [Option.some.injEq, Prod.mk.injEq, hc] at h
    obtain ⟨_, rfl⟩ := h
    cases next with
    | some c' => exact hp.congr (by rw [hs]; rfl) rfl rfl
    | none => exact hp.work (by rw [hs]; rfl) (.inr rfl) rfl rfl
  case ranGuard d | destroyGuard d =>
    simp only [Option.map_eq_some_iff, Prod.mk.injEq, Prod.exists] at h
    obtain ⟨_, _, next, hstep, rfl, rfl⟩ := h
    obtain ⟨_, _, _, _, _, _, rfl⟩ := guardStep_frame hstep
    cases next with
    | some d' => exact hp.work (by rw [hs]; rfl) (.inl rfl) rfl rfl
    | none => exact hp.work (by rw [hs]; rfl) (.inr rfl) rfl rfl
  case refusedGuard d =>
    simp only [Option.map_eq_some_iff, Prod.mk.injEq, Prod.exists] at h
    obtain ⟨_, _, next, hstep, rfl, rfl⟩ := h
    obtain ⟨_, _, _, _, _, _, rfl⟩ := guardStep_frame hstep
    cases next <;> exact hp.work (by rw [hs]; rfl) (.inl rfl) rfl rfl

theorem placed_of_taskStep {a : Action} (hp : Placed τ) (h : TaskStep t g τ a g' τ') :
    Placed τ' := by
  cases h with
  | submitter h => exact placed_of_submitterStep hp h
  | worker h => exact placed_of_workerStep hp h
  | pickUp h =>
      simp only [pickUpStep, Option.ite_none_right_eq_some, Option.some.injEq] at h
      obtain ⟨hw, rfl⟩ := h
      exact hp.congr (by rw [hw]; dsimp only; split <;> rfl) rfl rfl
  | destroy h =>
      simp only [destroyStep, Option.ite_none_right_eq_some, Option.some.injEq] at h
      obtain ⟨hw, rfl⟩ := h
      exact hp.congr (by rw [hw]; rfl) rfl rfl
  | callCancel h =>
      simp only [callCancelStep, Option.ite_none_right_eq_some, Option.some.injEq] at h
      obtain ⟨_, rfl⟩ := h
      exact hp
  | canceller h =>
      obtain ⟨c, τ₁, c', _, hstep, rfl⟩ := cancellerStep_cases h
      obtain ⟨_, _, _, _, _, _, _, rfl⟩ := cancelStep_frame hstep
      exact hp
  | sweep _ h =>
      obtain ⟨_, _, _, _, _, rfl⟩ := sweepStep_frame h
      exact hp
  | sweepNext | finishSweep => exact hp

/-! ### Steps as moves -/

theorem guardStageOf_congr {w w' : WorkerPhase} {s : SubmitterPhase}
    (h : workerGuard w' = workerGuard w) : guardStageOf w' s = guardStageOf w s := by
  cases s with
  | returned => exact h
  | early | undecided | decided | droppingClosure | droppingGuard => rfl

theorem guardStageOf_of_submitting {w w' : WorkerPhase} {s : SubmitterPhase}
    (h : s ≠ .returned) : guardStageOf w' s = guardStageOf w s := by
  cases s with
  | returned => exact absurd rfl h
  | early | undecided | decided | droppingClosure | droppingGuard => rfl

section Moves

variable {a : Actor} {s : SubmitterPc} {w : WorkerPc} {ch : Channel} {inCell : Bool}
  {status : TaskStatus} {invocations : Nat} {returned : Option RunOutcome}

theorem PayloadMove.submit (hlocks : ∃ locks, g' = { g with locks := locks })
    (hs : τ.submitter ≠ .returned) (haccepted : isAccepted s = isAccepted τ.submitter)
    (hphase : submitterPhase s = submitterPhase τ.submitter) :
    PayloadMove a g τ g'
      { τ with submitter := s, channel := ch, slotInCell := inCell, status := status } := by
  refine .carry hlocks haccepted (by rw [hphase]) (fun h => absurd h hs) (fun _ => id) rfl
    (.inl ?_)
  rw [hphase]
  rfl

theorem PayloadMove.submitAlive (hs : τ.submitter ≠ .returned)
    (haccepted : isAccepted s = isAccepted τ.submitter)
    (hopen : isOpen (submitterPhase s) = isOpen (submitterPhase τ.submitter))
    (hran : ∀ b, ranPhase (workerPhase w) = some b → ranPhase (workerPhase τ.worker) = some b)
    (hstarting : isStarting (workerPhase w) = isStarting (workerPhase τ.worker))
    (halive : guardStage τ = .alive)
    (hafter : guardStageOf (workerPhase w) (submitterPhase s) = .alive) :
    PayloadMove a g τ g { τ with submitter := s, worker := w, channel := ch } :=
  .carry ⟨_, rfl⟩ haccepted hopen (fun h => absurd h hs) hran hstarting
    (.inl (hafter.trans halive.symm))

theorem PayloadMove.work (hlocks : ∃ locks, g' = { g with locks := locks })
    (hran : ∀ b, ranPhase (workerPhase w) = some b → ranPhase (workerPhase τ.worker) = some b)
    (hstarting : isStarting (workerPhase w) = isStarting (workerPhase τ.worker))
    (hguard : workerGuard (workerPhase w) = workerGuard (workerPhase τ.worker)) :
    PayloadMove a g τ g'
      { τ with worker := w, channel := ch, slotInCell := inCell, status := status,
               invocations := invocations, returned := returned } :=
  .carry hlocks rfl rfl id hran hstarting (.inl (guardStageOf_congr hguard))

theorem PayloadMove.workInPhase (hlocks : ∃ locks, g' = { g with locks := locks })
    (hphase : workerPhase w = workerPhase τ.worker) :
    PayloadMove a g τ g'
      { τ with worker := w, channel := ch, slotInCell := inCell, status := status,
               invocations := invocations, returned := returned } := by
  refine .work hlocks (fun b => ?_) ?_ ?_ <;> rw [hphase]
  exact id

theorem PayloadMove.dropGuard {ran : Bool} (hreturned : τ.submitter = .returned)
    (halive : workerGuard (workerPhase τ.worker) = .alive)
    (hw : workerPhase w = .droppingGuard ran (.remove .finishMarker))
    (hran : ranPhase (workerPhase τ.worker) = some ran)
    (hstarting : isStarting (workerPhase τ.worker) = false) :
    PayloadMove a g τ g
      { τ with worker := w, slotInCell := inCell, status := status } := by
  refine .carry ⟨_, rfl⟩ rfl rfl id (fun b hb => ?_) (by rw [hw, hstarting]; rfl)
    (.inr ⟨?_, ?_⟩)
  · rw [hw] at hb
    rw [hran]
    exact hb
  · rw [guardStage, hreturned]
    exact halive
  · rw [hreturned, hw]
    rfl

end Moves

theorem PayloadMove.submitGuard {a : Actor} {d : GuardPc} {next : Option GuardPc} {s : SubmitterPc}
    (hp : Placed τ) (hs : τ.submitter = .dropGuard d)
    (hstep : guardStep a g τ d = some (g', τ', next)) (haccepted : isAccepted s = true)
    (hopen : isOpen (submitterPhase s) = false)
    (hafter : guardStageOf .ended (submitterPhase s) = GuardStage.after next) :
    PayloadMove a g τ g' { τ' with submitter := s } := by
  have hended : workerPhase τ.worker = .ended := by
    rw [Placed, hs] at hp
    exact hp.1
  have hmove : PayloadMove a g τ g' { τ' with submitter := s, worker := τ.worker } :=
    .guard (by rw [guardStage, hs]; rfl) hstep (by rw [hs, haccepted]; rfl)
      (by rw [hs, hopen]; rfl) (by simp [hs]) (fun _ => id) rfl (by rw [hended, hafter])
  obtain ⟨_, _, _, _, _, _, rfl⟩ := guardStep_frame hstep
  exact hmove

theorem PayloadMove.workGuard {a : Actor} {d : GuardPc} {next : Option GuardPc} {w : WorkerPc}
    {ran : Bool} (hp : Placed τ) (hw : workerPhase τ.worker = .droppingGuard ran d)
    (hstep : guardStep a g τ d = some (g', τ', next))
    (hran : ∀ b, ranPhase (workerPhase w) = some b → ran = b)
    (hstarting : isStarting (workerPhase w) = false)
    (hafter : workerGuard (workerPhase w) = GuardStage.after next) :
    PayloadMove a g τ g' { τ' with worker := w } := by
  have hreturned := submitter_of_placed hp (by rw [hw]; rfl)
  have hmove : PayloadMove a g τ g' { τ' with submitter := τ.submitter, worker := w } := by
    refine .guard (by rw [guardStage, hreturned, hw]; rfl) hstep rfl rfl id (fun b hb => ?_)
      (by rw [hw, hstarting]; rfl) (by rw [hreturned]; exact hafter)
    rw [hw, hran b hb]
    rfl
  obtain ⟨_, _, _, _, _, _, rfl⟩ := guardStep_frame hstep
  exact hmove

theorem payloadMove_of_spawn {runtimeClosed : Bool} (hp : Placed τ) (hs : τ.submitter = .spawn)
    (h : submitterStep t runtimeClosed g τ = some (g', τ')) :
    PayloadMove (.submitter t) g τ g' τ' := by
  have halive : guardStage τ = .alive := by rw [guardStage, hs]; rfl
  have hw : workerPhase τ.worker = .absent := by
    rw [Placed, hs] at hp
    exact hp.1
  simp only [submitterStep, hs] at h
  split at h <;> obtain ⟨rfl, rfl⟩ := Prod.mk.inj (Option.some.inj h)
  · exact .submitAlive (by simp [hs]) (by rw [hs]; rfl) (by rw [hs]; rfl)
      (by simp [workerPhase, ranPhase]) (by rw [hw]; rfl) halive rfl
  · exact .submitAlive (by simp [hs]) (by rw [hs]; rfl) (by rw [hs]; rfl)
      (by rw [hw]; exact fun _ => id) (by rw [hw]; rfl) halive rfl

theorem payloadMove_of_submitterStep {runtimeClosed : Bool} (hp : Placed τ)
    (h : submitterStep t runtimeClosed g τ = some (g', τ')) :
    PayloadMove (.submitter t) g τ g' τ' := by
  have hspawn := fun hs => payloadMove_of_spawn hp hs h
  cases hs : τ.submitter <;> simp only [submitterStep, hs] at h
  case rejected | returned => cases h
  case spawn => exact hspawn hs
  case lockSubmission | acceptLock | registerLock =>
    simp only [map_acquire_eq_some, Prod.mk.injEq] at h
    obtain ⟨_, rfl, rfl⟩ := h
    exact .submit ⟨_, rfl⟩ (by simp [hs]) (by rw [hs]; rfl) (by rw [hs]; rfl)
  case rejectUnlock | shareSlot | wakeDropped | unlockSubmission =>
    obtain ⟨rfl, rfl⟩ := Prod.mk.inj (Option.some.inj h)
    exact .submit ⟨_, rfl⟩ (by simp [hs]) (by rw [hs]; rfl) (by rw [hs]; rfl)
  case checkRunning =>
    obtain ⟨rfl, rfl⟩ := Prod.mk.inj (Option.some.inj h)
    refine .submit ⟨_, rfl⟩ (by simp [hs]) ?_ ?_ <;> rw [hs] <;> split <;> rfl
  case acceptUnlock accepted =>
    obtain ⟨rfl, rfl⟩ := Prod.mk.inj (Option.some.inj h)
    refine .submit ⟨_, rfl⟩ (by simp [hs]) ?_ ?_ <;> rw [hs] <;> cases accepted <;> rfl
  case registerUnlock inserted =>
    obtain ⟨rfl, rfl⟩ := Prod.mk.inj (Option.some.inj h)
    refine .submit ⟨_, rfl⟩ (by simp [hs]) ?_ ?_ <;> rw [hs] <;> cases inserted <;> rfl
  case accept =>
    split at h <;> rename_i hfree <;> obtain ⟨rfl, rfl⟩ := Prod.mk.inj (Option.some.inj h)
    · exact .submit ⟨_, rfl⟩ (by simp [hs]) (by rw [hs]; rfl) (by rw [hs]; rfl)
    · exact .accept hs (by simpa using hfree)
  case register =>
    split at h <;> rename_i hregister <;> obtain ⟨rfl, rfl⟩ := Prod.mk.inj (Option.some.inj h)
    · obtain ⟨hmarker, hw⟩ := Bool.and_eq_true_iff.mp hregister
      exact .register hs (by simpa using hmarker) (by simpa using hw)
    · exact .submit ⟨_, rfl⟩ (by simp [hs]) (by rw [hs]; rfl) (by rw [hs]; rfl)
  case dropHook =>
    obtain ⟨_, _, heq⟩ := dropSlotRef_frame τ τ.payloadSlotRef
    simp only [Option.some.injEq, Prod.mk.injEq, heq] at h
    obtain ⟨rfl, rfl⟩ := h
    exact .dropHook hs (by split <;> rfl) (by split <;> rfl)
  case send =>
    have halive : guardStage τ = .alive := by rw [guardStage, hs]; rfl
    rw [Placed, hs] at hp
    split at h
    · -- The payload is handed over to a worker that waits for it.
      rename_i hempty
      have hw : workerPhase τ.worker = .waiting := by
        rcases hp with ⟨hw, _⟩ | ⟨_, hclosed⟩
        · exact hw
        · simp [hclosed] at hempty
      obtain ⟨rfl, rfl⟩ := Prod.mk.inj (Option.some.inj h)
      exact .submitAlive (by simp [hs]) (by rw [hs]; rfl) (by rw [hs]; rfl) (fun _ => id) rfl
        halive (by rw [hw]; rfl)
    · cases h
    · obtain ⟨rfl, rfl⟩ := Prod.mk.inj (Option.some.inj h)
      exact .submitAlive (by simp [hs]) (by rw [hs]; rfl) (by rw [hs]; rfl) (fun _ => id) rfl
        halive rfl
  case dropClosure c =>
    rcases hc : closureStep τ c with ⟨τ₁, next⟩
    obtain ⟨_, _, rfl⟩ := closureStep_frame hc
    simp only [Option.some.injEq, Prod.mk.injEq, hc] at h
    obtain ⟨rfl, rfl⟩ := h
    have halive : guardStage τ = .alive := by rw [guardStage, hs]; rfl
    cases next with
    | some c' => exact .submit ⟨_, rfl⟩ (by simp [hs]) (by rw [hs]; rfl) (by rw [hs]; rfl)
    | none =>
        exact .carry ⟨_, rfl⟩ (by rw [hs]; rfl) (by rw [hs]; rfl) (by simp [hs]) (fun _ => id) rfl
          (.inr ⟨halive, rfl⟩)
  case dropGuard d =>
    simp only [Option.map_eq_some_iff, Prod.mk.injEq, Prod.exists] at h
    obtain ⟨_, τ₁, next, hstep, rfl, rfl⟩ := h
    cases next <;> exact .submitGuard hp hs hstep rfl rfl rfl

theorem payloadMove_of_workerStep {outcome : RunOutcome} (hp : Placed τ)
    (h : workerStep t outcome g τ = some (g', τ')) :
    PayloadMove (.worker t) g τ g' τ' := by
  have henter := workerPhase_enterTask τ
  cases hs : τ.worker <;> simp only [workerStep, hs] at h
  case absent | queued | finished => cases h
  case recv =>
    split at h <;> cases h
    exact .work ⟨_, rfl⟩ (by rw [hs]; exact fun _ => id) (by rw [hs]; rfl) (by rw [hs]; rfl)
  case markStarted =>
    split at h <;> rename_i hstate <;> obtain ⟨rfl, rfl⟩ := Prod.mk.inj (Option.some.inj h)
    · exact .markStarted hs hstate
    · exact .markedAlready hs hstate
    · exact .dropGuard (submitter_of_placed hp (by rw [hs]; rfl)) (by rw [hs]; rfl) rfl
        (by rw [hs]; rfl) (by rw [hs]; rfl)
  case startLock =>
    simp only [map_acquire_eq_some, Prod.mk.injEq] at h
    obtain ⟨_, rfl, rfl⟩ := h
    exact .workInPhase ⟨_, rfl⟩ (by rw [hs]; rfl)
  case start =>
    obtain ⟨rfl, rfl⟩ := Prod.mk.inj (Option.some.inj h)
    exact .start hs
  case startUnlock =>
    obtain ⟨rfl, rfl⟩ := Prod.mk.inj (Option.some.inj h)
    exact .workInPhase ⟨_, rfl⟩ (by rw [hs, henter]; rfl)
  case takeSlot | startSlot =>
    split at h <;> obtain ⟨rfl, rfl⟩ := Prod.mk.inj (Option.some.inj h) <;>
      exact .workInPhase ⟨_, rfl⟩ (by rw [hs]; rfl)
  case invoke | publish | wakePublished | complete =>
    obtain ⟨rfl, rfl⟩ := Prod.mk.inj (Option.some.inj h)
    exact .workInPhase ⟨_, rfl⟩ (by rw [hs]; rfl)
  case executing =>
    obtain ⟨rfl, rfl⟩ := Prod.mk.inj (Option.some.inj h)
    exact .workInPhase ⟨_, rfl⟩ (by rw [hs]; split <;> rfl)
  case dropReceiver =>
    obtain ⟨rfl, rfl⟩ := Prod.mk.inj (Option.some.inj h)
    split
    · exact .work ⟨_, rfl⟩ (by rw [hs]; exact fun _ => id) (by rw [hs]; rfl) (by rw [hs]; rfl)
    · -- Without a payload the submission still has the guard.
      rename_i hempty
      refine .carry ⟨_, rfl⟩ rfl rfl id (by simp [workerPhase, ranPhase]) (by rw [hs]; rfl)
        (.inl (guardStageOf_of_submitting fun hreturned => ?_))
      rw [Placed, hs, hreturned] at hp
      rcases hp with ⟨_, hfull⟩ | ⟨_, hwaiting, _⟩
      · exact hempty hfull
      · exact hwaiting rfl
  case ranClosure c | destroyClosure c =>
    have hreturned := submitter_of_placed hp (by rw [hs]; rfl)
    rcases hc : closureStep τ c with ⟨τ₁, next⟩
    obtain ⟨_, _, rfl⟩ := closureStep_frame hc
    simp only [Option.some.injEq, Prod.mk.injEq, hc] at h
    obtain ⟨rfl, rfl⟩ := h
    cases next with
    | some c' => exact .workInPhase ⟨_, rfl⟩ (by rw [hs]; rfl)
    | none => exact .dropGuard hreturned (by rw [hs]; rfl) rfl (by rw [hs]; rfl) (by rw [hs]; rfl)
  case refusedClosure c =>
    rcases hc : closureStep τ c with ⟨τ₁, next⟩
    obtain ⟨_, _, rfl⟩ := closureStep_frame hc
    simp only [Option.some.injEq, Prod.mk.injEq, hc] at h
    obtain ⟨rfl, rfl⟩ := h
    cases next with
    | some c' => exact .workInPhase ⟨_, rfl⟩ (by rw [hs]; rfl)
    | none =>
        exact .work ⟨_, rfl⟩ (by simp [workerPhase, ranPhase]) (by rw [hs]; rfl) (by rw [hs]; rfl)
  case ranGuard d | refusedGuard d | destroyGuard d =>
    simp only [Option.map_eq_some_iff, Prod.mk.injEq, Prod.exists] at h
    obtain ⟨_, τ₁, next, hstep, rfl, rfl⟩ := h
    cases next with
    | some d' => exact .workGuard hp (by rw [hs]; rfl) hstep (fun _ => Option.some.inj) rfl rfl
    | none =>
        exact .workGuard hp (by rw [hs]; rfl) hstep (by simp [workerPhase, ranPhase]) rfl rfl

theorem payloadMove_of_pickUpStep {a : Actor} (h : pickUpStep τ = some τ') :
    PayloadMove a g τ g τ' := by
  unfold pickUpStep at h
  split at h
  · rename_i hw
    obtain rfl := Option.some.inj h
    exact .workInPhase ⟨_, rfl⟩ (by rw [hw]; split <;> rfl)
  · cases h

theorem payloadMove_of_destroyStep {a : Actor} (h : destroyStep τ = some τ') :
    PayloadMove a g τ g τ' := by
  unfold destroyStep at h
  split at h
  · rename_i hw
    obtain rfl := Option.some.inj h
    exact .workInPhase ⟨_, rfl⟩ (by rw [hw]; rfl)
  · cases h

theorem placed_takeEntry {k : Nat} (hp : Placed τ) : Placed (takeEntry k τ) := by
  unfold takeEntry
  split <;> exact hp

end Placement

end TokioExecutorProofs.BlockingTaskPlacement
