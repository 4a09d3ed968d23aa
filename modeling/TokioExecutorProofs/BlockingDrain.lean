import TokioExecutorProofs.BlockingAdmission
import TokioExecutorProofs.BlockingSettlement
import TokioExecutorProofs.BlockingStop
import TokioExecutorProofs.BlockingThreads

/-!
An orderly shutdown. A task that nobody gives up, neither a stop call nor a
cancellation of its own nor the runtime, is executed exactly once, and its result is
what its callable has returned.
-/

namespace TokioExecutorProofs.BlockingDrain

open ServiceBasics
open BlockingServiceState
open BlockingServiceState.TokioExecutorServiceState
open BlockingTask
open BlockingService
open BlockingTaskPlacement
open BlockingTaskRegistry
open BlockingTaskTracking
open BlockingTaskSlots
open BlockingTaskInvariants
open BlockingTaskEffects
open BlockingAccounting
open BlockingSweeps
open BlockingTermination
open BlockingAdmission
open BlockingResults
open BlockingRanks
open BlockingRest
open BlockingSettlement
open BlockingStop
open BlockingThreads
open CallStacks
open ProcessFamilies
open RestingSystems
open RestingThreads
open TransitionSystems

/-! ### The course of a task that is not given up -/

/-- The submission hands its payload over. -/
def handsOver : SubmitterPc → Bool
  | .lockSubmission | .checkRunning | .acceptLock | .accept | .acceptUnlock _ | .rejectUnlock _
  | .rejected _ | .shareSlot | .spawn | .registerLock | .register | .registerUnlock true
  | .unlockSubmission | .send | .returned => true
  | .registerUnlock false | .dropHook | .wakeDropped | .dropClosure _ | .dropGuard _ => false

/-- The task is neither refused by its tracker nor destroyed by the runtime. -/
def isStraight : WorkerPc → Bool
  | .absent | .queued | .recv | .markStarted | .startLock | .start | .startUnlock | .takeSlot
  | .startSlot | .invoke | .executing | .publish _ | .wakePublished | .ranClosure _
  | .ranGuard _ | .complete | .finished => true
  | .refusedGuard _ | .refusedClosure _ | .dropReceiver | .destroyClosure _
  | .destroyGuard _ => false

def isUntracked : WorkerPc → Bool
  | .absent | .queued | .recv | .markStarted => true
  | .startLock | .start | .startUnlock | .takeSlot | .startSlot | .invoke | .executing
  | .publish _ | .wakePublished | .ranClosure _ | .ranGuard _ | .refusedGuard _
  | .refusedClosure _ | .dropReceiver | .destroyClosure _ | .destroyGuard _ | .complete
  | .finished => false

/-- Before `TaskRunner::run` has started the slot. -/
def isBeforeStart : WorkerPc → Bool
  | .absent | .queued | .recv | .markStarted | .startLock | .start | .startUnlock | .takeSlot
  | .startSlot => true
  | .invoke | .executing | .publish _ | .wakePublished | .ranClosure _ | .ranGuard _
  | .refusedGuard _ | .refusedClosure _ | .dropReceiver | .destroyClosure _ | .destroyGuard _
  | .complete | .finished => false

/-- The result has been published, where there is one. -/
def hasRun : WorkerPc → Bool
  | .wakePublished | .ranClosure _ | .ranGuard _ | .complete | .finished => true
  | .absent | .queued | .recv | .markStarted | .startLock | .start | .startUnlock | .takeSlot
  | .startSlot | .invoke | .executing | .publish _ | .refusedGuard _ | .refusedClosure _
  | .dropReceiver | .destroyClosure _ | .destroyGuard _ => false

/-- The callable has been invoked once and has come to an end, and its handle is
resolved to something else than a cancellation. -/
def Executed (τ : Task) : Prop :=
  τ.invocations = 1 ∧ τ.returned.isSome = true ∧
    (τ.hasSlot = true → τ.status.isTerminal = true ∧ τ.status ≠ .cancelled)

structure OnCourse (τ : Task) : Prop where
  cancels : τ.cancels = []
  aborted : τ.aborted = false
  submitter : handsOver τ.submitter = true
  worker : isStraight τ.worker = true
  tracked : isUntracked τ.worker = true → τ.taskState = .queued
  pending : isBeforeStart τ.worker = true → τ.status = .pending
  slot : τ.worker = .takeSlot → τ.hasSlot = true
  run : hasRun τ.worker = true → τ.submitter = .returned ∧ Executed τ

section

variable {t : TaskId} {g g' : TokioExecutorServiceState} {τ τ' : Task} {a : Action}

theorem onCourse_new (kind : TaskKind) : OnCourse { kind := kind } where
  cancels := rfl
  aborted := rfl
  submitter := rfl
  worker := rfl
  tracked _ := rfl
  pending _ := rfl
  slot h := by cases h
  run h := by cases h

theorem waiting_of_submitting (hi : TaskInvariant τ) (hc : OnCourse τ)
    (hs : τ.submitter ≠ .returned) (hspawned : submitterPhase τ.submitter ≠ .early) :
    workerPhase τ.worker = .waiting ∧ τ.channel = .empty := by
  have hplaced := hi.placed
  have hended : workerPhase τ.worker ≠ .ended := by
    intro hended
    have hrun := hc.run (by rcases worker_of_ended hended with hw | hw <;> rw [hw] <;> rfl)
    exact hs hrun.1
  have hcourse := hc.submitter
  rw [Placed] at hplaced
  cases hphase : submitterPhase τ.submitter with
  | early => exact absurd hphase hspawned
  | undecided | decided =>
      rw [hphase] at hplaced
      exact hplaced.resolve_right fun h => hended h.1
  | droppingClosure | droppingGuard =>
      rw [hphase] at hplaced
      exact absurd hplaced.1 hended
  | returned => exact absurd (submitterPhase_eq_returned.mp hphase) hs

theorem OnCourse.submit {pc : SubmitterPc} {channel : Channel} {entry : EntryPc} {inCell : Bool}
    (hc : OnCourse τ) (hs : τ.submitter ≠ .returned) (hpc : handsOver pc = true) :
    OnCourse { τ with submitter := pc, channel := channel, entry := entry,
                      slotInCell := inCell } where
  cancels := hc.cancels
  aborted := hc.aborted
  submitter := hpc
  worker := hc.worker
  tracked := hc.tracked
  pending := hc.pending
  slot := hc.slot
  run h := absurd (hc.run h).1 hs

theorem OnCourse.spawn {pc : SubmitterPc} (hc : OnCourse τ) (hw : τ.worker = .absent)
    (hpc : handsOver pc = true) :
    OnCourse { τ with submitter := pc, worker := .queued } where
  cancels := hc.cancels
  aborted := hc.aborted
  submitter := hpc
  worker := rfl
  tracked _ := hc.tracked (by rw [hw]; rfl)
  pending _ := hc.pending (by rw [hw]; rfl)
  slot h := by cases h
  run h := by cases h

theorem onCourse_of_submitterStep (hi : TaskInvariant τ) (hc : OnCourse τ)
    (h : submitterStep t false g τ = some (g', τ')) : OnCourse τ' := by
  have hcourse := hc.submitter
  cases hs : τ.submitter <;> simp only [submitterStep, hs] at h hcourse
  case rejected | returned => cases h
  case dropHook | wakeDropped | dropClosure | dropGuard => cases hcourse
  case lockSubmission | acceptLock | registerLock =>
    simp only [map_acquire_eq_some, Prod.mk.injEq] at h
    obtain ⟨_, _, rfl⟩ := h
    exact hc.submit (by simp [hs]) rfl
  case checkRunning | acceptUnlock =>
    simp only [Option.some.injEq, Prod.mk.injEq] at h
    obtain ⟨_, rfl⟩ := h
    exact hc.submit (by simp [hs]) (by split <;> rfl)
  case accept =>
    split at h <;> obtain ⟨_, rfl⟩ := Prod.mk.inj (Option.some.inj h) <;>
      exact hc.submit (by simp [hs]) rfl
  case rejectUnlock | shareSlot | unlockSubmission =>
    obtain ⟨_, rfl⟩ := Prod.mk.inj (Option.some.inj h)
    exact hc.submit (by simp [hs]) rfl
  case spawn =>
    obtain ⟨_, rfl⟩ := Prod.mk.inj (Option.some.inj h)
    exact hc.spawn (worker_of_spawn hi hs) rfl
  case register =>
    -- The guard is alive and the worker waits, so the entry is inserted.
    have hwaiting := (waiting_of_submitting hi hc (by simp [hs]) (by simp [hs, submitterPhase])).1
    have hmarker := hi.registry.marker (by rw [guardStage, hs]; rfl) hc.cancels
    have hworker : τ.worker ≠ .finished := by
      intro hw
      rw [hw] at hwaiting
      cases hwaiting
    rw [if_pos (by simp [hmarker, hworker])] at h
    obtain ⟨_, rfl⟩ := Prod.mk.inj (Option.some.inj h)
    exact hc.submit (by simp [hs]) rfl
  case registerUnlock inserted =>
    obtain ⟨_, rfl⟩ := Prod.mk.inj (Option.some.inj h)
    cases inserted with
    | true => exact hc.submit (by simp [hs]) rfl
    | false => cases hcourse
  case send =>
    have hempty := (waiting_of_submitting hi hc (by simp [hs]) (by simp [hs, submitterPhase])).2
    simp only [hempty, Option.some.injEq, Prod.mk.injEq] at h
    obtain ⟨_, rfl⟩ := h
    exact hc.submit (by simp [hs]) rfl

theorem slotInCell_of_takeSlot (hi : TaskInvariant τ) (hc : OnCourse τ)
    (hw : τ.worker = .takeSlot) : τ.slotInCell = true := by
  have hreturned := submitter_of_placed hi.placed (by rw [hw]; rfl)
  by_contra hcell
  rcases hi.held.pending (hc.slot hw) (by simpa using hcell) (hc.pending (by rw [hw]; rfl)) with
    hunshared | hw'
  · rw [hreturned] at hunshared
    cases hunshared
  · rw [hw] at hw'
    cases hw'

theorem Executed.frame (h : Executed τ) (hkind : τ'.kind = τ.kind)
    (hinvocations : τ'.invocations = τ.invocations) (hreturned : τ'.returned = τ.returned)
    (hstatus : τ.status.isTerminal = true → τ'.status = τ.status) : Executed τ' := by
  obtain ⟨hone, hended, hresolved⟩ := h
  refine ⟨hinvocations.trans hone, by rw [hreturned, hended], fun hslot => ?_⟩
  rw [Task.hasSlot, hkind] at hslot
  obtain ⟨hterminal, hcancelled⟩ := hresolved hslot
  rw [hstatus hterminal]
  exact ⟨hterminal, hcancelled⟩

theorem OnCourse.work {τ' : Task} (hc : OnCourse τ) (hcancels : τ'.cancels = τ.cancels)
    (haborted : τ'.aborted = τ.aborted) (hsubmitter : τ'.submitter = τ.submitter)
    (hstraight : isStraight τ'.worker = true)
    (htracked : isUntracked τ'.worker = true → τ'.taskState = .queued)
    (hpending : isBeforeStart τ'.worker = true → τ'.status = .pending)
    (hslot : τ'.worker = .takeSlot → τ'.hasSlot = true)
    (hrun : hasRun τ'.worker = true → τ'.submitter = .returned ∧ Executed τ') : OnCourse τ' where
  cancels := hcancels.trans hc.cancels
  aborted := haborted.trans hc.aborted
  submitter := hsubmitter ▸ hc.submitter
  worker := hstraight
  tracked := htracked
  pending := hpending
  slot := hslot
  run := hrun

theorem onCourse_of_workerStep {outcome : RunOutcome} (hi : TaskInvariant τ) (hc : OnCourse τ)
    (h : workerStep t outcome g τ = some (g', τ')) : OnCourse τ' := by
  have hcourse := hc.worker
  have hterminal : τ.status.isTerminal = true → τ'.status = τ.status :=
    (status_of_taskStep hi.held (.worker h : TaskStep t g τ (.worker t outcome) g' τ')).of_terminal
  cases hw : τ.worker <;> simp only [workerStep, hw] at h hcourse
  case absent | queued | finished => cases h
  case refusedGuard | refusedClosure | dropReceiver | destroyClosure | destroyGuard =>
    cases hcourse
  case recv =>
    split at h <;> cases h
    exact hc.work rfl rfl rfl rfl (fun _ => hc.tracked (by rw [hw]; rfl))
      (fun _ => hc.pending (by rw [hw]; rfl)) (by simp) (by simp [hasRun])
  case markStarted =>
    rw [hc.tracked (by rw [hw]; rfl)] at h
    obtain ⟨_, rfl⟩ := Prod.mk.inj (Option.some.inj h)
    exact hc.work rfl rfl rfl rfl (by simp [isUntracked])
      (fun _ => hc.pending (by rw [hw]; rfl)) (by simp) (by simp [hasRun])
  case startLock =>
    simp only [map_acquire_eq_some, Prod.mk.injEq] at h
    obtain ⟨_, _, rfl⟩ := h
    exact hc.work rfl rfl rfl rfl (by simp [isUntracked])
      (fun _ => hc.pending (by rw [hw]; rfl)) (by simp) (by simp [hasRun])
  case start =>
    obtain ⟨_, rfl⟩ := Prod.mk.inj (Option.some.inj h)
    exact hc.work rfl rfl rfl rfl (by simp [isUntracked])
      (fun _ => hc.pending (by rw [hw]; rfl)) (by simp) (by simp [hasRun])
  case startUnlock =>
    obtain ⟨_, rfl⟩ := Prod.mk.inj (Option.some.inj h)
    have hpending := hc.pending (by rw [hw]; rfl)
    cases hslot : τ.hasSlot with
    | true =>
        exact hc.work rfl rfl rfl (by simp [Task.enterTask, hslot, isStraight])
          (by simp [Task.enterTask, hslot, isUntracked]) (fun _ => hpending) (fun _ => hslot)
          (by simp [Task.enterTask, hslot, hasRun])
    | false =>
        exact hc.work rfl rfl rfl (by simp [Task.enterTask, hslot, isStraight])
          (by simp [Task.enterTask, hslot, isUntracked]) (fun _ => hpending)
          (by simp [Task.enterTask, hslot]) (by simp [Task.enterTask, hslot, hasRun])
  case takeSlot =>
    rw [if_pos (slotInCell_of_takeSlot hi hc hw)] at h
    obtain ⟨_, rfl⟩ := Prod.mk.inj (Option.some.inj h)
    exact hc.work rfl rfl rfl rfl (by simp [isUntracked])
      (fun _ => hc.pending (by rw [hw]; rfl)) (by simp) (by simp [hasRun])
  case startSlot =>
    rw [if_pos (hc.pending (by rw [hw]; rfl))] at h
    obtain ⟨_, rfl⟩ := Prod.mk.inj (Option.some.inj h)
    exact hc.work rfl rfl rfl rfl (by simp [isUntracked]) (by simp [isBeforeStart]) (by simp)
      (by simp [hasRun])
  case invoke =>
    obtain ⟨_, rfl⟩ := Prod.mk.inj (Option.some.inj h)
    exact hc.work rfl rfl rfl rfl (by simp [isUntracked]) (by simp [isBeforeStart]) (by simp)
      (by simp [hasRun])
  case executing =>
    obtain ⟨_, rfl⟩ := Prod.mk.inj (Option.some.inj h)
    have hreturned := submitter_of_placed hi.placed (by rw [hw]; rfl)
    have hone := (hi.invoked.executing hw).1
    cases hslot : τ.hasSlot with
    | true =>
        exact hc.work rfl rfl rfl (by simp [isStraight]) (by simp [isUntracked])
          (by simp [isBeforeStart]) (by simp) (by simp [hasRun])
    | false =>
        refine hc.work rfl rfl rfl (by simp [isStraight]) (by simp [isUntracked])
          (by simp [isBeforeStart]) (by simp) fun _ => ⟨hreturned, hone, rfl, ?_⟩
        intro hslot'
        exact absurd (hslot.symm.trans hslot') Bool.false_ne_true
  case publish result =>
    obtain ⟨_, rfl⟩ := Prod.mk.inj (Option.some.inj h)
    have hreturned := submitter_of_placed hi.placed (by rw [hw]; rfl)
    obtain ⟨hone, hresult⟩ := hi.invoked.publish result hw
    exact hc.work rfl rfl rfl rfl (by simp [isUntracked]) (by simp [isBeforeStart]) (by simp)
      fun _ => ⟨hreturned, hone, by rw [hresult]; rfl, fun _ => ⟨rfl, by simp⟩⟩
  case wakePublished | complete =>
    obtain ⟨_, rfl⟩ := Prod.mk.inj (Option.some.inj h)
    exact hc.work rfl rfl rfl rfl (by simp [isUntracked]) (by simp [isBeforeStart]) (by simp)
      fun _ => hc.run (by rw [hw]; rfl)
  case ranClosure c =>
    rcases hstep : closureStep τ c with ⟨τ₁, next⟩
    obtain ⟨hreturned, hran⟩ := hc.run (by rw [hw]; rfl)
    simp only [Option.some.injEq, Prod.mk.injEq, hstep] at h
    obtain ⟨_, rfl⟩ := h
    obtain ⟨_, _, rfl⟩ := closureStep_frame hstep
    cases next <;> exact hc.work rfl rfl rfl rfl (by simp [isUntracked]) (by simp [isBeforeStart])
      (by simp) fun _ => ⟨hreturned, hran.frame rfl rfl rfl hterminal⟩
  case ranGuard d =>
    obtain ⟨hreturned, hran⟩ := hc.run (by rw [hw]; rfl)
    simp only [Option.map_eq_some_iff, Prod.mk.injEq, Prod.exists] at h
    obtain ⟨_, _, next, hstep, _, rfl⟩ := h
    obtain ⟨_, _, _, _, _, _, rfl⟩ := guardStep_frame hstep
    cases next <;> exact hc.work rfl rfl rfl rfl (by simp [isUntracked]) (by simp [isBeforeStart])
      (by simp) fun _ => ⟨hreturned, hran.frame rfl rfl rfl hterminal⟩

/-- Nobody stops the service, and neither its users nor the runtime give up task `t`. -/
def spares (t : TaskId) : Action → Bool
  | .callClose kind => kind != .stop
  | .submitter t' runtimeClosed => t' != t || !runtimeClosed
  | .destroy t' | .callCancel t' => t' != t
  | .callSubmit _ | .pickUp _ | .worker _ _ | .canceller _ _ | .closer _ | .sweepNext _ _
  | .sweep _ | .callWait _ | .waiter _ => true

def sparing (t : TaskId) (_ : ServiceState) (a : Action) : Prop := spares t a = true

instance (t : TaskId) (s : ServiceState) (a : Action) : Decidable (sparing t s a) :=
  inferInstanceAs (Decidable (spares t a = true))

theorem onCourse_of_taskStep (hi : TaskInvariant τ) (hc : OnCourse τ) (hspares : spares t a = true)
    (htaken : ¬ isTaken τ) (h : TaskStep t g τ a g' τ') : OnCourse τ' := by
  cases h with
  | @submitter runtimeClosed _ _ h =>
      cases runtimeClosed with
      | false => exact onCourse_of_submitterStep hi hc h
      | true => simp [spares] at hspares
  | worker h => exact onCourse_of_workerStep hi hc h
  | pickUp h =>
      simp only [pickUpStep, Option.ite_none_right_eq_some, Option.some.injEq] at h
      obtain ⟨hw, rfl⟩ := h
      have hrecv : (if τ.aborted then WorkerPc.dropReceiver else .recv) = .recv :=
        if_neg (by simp [hc.aborted])
      rw [hrecv]
      exact hc.work rfl rfl rfl rfl (fun _ => hc.tracked (by rw [hw]; rfl))
        (fun _ => hc.pending (by rw [hw]; rfl)) (by simp) (by simp [hasRun])
  | destroy | callCancel => simp [spares] at hspares
  | canceller h =>
      obtain ⟨_, _, _, hcancel, _⟩ := cancellerStep_cases h
      simp [hc.cancels] at hcancel
  | sweepNext hentry | sweep hentry | finishSweep hentry =>
      exact absurd ⟨_, by rw [hentry]; exact beq_self_eq_true _⟩ htaken

theorem onCourse_takeEntry {k : Nat} (hc : OnCourse τ) : OnCourse (takeEntry k τ) := by
  unfold takeEntry
  split
  · exact ⟨hc.cancels, hc.aborted, hc.submitter, hc.worker, hc.tracked, hc.pending, hc.slot,
      hc.run⟩
  · exact hc

theorem executed_of_finishes (hi : TaskInvariant τ) (hc : OnCourse τ) (h : τ.finishes ≠ []) :
    Executed τ := by
  have hstate := taskState_of_finishes hi h
  have hstraight := hc.worker
  have hrunning : ranPhase (workerPhase τ.worker) = some true →
      workerGuard (workerPhase τ.worker) = .alive → τ.submitter = .returned →
        τ.taskState = .running := by
    intro hran halive hreturned
    refine hi.tracked.running (hi.tracked.ran true hran) ?_
    rw [guardStage, hreturned]
    show GuardStage.isSwapped (workerGuard (workerPhase τ.worker)) = false
    rw [halive]
    rfl
  by_cases hrun : hasRun τ.worker = true
  · exact (hc.run hrun).2
  · exfalso
    by_cases huntracked : isUntracked τ.worker = true
    · rw [hc.tracked huntracked] at hstate
      cases hstate
    · have hphase : workerPhase τ.worker = .starting ∨ workerPhase τ.worker = .running := by
        cases hw : τ.worker <;> simp_all [hasRun, isUntracked, isStraight, workerPhase]
      have hreturned : τ.submitter = .returned := by
        rcases hphase with hphase | hphase <;>
          exact submitter_of_placed hi.placed (by rw [hphase]; rfl)
      have := hrunning (by rcases hphase with hphase | hphase <;> rw [hphase] <;> rfl)
        (by rcases hphase with hphase | hphase <;> rw [hphase] <;> rfl) hreturned
      rw [hstate] at this
      cases this

theorem finishes_of_executed (hi : TaskInvariant τ) (hone : τ.finishes.length = 1)
    (h : Executed τ) : τ.finishes = [true] := by
  obtain ⟨b, hb⟩ := List.length_eq_one_iff.mp hone
  have hflag := hi.tracked.flags b (by rw [hb]; exact List.mem_singleton_self b)
  have hever := hi.invoked.ever (by rw [h.1]; exact Nat.one_ne_zero)
  rw [hb, hflag, hever]

end

section

variable {taskCapacity : NonZeroUsize} {s s' : ServiceState} {a : Action} {t : TaskId} {τ : Task}

theorem sparing_of_driven (h : driven s a) : sparing t s a := by
  cases a <;> simp_all [driven, isDriven, sparing, spares]

/-- Without a stop call nobody takes a task out of the registry. -/
theorem not_isTaken_of_sparing (h : (service taskCapacity).ReachableUnder (sparing t) s)
    {i : TaskId} (hτ : s.tasks[i]? = some τ) : ¬ isTaken τ := by
  intro htaken
  have hs := ReachableUnder.reachable h
  obtain ⟨c, hc, hpc⟩ := isStopping_of_isTaken hs hτ htaken
  refine (closingView taskCapacity).not_isStop_of_reachableUnder ?_ h c hc ?_
  · rintro s₁ _ hspares rfl
    cases hspares
  · refine (closingView taskCapacity).isStop_of_isStopOnly hs c hc ?_
    rcases hpc with hpc | hpc <;> exact congrArg isStopOnly hpc

theorem onCourse_of_sparing (h : (service taskCapacity).ReachableUnder (sparing t) s) :
    ∀ τ, s.tasks[t]? = some τ → OnCourse τ := by
  refine ReachableUnder.invariant (P := fun s => ∀ τ, s.tasks[t]? = some τ → OnCourse τ) h
    (by simp [service]) ?_
  intro s a s' hs ih hspares hnext τ' hτ'
  rcases (effect_of_step hnext).tasks with
    ⟨kind, -, htasks⟩ | ⟨i, τ, τ₁, hτ, hstep, htasks⟩ | ⟨k, -, htasks⟩ | htasks
  · rw [htasks] at hτ'
    rcases getElem?_append_cases hτ' with hτ' | ⟨_, rfl⟩
    · exact ih τ' hτ'
    · exact onCourse_new kind
  · rw [htasks] at hτ'
    rcases getElem?_set_cases hτ' with ⟨rfl, rfl⟩ | ⟨_, hτ'⟩
    · have hi := taskInvariant_of_reachable (ReachableUnder.reachable hs) τ (mem_of_getElem? hτ)
      exact onCourse_of_taskStep hi (ih τ hτ) hspares (not_isTaken_of_sparing hs hτ) hstep
    · exact ih τ' hτ'
  · rw [htasks, List.getElem?_map, Option.map_eq_some_iff] at hτ'
    obtain ⟨τ, hτ, rfl⟩ := hτ'
    exact onCourse_takeEntry (ih τ hτ)
  · rw [htasks] at hτ'
    exact ih τ' hτ'

theorem accepted_of_run (h : (service taskCapacity).Reachable s)
    (hrun : (service taskCapacity).Run s s') (hτ : s.tasks[t]? = some τ)
    (haccepted : isAccepted τ.submitter = true) :
    ∃ τ', s'.tasks[t]? = some τ' ∧ isAccepted τ'.submitter = true := by
  refine task_of_run (P := fun τ => isAccepted τ.submitter = true) h hrun hτ haccepted ?_ ?_
  · intro k τ hτ
    unfold takeEntry
    split <;> exact hτ
  · intro t g τ a g' τ' _ hτ hstep
    by_contra hnot
    rw [isAccepted_before hstep (by simpa using hnot)] at hτ
    cases hτ

/-- Nobody gives the task up, and the callbacks return. -/
def calmSparing (t : TaskId) (x : ThreadedState ServiceState Actor) (b : ThreadAction Action) :
    Prop :=
  onSteps (sparing t) x b ∧ calm x b

instance (t : TaskId) (x : ThreadedState ServiceState Actor) (b : ThreadAction Action) :
    Decidable (calmSparing t x b) :=
  inferInstanceAs (Decidable (_ ∧ _))

theorem calmSparing_of_byThreads {x : ThreadedState ServiceState Actor} {b : ThreadAction Action}
    (h : byThreads driven x b) : calmSparing t x b := by
  refine ⟨?_, calm_of_byThreads h⟩
  cases b with
  | call i a => exact sparing_of_driven h.2
  | run i a => exact sparing_of_driven (s := x.state) h
  | newThread | back i => trivial

/-- A task that nobody gives up is executed exactly once before it gives its place
back, whatever happens to the others. So an orderly shutdown drains the service: at
rest it has terminated, every such task has been executed, and nobody waits. -/
theorem spared_task_is_executed {x : ThreadedState ServiceState Actor}
    (h : (threads taskCapacity).ReachableUnder (calmSparing t) x)
    (hτ : x.state.tasks[t]? = some τ) (haccepted : isAccepted τ.submitter = true) :
    (τ.finishes ≠ [] → Executed τ) ∧
      (∃ x', (threads taskCapacity).RunUnder (byThreads driven) x x' ∧
        AtRest (threads taskCapacity) (byThreads driven) x') ∧
      ∀ x', (threads taskCapacity).RunUnder (calmSparing t) x x' →
        AtRest (threads taskCapacity) (byThreads driven) x' →
          (∃ τ', x'.state.tasks[t]? = some τ' ∧ τ'.finishes = [true] ∧ Executed τ') ∧
            (x'.state.shared.isNotRunning = true → x'.state.shared.isTerminated = true ∧
              ∀ y ∈ x'.state.waiters, y = .waited ∨ y = .awaited) := by
  have hsparing : (service taskCapacity).ReachableUnder (sparing t) x.state :=
    reachable_of_threaded (RunUnder.mono (fun _ _ h => h.1) h)
  have hs := ReachableUnder.reachable hsparing
  refine ⟨fun hfinishes => ?_, exists_atRest (ReachableUnder.reachable h),
    fun x' hrun hrest => ?_⟩
  · exact executed_of_finishes (taskInvariant_of_reachable hs τ (mem_of_getElem? hτ))
      (onCourse_of_sparing hsparing τ hτ) hfinishes
  have hsteps : (service taskCapacity).RunUnder (sparing t) x.state x'.state :=
    run_of_threaded (RunUnder.mono (fun _ _ h => h.1) hrun)
  have hs' := Reachable.run hs (RunUnder.run hsteps)
  have hrest' := atRest_of_threaded (RunUnder.mono (fun _ _ h => h.2) (RunUnder.trans h hrun)) hrest
  refine ⟨?_, fun hclosed => ?_⟩
  · obtain ⟨τ', hτ', haccepted'⟩ := accepted_of_run hs (RunUnder.run hsteps) hτ haccepted
    have hi := taskInvariant_of_reachable hs' τ' (mem_of_getElem? hτ')
    have hc := onCourse_of_sparing (RunUnder.trans hsparing hsteps) τ' hτ'
    have hrested := restedTask_of_atRest hs' hrest' hτ'
    have hreturned : τ'.submitter = .returned := by
      rcases hrested.submitted with ⟨⟨reason, hrejected⟩, _⟩ | ⟨hreturned, _⟩
      · rw [hrejected] at haccepted'
        cases haccepted'
      · exact hreturned
    have hone := hrested.finished hreturned
    have hexecuted := executed_of_finishes hi hc (by intro hnil; simp [hnil] at hone)
    exact ⟨τ', hτ', finishes_of_executed hi hone hexecuted, hexecuted⟩
  · have hrested := rested_of_atRest hs' hrest'
    have hstored := isNotRunning_iff.mp hclosed
    refine ⟨isTerminated_iff.mpr ⟨hstored, by rw [hrested.idle]; rfl⟩, fun y hy => ?_⟩
    rcases hrested.waited y hy with hy | hy | ⟨hrunning, _⟩
    · exact .inl hy
    · exact .inr hy
    · exact absurd hrunning hstored

end

/-- A callable is queued when the service is shut down, and somebody waits. -/
theorem spared_task_is_executed_shutdown : ∃ x x',
    (threads oneSlot).executeUnder (calmSparing 0)
      (List.flatten [[.newThread, .newThread, .call 0 (.callSubmit .callable)],
        List.replicate 12 (.run 0 (.submitter 0 false)), [.back 0, .call 0 (.callWait false)],
        List.replicate 3 (.run 0 (.waiter 0)), [.call 1 (.callClose .shutdown)],
        List.replicate 8 (.run 1 (.closer 0)), [.back 1]]) (threads oneSlot).start = some x ∧
    x.state.waiters = [.parked 0] ∧ x.state.tasks.map (·.invocations) = [0] ∧
    (threads oneSlot).RunUnder (byThreads driven) x x' ∧
    (∃ τ, x'.state.tasks[0]? = some τ ∧ Executed τ) ∧
    x'.state.shared.isTerminated = true ∧ ∀ y ∈ x'.state.waiters, y = .waited ∨ y = .awaited := by
  have hexecute : ((threads oneSlot).executeUnder (calmSparing 0)
      (List.flatten [[.newThread, .newThread, .call 0 (.callSubmit .callable)],
        List.replicate 12 (.run 0 (.submitter 0 false)), [.back 0, .call 0 (.callWait false)],
        List.replicate 3 (.run 0 (.waiter 0)), [.call 1 (.callClose .shutdown)],
        List.replicate 8 (.run 1 (.closer 0)), [.back 1]]) (threads oneSlot).start).map
          (fun x => (x.state.waiters,
            x.state.tasks.map (fun τ => (τ.invocations, isAccepted τ.submitter)),
            x.state.shared.isNotRunning)) = some ([.parked 0], [(0, true)], true) := rfl
  obtain ⟨x, hx, hview⟩ := Option.map_eq_some_iff.mp hexecute
  simp only [Prod.mk.injEq] at hview
  obtain ⟨hparked, htasks, hclosed⟩ := hview
  obtain ⟨τ, htasks, hτ⟩ := List.map_eq_singleton_iff.mp htasks
  obtain ⟨hinvocations, haccepted⟩ := Prod.mk.inj hτ
  obtain ⟨-, ⟨x', hrun, hrest⟩, hdrained⟩ := spared_task_is_executed
    (t := 0) (runUnder_of_executeUnder hx) (by rw [htasks]; rfl) haccepted
  have hcalm : (threads oneSlot).RunUnder (calmSparing 0) x x' :=
    RunUnder.mono (fun _ _ => calmSparing_of_byThreads) hrun
  obtain ⟨⟨τ', hτ', -, hexecuted⟩, hterminated⟩ := hdrained x' hcalm hrest
  refine ⟨x, x', hx, hparked, by rw [htasks]; simp [hinvocations], hrun, ⟨τ', hτ', hexecuted⟩, ?_⟩
  have hsteps : (service oneSlot).RunUnder (sparing 0) x.state x'.state :=
    run_of_threaded (RunUnder.mono (fun _ _ h => h.1) hcalm)
  exact hterminated (isNotRunning_iff.mpr ((lifecycleView oneSlot).not_running_of_run
    (state_of_threaded (ReachableUnder.reachable (runUnder_of_executeUnder hx)))
    (RunUnder.run hsteps) (isNotRunning_iff.mp hclosed)))

end TokioExecutorProofs.BlockingDrain
