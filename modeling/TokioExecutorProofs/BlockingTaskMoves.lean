import TokioExecutorProofs.BlockingSweeps

/-!
What one step can do to the tracker, to the registry entry and to the credit of
its task. The accounts of the stop calls and of the cancellations are derived
from these three views.
-/

namespace TokioExecutorProofs.BlockingTaskMoves

open ServiceBasics
open BlockingServiceState
open BlockingServiceState.TokioExecutorServiceState
open BlockingTask
open BlockingService
open BlockingTaskPlacement
open BlockingTaskRegistry
open BlockingTaskTracking
open BlockingTaskSlots
open BlockingTaskInvariants
open BlockingTaskEffects
open ProcessFamilies

/-- The stop call has requested the abort. -/
@[grind] def SweepPc.hasAborted : SweepPc → Bool
  | .isFinished | .abort => false
  | .finishQueued | .finish _ | .cancelUnstarted | .wakeCancelled | .dropHook _
  | .wakeDropped _ | .next _ => true

@[grind] def EntryPc.hasAborted : EntryPc → Bool
  | .absent | .registered | .taken _ | .removed => false
  | .sweeping _ p => SweepPc.hasAborted p
  | .gone => true

/-- The stop call has done with the entry what it will ever do to the task. -/
@[grind] def SweepPc.isReleased : SweepPc → Bool
  | .isFinished | .abort | .finishQueued | .finish _ | .cancelUnstarted | .wakeCancelled => false
  | .dropHook _ | .wakeDropped _ | .next _ => true

/-- Nobody will abort or cancel the task through the entry any more. -/
@[grind] def EntryPc.isReleased : EntryPc → Bool
  | .absent | .registered | .taken _ => false
  | .sweeping _ p => SweepPc.isReleased p
  | .removed | .gone => true

/-- A step of one of the two holders of the payload. -/
def isHolderStep (t : TaskId) (a : Action) : Prop :=
  (∃ runtimeClosed, a = .submitter t runtimeClosed) ∨ ∃ outcome, a = .worker t outcome

/-- What a step does to the tracker: the worker starts the task, or exactly one
of the guard's drop, a stop call and a cancellation finishes it. -/
inductive TrackerMove (t : TaskId) (a : Action) (τ τ' : Task) : Prop
  | keep (hstate : τ'.taskState = τ.taskState) (hever : τ'.everRunning = τ.everRunning)
  | start (hw : τ.worker = .markStarted) (hstate : τ.taskState = .queued)
      (hstate' : τ'.taskState = .running) (hever' : τ'.everRunning = true)
  | swap (hact : isHolderStep t a) (hstage : guardStage τ = .dropping .swap)
      (hstate : τ.taskState ≠ .finished) (hstate' : τ'.taskState = .finished)
      (hever : τ'.everRunning = τ.everRunning)
  | sweep {k} (hact : a = .sweep k) (hentry : τ.entry = .sweeping k .finishQueued)
      (hstate : τ.taskState = .queued) (hentry' : τ'.entry = .sweeping k (.finish .lock))
      (hstate' : τ'.taskState = .finished) (hever : τ'.everRunning = τ.everRunning)
  | cancel {j : Nat} (hact : a = .canceller t j) (hcancel : τ.cancels[j]? = some .finishQueued)
      (hstate : τ.taskState = .queued)
      (hstate' : τ'.taskState = .finished) (hever : τ'.everRunning = τ.everRunning)

/-- What a step does to the registry entry. -/
inductive EntryMove (a : Action) (τ τ' : Task) : Prop
  | keep (hentry : τ'.entry = τ.entry)
  | register (hs : τ.submitter = .register) (hw : τ.worker ≠ .finished)
      (hentry' : τ'.entry = .registered)
  | dropHook (hs : τ.submitter = .dropHook) (hentry' : τ'.entry = .gone)
  | remove (hsite : guardStage τ = .dropping (.remove .remove) ∨
        ∃ j : Nat, τ.cancels[j]? = some (.remove .remove))
      (hentry : τ.entry = .registered) (hentry' : τ'.entry = .removed)
  | drop (hentry : τ.entry = .removed) (hentry' : τ'.entry = .gone)
  | sweepNext {k} (hentry : τ.entry = .taken k) (hentry' : τ'.entry = .sweeping k .isFinished)
  | sweep {k p p'} (hact : a = .sweep k) (hentry : τ.entry = .sweeping k p)
      (hentry' : τ'.entry = .sweeping k p')
      (hmove : SweepMove τ p p' τ'.taskState τ'.finishes)
      (hreleased : SweepPc.isReleased p' = true → SweepPc.isReleased p = true ∨
        SweepPc.isWon p = true ∨ p = .isFinished ∧ τ.worker = .finished ∨
          τ.taskState ≠ .queued)
      (haborted : SweepPc.hasAborted p = true → SweepPc.hasAborted p' = true)
  | finishSweep {k counted} (hentry : τ.entry = .sweeping k (.next counted))
      (hentry' : τ'.entry = .gone)
      (hcounted : τ'.countedBy = if counted then τ.countedBy ++ [k] else τ.countedBy)

section

variable {t : TaskId} {g g' : TokioExecutorServiceState} {τ τ' : Task} {a : Action}

/-! ### The tracker -/

theorem taskState_of_guardMove {d : GuardPc} {next : Option GuardPc} {state : TrackerState}
    {finishes : List Bool} (h : GuardMove τ d next state finishes) :
    state = τ.taskState ∨ d = .swap ∧ τ.taskState ≠ .finished ∧ state = .finished := by
  cases h with
  | remove | finish => exact .inl rfl
  | swapFinished hstate => exact .inl hstate.symm
  | swapQueued hstate | swapRunning hstate => exact .inr ⟨rfl, by simp [hstate], rfl⟩

theorem taskState_of_cancelMove {c c' : CancelPc} {state : TrackerState} {finishes : List Bool}
    (h : CancelMove τ c c' state finishes) :
    state = τ.taskState ∨
      c = .finishQueued ∧ τ.taskState = .queued ∧ state = .finished := by
  cases h with
  | win hstate => exact .inr ⟨rfl, hstate, rfl⟩
  | finish | other => exact .inl rfl

theorem taskState_of_sweepMove {p p' : SweepPc} {state : TrackerState} {finishes : List Bool}
    (h : SweepMove τ p p' state finishes) :
    state = τ.taskState ∨
      p = .finishQueued ∧ p' = .finish .lock ∧ τ.taskState = .queued ∧ state = .finished := by
  cases h with
  | win hstate => exact .inr ⟨rfl, rfl, hstate, rfl⟩
  | finish | other => exact .inl rfl

theorem trackerMove_of_payloadMove {b : Actor} (hi : TaskInvariant τ)
    (hact : isHolderStep t a) (h : PayloadMove b g τ g' τ') : TrackerMove t a τ τ' := by
  cases h with
  | carry | accept | register | dropHook | start => exact .keep rfl rfl
  | markStarted hw hstate => exact .start hw hstate rfl rfl
  | markedAlready hw hstate =>
      exact absurd hstate (hi.tracked.notRunning (hi.tracked.ran false (by rw [hw]; rfl)))
  | @guard _ d _ next s w hd hstep =>
      have hmove := guardMove_of_step hstep
      obtain ⟨_, _, _, _, state, finishes, rfl⟩ := guardStep_frame hstep
      rcases taskState_of_guardMove hmove with hkeep | ⟨rfl, hne, hfinished⟩
      · exact .keep hkeep rfl
      · exact .swap hact hd hne hfinished rfl

theorem trackerMove_of_taskStep (hi : TaskInvariant τ) (h : TaskStep t g τ a g' τ') :
    TrackerMove t a τ τ' := by
  cases h with
  | submitter h =>
      exact trackerMove_of_payloadMove hi (.inl ⟨_, rfl⟩)
        (payloadMove_of_submitterStep hi.placed h)
  | worker h =>
      exact trackerMove_of_payloadMove hi (.inr ⟨_, rfl⟩) (payloadMove_of_workerStep hi.placed h)
  | pickUp h =>
      unfold pickUpStep at h
      split at h
      · obtain rfl := Option.some.inj h
        exact .keep rfl rfl
      · cases h
  | destroy h =>
      unfold destroyStep at h
      split at h
      · obtain rfl := Option.some.inj h
        exact .keep rfl rfl
      · cases h
  | callCancel h =>
      unfold callCancelStep at h
      split at h
      · obtain rfl := Option.some.inj h
        exact .keep rfl rfl
      · cases h
  | canceller h =>
      obtain ⟨c, τ₁, c', hc, hstep, rfl⟩ := cancellerStep_cases h
      have hmove := cancelMove_of_step hstep
      obtain ⟨_, _, _, _, state, _, _, rfl⟩ := cancelStep_frame hstep
      rcases taskState_of_cancelMove hmove with hkeep | ⟨rfl, hqueued, hfinished⟩
      · exact .keep hkeep rfl
      · exact .cancel rfl hc hqueued hfinished rfl
  | sweepNext | finishSweep => exact .keep rfl rfl
  | sweep hentry hstep =>
      have hmove := sweepMove_of_step hstep
      obtain ⟨_, _, state, _, _, rfl⟩ := sweepStep_frame hstep
      rcases taskState_of_sweepMove hmove with hkeep | ⟨rfl, rfl, hqueued, hfinished⟩
      · exact .keep hkeep rfl
      · exact .sweep rfl hentry hqueued rfl hfinished rfl

theorem TrackerMove.finished (h : TrackerMove t a τ τ') (hstate : τ.taskState = .finished) :
    τ'.taskState = .finished ∧ τ'.everRunning = τ.everRunning := by
  cases h with
  | keep hkeep hever => exact ⟨hkeep.trans hstate, hever⟩
  | start _ hqueued | sweep _ _ hqueued | cancel _ _ hqueued =>
      rw [hqueued] at hstate
      cases hstate
  | swap _ _ hne => exact absurd hstate hne

theorem TrackerMove.queued (h : TrackerMove t a τ τ') (hstate' : τ'.taskState = .queued) :
    τ.taskState = .queued := by
  cases h with
  | keep hkeep => exact hkeep.symm.trans hstate'
  | start _ _ hnot | swap _ _ _ hnot | sweep _ _ _ _ hnot | cancel _ _ _ hnot =>
      rw [hnot] at hstate'
      cases hstate'

theorem everRunning_of_queued (hi : TaskInvariant τ) (hstate : τ.taskState = .queued) :
    τ.everRunning = false := by
  by_contra hever
  have hever : τ.everRunning = true := by simpa using hever
  by_cases hswapped : GuardStage.isSwapped (guardStage τ) = true
  · rw [hi.tracked.swapped hswapped] at hstate
    cases hstate
  · rw [hi.tracked.running hever (by simpa using hswapped)] at hstate
    cases hstate

theorem finishes_of_queued (hi : TaskInvariant τ) (hstate : τ.taskState = .queued) :
    τ.starts = 0 ∧ τ.finishes = [] := by
  have hcons := hi.tracked.conserved
  rw [if_neg (by simp [hstate])] at hcons
  refine ⟨?_, List.eq_nil_of_length_eq_zero (by omega)⟩
  rw [hi.tracked.starts, everRunning_of_queued hi hstate]
  rfl

/-! ### The registry entry -/

theorem entryMove_of_removeMove {r : RemovePc} {next : Option RemovePc}
    (hsite : guardStage τ = .dropping (.remove r) ∨ ∃ j : Nat, τ.cancels[j]? = some (.remove r))
    (hdrop : RemovePc.dropsEntry r = true → τ.entry = .removed) (h : RemoveMove τ τ' r next) :
    EntryMove a τ τ' := by
  cases h with
  | remove hentry hentry' => exact .remove hsite hentry hentry'
  | absent _ hkeep | keep hkeep => exact .keep hkeep
  | dropEntry hentry' => exact .drop (hdrop rfl) hentry'

theorem entryMove_of_guardStep {b : Actor} {d : GuardPc} {next : Option GuardPc}
    (hr : Registry τ) (hd : guardStage τ = .dropping d)
    (h : guardStep b g τ d = some (g', τ', next)) : EntryMove a τ τ' := by
  rcases guardStep_entry h with ⟨r, next', rfl, hmove, _⟩ | ⟨_, _, hkeep, _⟩
  · refine entryMove_of_removeMove (.inl hd) (fun hdrop => ?_) hmove
    exact hr.removed_of_dropsEntry (by rwa [hd])
  · exact .keep hkeep

theorem entryMove_of_cancelStep {b : Actor} {j : Nat} {c c' : CancelPc} (hr : Registry τ)
    (hc : τ.cancels[j]? = some c) (h : cancelStep b g τ c = some (g', τ', c')) :
    EntryMove a τ τ' := by
  rcases cancelStep_entry h with ⟨r, next', rfl, hmove, _⟩ | ⟨_, _, _, hkeep⟩
  · exact entryMove_of_removeMove (.inr ⟨j, hc⟩) (hr.removed_of_cancel hc) hmove
  · exact .keep hkeep

theorem EntryMove.congr {τ₁ : Task} (h : EntryMove a τ τ₁) (hentry : τ'.entry = τ₁.entry)
    (hstate : τ'.taskState = τ₁.taskState) (hfinishes : τ'.finishes = τ₁.finishes)
    (hcountedBy : τ'.countedBy = τ₁.countedBy) : EntryMove a τ τ' := by
  cases h with
  | keep hkeep => exact .keep (hentry.trans hkeep)
  | register hs hw h' => exact .register hs hw (hentry.trans h')
  | dropHook hs h' => exact .dropHook hs (hentry.trans h')
  | remove hsite h h' => exact .remove hsite h (hentry.trans h')
  | drop h h' => exact .drop h (hentry.trans h')
  | sweepNext h h' => exact .sweepNext h (hentry.trans h')
  | sweep hact h h' hmove hreleased haborted =>
      exact .sweep hact h (hentry.trans h') (by rw [hstate, hfinishes]; exact hmove) hreleased
        haborted
  | finishSweep h h' hcounted =>
      exact .finishSweep h (hentry.trans h') (hcountedBy.trans hcounted)

theorem entryMove_of_payloadMove {b : Actor} (hi : TaskInvariant τ)
    (h : PayloadMove b g τ g' τ') : EntryMove a τ τ' := by
  cases h with
  | carry | accept | markStarted | markedAlready | start => exact .keep rfl
  | register hs _ hw => exact .register hs hw rfl
  | dropHook hs => exact .dropHook hs rfl
  | guard hd hstep => exact (entryMove_of_guardStep hi.registry hd hstep).congr rfl rfl rfl rfl

theorem released_of_sweepStep {k : Nat} {p p' : SweepPc}
    (h : sweepStep k g τ p = some (g', τ', p')) (hp : SweepPc.isReleased p' = true) :
    SweepPc.isReleased p = true ∨ SweepPc.isWon p = true ∨
      p = .isFinished ∧ τ.worker = .finished ∨ τ.taskState ≠ .queued := by
  cases p with
  | isFinished =>
      simp only [sweepStep, Option.some.injEq, Prod.mk.injEq] at h
      by_cases hw : τ.worker = .finished
      · exact .inr (.inr (.inl ⟨rfl, hw⟩))
      · rw [← h.2.2, if_neg hw] at hp
        cases hp
  | abort =>
      simp only [sweepStep, Option.some.injEq, Prod.mk.injEq] at h
      rw [← h.2.2] at hp
      cases hp
  | finishQueued =>
      refine .inr (.inr (.inr fun hqueued => ?_))
      simp only [sweepStep, Task.finishQueued, if_pos hqueued, Option.some.injEq,
        Prod.mk.injEq] at h
      rw [← h.2.2] at hp
      cases hp
  | finish | cancelUnstarted | wakeCancelled => exact .inr (.inl rfl)
  | dropHook | wakeDropped | next => exact .inl rfl

theorem aborted_of_sweepStep {k : Nat} {p p' : SweepPc}
    (h : sweepStep k g τ p = some (g', τ', p')) (hp : SweepPc.hasAborted p = true) :
    SweepPc.hasAborted p' = true := by
  cases p <;> simp only [sweepStep] at h
  case isFinished | abort => cases hp
  case finish =>
    simp only [Option.map_eq_some_iff, Prod.mk.injEq, Prod.exists] at h
    obtain ⟨_, next, _, _, _, rfl⟩ := h
    cases next
    · dsimp only
      split <;> rfl
    · rfl
  case finishQueued | cancelUnstarted | dropHook =>
    simp only [Option.some.injEq, Prod.mk.injEq] at h
    rw [← h.2.2]
    split <;> rfl
  case next => cases h
  all_goals
    simp only [Option.some.injEq, Prod.mk.injEq] at h
    rw [← h.2.2]
    rfl

theorem entryMove_of_taskStep (hi : TaskInvariant τ) (h : TaskStep t g τ a g' τ') :
    EntryMove a τ τ' := by
  cases h with
  | submitter h => exact entryMove_of_payloadMove hi (payloadMove_of_submitterStep hi.placed h)
  | worker h => exact entryMove_of_payloadMove hi (payloadMove_of_workerStep hi.placed h)
  | pickUp h =>
      exact entryMove_of_payloadMove hi (payloadMove_of_pickUpStep (g := g) (a := .worker t) h)
  | destroy h =>
      exact entryMove_of_payloadMove hi (payloadMove_of_destroyStep (g := g) (a := .worker t) h)
  | callCancel h =>
      unfold callCancelStep at h
      split at h
      · obtain rfl := Option.some.inj h
        exact .keep rfl
      · cases h
  | canceller h =>
      obtain ⟨c, τ₁, c', hc, hstep, rfl⟩ := cancellerStep_cases h
      exact (entryMove_of_cancelStep hi.registry hc hstep).congr rfl rfl rfl rfl
  | sweepNext hentry => exact .sweepNext hentry rfl
  | sweep hentry hstep =>
      have hmove := sweepMove_of_step hstep
      have hreleased := released_of_sweepStep hstep
      have haborted := aborted_of_sweepStep hstep
      exact .sweep rfl hentry rfl hmove hreleased haborted
  | finishSweep hentry => exact .finishSweep hentry rfl rfl

theorem EntryMove.of_gone (hi : TaskInvariant τ) (h : EntryMove a τ τ')
    (hgone : τ.entry = .gone) : τ'.entry = .gone := by
  have hclosed : isOpen (submitterPhase τ.submitter) = false := by
    by_contra hopen
    have := hi.registry.absent.mpr (by simpa using hopen)
    rw [hgone] at this
    cases this
  cases h with
  | keep hentry => exact hentry.trans hgone
  | register hs | dropHook hs =>
      rw [hs] at hclosed
      cases hclosed
  | remove _ hentry | drop hentry | sweepNext hentry | sweep _ hentry | finishSweep hentry =>
      rw [hgone] at hentry
      cases hentry

theorem hasAborted_of_taskStep (hi : TaskInvariant τ) (h : TaskStep t g τ a g' τ')
    (haborted : EntryPc.hasAborted τ.entry = true) : EntryPc.hasAborted τ'.entry = true := by
  have hmove := entryMove_of_taskStep hi h
  cases hentry : τ.entry with
  | gone =>
      rw [hmove.of_gone hi hentry]
      rfl
  | sweeping k p =>
      rw [hentry] at haborted
      cases hmove with
      | keep hkeep => rwa [hkeep, hentry]
      | sweep _ hentry₁ hentry' _ _ hforward =>
          obtain ⟨rfl, rfl⟩ := EntryPc.sweeping.inj (hentry.symm.trans hentry₁)
          rw [hentry']
          exact hforward haborted
      | finishSweep _ hentry' =>
          rw [hentry']
          rfl
      | register hs | dropHook hs =>
          have habsent := hi.registry.absent.mpr (by rw [hs]; rfl)
          rw [hentry] at habsent
          cases habsent
      | remove _ hother | drop hother | sweepNext hother =>
          rw [hentry] at hother
          cases hother
  | absent | registered | taken | removed =>
      rw [hentry] at haborted
      cases haborted

/-! ### The credit -/

/-- A stop call gives its credit in the last step of the loop body. -/
theorem countedBy_of_taskStep (h : TaskStep t g τ a g' τ') :
    τ'.countedBy = τ.countedBy ∨
      ∃ k counted, a = .sweep k ∧ τ.entry = .sweeping k (.next counted) ∧
        τ' = finishSweep k counted τ := by
  cases h with
  | submitter h =>
      obtain ⟨_, _, _, _, _, _, _, _, _, rfl, _⟩ := submitterStep_frame h
      exact .inl rfl
  | worker h =>
      obtain ⟨_, _, _, _, _, _, _, _, _, _, _, _, rfl, _, _⟩ := workerStep_frame h
      exact .inl rfl
  | pickUp h =>
      unfold pickUpStep at h
      split at h <;> cases h
      exact .inl rfl
  | destroy h =>
      unfold destroyStep at h
      split at h <;> cases h
      exact .inl rfl
  | callCancel h =>
      unfold callCancelStep at h
      split at h <;> cases h
      exact .inl rfl
  | canceller h =>
      obtain ⟨_, _, _, _, hstep, rfl⟩ := cancellerStep_cases h
      obtain ⟨_, _, _, _, _, _, _, rfl⟩ := cancelStep_frame hstep
      exact .inl rfl
  | sweep _ h =>
      obtain ⟨_, _, _, _, _, rfl⟩ := sweepStep_frame h
      exact .inl rfl
  | sweepNext => exact .inl rfl
  | finishSweep hentry => exact .inr ⟨_, _, rfl, hentry, rfl⟩

theorem cancels_of_taskStep (h : TaskStep t g τ a g' τ') :
    τ'.cancels = τ.cancels ∨
      a = .callCancel t ∧ τ' = { τ with cancels := τ.cancels ++ [.cancel] } ∨
      ∃ j c τ₁ c', a = .canceller t j ∧ τ.cancels[j]? = some c ∧
        cancelStep (.canceller t j) g τ c = some (g', τ₁, c') ∧
        τ' = { τ₁ with cancels := τ.cancels.set j c' } := by
  cases h with
  | submitter h =>
      obtain ⟨_, _, _, _, _, _, _, _, _, rfl, _⟩ := submitterStep_frame h
      exact .inl rfl
  | worker h =>
      obtain ⟨_, _, _, _, _, _, _, _, _, _, _, _, rfl, _, _⟩ := workerStep_frame h
      exact .inl rfl
  | pickUp h =>
      unfold pickUpStep at h
      split at h <;> cases h
      exact .inl rfl
  | destroy h =>
      unfold destroyStep at h
      split at h <;> cases h
      exact .inl rfl
  | callCancel h =>
      unfold callCancelStep at h
      split at h <;> cases h
      exact .inr (.inl ⟨rfl, rfl⟩)
  | canceller h =>
      obtain ⟨c, τ₁, c', hc, hstep, heq⟩ := cancellerStep_cases h
      exact .inr (.inr ⟨_, c, τ₁, c', rfl, hc, hstep, heq⟩)
  | sweep _ h =>
      obtain ⟨_, _, _, _, _, rfl⟩ := sweepStep_frame h
      exact .inl rfl
  | sweepNext | finishSweep => exact .inl rfl

/-! ### The end of a payload -/

theorem guardStage_of_payloadMove {a : Actor} (h : PayloadMove a g τ g' τ')
    (hstage : guardStage τ ≠ .alive) : guardStage τ' ≠ .alive := by
  have hclosed := isOpen_of_guardStage hstage
  have hworker : ∀ w, workerGuard (workerPhase w) = workerGuard (workerPhase τ.worker) →
      guardStageOf (workerPhase w) (submitterPhase τ.submitter) ≠ .alive := by
    intro w hw
    rw [guardStageOf_congr hw]
    exact hstage
  cases h with
  | carry _ _ _ _ _ _ hsame =>
      rcases hsame with hsame | ⟨halive, _⟩
      · exact fun halive => hstage (hsame.symm.trans halive)
      · exact absurd halive hstage
  | accept hs | register hs | dropHook hs =>
      rw [hs] at hclosed
      cases hclosed
  | markStarted hw | start hw => exact hworker _ (by rw [hw]; rfl)
  | markedAlready hw => exact hworker _ (by rw [workerPhase_enterTask, hw]; rfl)
  | guard _ _ _ _ _ _ _ hafter =>
      intro halive
      exact GuardStage.after_ne_alive _ (hafter.symm.trans halive)

theorem ended_of_payloadMove {a : Actor} (h : PayloadMove a g τ g' τ')
    (hended : workerPhase τ.worker = .ended) : workerPhase τ'.worker = .ended := by
  have henter := workerPhase_enterTask τ
  have hnone : ∀ w, ranPhase w = none → w = .ended := by
    intro w hw
    cases w <;> first | rfl | cases hw
  have hkeep : ∀ w, (∀ b, ranPhase (workerPhase w) = some b →
      ranPhase (workerPhase τ.worker) = some b) → workerPhase w = .ended := by
    intro w hran
    apply hnone
    cases hw : ranPhase (workerPhase w) with
    | none => rfl
    | some b =>
        have := hran b hw
        rw [hended] at this
        cases this
  cases h with
  | carry _ _ _ _ hran => exact hkeep _ hran
  | guard _ _ _ _ _ hran => exact hkeep _ hran
  | accept | register | dropHook => exact hended
  | markStarted hw | markedAlready hw | start hw =>
      rw [hw] at hended
      cases hended

/-- The payload of a task is being destroyed or has been: by its holder, or by
Tokio, which keeps no closure that could receive it. -/
def isPerishing (τ : Task) : Prop :=
  guardStage τ ≠ .alive ∨ workerPhase τ.worker = .ended

theorem payload_of_taskStep (hp : Placed τ) (h : TaskStep t g τ a g' τ') :
    (∃ b, PayloadMove b g τ g' τ') ∨ τ'.submitter = τ.submitter ∧ τ'.worker = τ.worker := by
  cases h with
  | submitter h => exact .inl ⟨_, payloadMove_of_submitterStep hp h⟩
  | worker h => exact .inl ⟨_, payloadMove_of_workerStep hp h⟩
  | pickUp h => exact .inl ⟨.worker t, payloadMove_of_pickUpStep h⟩
  | destroy h => exact .inl ⟨.worker t, payloadMove_of_destroyStep h⟩
  | callCancel h =>
      unfold callCancelStep at h
      split at h <;> cases h
      exact .inr ⟨rfl, rfl⟩
  | canceller h =>
      obtain ⟨_, _, _, _, hstep, rfl⟩ := cancellerStep_cases h
      obtain ⟨_, _, _, _, _, _, _, rfl⟩ := cancelStep_frame hstep
      exact .inr ⟨rfl, rfl⟩
  | sweep _ h =>
      obtain ⟨_, _, _, _, _, rfl⟩ := sweepStep_frame h
      exact .inr ⟨rfl, rfl⟩
  | sweepNext | finishSweep => exact .inr ⟨rfl, rfl⟩

theorem guardStage_of_taskStep (hp : Placed τ) (h : TaskStep t g τ a g' τ')
    (hstage : guardStage τ ≠ .alive) : guardStage τ' ≠ .alive := by
  rcases payload_of_taskStep hp h with ⟨_, hmove⟩ | ⟨hs, hw⟩
  · exact guardStage_of_payloadMove hmove hstage
  · rwa [guardStage, hs, hw]

theorem ended_of_taskStep (hp : Placed τ) (h : TaskStep t g τ a g' τ')
    (hended : workerPhase τ.worker = .ended) : workerPhase τ'.worker = .ended := by
  rcases payload_of_taskStep hp h with ⟨_, hmove⟩ | ⟨_, hw⟩
  · exact ended_of_payloadMove hmove hended
  · rwa [hw]

theorem isPerishing_of_taskStep (hp : Placed τ) (h : TaskStep t g τ a g' τ')
    (hperish : isPerishing τ) : isPerishing τ' :=
  hperish.imp (guardStage_of_taskStep hp h) (ended_of_taskStep hp h)

theorem not_isPerishing_of_markStarted (hp : Placed τ) (hw : τ.worker = .markStarted) :
    ¬ isPerishing τ := by
  rintro (hstage | hended)
  · rw [Placed, hw] at hp
    rcases consistent_cases hp with h | h | h | h | ⟨_, _, _, _, hs⟩
    all_goals try simp [workerPhase] at h
    exact hstage (by rw [guardStage, hw, hs]; rfl)
  · rw [hw] at hended
    cases hended

end

end TokioExecutorProofs.BlockingTaskMoves
