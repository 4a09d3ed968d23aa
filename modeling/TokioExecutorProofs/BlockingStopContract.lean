import TokioExecutorProofs.BlockingStop

/-!
The contract of one stop call on an undisturbed runtime: it accounts for exactly
the tasks that it keeps from starting. The abort request and the accounting hook
are two steps, and the contract depends on what a pool thread does between them.
-/

namespace TokioExecutorProofs.BlockingStopContract

open ServiceBasics
open BlockingServiceState
open BlockingTask
open BlockingService
open BlockingTaskPlacement
open BlockingTaskRegistry
open BlockingTaskTracking
open BlockingTaskInvariants
open BlockingTaskMoves
open BlockingSweeps
open BlockingTermination
open BlockingAdmission
open BlockingAccounting
open BlockingResults
open BlockingStopAccounts
open BlockingStop
open ProcessFamilies
open TransitionSystems

/-- The runtime is never shut down, no task is cancelled by the user, and there is
one stop call. -/
def isContractual (s : ServiceState) : Action → Bool
  | .submitter _ runtimeClosed => !runtimeClosed
  | .destroy _ | .callCancel _ => false
  | .callClose kind => kind != .stop || s.closers.all fun c => c.kind != .stop
  | .callSubmit _ | .pickUp _ | .worker _ _ | .canceller _ _ | .closer _ | .sweepNext _ _
  | .sweep _ | .callWait _ | .waiter _ => true

/-- A stop call is between its abort request and its accounting hook. -/
@[grind] def SweepPc.isBeforeHook : SweepPc → Bool
  | .finishQueued => true
  | .isFinished | .abort | .finish _ | .cancelUnstarted | .wakeCancelled | .dropHook _
  | .wakeDropped _ | .next _ => false

@[grind] def EntryPc.isBeforeHook : EntryPc → Bool
  | .absent | .registered | .taken _ | .removed | .gone => false
  | .sweeping _ p => SweepPc.isBeforeHook p

@[grind] def SubmitterPc.isAtSwap : SubmitterPc → Bool
  | .dropGuard .swap => true
  | _ => false

@[grind] def WorkerPc.isAtSwap : WorkerPc → Bool
  | .ranGuard .swap | .refusedGuard .swap | .destroyGuard .swap => true
  | _ => false

/-- The task is in the queue while a stop call is between its abort request and its
accounting hook. -/
def isExposed (τ : Task) : Bool := τ.taskState == .queued && EntryPc.isBeforeHook τ.entry

/-- No guard takes its task out of the queue between the abort request and the hook. -/
def isUnhurried (s : ServiceState) : Action → Bool
  | .submitter t _ =>
      (s.tasks[t]?).all fun τ => !(SubmitterPc.isAtSwap τ.submitter && isExposed τ)
  | .worker t _ => (s.tasks[t]?).all fun τ => !(WorkerPc.isAtSwap τ.worker && isExposed τ)
  | .callSubmit _ | .pickUp _ | .destroy _ | .callCancel _ | .canceller _ _ | .callClose _
  | .closer _ | .sweepNext _ _ | .sweep _ | .callWait _ | .waiter _ => true

def allowed (s : ServiceState) (a : Action) : Prop :=
  isContractual s a = true ∧ isUnhurried s a = true

instance (s : ServiceState) (a : Action) : Decidable (allowed s a) :=
  inferInstanceAs (Decidable (_ ∧ _))

/-! ### One task -/

/-- The payload is on its way to the user callable or waits for a pool thread. -/
@[grind] def WorkerPc.isIntact : WorkerPc → Bool
  | .absent | .queued | .recv | .markStarted => true
  | .startLock | .start | .startUnlock | .takeSlot | .startSlot | .invoke | .executing
  | .publish _ | .wakePublished | .ranClosure _ | .ranGuard _ | .refusedGuard _
  | .refusedClosure _ | .dropReceiver | .destroyClosure _ | .destroyGuard _ | .complete
  | .finished => false

structure Contractual (τ : Task) : Prop where
  cancels : τ.cancels = []
  intact : WorkerPc.isIntact τ.worker = true ∨ τ.aborted = true ∨ τ.everRunning = true ∨
    τ.taskState = .finished
  aborted : τ.aborted = true → EntryPc.hasAborted τ.entry = true
  released : EntryPc.isReleased τ.entry = true → τ.everRunning = true ∨ τ.taskState = .finished
  claimed : τ.everRunning = false → τ.taskState = .finished →
    EntryPc.isWon τ.entry = true ∨ τ.countedBy ≠ []

section

variable {t : TaskId} {g g' : TokioExecutorServiceState} {τ τ' : Task} {a : Action}

theorem finished_of_not_queued (hi : TaskInvariant τ) (hne : τ.taskState ≠ .queued) :
    τ.everRunning = true ∨ τ.taskState = .finished := by
  cases hever : τ.everRunning with
  | true => exact .inl rfl
  | false =>
      have hnot := hi.tracked.notRunning hever
      cases hstate : τ.taskState with
      | queued => exact absurd hstate hne
      | running => exact absurd hstate hnot
      | finished => exact .inr rfl

theorem aborted_of_taskStep (hcancels : τ.cancels = []) (h : TaskStep t g τ a g' τ') :
    τ'.aborted = τ.aborted ∨ τ'.aborted = true ∧ EntryPc.hasAborted τ'.entry = true := by
  cases h with
  | submitter h =>
      obtain ⟨_, _, _, _, _, _, _, _, _, rfl, _⟩ := submitterStep_frame h
      exact .inl rfl
  | worker h =>
      obtain ⟨_, _, _, _, _, _, _, _, _, _, _, _, rfl, _, _⟩ := workerStep_frame h
      exact .inl rfl
  | pickUp h =>
      unfold pickUpStep at h
      split at h <;> cases h
      exact .inl rfl
  | destroy h =>
      unfold destroyStep at h
      split at h <;> cases h
      exact .inl rfl
  | callCancel h =>
      unfold callCancelStep at h
      split at h <;> cases h
      exact .inl rfl
  | canceller h =>
      obtain ⟨_, _, _, hc, _⟩ := cancellerStep_cases h
      simp [hcancels] at hc
  | sweepNext | finishSweep => exact .inl rfl
  | @sweep k p _ _ _ hentry hstep =>
      cases p <;> simp only [sweepStep] at hstep
      case abort =>
        simp only [Option.some.injEq, Prod.mk.injEq] at hstep
        obtain ⟨_, rfl, rfl⟩ := hstep
        exact .inr ⟨rfl, rfl⟩
      case finish =>
        simp only [Option.map_eq_some_iff, Prod.mk.injEq, Prod.exists] at hstep
        obtain ⟨_, _, _, _, rfl, _⟩ := hstep
        unfold Task.recordFinish
        split <;> exact .inl rfl
      case finishQueued =>
        unfold Task.finishQueued at hstep
        split at hstep <;> simp only [Option.some.injEq, Prod.mk.injEq] at hstep <;>
          obtain ⟨_, rfl, _⟩ := hstep <;> exact .inl rfl
      case cancelUnstarted =>
        unfold Task.cancelUnstarted at hstep
        split at hstep <;> simp only [Option.some.injEq, Prod.mk.injEq] at hstep <;>
          obtain ⟨_, rfl, _⟩ := hstep <;> exact .inl rfl
      case dropHook =>
        obtain ⟨_, _, heq⟩ := dropSlotRef_frame τ τ.payloadSlotRef
        simp only [Option.some.injEq, Prod.mk.injEq, heq] at hstep
        obtain ⟨_, rfl, _⟩ := hstep
        exact .inl rfl
      case next => cases hstep
      all_goals
        simp only [Option.some.injEq, Prod.mk.injEq] at hstep
        obtain ⟨_, rfl, _⟩ := hstep
        exact .inl rfl

theorem intact_of_submitterStep (hc : Contractual τ)
    (h : submitterStep t false g τ = some (g', τ'))
    (hkeep : τ.aborted = true ∨ τ.everRunning = true ∨ τ.taskState = .finished →
      τ'.aborted = true ∨ τ'.everRunning = true ∨ τ'.taskState = .finished) :
    WorkerPc.isIntact τ'.worker = true ∨ τ'.aborted = true ∨ τ'.everRunning = true ∨
      τ'.taskState = .finished := by
  by_cases hs : τ.submitter = .spawn
  · simp only [submitterStep, hs, Bool.false_eq_true, if_false, Option.some.injEq,
      Prod.mk.injEq] at h
    obtain ⟨_, rfl⟩ := h
    exact .inl rfl
  · obtain ⟨_, _, _, _, _, _, _, _, _, rfl, hworker⟩ := submitterStep_frame h
    rcases hworker with rfl | ⟨hspawn, _⟩
    · exact hc.intact.imp_right hkeep
    · exact absurd hspawn hs

theorem intact_of_workerStep {outcome : RunOutcome} (hi : TaskInvariant τ) (hc : Contractual τ)
    (h : workerStep t outcome g τ = some (g', τ'))
    (hkeep : τ.aborted = true ∨ τ.everRunning = true ∨ τ.taskState = .finished →
      τ'.aborted = true ∨ τ'.everRunning = true ∨ τ'.taskState = .finished) :
    WorkerPc.isIntact τ'.worker = true ∨ τ'.aborted = true ∨ τ'.everRunning = true ∨
      τ'.taskState = .finished := by
  rcases hc.intact with hintact | hrest
  case inr => exact .inr (hkeep hrest)
  cases hw : τ.worker <;> simp only [workerStep, hw] at h
  case absent | queued | finished => cases h
  case recv =>
    split at h <;> simp only [Option.some.injEq, Prod.mk.injEq, reduceCtorEq] at h
    obtain ⟨_, rfl⟩ := h
    exact .inl rfl
  case markStarted =>
    cases hstate : τ.taskState with
    | queued =>
        simp only [hstate, Option.some.injEq, Prod.mk.injEq] at h
        rw [← h.2]
        exact .inr (.inr (.inl rfl))
    | running | finished =>
        have := finished_of_not_queued hi (by simp [hstate])
        exact .inr (hkeep (.inr this))
  all_goals simp [hw, WorkerPc.isIntact] at hintact

theorem intact_of_taskStep {s : ServiceState} (hallowed : isContractual s a = true)
    (hi : TaskInvariant τ) (hc : Contractual τ) (h : TaskStep t g τ a g' τ') :
    WorkerPc.isIntact τ'.worker = true ∨ τ'.aborted = true ∨ τ'.everRunning = true ∨
      τ'.taskState = .finished := by
  have hkeep : τ.aborted = true ∨ τ.everRunning = true ∨ τ.taskState = .finished →
      τ'.aborted = true ∨ τ'.everRunning = true ∨ τ'.taskState = .finished := by
    rintro (haborted | hever | hfinished)
    · rcases aborted_of_taskStep hc.cancels h with hsame | hnow
      · exact .inl (hsame.trans haborted)
      · exact .inl hnow.1
    · exact .inr (.inl ((taskStep_frame h).2.2.2.1 hever))
    · exact .inr (.inr ((trackerMove_of_taskStep hi h).finished hfinished).1)
  cases h with
  | submitter h =>
      obtain rfl : _ = false := by simpa [isContractual] using hallowed
      exact intact_of_submitterStep hc h hkeep
  | worker h => exact intact_of_workerStep hi hc h hkeep
  | pickUp h =>
      unfold pickUpStep at h
      split at h <;> cases h
      cases haborted : τ.aborted with
      | true => exact .inr (.inl rfl)
      | false => exact .inl (by simp [WorkerPc.isIntact])
  | destroy | callCancel => cases hallowed
  | canceller h =>
      obtain ⟨_, _, _, hcancel, _⟩ := cancellerStep_cases h
      simp [hc.cancels] at hcancel
  | sweep _ hstep =>
      obtain ⟨_, _, _, _, _, rfl⟩ := sweepStep_frame hstep
      exact hc.intact.imp_right hkeep
  | sweepNext | finishSweep => exact hc.intact.imp_right hkeep

theorem not_intact_of_perishing (hi : TaskInvariant τ) (h : isPerishing τ) :
    WorkerPc.isIntact τ.worker = false := by
  rw [← Bool.not_eq_true]
  intro hintact
  have hphase : workerGuard (workerPhase τ.worker) = .alive ∧ workerPhase τ.worker ≠ .ended := by
    cases hw : τ.worker <;> simp [hw, WorkerPc.isIntact] at hintact <;>
      simp [workerPhase, workerGuard]
  rcases h with hstage | hended
  · exact hstage (guardStage_of_placed hi.placed hphase.1)
  · exact hphase.2 hended

/-- A payload that dies while its entry is untouched belongs to a task that has
started or is finished. -/
theorem settled_of_not_intact (hc : Contractual τ) (hintact : WorkerPc.isIntact τ.worker = false)
    (hentry : EntryPc.hasAborted τ.entry = false) :
    τ.everRunning = true ∨ τ.taskState = .finished := by
  rcases hc.intact with h | h | h
  · rw [hintact] at h
    cases h
  · rw [hc.aborted h] at hentry
    cases hentry
  · exact h

theorem released_of_taskStep (hi : TaskInvariant τ) (ha : Accounted τ) (hc : Contractual τ)
    (h : TaskStep t g τ a g' τ') (hreleased : EntryPc.isReleased τ'.entry = true) :
    τ'.everRunning = true ∨ τ'.taskState = .finished := by
  suffices hbefore : τ.everRunning = true ∨ τ.taskState = .finished from
    hbefore.imp (taskStep_frame h).2.2.2.1
      fun hfinished => ((trackerMove_of_taskStep hi h).finished hfinished).1
  cases entryMove_of_taskStep hi h with
  | keep hentry => exact hc.released (hentry ▸ hreleased)
  | register _ _ hentry' | sweepNext _ hentry' =>
      rw [hentry'] at hreleased
      cases hreleased
  | dropHook hs =>
      have habsent := hi.registry.absent.mpr (by rw [hs]; rfl)
      have hended := ha.unregistered (.inr hs)
      exact settled_of_not_intact hc (not_intact_of_perishing hi (.inr hended))
        (by rw [habsent]; rfl)
  | remove hsite hentry =>
      rcases hsite with hstage | ⟨j, hj⟩
      · exact settled_of_not_intact hc
          (not_intact_of_perishing hi (.inl (by simp [hstage]))) (by rw [hentry]; rfl)
      · simp [hc.cancels] at hj
  | drop hentry => exact hc.released (by rw [hentry]; rfl)
  | sweep _ hentry hentry' _ hnew =>
      rw [hentry'] at hreleased
      rcases hnew hreleased with hold | hwon | ⟨rfl, hw⟩ | hstate
      · exact hc.released (by rw [hentry]; exact hold)
      · exact .inr (hi.tracked.entryWon (by rw [hentry]; exact hwon)).2
      · exact settled_of_not_intact hc (by rw [hw]; rfl) (by rw [hentry]; rfl)
      · exact finished_of_not_queued hi hstate
  | finishSweep hentry => exact hc.released (by rw [hentry]; rfl)

theorem isAtSwap_of_submitterStep {runtimeClosed : Bool}
    (h : submitterStep t runtimeClosed g τ = some (g', τ'))
    (hne : τ'.taskState ≠ τ.taskState) : SubmitterPc.isAtSwap τ.submitter = true := by
  cases hs : τ.submitter <;> simp only [submitterStep, hs] at h
  case dropGuard d =>
    simp only [Option.map_eq_some_iff, Prod.mk.injEq, Prod.exists] at h
    obtain ⟨_, _, _, hstep, _, rfl⟩ := h
    have hmove := guardMove_of_step hstep
    rcases taskState_of_guardMove hmove with hsame | ⟨rfl, _, _⟩
    · exact absurd hsame hne
    · rfl
  case dropClosure c =>
    rcases hc : closureStep τ c with ⟨τ₁, next⟩
    obtain ⟨_, _, rfl⟩ := closureStep_frame hc
    simp only [Option.some.injEq, Prod.mk.injEq, hc] at h
    exact absurd (by rw [← h.2]) hne
  case dropHook =>
    obtain ⟨_, _, heq⟩ := dropSlotRef_frame τ τ.payloadSlotRef
    simp only [Option.some.injEq, Prod.mk.injEq, heq] at h
    exact absurd (by rw [← h.2]) hne
  all_goals grind -linarith

theorem isAtSwap_of_workerStep {outcome : RunOutcome} (hfinished : τ'.taskState = .finished)
    (h : workerStep t outcome g τ = some (g', τ'))
    (hne : τ'.taskState ≠ τ.taskState) : WorkerPc.isAtSwap τ.worker = true := by
  cases hw : τ.worker <;> simp only [workerStep, hw] at h
  case ranGuard d | refusedGuard d | destroyGuard d =>
    simp only [Option.map_eq_some_iff, Prod.mk.injEq, Prod.exists] at h
    obtain ⟨_, _, _, hstep, _, rfl⟩ := h
    have hmove := guardMove_of_step hstep
    rcases taskState_of_guardMove hmove with hsame | ⟨rfl, _, _⟩
    · exact absurd hsame hne
    · rfl
  case ranClosure c | refusedClosure c | destroyClosure c =>
    rcases hc : closureStep τ c with ⟨τ₁, next⟩
    obtain ⟨_, _, rfl⟩ := closureStep_frame hc
    simp only [Option.some.injEq, Prod.mk.injEq, hc] at h
    exact absurd (by rw [← h.2]) hne
  all_goals grind -linarith

/-- A guard that takes a task out of the queue meets a stop call before its hook. -/
theorem isExposed_of_swap (hi : TaskInvariant τ) (hc : Contractual τ)
    (hstage : guardStage τ = .dropping .swap) (hqueued : τ.taskState = .queued) :
    isExposed τ = true := by
  have hever := everRunning_of_queued hi hqueued
  have hunsettled : ¬ (τ.everRunning = true ∨ τ.taskState = .finished) := by
    simp [hever, hqueued]
  have hintact := not_intact_of_perishing hi (.inl (by simp [hstage]))
  have haborted : EntryPc.hasAborted τ.entry = true := by
    by_contra hnot
    exact hunsettled (settled_of_not_intact hc hintact (by simpa using hnot))
  have hreleased : EntryPc.isReleased τ.entry = false := by
    by_contra hreleased
    exact hunsettled (hc.released (by simpa using hreleased))
  have hwon : EntryPc.isWon τ.entry = false := by
    by_contra hwon
    exact hunsettled (.inr (hi.tracked.entryWon (by simpa using hwon)).2)
  have hhook : EntryPc.isBeforeHook τ.entry = true := by
    cases hentry : τ.entry with
    | sweeping k p => cases p <;> simp_all [EntryPc.isReleased, SweepPc.isReleased,
        EntryPc.hasAborted, SweepPc.hasAborted, EntryPc.isWon, SweepPc.isWon,
        EntryPc.isBeforeHook, SweepPc.isBeforeHook]
    | _ => simp_all [EntryPc.hasAborted, EntryPc.isReleased]
  simp [isExposed, hqueued, hhook]

theorem claim_of_taskStep (hi : TaskInvariant τ) (h : TaskStep t g τ a g' τ')
    (hclaimed : EntryPc.isWon τ.entry = true ∨ τ.countedBy ≠ []) :
    EntryPc.isWon τ'.entry = true ∨ τ'.countedBy ≠ [] := by
  rcases hclaimed with hwon | hcounted
  · cases entryMove_of_taskStep hi h with
    | keep hentry => exact .inl (hentry ▸ hwon)
    | register hs | dropHook hs =>
        rw [hi.registry.absent.mpr (by rw [hs]; rfl)] at hwon
        cases hwon
    | remove _ hentry | drop hentry | sweepNext hentry =>
        rw [hentry] at hwon
        cases hwon
    | sweep _ hentry hentry' hmove =>
        rw [hentry] at hwon
        rw [hentry']
        generalize τ'.taskState = state, τ'.finishes = finishes at hmove
        cases hmove with
        | win => cases hwon
        | other hsame => exact .inl (hsame.trans hwon)
        | @finish f next =>
            refine .inl ?_
            cases next
            · simp only [Option.elim]
              split <;> rfl
            · rfl
    | @finishSweep k counted hentry _ hcounted =>
        rw [hentry] at hwon
        obtain rfl : counted = true := hwon
        exact .inr (by simp [hcounted])
  · refine .inr fun hnil => ?_
    obtain ⟨k, hk⟩ := List.exists_mem_of_ne_nil _ hcounted
    have := (taskStep_frame h).2.2.2.2 k hk
    rw [hnil] at this
    cases this

theorem claimed_of_taskStep {s : ServiceState} (hτ : s.tasks[t]? = some τ)
    (hallowed : allowed s a) (hi : TaskInvariant τ) (hc : Contractual τ)
    (h : TaskStep t g τ a g' τ') (hnot : τ'.everRunning = false)
    (hfinished : τ'.taskState = .finished) :
    EntryPc.isWon τ'.entry = true ∨ τ'.countedBy ≠ [] := by
  cases trackerMove_of_taskStep hi h with
  | keep hstate hever =>
      exact claim_of_taskStep hi h (hc.claimed (hever ▸ hnot) (hstate ▸ hfinished))
  | start _ _ _ hever =>
      rw [hnot] at hever
      cases hever
  | swap hact hstage hstate _ hever =>
      exfalso
      have hqueued : τ.taskState = .queued := by
        have := hi.tracked.notRunning (hever ▸ hnot)
        cases hs : τ.taskState <;> simp_all
      have hexposed := isExposed_of_swap hi hc hstage hqueued
      have hne : τ'.taskState ≠ τ.taskState := by simp [hfinished, hqueued]
      have hunhurried := hallowed.2
      cases h with
      | submitter h =>
          simp [isUnhurried, hτ, hexposed, isAtSwap_of_submitterStep h hne] at hunhurried
      | worker h =>
          simp [isUnhurried, hτ, hexposed, isAtSwap_of_workerStep hfinished h hne] at hunhurried
      | _ => rcases hact with ⟨_, hact⟩ | ⟨_, hact⟩ <;> cases hact
  | sweep _ _ _ hentry' =>
      rw [hentry']
      exact .inl rfl
  | cancel _ hcancel => simp [hc.cancels] at hcancel

theorem contractual_of_taskStep {s : ServiceState} (hτ : s.tasks[t]? = some τ)
    (hallowed : allowed s a) (hi : TaskInvariant τ) (ha : Accounted τ) (hc : Contractual τ)
    (h : TaskStep t g τ a g' τ') : Contractual τ' where
  cancels := by
    rcases cancels_of_taskStep h with hsame | ⟨rfl, -⟩ | ⟨_, _, _, _, -, hcancel, -⟩
    · exact hsame.trans hc.cancels
    · cases hallowed.1
    · simp [hc.cancels] at hcancel
  intact := intact_of_taskStep hallowed.1 hi hc h
  aborted haborted := by
    rcases aborted_of_taskStep hc.cancels h with hsame | ⟨_, hentry⟩
    · exact hasAborted_of_taskStep hi h (hc.aborted (hsame ▸ haborted))
    · exact hentry
  released := released_of_taskStep hi ha hc h
  claimed := claimed_of_taskStep hτ hallowed hi hc h

theorem contractual_new (kind : TaskKind) : Contractual { kind := kind } where
  cancels := rfl
  intact := .inl rfl
  aborted h := by cases h
  released h := by cases h
  claimed _ h := by cases h

theorem contractual_takeEntry {k : Nat} (hc : Contractual τ) : Contractual (takeEntry k τ) := by
  unfold takeEntry
  split
  · rename_i hentry
    have haborted := hc.aborted
    have hclaimed := hc.claimed
    rw [hentry] at haborted hclaimed
    exact ⟨hc.cancels, hc.intact, haborted, nofun, hclaimed⟩
  · exact hc

end

section

variable {taskCapacity : NonZeroUsize} {s s' : ServiceState}

theorem contractual_of_reachable (h : (service taskCapacity).ReachableUnder allowed s) :
    ∀ τ ∈ s.tasks, Contractual τ := by
  refine ReachableUnder.invariant (P := fun s => ∀ τ ∈ s.tasks, Contractual τ) h
    (by simp [service]) ?_
  intro s a s' hs ih hallowed hnext
  have hreachable := ReachableUnder.reachable hs
  rcases (effect_of_step hnext).tasks with
    ⟨kind, -, htasks⟩ | ⟨t, τ, τ', hτ, hτstep, htasks⟩ | ⟨k, -, htasks⟩ | htasks
  · rw [htasks]
    exact forall_mem_append ih (contractual_new kind)
  · rw [htasks]
    have hmem := mem_of_getElem? hτ
    exact forall_mem_set ih (contractual_of_taskStep hτ hallowed
      (taskInvariant_of_reachable hreachable τ hmem) (accounted_of_reachable hreachable τ hmem)
      (ih τ hmem) hτstep)
  · rw [htasks]
    intro τ' hτ'
    obtain ⟨τ, hτ, rfl⟩ := List.mem_map.mp hτ'
    exact contractual_takeEntry (ih τ hτ)
  · rw [htasks]
    exact ih

theorem stop_unique (h : (service taskCapacity).ReachableUnder allowed s) :
    ∀ (k₁ k₂ : Nat) (c₁ c₂ : Closer), s.closers[k₁]? = some c₁ → s.closers[k₂]? = some c₂ →
      c₁.kind = .stop → c₂.kind = .stop → k₁ = k₂ := by
  refine ReachableUnder.invariant (P := fun s => ∀ (k₁ k₂ : Nat) (c₁ c₂ : Closer),
    s.closers[k₁]? = some c₁ → s.closers[k₂]? = some c₂ → c₁.kind = .stop → c₂.kind = .stop →
      k₁ = k₂) h (by simp [service]) ?_
  intro s a s' hs ih hallowed hnext
  have hkept : ∀ {k₀ : Nat} {c₀ c₀' : Closer}, s.closers[k₀]? = some c₀ → c₀'.kind = c₀.kind →
      ∀ (k : Nat) (c : Closer), (s.closers.set k₀ c₀')[k]? = some c →
        ∃ c₁, s.closers[k]? = some c₁ ∧ c₁.kind = c.kind := by
    intro k₀ c₀ c₀' hc₀ hkind k c hc
    rcases getElem?_set_cases hc with ⟨rfl, rfl⟩ | ⟨_, hc⟩
    · exact ⟨c₀, hc₀, hkind.symm⟩
    · exact ⟨c, hc, rfl⟩
  have hset : ∀ {k₀ : Nat} {c₀ c₀' : Closer}, s.closers[k₀]? = some c₀ → c₀'.kind = c₀.kind →
      ∀ (k₁ k₂ : Nat) (c₁ c₂ : Closer), (s.closers.set k₀ c₀')[k₁]? = some c₁ →
        (s.closers.set k₀ c₀')[k₂]? = some c₂ → c₁.kind = .stop → c₂.kind = .stop →
          k₁ = k₂ := by
    intro k₀ c₀ c₀' hc₀ hkind k₁ k₂ c₁ c₂ hc₁ hc₂ hstop₁ hstop₂
    obtain ⟨d₁, hd₁, hsame₁⟩ := hkept hc₀ hkind k₁ c₁ hc₁
    obtain ⟨d₂, hd₂, hsame₂⟩ := hkept hc₀ hkind k₂ c₂ hc₂
    exact ih k₁ k₂ d₁ d₂ hd₁ hd₂ (hsame₁.trans hstop₁) (hsame₂.trans hstop₂)
  cases effect_of_step hnext with
  | newTask | newWaiter | task | waiter => exact ih
  | newCloser kind =>
      have hfirst : ∀ {k : Nat} {c : Closer}, s.closers[k]? = some c → c.kind = .stop →
          kind ≠ .stop := by
        rintro k c hc hstop rfl
        have hnone := hallowed.1
        simp only [isContractual, bne_self_eq_false, Bool.false_or, List.all_eq_true,
          bne_iff_ne] at hnone
        exact hnone c (mem_of_getElem? hc) hstop
      intro k₁ k₂ c₁ c₂ hc₁ hc₂ hstop₁ hstop₂
      rcases getElem?_append_cases hc₁ with hc₁ | ⟨rfl, rfl⟩ <;>
        rcases getElem?_append_cases hc₂ with hc₂ | ⟨rfl, rfl⟩
      · exact ih k₁ k₂ c₁ c₂ hc₁ hc₂ hstop₁ hstop₂
      · exact absurd hstop₂ (hfirst hc₁ hstop₁)
      · exact absurd hstop₁ (hfirst hc₂ hstop₂)
      · rfl
  | sweepNext hc | finishSweep hc | take hc | endSweep hc => exact hset hc (by rfl)
  | closer hc hcstep => exact hset hc (report_of_closerStep hcstep).1

theorem counted_of_stopped {k : Nat} {c : Closer} {t : TaskId} {τ : Task}
    (h : (service taskCapacity).ReachableUnder allowed s) (hc : s.closers[k]? = some c)
    (hkind : c.kind = .stop) (hpc : c.pc = .returned) (hτ : s.tasks[t]? = some τ)
    (haccepted : isAccepted τ.submitter = true) (hnot : τ.everRunning = false) :
    k ∈ τ.countedBy := by
  have hreachable := ReachableUnder.reachable h
  have hmem := mem_of_getElem? hτ
  have hcontract := contractual_of_reachable h τ hmem
  have hidle : ∀ c ∈ s.closers, c.kind = .stop → c.pc = .returned := by
    intro c₁ hmem₁ hkind₁
    obtain ⟨k₁, hc₁⟩ := List.mem_iff_getElem?.mp hmem₁
    obtain rfl := stop_unique h k₁ k c₁ c hc₁ hc hkind₁ hkind
    obtain rfl := Option.some.inj (hc₁.symm.trans hc)
    exact hpc
  obtain ⟨hreleased, hwon⟩ := isReleased_of_stopped hreachable
    ⟨c, mem_of_getElem? hc, hkind, hpc⟩ hidle hτ haccepted
  have hfinished := (hcontract.released hreleased).resolve_left (by simp [hnot])
  have hcounted := (hcontract.claimed hnot hfinished).resolve_left (by simp [hwon])
  obtain ⟨k₁, hk₁⟩ := List.exists_mem_of_ne_nil _ hcounted
  -- The credit is in the report of a stop call, and there is only one.
  have hcredited := credited hreachable
  have hcredit := hcredited.credit k₁
  have hpos : 0 < s.tasks.countP (isCountedBy k₁) :=
    List.countP_pos_iff.mpr ⟨τ, hmem, by simpa [isCountedBy] using hk₁⟩
  cases hc₁ : s.closers[k₁]? with
  | none =>
      rw [hcredit, hc₁] at hpos
      cases hpos
  | some c₁ =>
      rw [hcredit, hc₁, Option.elim] at hpos
      have hkind₁ : c₁.kind = .stop := by
        cases hkind₁ : c₁.kind with
        | stop => rfl
        | shutdown => simp [hcredited.early c₁ (mem_of_getElem? hc₁) (.inr hkind₁)] at hpos
      rwa [stop_unique h k k₁ c c₁ hc hc₁ hkind hkind₁]

/-- A stop call accounts for exactly the tasks that it keeps from starting. -/
theorem stop_accounts_for_unstarted {k : Nat} {c : Closer}
    (h : (service taskCapacity).ReachableUnder allowed s) (hc : s.closers[k]? = some c)
    (hkind : c.kind = .stop) (hpc : c.pc = .returned) :
    (∀ τ ∈ s.tasks, isAccepted τ.submitter = true → τ.everRunning = true ∨
      τ.countedBy = [k] ∧ (τ.hasSlot = true → τ.status = .cancelled)) ∧
    c.cancellationCount =
      s.tasks.countP (fun τ => isAccepted τ.submitter && !τ.everRunning) := by
  have hreachable := ReachableUnder.reachable h
  constructor
  · intro τ hmem haccepted
    obtain ⟨t, hτ⟩ := List.mem_iff_getElem?.mp hmem
    cases hever : τ.everRunning with
    | true => exact .inl rfl
    | false =>
        have hcounted := counted_of_stopped h hc hkind hpc hτ haccepted hever
        have hne := List.ne_nil_of_mem hcounted
        obtain ⟨k₁, hk₁⟩ := List.length_eq_one_iff.mp
          ((accounted_of_reachable hreachable τ hmem).once hne).2
        rw [hk₁, List.mem_singleton] at hcounted
        refine .inr ⟨by rw [hk₁, hcounted], fun hslot => ?_⟩
        exact (taskInvariant_of_reachable hreachable τ hmem).held.counted hslot (.inr hne)
  · have hcredit := (credited hreachable).credit k
    rw [hc, Option.elim] at hcredit
    rw [← hcredit]
    refine List.countP_congr fun τ hmem => ?_
    have hi := taskInvariant_of_reachable hreachable τ hmem
    obtain ⟨t, hτ⟩ := List.mem_iff_getElem?.mp hmem
    simp only [isCountedBy, decide_eq_true_eq, Bool.and_eq_true, Bool.not_eq_true']
    constructor
    · intro hcounted
      have hne := List.ne_nil_of_mem hcounted
      have hgone := ((accounted_of_reachable hreachable τ hmem).once hne).1
      exact ⟨isAccepted_of_closed hi (by simp [hgone]), (hi.tracked.counted hne).1⟩
    · rintro ⟨haccepted, hnot⟩
      exact counted_of_stopped h hc hkind hpc hτ haccepted hnot

end

/-- The stop call claims a task that no pool thread has picked up. -/
theorem stop_accounts_for_unstarted_queued : ∃ s τ c, (service oneSlot).execute
    (.callSubmit .callable :: submission 0 ++ stopping 0 0) (service oneSlot).start = some s ∧
    s.tasks[0]? = some τ ∧ s.closers[0]? = some c ∧ τ.everRunning = false ∧
    τ.status = .cancelled ∧
    c.cancellationCount =
      s.tasks.countP (fun τ => isAccepted τ.submitter && !τ.everRunning) := by
  have hexecute : ((service oneSlot).executeUnder allowed
      (.callSubmit .callable :: submission 0 ++ stopping 0 0) (service oneSlot).start).map
        (fun s => (s.tasks.map fun τ => (τ.kind, τ.submitter, τ.everRunning),
          s.closers.map fun c => (c.kind, c.pc))) =
      some ([(.callable, .returned, false)], [(.stop, .returned)]) := rfl
  obtain ⟨s, hs, hview⟩ := Option.map_eq_some_iff.mp hexecute
  rw [Prod.mk.injEq, List.map_eq_singleton_iff, List.map_eq_singleton_iff] at hview
  obtain ⟨⟨τ, htasks, hτ⟩, ⟨c, hclosers, hc⟩⟩ := hview
  simp only [Prod.mk.injEq] at hτ hc
  have hclosed : s.closers[0]? = some c := by rw [hclosers]; rfl
  obtain ⟨hall, hcount⟩ := stop_accounts_for_unstarted (runUnder_of_executeUnder hs) hclosed
    hc.1 hc.2
  have hcounted := (hall τ (by simp [htasks]) (by rw [hτ.2.1]; rfl)).resolve_left
    (by simp [hτ.2.2])
  exact ⟨s, τ, c, execute_of_executeUnder hs, by rw [htasks]; rfl, hclosed, hτ.2.2,
    hcounted.2 (by rw [Task.hasSlot, hτ.1]; rfl), hcount⟩

/-- A pool thread that picks the task up between the abort request and the accounting
hook drops the guard, so that the hook finds nothing to claim. -/
theorem stop_misses_unstarted : ¬ ∀ s,
    (service oneSlot).ReachableUnder (fun s a => isContractual s a = true) s →
    ∀ (k : Nat) (c : Closer), s.closers[k]? = some c → c.kind = .stop → c.pc = .returned →
      (∀ τ ∈ s.tasks, isAccepted τ.submitter = true → τ.everRunning = true ∨
        τ.countedBy = [k] ∧ (τ.hasSlot = true → τ.status = .cancelled)) ∧
      c.cancellationCount =
        s.tasks.countP (fun τ => isAccepted τ.submitter && !τ.everRunning) := by
  have hexecute : ((service oneSlot).executeUnder (fun s a => isContractual s a = true)
      (.callSubmit .callable :: submission 0 ++
        .callClose .stop :: List.replicate 9 (.closer 0) ++
        .sweepNext 0 0 :: .sweep 0 :: .sweep 0 :: .pickUp 0 ::
        List.replicate 17 (.worker 0 .ok) ++ List.replicate 4 (.sweep 0) ++
        List.replicate 9 (.closer 0)) (service oneSlot).start).map
        (fun s => (s.tasks.map fun τ => (τ.submitter, τ.everRunning, τ.countedBy),
          s.closers.map fun c => (c.kind, c.pc))) =
      some ([(.returned, false, [])], [(.stop, .returned)]) := rfl
  obtain ⟨s, hs, hview⟩ := Option.map_eq_some_iff.mp hexecute
  rw [Prod.mk.injEq, List.map_eq_singleton_iff, List.map_eq_singleton_iff] at hview
  obtain ⟨⟨τ, htasks, hτ⟩, ⟨c, hclosers, hc⟩⟩ := hview
  simp only [Prod.mk.injEq] at hτ hc
  intro hclaim
  have hall := (hclaim s (runUnder_of_executeUnder hs) 0 c (by rw [hclosers]; rfl)
    hc.1 hc.2).1
  rcases hall τ (by simp [htasks]) (by rw [hτ.1]; rfl) with hever | ⟨hcounted, _⟩
  · simp [hτ.2.1] at hever
  · simp [hτ.2.2] at hcounted

end TokioExecutorProofs.BlockingStopContract
