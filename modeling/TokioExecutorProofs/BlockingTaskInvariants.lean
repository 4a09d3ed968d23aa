import TokioExecutorProofs.BlockingTaskSlots

/-!
What the worker does with the user callable, and the five groups of per-task
invariants together.
-/

namespace TokioExecutorProofs.BlockingTaskInvariants

open ServiceBasics
open BlockingServiceState
open BlockingServiceState.TokioExecutorServiceState
open BlockingTask
open BlockingService
open BlockingTaskPlacement
open BlockingTaskRegistry
open BlockingTaskTracking
open BlockingTaskSlots

structure Invoked (τ : Task) : Prop where
  before : isBeforeInvoke τ.worker = true → τ.invocations = 0 ∧ τ.returned = none
  executing : τ.worker = .executing → τ.invocations = 1 ∧ τ.returned = none
  publish : ∀ o, τ.worker = .publish o → τ.invocations = 1 ∧ τ.returned = some o
  once : τ.invocations ≤ 1
  ever : τ.invocations ≠ 0 → τ.everRunning = true
  result : τ.hasSlot = true → τ.invocations ≠ 0 → τ.status = .running ∨
    ∃ o, τ.returned = some o ∧ τ.status = .completed o
  completed : ∀ o, τ.status = .completed o → τ.invocations = 1 ∧ τ.returned = some o

section

variable {t : TaskId} {g g' : TokioExecutorServiceState} {τ τ' : Task}

/-- What anybody but the worker's run can do to the status. -/
inductive IdleMove : TaskStatus → TaskStatus → Prop
  | keep {status} : IdleMove status status
  | cancel : IdleMove .pending .cancelled
  | drop : IdleMove .pending .dropped

/-- The one-shot order of the statuses. -/
inductive StatusMove : TaskStatus → TaskStatus → Prop
  | idle {status status'} (h : IdleMove status status') : StatusMove status status'
  | start : StatusMove .pending .running
  | complete {outcome} : StatusMove .running (.completed outcome)

theorem StatusMove.of_terminal {status status' : TaskStatus} (h : StatusMove status status')
    (hterminal : status.isTerminal = true) : status' = status := by
  cases h with
  | idle h => cases h <;> simp_all [TaskStatus.isTerminal]
  | start | complete => simp [TaskStatus.isTerminal] at hterminal

theorem dropSlotRef_status (others : Bool) :
    IdleMove τ.status (τ.dropSlotRef others).1.status := by
  rcases dropSlotRef_cases τ others with ⟨_, heq⟩ | ⟨_, _, hpending, heq⟩ | ⟨_, _, heq⟩
  all_goals rw [heq]
  · exact .keep
  · rw [hpending]
    exact .drop
  · exact .keep

theorem removeAbortHandleStep_status {a : Actor} {r : RemovePc} {next : Option RemovePc}
    (h : removeAbortHandleStep a g τ r = some (g', τ', next)) :
    IdleMove τ.status τ'.status := by
  cases hookMove_of_removeStep h with
  | drop _ _ hstatus =>
      rw [hstatus]
      exact dropSlotRef_status _
  | keep _ hstatus =>
      rw [hstatus]
      exact .keep

theorem guardStep_status {a : Actor} {d : GuardPc} {next : Option GuardPc}
    (h : guardStep a g τ d = some (g', τ', next)) : IdleMove τ.status τ'.status := by
  cases hookMove_of_guardStep h with
  | drop _ _ hstatus =>
      rw [hstatus]
      exact dropSlotRef_status _
  | keep _ hstatus =>
      rw [hstatus]
      exact .keep

theorem closureStep_status {c : ClosurePc} : IdleMove τ.status (closureStep τ c).1.status := by
  cases c
  · exact dropSlotRef_status _
  · exact .keep
  · exact .keep

theorem cancelStep_status {a : Actor} {c c' : CancelPc}
    (h : cancelStep a g τ c = some (g', τ', c')) : IdleMove τ.status τ'.status := by
  cases c <;> simp only [cancelStep] at h
  case remove r =>
    simp only [Option.map_eq_some_iff, Prod.mk.injEq, Prod.exists] at h
    obtain ⟨_, _, _, hstep, _, rfl, _⟩ := h
    exact removeAbortHandleStep_status hstep
  case cancel =>
    split at h
    all_goals
      rename_i hpending
      simp only [Option.some.injEq, Prod.mk.injEq] at h
      obtain ⟨_, rfl, _⟩ := h
    · simp only [hpending]
      exact .cancel
    · exact .keep
  case finish =>
    simp only [Option.map_eq_some_iff, Prod.mk.injEq, Prod.exists] at h
    obtain ⟨_, _, _, _, rfl, _⟩ := h
    unfold Task.recordFinish
    split <;> exact .keep
  case finishQueued =>
    unfold Task.finishQueued at h
    split at h
    all_goals
      simp only [Option.some.injEq, Prod.mk.injEq] at h
      obtain ⟨_, rfl, _⟩ := h
      exact .keep
  case returned => cases h
  all_goals
    simp only [Option.some.injEq, Prod.mk.injEq] at h
    obtain ⟨_, rfl, _⟩ := h
    exact .keep

theorem sweepStep_status {k : Nat} {p p' : SweepPc}
    (h : sweepStep k g τ p = some (g', τ', p')) : IdleMove τ.status τ'.status := by
  cases p <;> simp only [sweepStep] at h
  case finish =>
    simp only [Option.map_eq_some_iff, Prod.mk.injEq, Prod.exists] at h
    obtain ⟨_, _, _, _, rfl, _⟩ := h
    unfold Task.recordFinish
    split <;> exact .keep
  case finishQueued =>
    unfold Task.finishQueued at h
    split at h
    all_goals
      simp only [Option.some.injEq, Prod.mk.injEq] at h
      obtain ⟨_, rfl, _⟩ := h
      exact .keep
  case cancelUnstarted =>
    simp only [Option.some.injEq, Prod.mk.injEq] at h
    obtain ⟨_, rfl, _⟩ := h
    unfold Task.cancelUnstarted
    split
    · by_cases hpending : τ.status = .pending
      · simp only [hpending, if_true]
        exact .cancel
      · simp only [hpending, if_false]
        exact .keep
    · exact .keep
  case dropHook =>
    simp only [Option.some.injEq, Prod.mk.injEq] at h
    obtain ⟨_, rfl, _⟩ := h
    exact dropSlotRef_status _
  case next => cases h
  all_goals
    simp only [Option.some.injEq, Prod.mk.injEq] at h
    obtain ⟨_, rfl, _⟩ := h
    exact .keep

theorem submitterStep_status {runtimeClosed : Bool}
    (h : submitterStep t runtimeClosed g τ = some (g', τ')) : IdleMove τ.status τ'.status := by
  cases hs : τ.submitter <;> simp only [submitterStep, hs] at h
  case rejected | returned => cases h
  case dropClosure =>
    simp only [Option.some.injEq, Prod.mk.injEq] at h
    obtain ⟨_, rfl⟩ := h
    exact closureStep_status
  case dropGuard =>
    simp only [Option.map_eq_some_iff, Prod.mk.injEq, Prod.exists] at h
    obtain ⟨_, τ₁, _, hstep, _, rfl⟩ := h
    have hstatus : IdleMove τ.status τ₁.status := guardStep_status hstep
    exact hstatus
  case dropHook =>
    simp only [Option.some.injEq, Prod.mk.injEq] at h
    obtain ⟨_, rfl⟩ := h
    exact dropSlotRef_status _
  case lockSubmission | acceptLock | registerLock =>
    simp only [map_acquire_eq_some, Prod.mk.injEq] at h
    obtain ⟨_, _, rfl⟩ := h
    exact .keep
  case accept | spawn | register | send =>
    split at h
    all_goals
      simp only [Option.some.injEq, Prod.mk.injEq, reduceCtorEq] at h
      try obtain ⟨_, rfl⟩ := h
      try exact .keep
  all_goals
    simp only [Option.some.injEq, Prod.mk.injEq] at h
    obtain ⟨_, rfl⟩ := h
    exact .keep

theorem workerStep_status {outcome : RunOutcome} (hh : SlotHeld τ)
    (h : workerStep t outcome g τ = some (g', τ')) : StatusMove τ.status τ'.status := by
  cases hs : τ.worker <;> simp only [workerStep, hs] at h
  case absent | queued | finished => cases h
  case ranClosure | refusedClosure | destroyClosure =>
    simp only [Option.some.injEq, Prod.mk.injEq] at h
    obtain ⟨_, rfl⟩ := h
    exact .idle closureStep_status
  case ranGuard | refusedGuard | destroyGuard =>
    simp only [Option.map_eq_some_iff, Prod.mk.injEq, Prod.exists] at h
    obtain ⟨_, τ₁, _, hstep, _, rfl⟩ := h
    have hstatus : IdleMove τ.status τ₁.status := guardStep_status hstep
    exact .idle hstatus
  case startLock =>
    simp only [map_acquire_eq_some, Prod.mk.injEq] at h
    obtain ⟨_, _, rfl⟩ := h
    exact .idle .keep
  case startSlot =>
    split at h
    all_goals
      rename_i hpending
      simp only [Option.some.injEq, Prod.mk.injEq] at h
      obtain ⟨_, rfl⟩ := h
    · simp only [hpending]
      exact .start
    · exact .idle .keep
  case publish outcome =>
    have hrunning := hh.started.mpr ⟨hh.publishing outcome hs, by rw [hs]; rfl⟩
    simp only [Option.some.injEq, Prod.mk.injEq] at h
    obtain ⟨_, rfl⟩ := h
    simp only [hrunning]
    exact .complete
  case recv | markStarted | takeSlot =>
    split at h
    all_goals
      simp only [Option.some.injEq, Prod.mk.injEq, reduceCtorEq] at h
      try obtain ⟨_, rfl⟩ := h
      try exact .idle .keep
  all_goals
    simp only [Option.some.injEq, Prod.mk.injEq] at h
    obtain ⟨_, rfl⟩ := h
    exact .idle .keep

theorem status_of_taskStep {a : Action} (hh : SlotHeld τ) (h : TaskStep t g τ a g' τ') :
    StatusMove τ.status τ'.status := by
  cases h with
  | submitter h => exact .idle (submitterStep_status h)
  | worker h => exact workerStep_status hh h
  | pickUp h =>
      unfold pickUpStep at h
      split at h
      · obtain rfl := Option.some.inj h
        exact .idle .keep
      · cases h
  | destroy h =>
      unfold destroyStep at h
      split at h
      · obtain rfl := Option.some.inj h
        exact .idle .keep
      · cases h
  | callCancel h =>
      unfold callCancelStep at h
      split at h
      · obtain rfl := Option.some.inj h
        exact .idle .keep
      · cases h
  | canceller h =>
      obtain ⟨_, τ₁, _, _, hstep, rfl⟩ := cancellerStep_cases h
      have hstatus : IdleMove τ.status τ₁.status := cancelStep_status hstep
      exact .idle hstatus
  | @sweep _ _ _ τ₁ _ _ hstep =>
      have hstatus : IdleMove τ.status τ₁.status := sweepStep_status hstep
      exact .idle hstatus
  | sweepNext | finishSweep => exact .idle .keep

theorem IdleMove.eq_of_resolved {status status' : TaskStatus} (h : IdleMove status status')
    (hne : status ≠ .pending) : status' = status := by
  cases h with
  | keep => rfl
  | cancel | drop => exact absurd rfl hne

theorem IdleMove.completed {status status' : TaskStatus} {o : RunOutcome}
    (h : IdleMove status status') (hcompleted : status' = .completed o) :
    status = .completed o := by
  cases h with
  | keep => exact hcompleted
  | cancel | drop => cases hcompleted

/-- A step that neither invokes the callable nor publishes its outcome. -/
theorem Invoked.idle (hi : Invoked τ)
    (hbefore : isBeforeInvoke τ'.worker = true → isBeforeInvoke τ.worker = true)
    (hexecuting : τ'.worker = .executing → τ.worker = .executing)
    (hpublish : ∀ o, τ'.worker = .publish o → τ.worker = .publish o)
    (hinvocations : τ'.invocations = τ.invocations) (hreturned : τ'.returned = τ.returned)
    (hever : τ.everRunning = true → τ'.everRunning = true) (hkind : τ'.hasSlot = τ.hasSlot)
    (hstatus : IdleMove τ.status τ'.status) : Invoked τ' where
  before h := by
    rw [hinvocations, hreturned]
    exact hi.before (hbefore h)
  executing h := by
    rw [hinvocations, hreturned]
    exact hi.executing (hexecuting h)
  publish o h := by
    rw [hinvocations, hreturned]
    exact hi.publish o (hpublish o h)
  once := hinvocations ▸ hi.once
  ever h := hever (hi.ever (hinvocations ▸ h))
  result hslot hne := by
    have hresult := hi.result (hkind ▸ hslot) (hinvocations ▸ hne)
    have hresolved : τ.status ≠ .pending := by
      rcases hresult with hrunning | ⟨o, _, hcompleted⟩
      · simp [hrunning]
      · simp [hcompleted]
    rwa [hreturned, hstatus.eq_of_resolved hresolved]
  completed o h := by
    rw [hinvocations, hreturned]
    exact hi.completed o (hstatus.completed h)

theorem Invoked.go {w w' : WorkerPc} (hi : Invoked τ) (hw : τ.worker = w) (hw' : τ'.worker = w')
    (hbefore : isBeforeInvoke w' = true → isBeforeInvoke w = true) (hexecuting : w' ≠ .executing)
    (hpublish : ∀ o, w' ≠ .publish o) (hinvocations : τ'.invocations = τ.invocations)
    (hreturned : τ'.returned = τ.returned)
    (hever : τ.everRunning = true → τ'.everRunning = true) (hkind : τ'.hasSlot = τ.hasSlot)
    (hstatus : IdleMove τ.status τ'.status) : Invoked τ' := by
  refine hi.idle ?_ ?_ ?_ hinvocations hreturned hever hkind hstatus
  · rw [hw, hw']
    exact hbefore
  · rw [hw']
    exact fun h => absurd h hexecuting
  · rw [hw']
    exact fun o h => absurd h (hpublish o)

theorem invoked_of_workerStep {outcome : RunOutcome} (ht : Tracked τ) (hh : SlotHeld τ)
    (hi : Invoked τ) (h : workerStep t outcome g τ = some (g', τ')) : Invoked τ' := by
  have henter : isBeforeInvoke τ.enterTask = true ∧ τ.enterTask ≠ .executing ∧
      ∀ o, τ.enterTask ≠ .publish o := by
    rcases enterTask_cases τ with ⟨_, henter⟩ | ⟨_, henter⟩ <;> rw [henter] <;>
      exact ⟨rfl, by simp, by simp⟩
  cases hs : τ.worker <;> simp only [workerStep, hs] at h
  case absent | queued | finished => cases h
  case recv =>
    split at h <;> cases h
    exact hi.go hs rfl (fun _ => rfl) (by simp) (by simp) rfl rfl id rfl .keep
  case markStarted =>
    split at h <;> obtain ⟨_, rfl⟩ := Prod.mk.inj (Option.some.inj h)
    · exact hi.go hs rfl (fun _ => rfl) (by simp) (by simp) rfl rfl (fun _ => rfl) rfl .keep
    · exact hi.go hs rfl (fun _ => rfl) henter.2.1 henter.2.2 rfl rfl id rfl .keep
    · exact hi.go hs rfl (fun _ => rfl) (by simp) (by simp) rfl rfl id rfl .keep
  case startLock =>
    simp only [map_acquire_eq_some, Prod.mk.injEq] at h
    obtain ⟨_, _, rfl⟩ := h
    exact hi.go hs rfl (fun _ => rfl) (by simp) (by simp) rfl rfl id rfl .keep
  case start | wakePublished | complete =>
    obtain ⟨_, rfl⟩ := Prod.mk.inj (Option.some.inj h)
    exact hi.go hs rfl (by simp [isBeforeInvoke]) (by simp) (by simp) rfl rfl id rfl .keep
  case startUnlock =>
    obtain ⟨_, rfl⟩ := Prod.mk.inj (Option.some.inj h)
    exact hi.go hs rfl (fun _ => rfl) henter.2.1 henter.2.2 rfl rfl id rfl .keep
  case takeSlot =>
    split at h <;> obtain ⟨_, rfl⟩ := Prod.mk.inj (Option.some.inj h) <;>
      exact hi.go hs rfl (fun _ => rfl) (by simp) (by simp) rfl rfl id rfl .keep
  case startSlot =>
    obtain ⟨hnone, hreturned⟩ := hi.before (by rw [hs]; rfl)
    split at h <;> obtain ⟨_, rfl⟩ := Prod.mk.inj (Option.some.inj h)
    · exact {
        before := fun _ => ⟨hnone, hreturned⟩
        executing := fun hnever => by cases hnever
        publish := fun _ hnever => by cases hnever
        once := hi.once
        ever := hi.ever
        result := fun _ _ => .inl rfl
        completed := fun _ hnever => by cases hnever }
    · exact hi.go hs rfl (fun _ => rfl) (by simp) (by simp) rfl rfl id rfl .keep
  case invoke =>
    obtain ⟨hnone, hreturned⟩ := hi.before (by rw [hs]; rfl)
    obtain ⟨_, rfl⟩ := Prod.mk.inj (Option.some.inj h)
    exact {
      before := fun hnever => by cases hnever
      executing := fun _ => ⟨by rw [hnone], hreturned⟩
      publish := fun _ hnever => by cases hnever
      once := by rw [hnone]
      ever := fun _ => ht.ran true (by rw [hs]; rfl)
      result := fun hslot _ => .inl (hh.started.mpr ⟨hslot, by rw [hs]; rfl⟩)
      completed := fun o hcompleted => by
        have hinvoked := (hi.completed o hcompleted).1
        simp [hnone] at hinvoked }
  case executing =>
    obtain ⟨hone, hnone⟩ := hi.executing hs
    have hrunning : τ.hasSlot = true → τ.status = .running := fun hslot =>
      hh.started.mpr ⟨hslot, by rw [hs]; rfl⟩
    have hopen : ∀ o, τ.status ≠ .completed o := fun o hcompleted => by
      have hreturned := (hi.completed o hcompleted).2
      simp [hnone] at hreturned
    obtain ⟨_, rfl⟩ := Prod.mk.inj (Option.some.inj h)
    exact {
      before := fun hnever => by
        dsimp only at hnever
        split at hnever <;> cases hnever
      executing := fun hnever => by
        dsimp only at hnever
        split at hnever <;> cases hnever
      publish := fun o hpublish => by
        dsimp only at hpublish
        split at hpublish
        · obtain rfl := WorkerPc.publish.inj hpublish
          exact ⟨hone, rfl⟩
        · cases hpublish
      once := hi.once
      ever := hi.ever
      result := fun hslot _ => .inl (hrunning hslot)
      completed := fun o hcompleted => absurd hcompleted (hopen o) }
  case publish o =>
    obtain ⟨hone, hreturned⟩ := hi.publish o hs
    obtain ⟨_, rfl⟩ := Prod.mk.inj (Option.some.inj h)
    exact {
      before := fun hnever => by cases hnever
      executing := fun hnever => by cases hnever
      publish := fun _ hnever => by cases hnever
      once := hi.once
      ever := hi.ever
      result := fun _ _ => .inr ⟨o, hreturned, rfl⟩
      completed := fun o' hcompleted => by
        obtain rfl := TaskStatus.completed.inj hcompleted
        exact ⟨hone, hreturned⟩ }
  case dropReceiver =>
    obtain ⟨_, rfl⟩ := Prod.mk.inj (Option.some.inj h)
    split <;>
      exact hi.go hs rfl (by simp [isBeforeInvoke]) (by simp) (by simp) rfl rfl id rfl .keep
  case ranClosure c | refusedClosure c | destroyClosure c =>
    rcases hc : closureStep τ c with ⟨τ₁, next⟩
    have hstatus : IdleMove τ.status (closureStep τ c).1.status := closureStep_status
    rw [hc] at hstatus h
    obtain ⟨_, _, rfl⟩ := closureStep_frame hc
    simp only [Option.some.injEq, Prod.mk.injEq] at h
    obtain ⟨_, rfl⟩ := h
    cases next <;>
      exact hi.go hs rfl (by simp [isBeforeInvoke]) (by simp) (by simp) rfl rfl id rfl hstatus
  case ranGuard d | refusedGuard d | destroyGuard d =>
    simp only [Option.map_eq_some_iff, Prod.mk.injEq, Prod.exists] at h
    obtain ⟨_, τ₁, next, hstep, rfl, rfl⟩ := h
    have hstatus : IdleMove τ.status τ₁.status := guardStep_status hstep
    obtain ⟨_, _, _, _, _, _, rfl⟩ := guardStep_frame hstep
    cases next <;>
      exact hi.go hs rfl (by simp [isBeforeInvoke]) (by simp) (by simp) rfl rfl id rfl hstatus

theorem invoked_of_taskStep {a : Action} (hp : Placed τ) (ht : Tracked τ) (hh : SlotHeld τ)
    (hi : Invoked τ) (h : TaskStep t g τ a g' τ') : Invoked τ' := by
  cases h with
  | worker h => exact invoked_of_workerStep ht hh hi h
  | submitter h =>
      have hstatus := submitterStep_status h
      obtain ⟨_, _, _, _, _, _, _, _, _, rfl, hworker⟩ := submitterStep_frame h
      rcases hworker with rfl | ⟨hs, hworker⟩
      · exact hi.idle id id (fun _ => id) rfl rfl id rfl hstatus
      · rw [Placed, hs] at hp
        have habsent := worker_of_absent hp.1
        rcases hworker with rfl | rfl <;>
          exact hi.go habsent rfl (fun _ => rfl) (by simp) (by simp) rfl rfl id rfl hstatus
  | pickUp h =>
      unfold pickUpStep at h
      split at h
      · rename_i hw
        obtain rfl := Option.some.inj h
        split <;> exact hi.go hw rfl (fun _ => rfl) (by simp) (by simp) rfl rfl id rfl .keep
      · cases h
  | destroy h =>
      unfold destroyStep at h
      split at h
      · rename_i hw
        obtain rfl := Option.some.inj h
        exact hi.go hw rfl (fun _ => rfl) (by simp) (by simp) rfl rfl id rfl .keep
      · cases h
  | callCancel h =>
      unfold callCancelStep at h
      split at h
      · obtain rfl := Option.some.inj h
        exact hi.idle id id (fun _ => id) rfl rfl id rfl .keep
      · cases h
  | canceller h =>
      obtain ⟨_, τ₁, _, _, hstep, rfl⟩ := cancellerStep_cases h
      have hstatus : IdleMove τ.status τ₁.status := cancelStep_status hstep
      obtain ⟨_, _, _, _, _, _, _, rfl⟩ := cancelStep_frame hstep
      exact hi.idle id id (fun _ => id) rfl rfl id rfl hstatus
  | @sweep _ _ _ τ₁ _ _ hstep =>
      have hstatus : IdleMove τ.status τ₁.status := sweepStep_status hstep
      obtain ⟨_, _, _, _, _, rfl⟩ := sweepStep_frame hstep
      exact hi.idle id id (fun _ => id) rfl rfl id rfl hstatus
  | sweepNext | finishSweep => exact hi.idle id id (fun _ => id) rfl rfl id rfl .keep

/-! ### All groups together -/

structure TaskInvariant (τ : Task) : Prop where
  placed : Placed τ
  registry : Registry τ
  tracked : Tracked τ
  held : SlotHeld τ
  invoked : Invoked τ

theorem taskInvariant_new (kind : TaskKind) : TaskInvariant { kind := kind } where
  placed := ⟨rfl, rfl⟩
  registry := by
    constructor <;> simp [guardStage, guardStageOf, submitterPhase, isOpen, entryDrops,
      GuardStage.dropsEntry]
  tracked := by
    constructor <;> simp [guardStage, guardStageOf, submitterPhase, workerPhase, ranPhase,
      isStarting, GuardStage.isSwapped, GuardStage.isPending, GuardStage.flag, pendingFinishes,
      EntryPc.isPending, EntryPc.isWon]
  held := by
    constructor <;> simp [isUnshared, isStarted, SubmitterPc.ownsHook, EntryPc.ownsHook,
      Task.hookSlotRef, EntryPc.isCancelled]
  invoked := by constructor <;> simp

theorem taskInvariant_takeEntry {k : Nat} (hi : TaskInvariant τ) :
    TaskInvariant (takeEntry k τ) where
  placed := placed_takeEntry hi.placed
  registry := registry_takeEntry hi.registry
  tracked := tracked_takeEntry hi.tracked
  held := slotHeld_takeEntry hi.held
  invoked := by
    unfold takeEntry
    split
    · exact hi.invoked.idle id id (fun _ => id) rfl rfl id rfl .keep
    · exact hi.invoked

theorem taskInvariant_of_taskStep {a : Action} (hi : TaskInvariant τ)
    (h : TaskStep t g τ a g' τ') : TaskInvariant τ' where
  placed := placed_of_taskStep hi.placed h
  registry := registry_of_taskStep hi.placed hi.registry h
  tracked := tracked_of_taskStep hi.placed hi.registry hi.tracked h
  held := slotHeld_of_taskStep hi.placed hi.registry hi.tracked hi.held h
  invoked := invoked_of_taskStep hi.placed hi.tracked hi.held hi.invoked h

theorem worker_of_spawn (hi : TaskInvariant τ) (hs : τ.submitter = .spawn) :
    τ.worker = .absent := by
  have hplaced := hi.placed
  rw [Placed, hs] at hplaced
  exact worker_of_absent hplaced.1

theorem taskInvariant_of_reachable {taskCapacity : NonZeroUsize} {s : ServiceState}
    (h : (service taskCapacity).Reachable s) : ∀ τ ∈ s.tasks, TaskInvariant τ :=
  forall_tasks_of_reachable taskInvariant_new (fun _ _ => taskInvariant_takeEntry)
    (fun _ _ _ _ _ _ hi hstep => taskInvariant_of_taskStep hi hstep) h

end

end TokioExecutorProofs.BlockingTaskInvariants
