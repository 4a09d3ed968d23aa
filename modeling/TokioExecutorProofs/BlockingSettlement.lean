import TokioExecutorProofs.BlockingResults
import TokioExecutorProofs.BlockingTaskMoves

/-!
When a result handle of the blocking service is resolved. A task gives its place in
the counts back only after its handle has been resolved, except that a stop call may
still have the task in its hands; so nobody who has waited for the termination finds
a pending result once the stop calls are through.
-/

namespace TokioExecutorProofs.BlockingSettlement

open ServiceBasics
open BlockingServiceState
open BlockingServiceState.TokioExecutorServiceState
open ExecutorServiceLifecycleBits
open ExecutorServiceLifecycleBits.ExecutorServiceLifecycle
open BlockingTask
open BlockingService
open BlockingTaskPlacement
open BlockingTaskRegistry
open BlockingTaskTracking
open BlockingTaskSlots
open BlockingTaskInvariants
open BlockingTaskEffects
open BlockingTaskMoves
open BlockingAccounting
open BlockingSweeps
open BlockingTermination
open BlockingResults
open ProcessFamilies
open TransitionSystems

/-! ### The payload behind a swapped tracker -/

section

variable {t : TaskId} {g g' : TokioExecutorServiceState} {τ τ' : Task} {a : Action}

/-- The guard's drop is past its swap, and the closure went before it. -/
structure Reaped (τ : Task) : Prop where
  swapped : GuardStage.isSwapped (guardStage τ) = true
  gone : τ.payloadSlotRef = false

theorem guardStage_ne_alive (h : GuardStage.isSwapped (guardStage τ) = true) :
    guardStage τ ≠ .alive := by
  intro halive
  rw [halive] at h
  cases h

theorem guardStage_of_refusedClosure (hp : Placed τ) {c : ClosurePc}
    (hw : τ.worker = .refusedClosure c) (d : GuardPc) : guardStage τ ≠ .dropping d := by
  rw [guardStage, hw, submitter_of_placed hp (by rw [hw]; rfl)]
  exact fun h => by cases h

theorem payloadSlotRef_of_taskStep (hp : Placed τ) (hstage : guardStage τ ≠ .alive)
    (hgone : τ.payloadSlotRef = false) (h : TaskStep t g τ a g' τ') :
    τ'.payloadSlotRef = false := by
  have hkeep : τ'.submitter = τ.submitter → τ'.channel = τ.channel → τ'.worker = τ.worker →
      τ'.payloadSlotRef = false := by
    intro hs hc hw
    rw [Task.payloadSlotRef, hs, hc, hw]
    exact hgone
  have hquiet : τ.submitter.ownsClosure = false ∧ τ.channel ≠ .full ∧
      τ.worker.ownsClosure = false := by
    simpa [Task.payloadSlotRef, and_assoc] using hgone
  cases h with
  | submitter h =>
      cases hs : τ.submitter <;> simp only [submitterStep, hs] at h
      case dropGuard d =>
        simp only [Option.map_eq_some_iff, Prod.mk.injEq, Prod.exists] at h
        obtain ⟨_, _, next, hstep, rfl, rfl⟩ := h
        obtain ⟨_, _, _, _, _, _, rfl⟩ := guardStep_frame hstep
        cases next <;> simp [Task.payloadSlotRef, SubmitterPc.ownsClosure, hquiet]
      case rejected | returned => cases h
      case registerUnlock inserted =>
        refine absurd ?_ hstage
        rw [guardStage, hs]
        cases inserted <;> rfl
      all_goals
        refine absurd ?_ hstage
        rw [guardStage, hs]
        rfl
  | worker h =>
      cases hw : τ.worker <;> simp only [workerStep, hw] at h
      case absent | queued | finished => cases h
      case refusedClosure c =>
        cases c with
        | dropSlotRef => simp [hw, WorkerPc.ownsClosure, ClosurePc.ownsSlotRef] at hquiet
        | wakeDropped | dropTask =>
            obtain ⟨rfl, rfl⟩ := Prod.mk.inj (Option.some.inj h)
            simp [Task.payloadSlotRef, closureStep, WorkerPc.ownsClosure, ClosurePc.ownsSlotRef,
              hquiet]
      case ranGuard d | destroyGuard d =>
        simp only [Option.map_eq_some_iff, Prod.mk.injEq, Prod.exists] at h
        obtain ⟨_, _, next, hstep, rfl, rfl⟩ := h
        obtain ⟨_, _, _, _, _, _, rfl⟩ := guardStep_frame hstep
        cases next <;> simp [Task.payloadSlotRef, WorkerPc.ownsClosure, hquiet]
      case refusedGuard d => simp [hw, WorkerPc.ownsClosure] at hquiet
      case complete =>
        obtain ⟨rfl, rfl⟩ := Prod.mk.inj (Option.some.inj h)
        simp [Task.payloadSlotRef, WorkerPc.ownsClosure, hquiet]
      all_goals exact absurd (guardStage_of_placed hp (by rw [hw]; rfl)) hstage
  | pickUp h =>
      simp only [pickUpStep, Option.ite_none_right_eq_some] at h
      exact absurd (guardStage_of_placed hp (by rw [h.1]; rfl)) hstage
  | destroy h =>
      simp only [destroyStep, Option.ite_none_right_eq_some] at h
      exact absurd (guardStage_of_placed hp (by rw [h.1]; rfl)) hstage
  | callCancel h =>
      unfold callCancelStep at h
      split at h <;> cases h
      exact hgone
  | canceller h =>
      obtain ⟨_, _, _, _, hstep, rfl⟩ := cancellerStep_cases h
      obtain ⟨_, _, _, _, _, _, _, rfl⟩ := cancelStep_frame hstep
      exact hgone
  | sweep _ h =>
      obtain ⟨_, _, _, _, _, rfl⟩ := sweepStep_frame h
      exact hgone
  | sweepNext | finishSweep => exact hgone

theorem isSwapped_after {b : Actor} {d : GuardPc} {next : Option GuardPc} {τ₁ : Task}
    (hstep : guardStep b g τ d = some (g', τ₁, next))
    (hd : GuardPc.isSwapped d = true ∨ d = .swap) :
    GuardStage.isSwapped (GuardStage.after next) = true := by
  have hmove := guardMove_of_step hstep
  generalize τ₁.taskState = state at hmove
  generalize τ₁.finishes = finishes at hmove
  cases hmove with
  | remove => rcases hd with hd | hd <;> cases hd
  | swapQueued | swapRunning | swapFinished => rfl
  | @finish started f next => cases next <;> rfl

theorem isSwapped_of_payloadMove {b : Actor} (h : PayloadMove b g τ g' τ')
    (hswapped : GuardStage.isSwapped (guardStage τ) = true) :
    GuardStage.isSwapped (guardStage τ') = true := by
  have hclosed := isOpen_of_guardStage (guardStage_ne_alive hswapped)
  have hkeep : guardStage τ' = guardStage τ → GuardStage.isSwapped (guardStage τ') = true := by
    intro hsame
    rw [hsame]
    exact hswapped
  cases h with
  | carry _ _ _ _ _ _ hafter =>
      rcases hafter with hsame | ⟨halive, _⟩
      · exact hkeep hsame
      · exact absurd halive (guardStage_ne_alive hswapped)
  | accept hs | register hs | dropHook hs =>
      rw [hs] at hclosed
      cases hclosed
  | markStarted hw | start hw => exact hkeep (guardStageOf_congr (by rw [hw]; rfl))
  | markedAlready hw => exact hkeep (guardStageOf_congr (by rw [workerPhase_enterTask, hw]; rfl))
  | guard hd hstep _ _ _ _ _ hafter =>
      refine (congrArg GuardStage.isSwapped hafter).trans (isSwapped_after hstep (.inl ?_))
      rw [hd] at hswapped
      exact hswapped

theorem isSwapped_of_swap {b : Actor} (h : PayloadMove b g τ g' τ')
    (hstage : guardStage τ = .dropping .swap) (hstate : τ.taskState ≠ .finished)
    (hstate' : τ'.taskState = .finished) : GuardStage.isSwapped (guardStage τ') = true := by
  cases h with
  | carry | accept | register | dropHook | markedAlready | start => exact absurd hstate' hstate
  | markStarted => cases hstate'
  | guard hd hstep _ _ _ _ _ hafter =>
      refine (congrArg GuardStage.isSwapped hafter).trans (isSwapped_after hstep (.inr ?_))
      exact GuardStage.dropping.inj (hd.symm.trans hstage)

theorem Reaped.taskStep (hr : Reaped τ) (hp : Placed τ) (h : TaskStep t g τ a g' τ') :
    Reaped τ' := by
  refine ⟨?_, payloadSlotRef_of_taskStep hp (guardStage_ne_alive hr.swapped) hr.gone h⟩
  rcases payload_of_taskStep hp h with ⟨_, hmove⟩ | ⟨hs, hw⟩
  · exact isSwapped_of_payloadMove hmove hr.swapped
  · rw [guardStage, hs, hw]
    exact hr.swapped

/-- The guard is dropped by its submission or, once it has been handed over, by the
worker. -/
theorem submitter_of_guardStage (hstage : guardStage τ ≠ .alive) :
    (∃ d, τ.submitter = .dropGuard d) ∨ τ.submitter = .returned := by
  unfold guardStage at hstage
  cases hs : τ.submitter with
  | dropGuard d => exact .inl ⟨d, rfl⟩
  | returned => exact .inr rfl
  | registerUnlock inserted =>
      rw [hs] at hstage
      cases inserted <;> exact absurd rfl hstage
  | _ =>
      rw [hs] at hstage
      exact absurd rfl hstage

/-- Except behind a refusal the closure goes before the guard. -/
theorem payloadSlotRef_of_guardStage (hp : Placed τ) (hstage : guardStage τ ≠ .alive)
    (hguard : ∀ d, τ.worker ≠ .refusedGuard d) (hclosure : ∀ c, τ.worker ≠ .refusedClosure c) :
    τ.payloadSlotRef = false := by
  have hended : workerPhase τ.worker = .ended → τ.worker.ownsClosure = false := by
    intro h
    rcases worker_of_ended h with hw | hw <;> rw [hw] <;> rfl
  unfold Placed at hp
  rcases submitter_of_guardStage hstage with ⟨d, hs⟩ | hs
  · rw [hs] at hp
    obtain ⟨hw, hchannel⟩ := hp
    simp [Task.payloadSlotRef, hs, SubmitterPc.ownsClosure, hchannel, hended hw]
  · rw [hs] at hp
    rw [guardStage, hs] at hstage
    have hworker : τ.worker.ownsClosure = false ∧ workerPhase τ.worker ≠ .waiting := by
      cases hw : τ.worker <;> simp_all [WorkerPc.ownsClosure, workerPhase, workerGuard,
        guardStageOf, submitterPhase]
    have hchannel : τ.channel = .closed := by
      rcases hp with ⟨hwaiting, _⟩ | ⟨_, _, hchannel⟩
      · exact absurd hwaiting hworker.2
      · exact hchannel
    simp [Task.payloadSlotRef, hs, SubmitterPc.ownsClosure, hchannel, hworker.1]

/-! ### Who finishes a task that has not run -/

structure Settling (τ : Task) : Prop where
  refused : ∀ d, τ.worker = .refusedGuard d → τ.taskState = .finished
  finished : τ.hasSlot = true → τ.taskState = .finished → τ.everRunning = false →
    Reaped τ ∨ EntryPc.isWon τ.entry = true ∨ τ.status = .cancelled

theorem refused_of_taskStep (hi : TaskInvariant τ)
    (hrefused : ∀ d, τ.worker = .refusedGuard d → τ.taskState = .finished)
    (h : TaskStep t g τ a g' τ') (d' : GuardPc) (hw' : τ'.worker = .refusedGuard d') :
    τ'.taskState = .finished := by
  have hmove := trackerMove_of_taskStep hi h
  suffices hbefore : τ.taskState = .finished from (hmove.finished hbefore).1
  have hsame : τ'.worker = τ.worker → τ.taskState = .finished := by
    intro hsame
    exact hrefused d' (hsame.symm.trans hw')
  cases h with
  | worker h =>
      cases hw : τ.worker <;> simp only [workerStep, hw] at h
      case refusedGuard d => exact hrefused d hw
      case absent | queued | finished => cases h
      case markStarted =>
        split at h
        · obtain ⟨_, rfl⟩ := Prod.mk.inj (Option.some.inj h)
          cases hw'
        · obtain ⟨_, rfl⟩ := Prod.mk.inj (Option.some.inj h)
          unfold Task.enterTask at hw'
          dsimp only at hw'
          split at hw' <;> cases hw'
        · assumption
      case startLock =>
        simp only [map_acquire_eq_some, Prod.mk.injEq] at h
        obtain ⟨_, _, rfl⟩ := h
        cases hw'
      case ranClosure c | refusedClosure c | destroyClosure c =>
        rcases hc : closureStep τ c with ⟨τ₁, next⟩
        simp only [Option.some.injEq, Prod.mk.injEq, hc] at h
        obtain ⟨_, rfl⟩ := h
        cases next <;> cases hw'
      case ranGuard d | destroyGuard d =>
        simp only [Option.map_eq_some_iff, Prod.mk.injEq, Prod.exists] at h
        obtain ⟨_, _, next, _, _, rfl⟩ := h
        cases next <;> cases hw'
      all_goals grind -linarith [Task.enterTask]
  | submitter h =>
      obtain ⟨_, _, _, _, _, _, _, _, _, rfl, hworker⟩ := submitterStep_frame h
      rcases hworker with rfl | ⟨_, rfl | rfl⟩
      · exact hsame rfl
      · cases hw'
      · cases hw'
  | pickUp h =>
      simp only [pickUpStep, Option.ite_none_right_eq_some, Option.some.injEq] at h
      obtain ⟨_, rfl⟩ := h
      dsimp only at hw'
      split at hw' <;> cases hw'
  | destroy h =>
      simp only [destroyStep, Option.ite_none_right_eq_some, Option.some.injEq] at h
      obtain ⟨_, rfl⟩ := h
      cases hw'
  | callCancel h =>
      unfold callCancelStep at h
      split at h <;> cases h
      exact hsame rfl
  | canceller h =>
      obtain ⟨_, _, _, _, hstep, rfl⟩ := cancellerStep_cases h
      obtain ⟨_, _, _, _, _, _, _, rfl⟩ := cancelStep_frame hstep
      exact hsame rfl
  | sweep _ h =>
      obtain ⟨_, _, _, _, _, rfl⟩ := sweepStep_frame h
      exact hsame rfl
  | sweepNext | finishSweep => exact hsame rfl

theorem status_of_isWon (hi : TaskInvariant τ) {c : CancelPc} (hc : c ∈ τ.cancels)
    (hwon : CancelPc.isWon c = true) : τ.status = .cancelled := by
  have hle := hi.held.cancelled
  have hpos : 0 < τ.cancels.countP CancelPc.isWon := List.countP_pos_iff.mpr ⟨c, hc, hwon⟩
  by_contra hne
  rw [if_neg hne] at hle
  omega

theorem isWon_of_taskStep (hi : TaskInvariant τ) (h : TaskStep t g τ a g' τ')
    (hslot : τ.hasSlot = true) (hwon : EntryPc.isWon τ.entry = true) :
    EntryPc.isWon τ'.entry = true ∨ τ.status = .cancelled := by
  cases entryMove_of_taskStep hi h with
  | keep hentry => exact .inl (by rw [hentry]; exact hwon)
  | register hs | dropHook hs =>
      have habsent := hi.registry.absent.mpr (by rw [hs]; rfl)
      rw [habsent] at hwon
      cases hwon
  | remove _ hentry | drop hentry | sweepNext hentry =>
      rw [hentry] at hwon
      cases hwon
  | sweep _ hentry hentry' hmove =>
      rw [hentry] at hwon
      refine .inl ?_
      rw [hentry']
      generalize τ'.taskState = state at hmove
      generalize τ'.finishes = finishes at hmove
      cases hmove with
      | win => cases hwon
      | @finish f next =>
          cases next with
          | none =>
              rw [Option.elim_none, if_pos hslot]
              rfl
          | some f' => rfl
      | other hsame => exact hsame.trans hwon
  | @finishSweep k counted hentry =>
      refine .inr (hi.held.counted hslot (.inl ?_))
      rw [hentry] at hwon ⊢
      exact hwon

theorem finished_of_taskStep (hi : TaskInvariant τ) (hs : Settling τ)
    (h : TaskStep t g τ a g' τ') (hslot : τ.hasSlot = true) (hstate' : τ'.taskState = .finished)
    (hever' : τ'.everRunning = false) :
    Reaped τ' ∨ EntryPc.isWon τ'.entry = true ∨ τ'.status = .cancelled := by
  have hcancelled : τ.status = .cancelled → τ'.status = .cancelled := by
    intro hstatus
    rw [(status_of_taskStep hi.held h).of_terminal (by rw [hstatus]; rfl), hstatus]
  cases trackerMove_of_taskStep hi h with
  | keep hstate hever =>
      rcases hs.finished hslot (hstate.symm.trans hstate') (hever.symm.trans hever') with
        hreaped | hwon | hstatus
      · exact .inl (hreaped.taskStep hi.placed h)
      · rcases isWon_of_taskStep hi h hslot hwon with hwon' | hstatus
        · exact .inr (.inl hwon')
        · exact .inr (.inr (hcancelled hstatus))
      · exact .inr (.inr (hcancelled hstatus))
  | start _ _ hrunning =>
      rw [hrunning] at hstate'
      cases hstate'
  | swap hact hstage hstate =>
      have hgone : τ.payloadSlotRef = false := by
        refine payloadSlotRef_of_guardStage hi.placed (by simp [hstage]) ?_ ?_
        · intro d hw
          exact hstate (hs.refused d hw)
        · intro c hw
          exact guardStage_of_refusedClosure hi.placed hw .swap hstage
      refine .inl ⟨?_, payloadSlotRef_of_taskStep hi.placed (by simp [hstage]) hgone h⟩
      rcases hact with ⟨_, rfl⟩ | ⟨_, rfl⟩
      · cases h with
        | submitter h =>
            have hmove := payloadMove_of_submitterStep hi.placed h
            exact isSwapped_of_swap hmove hstage hstate hstate'
      · cases h with
        | worker h =>
            have hmove := payloadMove_of_workerStep hi.placed h
            exact isSwapped_of_swap hmove hstage hstate hstate'
  | sweep _ _ _ hentry' =>
      refine .inr (.inl ?_)
      rw [hentry']
      rfl
  | cancel _ hcancel =>
      exact .inr (.inr (hcancelled (status_of_isWon hi (mem_of_getElem? hcancel) rfl)))

theorem settling_of_reachable {taskCapacity : NonZeroUsize} {s : ServiceState}
    (h : (service taskCapacity).Reachable s) : ∀ τ ∈ s.tasks, Settling τ := by
  have hall : ∀ τ ∈ s.tasks, TaskInvariant τ ∧ Settling τ := by
    refine forall_tasks_of_reachable (P := fun τ => TaskInvariant τ ∧ Settling τ) ?_ ?_ ?_ h
    · intro kind
      exact ⟨taskInvariant_new kind, by simp, by simp⟩
    · intro k τ ⟨hi, hs⟩
      refine ⟨taskInvariant_takeEntry hi, ?_⟩
      unfold takeEntry
      split
      · rename_i hentry
        refine ⟨hs.refused, fun hslot hstate hever => ?_⟩
        rcases hs.finished hslot hstate hever with hreaped | hwon | hstatus
        · exact .inl ⟨hreaped.swapped, hreaped.gone⟩
        · rw [hentry] at hwon
          cases hwon
        · exact .inr (.inr hstatus)
      · exact hs
    · intro t g τ a g' τ' ⟨hi, hs⟩ hstep
      refine ⟨taskInvariant_of_taskStep hi hstep, ?_, ?_⟩
      · exact refused_of_taskStep hi hs.refused hstep
      · intro hslot
        rw [Task.hasSlot, (taskStep_frame hstep).1] at hslot
        exact finished_of_taskStep hi hs hstep hslot
  exact fun τ hτ => (hall τ hτ).2

/-! ### The result of a released task -/

/-- In the hands of some stop call. -/
def isTaken (τ : Task) : Prop := ∃ k, EntryPc.isTakenBy k τ.entry = true

theorem reaped_of_everRunning (hi : TaskInvariant τ) (hstate : τ.taskState = .finished)
    (hever : τ.everRunning = true) : Reaped τ := by
  have hswapped : GuardStage.isSwapped (guardStage τ) = true := by
    by_contra hnot
    have hrunning := hi.tracked.running hever (by simpa using hnot)
    rw [hstate] at hrunning
    cases hrunning
  refine ⟨hswapped, payloadSlotRef_of_guardStage hi.placed (guardStage_ne_alive hswapped) ?_ ?_⟩
  · intro d hw
    have hran := hi.tracked.ran false (by rw [hw]; rfl)
    rw [hever] at hran
    cases hran
  · intro c hw
    have hran := hi.tracked.ran false (by rw [hw]; rfl)
    rw [hever] at hran
    cases hran

theorem ownsClosure_of_isStarted {pc : WorkerPc} (h : isStarted pc = true) :
    pc.ownsClosure = true := by
  cases pc <;> first | rfl | cases h

theorem terminal_of_unreferenced (hi : TaskInvariant τ) (hslot : τ.hasSlot = true)
    (hr : Reaped τ) (hhook : τ.hookSlotRef = false) : τ.status.isTerminal = true := by
  have hcell : τ.slotInCell = false := by
    by_contra hcell
    have := (hi.held.cell (by simpa using hcell)).2.1
    simp [hr.gone, hhook] at this
  have hworker : τ.worker.ownsClosure = false := by
    have hgone := hr.gone
    simp only [Task.payloadSlotRef, Bool.or_eq_false_iff] at hgone
    exact hgone.2
  cases hstatus : τ.status with
  | pending =>
      rcases hi.held.pending hslot hcell hstatus with hshared | hw
      · rcases submitter_of_guardStage (guardStage_ne_alive hr.swapped) with ⟨d, hs⟩ | hs <;>
          rw [hs] at hshared <;> cases hshared
      · rw [hw] at hworker
        cases hworker
  | running =>
      rw [ownsClosure_of_isStarted (hi.held.started.mp hstatus).2] at hworker
      cases hworker
  | completed | cancelled | dropped => rfl

theorem isPastRemove_of_isSwapped {stage : GuardStage} (h : GuardStage.isSwapped stage = true) :
    GuardStage.isPastRemove stage = true := by
  cases stage with
  | alive => cases h
  | dropping d => cases d <;> first | rfl | cases h
  | dropped => rfl

theorem dropsEntry_of_isSwapped {stage : GuardStage} (h : GuardStage.isSwapped stage = true) :
    GuardStage.dropsEntry stage = false := by
  cases stage with
  | alive => cases h
  | dropping d => cases d <;> first | rfl | cases h
  | dropped => rfl

theorem isWon_of_dropsEntry {c : CancelPc} (h : CancelPc.dropsEntry c = true) :
    CancelPc.isWon c = true := by
  cases c <;> first | rfl | cases h

theorem terminal_of_reaped (hi : TaskInvariant τ) (hslot : τ.hasSlot = true) (hr : Reaped τ) :
    τ.status.isTerminal = true ∨ isTaken τ := by
  have hclosed := isOpen_of_guardStage (guardStage_ne_alive hr.swapped)
  have hsubmitter : τ.submitter.ownsHook = false := by
    rcases submitter_of_guardStage (guardStage_ne_alive hr.swapped) with ⟨d, hs⟩ | hs <;>
      rw [hs] <;> rfl
  cases hentry : τ.entry with
  | absent =>
      rw [hi.registry.absent.mp hentry] at hclosed
      cases hclosed
  | registered =>
      have hpast := hi.registry.guard hentry
      rw [isPastRemove_of_isSwapped hr.swapped] at hpast
      cases hpast
  | taken k => exact .inr ⟨k, by simp [hentry, EntryPc.isTakenBy]⟩
  | sweeping k p => exact .inr ⟨k, by simp [hentry, EntryPc.isTakenBy]⟩
  | removed =>
      -- The guard is past its removal, so a cancellation holds the entry.
      have hone := hi.registry.removed
      rw [if_pos hentry, entryDrops, dropsEntry_of_isSwapped hr.swapped, Bool.toNat_false,
        Nat.zero_add] at hone
      have hpos : 0 < τ.cancels.countP CancelPc.dropsEntry := by
        rw [hone]
        exact Nat.one_pos
      obtain ⟨c, hc, hdrops⟩ := List.countP_pos_iff.mp hpos
      refine .inl ?_
      rw [status_of_isWon hi hc (isWon_of_dropsEntry hdrops)]
      rfl
  | gone =>
      refine .inl (terminal_of_unreferenced hi hslot hr ?_)
      simp [Task.hookSlotRef, hsubmitter, hentry, EntryPc.ownsHook]

theorem taskState_of_finishes (hi : TaskInvariant τ) (h : τ.finishes ≠ []) :
    τ.taskState = .finished := by
  have hcons := hi.tracked.conserved
  have hpos := List.length_pos_of_ne_nil h
  by_contra hstate
  rw [if_neg hstate] at hcons
  omega

theorem terminal_of_finished (hi : TaskInvariant τ) (hs : Settling τ) (hslot : τ.hasSlot = true)
    (hstate : τ.taskState = .finished) : τ.status.isTerminal = true ∨ isTaken τ := by
  cases hever : τ.everRunning with
  | true => exact terminal_of_reaped hi hslot (reaped_of_everRunning hi hstate hever)
  | false =>
      rcases hs.finished hslot hstate hever with hreaped | hwon | hstatus
      · exact terminal_of_reaped hi hslot hreaped
      · cases hentry : τ.entry with
        | sweeping k p => exact .inr ⟨k, by simp [hentry, EntryPc.isTakenBy]⟩
        | absent | registered | taken | removed | gone =>
            rw [hentry] at hwon
            cases hwon
      · refine .inl ?_
        rw [hstatus]
        rfl

end

/-! ### The waiters -/

section

variable {taskCapacity : NonZeroUsize} {s s' : ServiceState} {a : Action} {x : Waiter}

/-- What a waiter has seen still holds. -/
def HasSeen (s : ServiceState) : Waiter → Prop
  | .readCounts notRunning => notRunning = true → load s.shared.lifecycle ≠ running
  | .asyncReadCounts _ loaded => loaded ≤ load s.shared.lifecycle
  | .unlock | .waited | .awaited => s.shared.isTerminated = true
  | .lock | .load | .parked _ | .enable | .asyncLoad _ | .suspended _ => True

theorem HasSeen.run (h : HasSeen s x) (hs : (service taskCapacity).Reachable s)
    (hrun : (service taskCapacity).Run s s') : HasSeen s' x := by
  cases x with
  | readCounts notRunning =>
      exact fun hclosed => (lifecycleView taskCapacity).not_running_of_run hs hrun (h hclosed)
  | asyncReadCounts since loaded =>
      exact le_trans h ((lifecycleView taskCapacity).load_le_of_run hs hrun)
  | unlock | waited | awaited => exact isTerminated_of_run hs h hrun
  | lock | load | parked | enable | asyncLoad | suspended => trivial

theorem isTerminated_of_lifecycleOf {loaded : ExecutorServiceLifecycle}
    (hs : (service taskCapacity).Reachable s) (hle : loaded ≤ load s.shared.lifecycle)
    (h : lifecycleOf loaded s.shared.taskCounts = terminated) : s.shared.isTerminated = true := by
  unfold lifecycleOf at h
  rw [isTerminated_iff]
  split at h
  · rename_i hboth
    obtain ⟨hclosed, hempty⟩ := Bool.and_eq_true_iff.mp hboth
    refine ⟨fun hrunning => ?_, (TokioExecutorTaskCounts.isEmpty_iff _).mp hempty⟩
    rw [hrunning] at hle
    revert hclosed hle
    cases loaded <;> decide
  · have hstored := hle.trans ((lifecycleView taskCapacity).load_le_stopping hs)
    rw [h] at hstored
    exact absurd hstored (by decide)

theorem hasSeen_of_waiterStep {w : Nat} {x' : Waiter} {g' : TokioExecutorServiceState}
    (hs : (service taskCapacity).Reachable s) (h : HasSeen s x)
    (hstep : waiterStep w s.shared x = some (g', x')) (hs' : s'.shared = g') : HasSeen s' x' := by
  subst hs'
  cases x <;> simp only [waiterStep] at hstep
  case waited | awaited => cases hstep
  case lock =>
    simp only [map_acquire_eq_some, Prod.mk.injEq] at hstep
    obtain ⟨_, _, rfl⟩ := hstep
    trivial
  case load =>
    obtain ⟨hshared, rfl⟩ := Prod.mk.inj (Option.some.inj hstep)
    intro hclosed
    rw [← hshared]
    exact isNotRunning_iff.mp hclosed
  case readCounts notRunning =>
    split at hstep
    · rename_i hboth
      obtain ⟨hshared, rfl⟩ := Prod.mk.inj (Option.some.inj hstep)
      obtain ⟨hclosed, hempty⟩ := Bool.and_eq_true_iff.mp hboth
      show s'.shared.isTerminated = true
      rw [← hshared, isTerminated_iff]
      exact ⟨h hclosed, (TokioExecutorTaskCounts.isEmpty_iff _).mp hempty⟩
    · obtain ⟨_, rfl⟩ := Prod.mk.inj (Option.some.inj hstep)
      trivial
  case unlock =>
    obtain ⟨hshared, rfl⟩ := Prod.mk.inj (Option.some.inj hstep)
    show s'.shared.isTerminated = true
    rw [← hshared]
    exact h
  case asyncReadCounts since loaded =>
    split at hstep
    · split at hstep
      · rename_i hterminated
        obtain ⟨hshared, rfl⟩ := Prod.mk.inj (Option.some.inj hstep)
        show s'.shared.isTerminated = true
        rw [← hshared]
        exact isTerminated_of_lifecycleOf hs h hterminated
      · obtain ⟨_, rfl⟩ := Prod.mk.inj (Option.some.inj hstep)
        trivial
    · cases hstep
  case parked | suspended =>
    split at hstep
    · obtain ⟨_, rfl⟩ := Prod.mk.inj (Option.some.inj hstep)
      trivial
    · cases hstep
  case enable =>
    obtain ⟨_, rfl⟩ := Prod.mk.inj (Option.some.inj hstep)
    trivial
  case asyncLoad =>
    obtain ⟨hshared, rfl⟩ := Prod.mk.inj (Option.some.inj hstep)
    show load s.shared.lifecycle ≤ load s'.shared.lifecycle
    rw [hshared]

theorem hasSeen_of_reachable (h : (service taskCapacity).Reachable s) :
    ∀ x ∈ s.waiters, HasSeen s x := by
  refine Reachable.invariant (P := fun s => ∀ x ∈ s.waiters, HasSeen s x) h ?_ ?_
  · simp [service]
  intro s a s' hs ih hnext
  have hkeep : ∀ x ∈ s.waiters, HasSeen s' x := fun x hx =>
    (ih x hx).run hs (RunUnder.tail (runUnder_refl s) trivial hnext)
  cases effect_of_step hnext with
  | newWaiter async =>
      refine forall_mem_append hkeep ?_
      cases async <;> trivial
  | waiter hx hstep =>
      exact forall_mem_set hkeep (hasSeen_of_waiterStep hs (ih _ (mem_of_getElem? hx)) hstep rfl)
  | newTask | newCloser | task | sweepNext | finishSweep | take | endSweep | closer => exact hkeep

/-! ### Results and termination -/

/-- Some stop call has taken the registry and not worked it off. -/
def isStopping (s : ServiceState) : Prop :=
  ∃ c ∈ s.closers, c.pc = .takeUnlock ∨ c.pc = .sweep

theorem isStopping_of_isTaken {t : TaskId} {τ : Task} (hs : (service taskCapacity).Reachable s)
    (hτ : s.tasks[t]? = some τ) (h : isTaken τ) : isStopping s := by
  obtain ⟨k, htaken⟩ := h
  have howned := (sweeping_of_reachable hs).owned t τ hτ
  cases hentry : τ.entry with
  | taken k' =>
      rw [hentry] at howned
      obtain ⟨c, hc, hpc⟩ := howned
      exact ⟨c, mem_of_getElem? hc, hpc⟩
  | sweeping k' p =>
      rw [hentry] at howned
      obtain ⟨c, hc, hpc, _⟩ := howned
      exact ⟨c, mem_of_getElem? hc, .inr hpc⟩
  | absent | registered | removed | gone =>
      rw [hentry] at htaken
      cases htaken

/-- A task that has given its place back has a resolved handle, unless a stop call
still has it in its hands. So whoever has waited for the termination finds every
result, for good, once no stop call is at work. -/
theorem results_before_termination (h : (service taskCapacity).Reachable s) :
    (∀ (t : TaskId) (τ : Task), s.tasks[t]? = some τ → τ.hasSlot = true → τ.finishes ≠ [] →
      τ.status.isTerminal = true ∨ isTaken τ ∧ isStopping s) ∧
    ∀ x ∈ s.waiters, x = .waited ∨ x = .awaited →
      s.shared.isTerminated = true ∧
      (¬ isStopping s → ∀ (t : TaskId) (τ : Task), s.tasks[t]? = some τ → τ.hasSlot = true →
        isAccepted τ.submitter = true → τ.status.isTerminal = true ∧
          ∀ s', (service taskCapacity).Run s s' →
            ∃ τ', s'.tasks[t]? = some τ' ∧ τ'.status = τ.status) := by
  have hreleased : ∀ (t : TaskId) (τ : Task), s.tasks[t]? = some τ → τ.hasSlot = true →
      τ.finishes ≠ [] → τ.status.isTerminal = true ∨ isTaken τ ∧ isStopping s := by
    intro t τ hτ hslot hfinishes
    have hmem := mem_of_getElem? hτ
    have hi := taskInvariant_of_reachable h τ hmem
    have hstate := taskState_of_finishes hi hfinishes
    rcases terminal_of_finished hi (settling_of_reachable h τ hmem) hslot hstate with
      hterminal | htaken
    · exact .inl hterminal
    · exact .inr ⟨htaken, isStopping_of_isTaken h hτ htaken⟩
  refine ⟨hreleased, fun x hx hreturned => ?_⟩
  have hterminated : s.shared.isTerminated = true := by
    have hseen := hasSeen_of_reachable h x hx
    rcases hreturned with rfl | rfl <;> exact hseen
  refine ⟨hterminated, fun hidle t τ hτ hslot haccepted => ?_⟩
  have hfinished := ((isTerminated_iff_finished h).mp hterminated).2 τ (mem_of_getElem? hτ)
  have hfinishes : τ.finishes ≠ [] := by
    intro hnil
    simp [isUnfinished, haccepted, hnil] at hfinished
  have hterminal : τ.status.isTerminal = true :=
    (hreleased t τ hτ hslot hfinishes).resolve_right fun hstop => hidle hstop.2
  refine ⟨hterminal, fun s' hrun => ?_⟩
  obtain ⟨τ', hτ', hstatus, _⟩ := status_of_run h hrun hτ hterminal
  exact ⟨τ', hτ', hstatus⟩

end

/-- A waiter returns between the count and the cancellation of the callable that a
stop call has claimed, and finds the result pending until the stop call is through. -/
theorem results_before_termination_stopped : ∃ s s' τ,
    (service oneSlot).Reachable s ∧ (service oneSlot).Run s s' ∧
    s.waiters = [.waited] ∧ s.tasks.map (·.status) = [.pending] ∧
    s'.waiters = [.waited] ∧ s'.tasks = [τ] ∧ τ.status = .cancelled ∧
    ∀ s'', (service oneSlot).Run s' s'' →
      ∃ τ', s''.tasks[0]? = some τ' ∧ τ'.status = .cancelled := by
  have hexecute : ((service oneSlot).execute
      (.callSubmit .callable :: submission 0 ++ .callClose .stop ::
        List.replicate 9 (.closer 0) ++ .sweepNext 0 0 :: List.replicate 6 (.sweep 0) ++
        .callWait false :: List.replicate 4 (.waiter 0)) (service oneSlot).start).bind (fun s =>
        ((service oneSlot).execute
          (List.replicate 9 (.sweep 0) ++ List.replicate 9 (.closer 0)) s).map (fun s' =>
          ((s.waiters, s.tasks.map (·.status)), s'.waiters, s'.closers.map (·.pc),
            s'.tasks.map fun τ => (τ.status, τ.hasSlot, isAccepted τ.submitter)))) =
      some (([.waited], [.pending]), [.waited], [.returned], [(.cancelled, true, true)]) := by
    rfl
  obtain ⟨s, hs, hlater⟩ := Option.bind_eq_some_iff.mp hexecute
  obtain ⟨s', hs', hview⟩ := Option.map_eq_some_iff.mp hlater
  simp only [Prod.mk.injEq] at hview
  obtain ⟨⟨hwaiters, hstatuses⟩, hwaiters', hclosers, htasks⟩ := hview
  obtain ⟨τ, htasks, hτ⟩ := List.map_eq_singleton_iff.mp htasks
  obtain ⟨c, hclosers, hpc⟩ := List.map_eq_singleton_iff.mp hclosers
  simp only [Prod.mk.injEq] at hτ
  obtain ⟨hstatus, hslot, haccepted⟩ := hτ
  have hrun := runUnder_of_executeUnder hs'
  have hidle : ¬ isStopping s' := by
    rintro ⟨c', hc', hwork⟩
    rw [hclosers, List.mem_singleton] at hc'
    subst hc'
    rw [hpc] at hwork
    rcases hwork with hwork | hwork <;> cases hwork
  obtain ⟨-, hreturned⟩ :=
    results_before_termination (Reachable.run (Reachable.of_execute hs) hrun)
  obtain ⟨-, hresults⟩ := hreturned .waited (by rw [hwaiters']; exact List.mem_singleton_self _)
    (.inl rfl)
  obtain ⟨-, hforever⟩ := hresults hidle 0 τ (by rw [htasks]; rfl) hslot haccepted
  refine ⟨s, s', τ, Reachable.of_execute hs, hrun, hwaiters, hstatuses, hwaiters', htasks, hstatus,
    fun s'' hrun' => ?_⟩
  obtain ⟨τ', hτ', hsame⟩ := hforever s'' hrun'
  exact ⟨τ', hτ', hsame.trans hstatus⟩

end TokioExecutorProofs.BlockingSettlement
