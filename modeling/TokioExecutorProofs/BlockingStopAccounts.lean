import TokioExecutorProofs.BlockingTaskMoves
import TokioExecutorProofs.BlockingResults

/-!
The account of one task with the stop calls: a stop call that claims the task
finishes it and counts it once, and a task whose entry nobody will use any more
has started or never will.
-/

namespace TokioExecutorProofs.BlockingStopAccounts

open ServiceBasics
open BlockingServiceState
open BlockingServiceState.TokioExecutorServiceState
open BlockingTask
open BlockingService
open BlockingTaskPlacement
open BlockingTaskRegistry
open BlockingTaskTracking
open BlockingTaskSlots
open BlockingTaskInvariants
open BlockingTaskEffects
open BlockingTaskMoves
open BlockingAccounting
open BlockingSweeps
open BlockingLocks
open BlockingTermination
open BlockingResults
open MutexTables
open ProcessFamilies
open TransitionSystems

/-! ### One task -/

/-- The user callable of the task will never be invoked: its tracker cannot be
moved to running any more, or its slot cannot be started. -/
def isPrevented (τ : Task) : Prop :=
  τ.everRunning = false ∧ (τ.taskState = .finished ∨ isPerishing τ) ∨
    τ.hasSlot = true ∧ τ.status = .cancelled

structure Accounted (τ : Task) : Prop where
  once : τ.countedBy ≠ [] → τ.entry = .gone ∧ τ.countedBy.length = 1
  finished : EntryPc.isWon τ.entry = true ∨ τ.countedBy ≠ [] →
    τ.finishes.length + (EntryPc.isPending τ.entry).toNat = 1
  unregistered : τ.submitter = .registerUnlock false ∨ τ.submitter = .dropHook →
    workerPhase τ.worker = .ended
  released : EntryPc.isReleased τ.entry = true → τ.everRunning = true ∨ isPrevented τ

section

variable {t : TaskId} {g g' : TokioExecutorServiceState} {τ τ' : Task} {a : Action}

theorem isPrevented_of_taskStep (hi : TaskInvariant τ) (h : TaskStep t g τ a g' τ')
    (hprevented : isPrevented τ) : isPrevented τ' := by
  rcases hprevented with ⟨hever, hdead⟩ | ⟨hslot, hstatus⟩
  · refine .inl ⟨?_, ?_⟩
    · cases trackerMove_of_taskStep hi h with
      | keep _ hkeep => exact hkeep.trans hever
      | swap _ _ _ _ hkeep | sweep _ _ _ _ _ hkeep | cancel _ _ _ _ hkeep => exact hkeep.trans hever
      | start hw hqueued =>
          rcases hdead with hfinished | hperish
          · rw [hqueued] at hfinished
            cases hfinished
          · exact absurd hperish (not_isPerishing_of_markStarted hi.placed hw)
    · rcases hdead with hfinished | hperish
      · exact .inl ((trackerMove_of_taskStep hi h).finished hfinished).1
      · exact .inr (isPerishing_of_taskStep hi.placed h hperish)
  · refine .inr ⟨?_, ?_⟩
    · rw [Task.hasSlot, (taskStep_frame h).1]
      exact hslot
    · rw [(status_of_taskStep hi.held h).of_terminal (by rw [hstatus]; rfl), hstatus]

theorem invocations_of_isPrevented (hi : TaskInvariant τ) (h : isPrevented τ) :
    τ.invocations = 0 := by
  rcases h with ⟨hever, _⟩ | ⟨hslot, hstatus⟩
  · by_contra hne
    have := hi.invoked.ever hne
    rw [hever] at this
    cases this
  · exact invocations_of_status hi hslot (.inl hstatus)

theorem isPrevented_of_run {taskCapacity : NonZeroUsize} {s s' : ServiceState}
    (h : (service taskCapacity).Reachable s) (hrun : (service taskCapacity).Run s s')
    (hτ : s.tasks[t]? = some τ) (hprevented : isPrevented τ) :
    ∃ τ', s'.tasks[t]? = some τ' ∧ τ'.invocations = 0 := by
  obtain ⟨τ', hτ', hprevented'⟩ := task_of_run (P := isPrevented) h hrun hτ hprevented
    (fun k τ hτ => by unfold takeEntry; split <;> exact hτ)
    (fun _ _ _ _ _ _ hi hτ hstep => isPrevented_of_taskStep hi hstep hτ)
  exact ⟨τ', hτ', invocations_of_isPrevented
    (taskInvariant_of_reachable (Reachable.run h hrun) τ' (mem_of_getElem? hτ')) hprevented'⟩

theorem finishes_of_taskStep (hi : TaskInvariant τ) (h : TaskStep t g τ a g' τ') :
    τ.finishes.length ≤ τ'.finishes.length := by
  cases sharedMove_of_taskStep hi h with
  | locks _ _ hfinishes | start _ _ _ hfinishes | accept _ _ _ _ hfinishes => rw [hfinishes]
  | finish _ _ _ _ hfinishes =>
      rw [hfinishes]
      split
      · simp
      · exact le_rfl

theorem unregistered_of_taskStep (hi : TaskInvariant τ) (ha : Accounted τ)
    (h : TaskStep t g τ a g' τ')
    (hs' : τ'.submitter = .registerUnlock false ∨ τ'.submitter = .dropHook) :
    workerPhase τ'.worker = .ended := by
  have hkeep := ended_of_taskStep hi.placed h
  rcases (taskStep_frame h).2.1 with hsame | ⟨runtimeClosed, _, hsubmit⟩
  · rw [hsame] at hs'
    exact hkeep (ha.unregistered hs')
  · cases hs : τ.submitter <;> simp only [submitterStep, hs] at hsubmit
    case register =>
      -- The marker cannot be finished while the submitter owns the guard.
      have hmarker : τ.markerFinished = false := by
        refine hi.registry.marker ?_ ?_
        · rw [guardStage, hs]
          rfl
        · by_contra hcancels
          have := (hi.registry.cancels hcancels).1
          rw [hs] at this
          cases this
      apply hkeep
      by_cases hw : τ.worker = .finished
      · rw [hw]
        rfl
      · simp only [hmarker, Bool.not_false, Bool.true_and, bne_iff_ne, ne_eq, hw,
          not_false_eq_true, if_true, Option.some.injEq, Prod.mk.injEq] at hsubmit
        rw [← hsubmit.2] at hs'
        simp at hs'
    case registerUnlock inserted =>
      apply hkeep
      cases inserted with
      | false => exact ha.unregistered (.inl hs)
      | true =>
          simp only [Option.some.injEq, Prod.mk.injEq] at hsubmit
          rw [← hsubmit.2] at hs'
          simp at hs'
    case dropHook => exact hkeep (ha.unregistered (.inr hs))
    case dropClosure c =>
      rcases hc : closureStep τ c with ⟨τ₁, next⟩
      simp only [Option.some.injEq, Prod.mk.injEq, hc] at hsubmit
      rw [← hsubmit.2] at hs'
      cases next <;> simp at hs'
    case dropGuard d =>
      simp only [Option.map_eq_some_iff, Prod.mk.injEq, Prod.exists] at hsubmit
      obtain ⟨_, _, next, _, _, rfl⟩ := hsubmit
      cases next <;> simp at hs'
    all_goals grind -linarith

theorem released_of_taskStep (hi : TaskInvariant τ) (ha : Accounted τ)
    (h : TaskStep t g τ a g' τ') (hreleased : EntryPc.isReleased τ'.entry = true) :
    τ'.everRunning = true ∨ isPrevented τ' := by
  -- Whoever prevents the task before the step prevents it after the step.
  have hkeep : τ.everRunning = true ∨ isPrevented τ →
      τ'.everRunning = true ∨ isPrevented τ' :=
    Or.imp (taskStep_frame h).2.2.2.1 (isPrevented_of_taskStep hi h)
  have hdead : τ.taskState = .finished ∨ isPerishing τ → τ.everRunning = true ∨ isPrevented τ := by
    intro hdead
    cases hever : τ.everRunning with
    | true => exact .inl rfl
    | false => exact .inr (.inl ⟨hever, hdead⟩)
  apply hkeep
  cases entryMove_of_taskStep hi h with
  | keep hentry => exact ha.released (hentry ▸ hreleased)
  | register _ _ hentry' | sweepNext _ hentry' =>
      rw [hentry'] at hreleased
      cases hreleased
  | dropHook hs => exact hdead (.inr (.inr (ha.unregistered (.inr hs))))
  | remove hsite hentry =>
      rcases hsite with hstage | ⟨j, hj⟩
      · exact hdead (.inr (.inl (by rw [hstage]; simp)))
      · -- A cancellation removes the entry only after it has won the slot.
        have hmem := mem_of_getElem? hj
        have hkind := (hi.registry.cancels (List.ne_nil_of_mem hmem)).2
        refine .inr (.inr ⟨by rw [Task.hasSlot, hkind]; rfl, ?_⟩)
        by_contra hstatus
        have hwon := hi.held.cancelled
        have := weight_le_countP CancelPc.isWon hj
        rw [weight_of_true (by rfl)] at this
        rw [if_neg hstatus] at hwon
        omega
  | drop hentry => exact ha.released (by rw [hentry]; rfl)
  | @sweep k p p' _ hentry hentry' hmove hnew =>
      rw [hentry'] at hreleased
      rcases hnew hreleased with hold | hwon | ⟨_, hw⟩ | hstate
      · exact ha.released (by rw [hentry]; exact hold)
      · exact hdead (.inl (hi.tracked.entryWon (by rw [hentry]; exact hwon)).2)
      · exact hdead (.inr (.inr (by rw [hw]; rfl)))
      · cases hever : τ.everRunning with
        | true => exact .inl rfl
        | false =>
            refine .inr (.inl ⟨hever, .inl ?_⟩)
            have := hi.tracked.notRunning hever
            cases hs : τ.taskState with
            | queued => exact absurd hs hstate
            | running => exact absurd hs this
            | finished => rfl
  | finishSweep hentry => exact ha.released (by rw [hentry]; rfl)

theorem once_of_taskStep (hi : TaskInvariant τ) (ha : Accounted τ)
    (h : TaskStep t g τ a g' τ') (hcounted : τ'.countedBy ≠ []) :
    τ'.entry = .gone ∧ τ'.countedBy.length = 1 := by
  rcases countedBy_of_taskStep h with hsame | ⟨k, counted, -, hentry, rfl⟩
  · rw [hsame] at hcounted ⊢
    obtain ⟨hgone, hlength⟩ := ha.once hcounted
    exact ⟨EntryMove.of_gone hi (entryMove_of_taskStep hi h) hgone, hlength⟩
  · have hnil : τ.countedBy = [] := by
      by_contra hne
      have := (ha.once hne).1
      rw [hentry] at this
      cases this
    cases counted with
    | false => exact absurd hnil hcounted
    | true => exact ⟨rfl, by simp [finishSweep, hnil]⟩

theorem finished_of_sweepMove {p p' : SweepPc} {state : TrackerState} {finishes : List Bool}
    (hi : TaskInvariant τ)
    (hfinished : SweepPc.isWon p = true →
      τ.finishes.length + (SweepPc.isPending p).toNat = 1)
    (h : SweepMove τ p p' state finishes) (hwon : SweepPc.isWon p' = true) :
    finishes.length + (SweepPc.isPending p').toNat = 1 := by
  cases h with
  | win hstate => simp [(finishes_of_queued hi hstate).2, SweepPc.isPending, FinishPc.isPending]
  | other hsame hp hp' =>
      have := hfinished (hsame ▸ hwon)
      rw [hp] at this
      rwa [hp']
  | @finish f next hmove =>
      have hbefore := hfinished rfl
      cases hmove with
      | lock => exact hbefore
      | update hf =>
          simp only [SweepPc.isPending, FinishPc.isPending, Bool.toNat_true] at hbefore
          rw [if_pos rfl, List.length_append, List.length_singleton]
          simp only [Option.elim, SweepPc.isPending, hf, Bool.toNat_false]
          omega
      | rest hf hnext =>
          have hne : f ≠ .update := by
            rintro rfl
            cases hf
          simp only [SweepPc.isPending, hf, Bool.toNat_false] at hbefore
          rw [if_neg hne]
          cases next with
          | none =>
              simp only [Option.elim]
              split <;> exact hbefore
          | some f' =>
              simp only [Option.elim, SweepPc.isPending, hnext f' rfl]
              exact hbefore

theorem finished_of_taskStep (hi : TaskInvariant τ) (ha : Accounted τ)
    (h : TaskStep t g τ a g' τ')
    (hcredit : EntryPc.isWon τ'.entry = true ∨ τ'.countedBy ≠ []) :
    τ'.finishes.length + (EntryPc.isPending τ'.entry).toNat = 1 := by
  rcases countedBy_of_taskStep h with hsame | ⟨k, counted, -, hentry, rfl⟩
  · rw [hsame] at hcredit
    have hnone : τ.entry ≠ .gone → EntryPc.isWon τ'.entry = false →
        τ'.finishes.length + (EntryPc.isPending τ'.entry).toNat = 1 := by
      intro hne hnot
      rcases hcredit with hwon | hcounted
      · rw [hnot] at hwon
        cases hwon
      · exact absurd (ha.once hcounted).1 hne
    cases entryMove_of_taskStep hi h with
    | keep hentry =>
        -- Nobody else can finish a task that is claimed.
        have hi' := taskInvariant_of_taskStep hi h
        have hbefore := ha.finished (hentry ▸ hcredit)
        have hmono := finishes_of_taskStep hi h
        have hstate : τ'.taskState = .finished := by
          rcases hcredit with hwon | hcounted
          · exact (hi'.tracked.entryWon hwon).2
          · exact (hi'.tracked.counted (hsame ▸ hcounted)).2
        have hcons := hi'.tracked.conserved
        rw [if_pos hstate, pendingFinishes] at hcons
        rw [hentry] at hcons ⊢
        omega
    | register hs _ hentry' | dropHook hs hentry' =>
        have habsent := hi.registry.absent.mpr (by rw [hs]; rfl)
        exact hnone (by simp [habsent]) (by rw [hentry']; rfl)
    | remove _ hentry hentry' | drop hentry hentry' | sweepNext hentry hentry' =>
        exact hnone (by simp [hentry]) (by rw [hentry']; rfl)
    | finishSweep hentry hentry' =>
        rcases hcredit with hwon | hcounted
        · rw [hentry'] at hwon
          cases hwon
        · rw [(ha.once hcounted).1] at hentry
          cases hentry
    | sweep _ hentry hentry' hmove =>
        rcases hcredit with hwon | hcounted
        · have hfinished := ha.finished
          rw [hentry] at hfinished
          rw [hentry'] at hwon ⊢
          exact finished_of_sweepMove hi (fun hp => hfinished (.inl hp)) hmove hwon
        · rw [(ha.once hcounted).1] at hentry
          cases hentry
  · have hcounted := hcredit.resolve_left (by simp [finishSweep, EntryPc.isWon])
    have hbefore := ha.finished
    rw [hentry] at hbefore
    cases counted with
    | true => exact hbefore (.inl rfl)
    | false =>
        have := (ha.once hcounted).1
        rw [hentry] at this
        cases this

theorem accounted_of_taskStep (hi : TaskInvariant τ) (ha : Accounted τ)
    (h : TaskStep t g τ a g' τ') : Accounted τ' where
  once := once_of_taskStep hi ha h
  finished := finished_of_taskStep hi ha h
  unregistered := unregistered_of_taskStep hi ha h
  released := released_of_taskStep hi ha h

theorem accounted_takeEntry {k : Nat} (ha : Accounted τ) : Accounted (takeEntry k τ) := by
  unfold takeEntry
  split
  · rename_i hentry
    have hnil : τ.countedBy = [] := by
      by_contra hne
      have := (ha.once hne).1
      rw [hentry] at this
      cases this
    exact ⟨fun hne => absurd hnil hne, by simp [EntryPc.isWon, hnil], ha.unregistered,
      by simp [EntryPc.isReleased]⟩
  · exact ha

theorem accounted_of_reachable {taskCapacity : NonZeroUsize} {s : ServiceState}
    (h : (service taskCapacity).Reachable s) : ∀ τ ∈ s.tasks, Accounted τ := by
  have hboth : ∀ τ ∈ s.tasks, TaskInvariant τ ∧ Accounted τ := by
    refine forall_tasks_of_reachable (fun kind => ⟨taskInvariant_new kind, ?_⟩)
      (fun k τ hτ => ⟨taskInvariant_takeEntry hτ.1, accounted_takeEntry hτ.2⟩)
      (fun t g τ a g' τ' hτ hstep => ⟨taskInvariant_of_taskStep hτ.1 hstep,
        accounted_of_taskStep hτ.1 hτ.2 hstep⟩) h
    constructor <;> simp [EntryPc.isWon, EntryPc.isReleased]
  exact fun τ hτ => (hboth τ hτ).2

end

end TokioExecutorProofs.BlockingStopAccounts
