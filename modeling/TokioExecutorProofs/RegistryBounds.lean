import TokioExecutorProofs.BlockingStop
import TokioExecutorProofs.IoAccounting

/-!
The abort-handle registries hold unfinished tasks only, so the task capacity bounds
their size: whoever takes a task out of the count has taken its entry out of the
registry before.
-/

namespace TokioExecutorProofs.RegistryBounds

open ServiceBasics
open ProcessFamilies
open TransitionSystems

/-! ### The blocking service -/

section

open BlockingServiceState
open BlockingTask
open BlockingService
open BlockingTaskPlacement
open BlockingTaskRegistry
open BlockingTaskInvariants
open BlockingTaskMoves
open BlockingAccounting
open BlockingTermination

variable {taskCapacity : NonZeroUsize} {s : ServiceState} {t : TaskId} {τ τ' : Task}
  {g g' : TokioExecutorServiceState} {a : Action}

def isRegistered (τ : Task) : Bool := τ.entry == .registered

theorem entry_of_register (hi : TaskInvariant τ) (hs : τ.submitter = .register) :
    τ.entry = .absent :=
  hi.registry.absent.mpr (by rw [hs]; rfl)

theorem not_finished_of_taskStep (hi : TaskInvariant τ)
    (hopen : τ.entry = .registered → τ.taskState ≠ .finished) (h : TaskStep t g τ a g' τ')
    (hregistered : τ'.entry = .registered) : τ'.taskState ≠ .finished := by
  have hbefore := BlockingStop.registered_of_entryMove (entryMove_of_taskStep hi h) hregistered
  have hstate : τ.taskState ≠ .finished := by
    rcases hbefore with hold | hs
    · exact hopen hold
    · rw [hi.tracked.fresh (entry_of_register hi hs)]
      decide
  cases trackerMove_of_taskStep hi h with
  | keep hsame => rwa [hsame]
  | start _ _ hrunning =>
      rw [hrunning]
      decide
  | swap _ hstage =>
      rcases hbefore with hold | hs
      · have hpast := hi.registry.guard hold
        rw [hstage] at hpast
        cases hpast
      · simp [guardStage, hs, submitterPhase, guardStageOf] at hstage
  | sweep _ _ _ hentry' =>
      rw [hentry'] at hregistered
      cases hregistered
  | cancel _ hcancel =>
      have hmem := mem_of_getElem? hcancel
      rcases hbefore with hold | hs
      · have hpast := hi.registry.canceller hold _ hmem
        cases hpast
      · have hreturned := (hi.registry.cancels (List.ne_nil_of_mem hmem)).1
        rw [hs] at hreturned
        cases hreturned

theorem not_finished_of_registered (h : (service taskCapacity).Reachable s) :
    ∀ τ ∈ s.tasks, τ.entry = .registered → τ.taskState ≠ .finished := by
  have hall := forall_tasks_of_reachable
    (P := fun τ => TaskInvariant τ ∧ (τ.entry = .registered → τ.taskState ≠ .finished))
    (fun kind => ⟨taskInvariant_new kind, fun hentry => by cases hentry⟩) ?_
    (fun _ _ _ _ _ _ hP hstep => ⟨taskInvariant_of_taskStep hP.1 hstep,
      not_finished_of_taskStep hP.1 hP.2 hstep⟩) h
  · exact fun τ hτ => (hall τ hτ).2
  · rintro k τ ⟨hi, hopen⟩
    refine ⟨taskInvariant_takeEntry hi, ?_⟩
    unfold takeEntry
    split
    · exact fun hentry => by cases hentry
    · exact hopen

theorem isUnfinished_of_registered (h : (service taskCapacity).Reachable s) (hτ : τ ∈ s.tasks)
    (hregistered : isRegistered τ = true) : isUnfinished τ = true := by
  have hentry : τ.entry = .registered := by simpa [isRegistered] using hregistered
  have hi := taskInvariant_of_reachable h τ hτ
  have hcons := hi.tracked.conserved
  rw [if_neg (not_finished_of_registered h τ hτ hentry)] at hcons
  have hnil : τ.finishes = [] := List.eq_nil_of_length_eq_zero (by omega)
  simp [isUnfinished, isAccepted_of_closed hi (by simp [hentry]), hnil]

theorem registered_le_unfinished (h : (service taskCapacity).Reachable s) :
    s.tasks.countP isRegistered ≤ s.shared.taskCounts.queued + s.shared.taskCounts.running := by
  rw [(conserved_of_reachable h).sum]
  exact List.countP_mono_left fun τ hτ => isUnfinished_of_registered h hτ

end

/-! ### The IO service -/

section

open IoTask
open IoService
open IoTaskInvariants
open IoAccounting

variable {taskCapacity : NonZeroUsize} {s : ServiceState} {τ : Task}

def isRegisteredIo (τ : Task) : Bool := τ.entry == .registered

theorem isReleased_of_not_isPastRemove {x : PayloadStage} (h : x.isPastRemove = false) :
    x.isReleased = false := by
  cases x with
  | whole | futureDropped => rfl
  | destroyed => cases h
  | droppingGuard d => cases d <;> first | rfl | cases h

theorem isActive_of_registered (hi : TaskInvariant τ) (hregistered : isRegisteredIo τ = true) :
    isActive τ = true := by
  have hentry : τ.entry = .registered := by simpa [isRegisteredIo] using hregistered
  have hdecrements := hi.decrements
  rw [isReleased_of_not_isPastRemove (hi.registered hentry)] at hdecrements
  have hopen : isOpen τ.submitter = false := by
    by_contra hne
    have habsent := hi.absent.mpr (by simpa using hne)
    rw [hentry] at habsent
    cases habsent
  have haccepted : isAccepted τ.submitter = true := by
    cases hs : τ.submitter <;> simp [hs, isOpen] at hopen <;> rfl
  simp [isActive, haccepted, hdecrements]

theorem registered_le_active (h : (service taskCapacity).Reachable s) :
    s.tasks.countP isRegisteredIo ≤ s.shared.activeTasks := by
  rw [(conserved_of_reachable h).active]
  exact List.countP_mono_left fun τ hτ =>
    isActive_of_registered (taskInvariant_of_reachable h τ hτ)

end

/-- A registry never holds more entries than there are unfinished tasks, and none
at all once the service has terminated. -/
theorem registries_bounded (taskCapacity : NonZeroUsize) :
    (∀ s, (BlockingService.service taskCapacity).Reachable s →
      s.tasks.countP isRegistered ≤ s.shared.taskCounts.queued + s.shared.taskCounts.running ∧
        s.tasks.countP isRegistered ≤ taskCapacity.get ∧
        (s.shared.isTerminated = true → ∀ τ ∈ s.tasks, τ.entry ≠ .registered)) ∧
    (∀ s, (IoService.service taskCapacity).Reachable s →
      s.tasks.countP isRegisteredIo ≤ s.shared.activeTasks ∧
        s.tasks.countP isRegisteredIo ≤ taskCapacity.get ∧
        (s.shared.isTerminated = true → ∀ τ ∈ s.tasks, τ.entry ≠ .registered)) := by
  constructor
  · intro s h
    have hle := registered_le_unfinished h
    refine ⟨hle, hle.trans (BlockingAccounting.conserved_of_reachable h).bounded, ?_⟩
    intro hterminated τ hτ hentry
    have hzero := (BlockingServiceState.TokioExecutorServiceState.isTerminated_iff.mp hterminated).2
    have hpos : 0 < s.tasks.countP isRegistered :=
      List.countP_pos_iff.mpr ⟨τ, hτ, by simp [isRegistered, hentry]⟩
    omega
  · intro s h
    have hle := registered_le_active h
    refine ⟨hle, hle.trans (IoAccounting.conserved_of_reachable h).bounded, ?_⟩
    intro hterminated τ hτ hentry
    have hzero := (IoServiceState.TokioIoExecutorServiceState.isTerminated_iff.mp hterminated).2
    have hpos : 0 < s.tasks.countP isRegisteredIo :=
      List.countP_pos_iff.mpr ⟨τ, hτ, by simp [isRegisteredIo, hentry]⟩
    omega

/-- One submission fills the registry of a service with one slot. -/
theorem registries_bounded_full : ∃ s : BlockingService.ServiceState,
    s.tasks.countP isRegistered = 1 ∧ 1 ≤ s.shared.taskCounts.queued + s.shared.taskCounts.running ∧
      ∃ s' : IoService.ServiceState, s'.tasks.countP isRegisteredIo = 1 ∧
        1 ≤ s'.shared.activeTasks := by
  have hblocking : ((BlockingService.service oneSlot).execute
      (.callSubmit .callable :: BlockingService.submission 0)
        (BlockingService.service oneSlot).start).map (fun s => s.tasks.countP isRegistered) =
      some 1 := by decide
  have hio : ((IoService.service oneSlot).execute (.callSpawn :: IoService.submission 0)
      (IoService.service oneSlot).start).map (fun s => s.tasks.countP isRegisteredIo) =
      some 1 := by decide
  obtain ⟨s, hs, hone⟩ := Option.map_eq_some_iff.mp hblocking
  obtain ⟨s', hs', hone'⟩ := Option.map_eq_some_iff.mp hio
  have hbounded := (registries_bounded oneSlot).1 s (Reachable.of_execute hs)
  have hbounded' := (registries_bounded oneSlot).2 s' (Reachable.of_execute hs')
  exact ⟨s, hone, hone ▸ hbounded.1, s', hone', hone' ▸ hbounded'.1⟩

end TokioExecutorProofs.RegistryBounds
