import TokioExecutorProofs.BlockingTermination

/-!
What a result handle of the blocking service observes. No accepted callable
loses its result, and the execution, the cancellations and the stop calls agree
on it.
-/

namespace TokioExecutorProofs.BlockingResults

open ServiceBasics
open BlockingServiceState
open BlockingTask
open BlockingService
open BlockingTaskPlacement
open BlockingTaskRegistry
open BlockingTaskTracking
open BlockingTaskSlots
open BlockingTaskInvariants
open BlockingTaskEffects
open BlockingAccounting
open BlockingSweeps
open BlockingTermination
open ProcessFamilies
open TransitionSystems

/-! ### The end of the payload -/

/-- The user closure and the guard are gone, on whatever path. -/
def isPayloadDestroyed (τ : Task) : Prop :=
  τ.submitter = .returned ∧ workerPhase τ.worker = .ended

/-- No stop call has the registry entry in its hands, and every cancellation has
returned. -/
def isUndisturbed (τ : Task) : Prop :=
  (∀ k, EntryPc.isTakenBy k τ.entry = false) ∧ ∀ c ∈ τ.cancels, ∃ b, c = .returned b

section

variable {τ : Task}

theorem guardStage_of_destroyed (h : isPayloadDestroyed τ) : guardStage τ = .dropped := by
  rw [guardStage, h.1, h.2]
  rfl

theorem entry_of_destroyed (hi : TaskInvariant τ) (h : isPayloadDestroyed τ)
    (hquiet : isUndisturbed τ) : τ.entry = .gone := by
  have hstage := guardStage_of_destroyed h
  have hdrops : τ.cancels.countP CancelPc.dropsEntry = 0 := by
    rw [countP_eq_zero_iff]
    intro c hc
    obtain ⟨b, rfl⟩ := hquiet.2 c hc
    rfl
  cases hentry : τ.entry with
  | absent => exact absurd hentry (entry_ne_absent_of_returned hi.registry h.1)
  | registered =>
      have := hi.registry.guard hentry
      rw [hstage] at this
      cases this
  | taken k =>
      have := hquiet.1 k
      simp [hentry, EntryPc.isTakenBy] at this
  | sweeping k p =>
      have := hquiet.1 k
      simp [hentry, EntryPc.isTakenBy] at this
  | removed =>
      have := hi.registry.removed
      simp [entryDrops, hstage, hentry, hdrops, GuardStage.dropsEntry] at this
  | gone => rfl

theorem payloadSlotRef_of_destroyed (hi : TaskInvariant τ) (h : isPayloadDestroyed τ) :
    τ.payloadSlotRef = false := by
  have hchannel : τ.channel = .closed := by
    have hplaced := hi.placed
    rw [Placed, h.1, h.2] at hplaced
    simpa [submitterPhase, consistent] using hplaced
  rcases worker_of_ended h.2 with hw | hw <;>
    simp [Task.payloadSlotRef, h.1, hchannel, hw, SubmitterPc.ownsClosure, WorkerPc.ownsClosure]

theorem status_of_destroyed (hi : TaskInvariant τ) (hslot : τ.hasSlot = true)
    (h : isPayloadDestroyed τ) (hquiet : isUndisturbed τ) : τ.status.isTerminal = true := by
  have hentry := entry_of_destroyed hi h hquiet
  have hhook : τ.hookSlotRef = false := by
    simp [Task.hookSlotRef, h.1, hentry, SubmitterPc.ownsHook, EntryPc.ownsHook]
  have hcell : τ.slotInCell = false := by
    by_contra hcell
    have := (hi.held.cell (by simpa using hcell)).2.1
    simp [payloadSlotRef_of_destroyed hi h, hhook] at this
  cases hstatus : τ.status with
  | pending =>
      rcases hi.held.pending hslot hcell hstatus with hshared | hw
      · simp [h.1, isUnshared] at hshared
      · have := h.2
        simp [hw, workerPhase] at this
  | running =>
      have := (hi.held.started.mp hstatus).2
      rcases worker_of_ended h.2 with hw | hw <;> simp [hw, isStarted] at this
  | completed | cancelled | dropped => rfl

theorem finishes_of_destroyed (hi : TaskInvariant τ) (h : isPayloadDestroyed τ)
    (hquiet : isUndisturbed τ) : τ.finishes.length = 1 := by
  refine finishes_of_settled hi (guardStage_of_destroyed h) ⟨by rw [h.2]; rfl, ?_⟩
  intro site started f hat
  rcases finishAt_cases hat with ⟨_, hstage⟩ | ⟨_, _, k, hentry⟩ | ⟨j, _, _, hc⟩
  · simp [guardStage_of_destroyed h] at hstage
  · simp [entry_of_destroyed hi h hquiet] at hentry
  · obtain ⟨b, hb⟩ := hquiet.2 _ (mem_of_getElem? hc)
    cases hb

end

section

variable {taskCapacity : NonZeroUsize} {s s' : ServiceState} {t : TaskId} {τ : Task}

theorem result_not_lost (h : (service taskCapacity).Reachable s) (hτ : s.tasks[t]? = some τ)
    (hslot : τ.hasSlot = true) (hdestroyed : isPayloadDestroyed τ) (hquiet : isUndisturbed τ) :
    τ.status.isTerminal = true ∧ τ.entry = .gone ∧
      isCountedQueued τ = false ∧ isCountedRunning τ = false ∧
      s.shared.taskCounts.queued = s.tasks.countP isCountedQueued ∧
      s.shared.taskCounts.running = s.tasks.countP isCountedRunning := by
  have hi := taskInvariant_of_reachable h τ (mem_of_getElem? hτ)
  have hc := conserved_of_reachable h
  have hfinishes := finishes_of_destroyed hi hdestroyed hquiet
  have hfinished : isUnfinished τ = false := by
    unfold isUnfinished
    cases hnil : τ.finishes with
    | nil => simp [hnil] at hfinishes
    | cons => simp
  exact ⟨status_of_destroyed hi hslot hdestroyed hquiet,
    entry_of_destroyed hi hdestroyed hquiet, by simp [isCountedQueued, hfinished],
    by simp [isCountedRunning, hfinished], hc.queued, hc.running⟩

end

/-- The runtime is closed before the spawn, so that the send fails and the
submission itself destroys the payload. -/
theorem result_not_lost_closed :
    ∃ s τ, (service oneSlot).execute
        (.callSubmit .callable :: List.replicate 26 (.submitter 0 true))
          (service oneSlot).start = some s ∧ s.tasks[0]? = some τ ∧
      τ.status = .dropped ∧ τ.entry = .gone ∧
      isCountedQueued τ = false ∧ isCountedRunning τ = false := by
  have hexecute : ((service oneSlot).execute
      (.callSubmit .callable :: List.replicate 26 (.submitter 0 true))
        (service oneSlot).start).map
        (fun s => s.tasks.map fun τ =>
          ((τ.kind, τ.submitter, τ.worker), τ.entry, τ.cancels, τ.status)) =
      some [((.callable, .returned, .finished), .gone, [], .dropped)] := rfl
  obtain ⟨s, hs, htasks⟩ := Option.map_eq_some_iff.mp hexecute
  rw [List.map_eq_singleton_iff] at htasks
  obtain ⟨τ, htasks, hτ⟩ := htasks
  simp only [Prod.mk.injEq] at hτ
  obtain ⟨⟨hkind, hsubmitter, hworker⟩, hentry, hcancels, hstatus⟩ := hτ
  have hget : s.tasks[0]? = some τ := by rw [htasks]; rfl
  have hdestroyed : isPayloadDestroyed τ := ⟨hsubmitter, by rw [hworker]; rfl⟩
  have hquiet : isUndisturbed τ :=
    ⟨fun k => by rw [hentry]; rfl, by simp [hcancels]⟩
  obtain ⟨_, hgone, hqueued, hrunning, _⟩ := result_not_lost (Reachable.of_execute hs) hget
    (by rw [Task.hasSlot, hkind]; rfl) hdestroyed hquiet
  exact ⟨s, τ, hs, hget, hstatus, hgone, hqueued, hrunning⟩

/-! ### One outcome -/

section

variable {taskCapacity : NonZeroUsize} {s s' : ServiceState} {t : TaskId} {τ : Task}

theorem task_of_run {P : Task → Prop} (h : (service taskCapacity).Reachable s)
    (hrun : (service taskCapacity).Run s s') (hτ : s.tasks[t]? = some τ) (hP : P τ)
    (htake : ∀ k τ, P τ → P (takeEntry k τ))
    (hstep : ∀ t g τ a g' τ', TaskInvariant τ → P τ → TaskStep t g τ a g' τ' → P τ') :
    ∃ τ', s'.tasks[t]? = some τ' ∧ P τ' := by
  refine Run.stable (P := fun s' => ∃ τ', s'.tasks[t]? = some τ' ∧ P τ') h hrun ⟨τ, hτ, hP⟩ ?_
  rintro s₁ a s₂ hs₁ ⟨τ₁, hτ₁, hP₁⟩ hnext
  rcases (effect_of_step hnext).tasks with
    ⟨kind, -, htasks⟩ | ⟨t₂, τ₂, τ₃, hτ₂, hτstep, htasks⟩ | ⟨k, -, htasks⟩ | htasks
  · exact ⟨τ₁, by rw [htasks]; exact getElem?_append_of_some hτ₁, hP₁⟩
  · rw [htasks]
    by_cases ht : t = t₂
    · subst t₂
      obtain rfl := Option.some.inj (hτ₁.symm.trans hτ₂)
      have hi := taskInvariant_of_reachable hs₁ τ₁ (mem_of_getElem? hτ₁)
      exact ⟨τ₃, getElem?_set_self_of_some hτ₁, hstep _ _ _ _ _ _ hi hP₁ hτstep⟩
    · exact ⟨τ₁, (getElem?_set_of_ne ht).trans hτ₁, hP₁⟩
  · refine ⟨takeEntry k τ₁, ?_, htake k τ₁ hP₁⟩
    rw [htasks, List.getElem?_map, hτ₁]
    rfl
  · exact ⟨τ₁, by rw [htasks]; exact hτ₁, hP₁⟩

/-- Terminal statuses are final. -/
theorem status_of_run (h : (service taskCapacity).Reachable s)
    (hrun : (service taskCapacity).Run s s') (hτ : s.tasks[t]? = some τ)
    (hterminal : τ.status.isTerminal = true) :
    ∃ τ', s'.tasks[t]? = some τ' ∧ τ'.status = τ.status ∧ τ'.kind = τ.kind := by
  refine task_of_run (P := fun τ' => τ'.status = τ.status ∧ τ'.kind = τ.kind) h hrun hτ
    ⟨rfl, rfl⟩ ?_ ?_
  · intro k τ' hτ'
    unfold takeEntry
    split <;> exact hτ'
  · rintro t g τ₁ a g' τ₂ hi ⟨hstatus, hkind⟩ hstep
    refine ⟨?_, (taskStep_frame hstep).1.trans hkind⟩
    rw [← hstatus] at hterminal ⊢
    exact (status_of_taskStep hi.held hstep).of_terminal hterminal

theorem status_of_won (hi : TaskInvariant τ) (h : CancelPc.returned true ∈ τ.cancels) :
    τ.status = .cancelled := by
  have hle := hi.held.cancelled
  have hpos : 0 < τ.cancels.countP CancelPc.isWon :=
    List.countP_pos_iff.mpr ⟨_, h, rfl⟩
  by_contra hne
  rw [if_neg hne] at hle
  omega

theorem invocations_of_status (hi : TaskInvariant τ) (hslot : τ.hasSlot = true)
    (h : τ.status = .cancelled ∨ τ.status = .dropped) : τ.invocations = 0 := by
  by_contra hne
  rcases hi.invoked.result hslot hne with hstatus | ⟨o, _, hstatus⟩ <;>
    rcases h with h | h <;> rw [h] at hstatus <;> cases hstatus

theorem invocation_agrees_with_result (h : (service taskCapacity).Reachable s)
    (hτ : s.tasks[t]? = some τ) (hslot : τ.hasSlot = true) :
    τ.invocations ≤ 1 ∧
      (.returned true ∈ τ.cancels ∨ τ.countedBy ≠ [] ∨ τ.status = .cancelled ∨
        τ.status = .dropped → ∀ s', (service taskCapacity).Run s s' →
          ∃ τ', s'.tasks[t]? = some τ' ∧ τ'.invocations = 0) ∧
      (τ.invocations ≠ 0 → τ.status = .running ∧ isStarted τ.worker = true ∨
        ∃ o, τ.returned = some o ∧ τ.status = .completed o) ∧
      (τ.status.isTerminal = true → ∀ s', (service taskCapacity).Run s s' →
        ∃ τ', s'.tasks[t]? = some τ' ∧ τ'.status = τ.status) ∧
      (τ.cancels.countP fun c => c == .returned true) ≤ 1 ∧
      (τ.worker = .invoke ∨ τ.worker = .executing →
        isCountedRunning τ = true ∧ 0 < s.shared.taskCounts.running) := by
  have hmem := mem_of_getElem? hτ
  have hi := taskInvariant_of_reachable h τ hmem
  refine ⟨hi.invoked.once, ?_, ?_, ?_, ?_, ?_⟩
  · intro hprevented s' hrun
    have hstatus : τ.status = .cancelled ∨ τ.status = .dropped := by
      rcases hprevented with hwon | hcounted | hstatus
      · exact .inl (status_of_won hi hwon)
      · exact .inl (hi.held.counted hslot (.inr hcounted))
      · exact hstatus
    have hterminal : τ.status.isTerminal = true := by
      rcases hstatus with hstatus | hstatus <;> rw [hstatus] <;> rfl
    obtain ⟨τ', hτ', hsame, hkind⟩ := status_of_run h hrun hτ hterminal
    have hi' := taskInvariant_of_reachable (Reachable.run h hrun) τ' (mem_of_getElem? hτ')
    refine ⟨τ', hτ', invocations_of_status hi' ?_ (hsame ▸ hstatus)⟩
    rwa [Task.hasSlot, hkind]
  · intro hne
    rcases hi.invoked.result hslot hne with hstatus | hdone
    · exact .inl ⟨hstatus, (hi.held.started.mp hstatus).2⟩
    · exact .inr hdone
  · intro hterminal s' hrun
    obtain ⟨τ', hτ', hsame, _⟩ := status_of_run h hrun hτ hterminal
    exact ⟨τ', hτ', hsame⟩
  · have hle : (τ.cancels.countP fun c => c == .returned true) ≤
        τ.cancels.countP CancelPc.isWon := by
      apply List.countP_mono_left
      intro c _ hc
      rw [beq_iff_eq] at hc
      rw [hc]
      rfl
    have := hi.held.cancelled
    split at this <;> omega
  · intro hw
    have hcounted : isCountedRunning τ = true := by
      apply isUnfinished_of_running hi
      rcases hw with hw | hw <;> rw [hw] <;> rfl
    refine ⟨hcounted, ?_⟩
    rw [(conserved_of_reachable h).running]
    exact List.countP_pos_iff.mpr ⟨τ, hmem, hcounted⟩

end

/-- A cancellation that wins before the pick-up keeps the callable from running. -/
theorem invocation_agrees_with_result_cancelled :
    ∃ s τ, (service oneSlot).execute
        (.callSubmit .trackedCallable :: submission 0 ++
          .callCancel 0 :: List.replicate 14 (.canceller 0 0)) (service oneSlot).start =
          some s ∧ s.tasks[0]? = some τ ∧ τ.cancels = [.returned true] ∧
      ∀ s', (service oneSlot).Run s s' →
        ∃ τ', s'.tasks[0]? = some τ' ∧ τ'.invocations = 0 := by
  have hexecute : ((service oneSlot).execute
      (.callSubmit .trackedCallable :: submission 0 ++
        .callCancel 0 :: List.replicate 14 (.canceller 0 0)) (service oneSlot).start).map
        (fun s => s.tasks.map fun τ => (τ.kind, τ.cancels)) =
      some [(.trackedCallable, [.returned true])] := by decide
  obtain ⟨s, hs, htasks⟩ := Option.map_eq_some_iff.mp hexecute
  rw [List.map_eq_singleton_iff] at htasks
  obtain ⟨τ, htasks, hτ⟩ := htasks
  simp only [Prod.mk.injEq] at hτ
  have hget : s.tasks[0]? = some τ := by rw [htasks]; rfl
  have hagrees := invocation_agrees_with_result (Reachable.of_execute hs) hget
    (by rw [Task.hasSlot, hτ.1]; rfl)
  exact ⟨s, τ, hs, hget, hτ.2, hagrees.2.1 (.inl (by simp [hτ.2]))⟩

end TokioExecutorProofs.BlockingResults
