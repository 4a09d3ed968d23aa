import Mathlib.Data.List.Perm.Basic
import TokioExecutorProofs.IoTermination

/-! A handle of the IO service is done only after its task has given back everything. -/

namespace TokioExecutorProofs.IoHandles

open ServiceBasics
open IoServiceState
open IoServiceState.TokioIoExecutorServiceState
open IoTask
open IoService
open IoTaskInvariants
open IoAccounting
open IoTermination
open ProcessFamilies
open TransitionSystems

/-- The handle exists, and `is_done` or a poll shows that its task is over. -/
def isResolved (τ : Task) : Bool :=
  τ.submitter == .returned && (isDone τ || (pollHandle τ).isSome)

theorem isResolved_iff {τ : Task} :
    isResolved τ = true ↔ τ.submitter = .returned ∧ τ.worker = .finished := by
  unfold isResolved isDone pollHandle
  split <;> simp_all

theorem stage_of_isResolved {τ : Task} (h : isResolved τ = true) : stage τ = .destroyed := by
  obtain ⟨hsubmitter, hworker⟩ := isResolved_iff.mp h
  simp [stage, hsubmitter, hworker, submitterPhase, workerPhase, stageOf, workerStage]

section

variable {taskCapacity : NonZeroUsize} {s s' : ServiceState} {t : TaskId} {τ : Task}

/-- The task is accepted and out of the count. -/
def IsReleased (t : TaskId) (s : ServiceState) : Prop :=
  ∃ τ : Task, s.tasks[t]? = some τ ∧ isAccepted τ.submitter = true ∧ isActive τ = false

theorem isReleased_of_isResolved (h : (service taskCapacity).Reachable s)
    (hτ : s.tasks[t]? = some τ) (hresolved : isResolved τ = true) : IsReleased t s := by
  have hdecrements := (taskInvariant_of_reachable h τ (mem_of_getElem? hτ)).decrements
  rw [stage_of_isResolved hresolved] at hdecrements
  have hone : τ.decrements = 1 := hdecrements
  refine ⟨τ, hτ, ?_, by simp [isActive, hone]⟩
  rw [(isResolved_iff.mp hresolved).1]
  rfl

theorem isReleased_of_run (h : (service taskCapacity).Reachable s)
    (hrun : (service taskCapacity).Run s s') (hreleased : IsReleased t s) : IsReleased t s' := by
  refine Run.stable h hrun hreleased ?_
  intro s₁ a s₂ hs₁ ⟨τ, hτ, hacc, hinactive⟩ hstep
  rcases (effect_of_step hstep).tasks with
    ⟨-, htasks⟩ | ⟨t₁, τ₁, τ₂, hτ₁, hτstep, htasks⟩ | ⟨k, -, htasks⟩ | htasks
  · exact ⟨τ, by rw [htasks]; exact getElem?_append_of_some hτ, hacc, hinactive⟩
  · by_cases ht : t = t₁
    · subst t₁
      obtain rfl := Option.some.inj (hτ.symm.trans hτ₁)
      have hne : τ.submitter ≠ .inc := by
        intro hinc
        rw [hinc] at hacc
        cases hacc
      refine ⟨τ₂, by rw [htasks]; exact getElem?_set_self_of_some hτ, ?_, ?_⟩
      · rw [(isAccepted_of_taskStep hτstep).resolve_right hne, hacc]
      · have hi := taskInvariant_of_reachable hs₁ τ (mem_of_getElem? hτ)
        cases countMove_of_taskStep hi hτstep with
        | keep _ heq => rw [heq, hinactive]
        | accept hinc => exact absurd hinc hne
        | release _ hbefore => simp [hinactive] at hbefore
    · exact ⟨τ, by rw [htasks, getElem?_set_of_ne ht]; exact hτ, hacc, hinactive⟩
  · refine ⟨takeEntry k τ, by rw [htasks, List.getElem?_map, hτ]; rfl, ?_, ?_⟩
    · rw [(takeEntry_frame k τ).1, hacc]
    · rw [isActive_takeEntry, hinactive]
  · exact ⟨τ, by rw [htasks]; exact hτ, hacc, hinactive⟩

/-- A task out of the count plays no part in the capacity check. -/
theorem active_eraseIdx_of_isReleased (h : (service taskCapacity).Reachable s)
    (hreleased : IsReleased t s) :
    s.shared.activeTasks = (s.tasks.eraseIdx t).countP isActive := by
  obtain ⟨τ, hτ, _, hinactive⟩ := hreleased
  obtain ⟨ht, hget⟩ := List.getElem?_eq_some_iff.mp hτ
  have hperm := (List.getElem_cons_eraseIdx_perm ht).countP_eq isActive
  rw [List.countP_cons, hget, hinactive] at hperm
  rw [(conserved_of_reachable h).active, ← hperm]
  rfl

theorem resolved_after_release (h : (service taskCapacity).Reachable s)
    (hτ : s.tasks[t]? = some τ) (hresolved : isResolved τ = true) :
    τ.futureDropped = true ∧ isActive τ = false ∧ τ.entry ≠ .registered ∧
      ∀ s', (service taskCapacity).Run s s' → s'.shared.isSaturated = true →
        taskCapacity.get ≤ (s'.tasks.eraseIdx t).countP isActive := by
  have hi := taskInvariant_of_reachable h τ (mem_of_getElem? hτ)
  have hstage := stage_of_isResolved hresolved
  have hreleased := isReleased_of_isResolved h hτ hresolved
  refine ⟨?_, ?_, fun hentry => ?_, fun s' hrun hsaturated => ?_⟩
  · rw [hi.future, hstage]
    rfl
  · obtain ⟨τ₁, hτ₁, _, hinactive⟩ := hreleased
    obtain rfl := Option.some.inj (hτ.symm.trans hτ₁)
    exact hinactive
  · have := hi.registered hentry
    rw [hstage] at this
    cases this
  · have hs' := Reachable.run h hrun
    rw [← active_eraseIdx_of_isReleased hs' (isReleased_of_run h hrun hreleased),
      ← (conserved_of_reachable hs').capacity]
    simpa [isSaturated] using hsaturated

end

/-- The handle of a future that has failed in its first poll. -/
theorem resolved_after_release_failed :
    ∃ s, (service oneSlot).Reachable s ∧ ∃ τ, s.tasks[0]? = some τ ∧
      pollHandle τ = some .failed ∧ τ.futureDropped = true ∧ τ.entry ≠ .registered := by
  have hexecute : ((service oneSlot).execute
      (.callSpawn :: submission 0 ++ execution 0 .failed) (service oneSlot).start).map
        (fun s => s.tasks.map fun τ => (isResolved τ, pollHandle τ)) =
      some [(true, some .failed)] := by decide
  obtain ⟨s, hs, hvalues⟩ := Option.map_eq_some_iff.mp hexecute
  obtain ⟨τ, htasks, hτ⟩ := List.map_eq_singleton_iff.mp hvalues
  obtain ⟨hresolved, hpoll⟩ := Prod.mk.inj hτ
  have hget : s.tasks[0]? = some τ := by rw [htasks]; rfl
  have hafter := resolved_after_release (Reachable.of_execute hs) hget hresolved
  exact ⟨s, Reachable.of_execute hs, τ, hget, hpoll, hafter.1, hafter.2.2.1⟩

end TokioExecutorProofs.IoHandles
