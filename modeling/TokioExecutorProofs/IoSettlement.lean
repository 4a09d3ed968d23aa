import TokioExecutorProofs.IoResults
import TokioExecutorProofs.IoWaiters

/-!
When the result of a future is decided. A handle of the IO service resolves after its
task has given its place back, but to something that has been decided before: the
future is not polled any more, so whoever has waited for the termination can no longer
change what a handle resolves to.
-/

namespace TokioExecutorProofs.IoSettlement

open ServiceBasics
open IoServiceState
open IoServiceState.TokioIoExecutorServiceState
open IoTask
open IoService
open IoTaskInvariants
open IoAccounting
open IoTermination
open IoWaiters
open IoResults
open ProcessFamilies
open ProcessLogs
open TraceRefinements
open TransitionSystems

section

variable {taskCapacity : NonZeroUsize} {p p' : ServiceState × List (TaskId × FutureEvent)}
  {t : TaskId} {τ : Task}

/-- A task that has given its place back has dropped its future, and all that its
handle can still resolve to is the result that its history decides by then. Whoever
has waited for the termination finds the service terminated and every accepted task
in that state. -/
theorem io_results_decided (h : (logging (service taskCapacity) futureEvents).Reachable p) :
    (∀ (t : TaskId) (τ : Task), p.1.tasks[t]? = some τ → τ.decrements ≠ 0 →
      τ.futureDropped = true ∧
        ∀ p', (logging (service taskCapacity) futureEvents).Run p p' →
          decisive (eventsOf t p'.2) = decisive (eventsOf t p.2) ∧
            ∀ (τ' : Task) (result : TaskResult), p'.1.tasks[t]? = some τ' →
              pollHandle τ' = some result → result = resultOf (eventsOf t p.2)) ∧
    (.awaited ∈ p.1.waiters → p.1.shared.isTerminated = true ∧
      ∀ τ ∈ p.1.tasks, isAccepted τ.submitter = true → τ.decrements = 1) := by
  have hs := reachable_of_logging h
  have hi := taskInvariant_of_reachable hs
  refine ⟨fun t τ hτ hdecrements => ?_, fun hawaited => ?_⟩
  · have hmem := mem_of_getElem? hτ
    refine ⟨(futureDropped_of_decrements (hi τ hmem) hdecrements).2, fun p' hrun => ?_⟩
    have hsame := decisive_of_run h hτ hdecrements hrun
    refine ⟨hsame, fun τ' result hτ' hresult => ?_⟩
    obtain ⟨-, rfl⟩ := pollHandle_eq_some.mp hresult
    rw [(agrees_of_logging (Reachable.run h hrun) hτ').output]
    exact resultOf_of_decisive hsame
  · have hterminated : p.1.shared.isTerminated = true := awaits_of_reachable hs .awaited hawaited
    refine ⟨hterminated, fun τ hτ haccepted => ?_⟩
    have hinactive := ((isTerminated_iff_inactive hs).mp hterminated).2 τ hτ
    have hne : τ.decrements ≠ 0 := by simpa [isActive, haccepted] using hinactive
    exact (futureDropped_of_decrements (hi τ hτ) hne).1

end

/-- A waiter returns while the handle is still pending. -/
theorem io_results_decided_awaited : ∃ p,
    (logging (service oneSlot) futureEvents).execute
      (.callSpawn :: submission 0 ++ .callClose .shutdown :: List.replicate 7 (.closer 0) ++
        .pickUp 0 :: List.replicate 8 (.worker 0 .ok) ++ .callWait ::
        List.replicate 3 (.waiter 0)) ((service oneSlot).start, []) = some p ∧
    p.1.waiters = [.awaited] ∧ p.1.tasks.map pollHandle = [none] ∧
    ∀ p', (logging (service oneSlot) futureEvents).Run p p' →
      ∀ (τ' : Task) (result : TaskResult), p'.1.tasks[0]? = some τ' →
        pollHandle τ' = some result → result = .ok := by
  have hexecute : ((logging (service oneSlot) futureEvents).execute
      (.callSpawn :: submission 0 ++ .callClose .shutdown :: List.replicate 7 (.closer 0) ++
        .pickUp 0 :: List.replicate 8 (.worker 0 .ok) ++ .callWait ::
        List.replicate 3 (.waiter 0)) ((service oneSlot).start, [])).map
        (fun p => (p.1.waiters, p.1.tasks.map (fun τ => (pollHandle τ, isAccepted τ.submitter)),
          resultOf (eventsOf 0 p.2))) = some ([.awaited], [(none, true)], .ok) := by decide
  obtain ⟨p, hp, hview⟩ := Option.map_eq_some_iff.mp hexecute
  simp only [Prod.mk.injEq] at hview
  obtain ⟨hwaiters, htasks, hdecided⟩ := hview
  obtain ⟨τ, htasks, hτ⟩ := List.map_eq_singleton_iff.mp htasks
  obtain ⟨hpending, haccepted⟩ := Prod.mk.inj hτ
  have hmem : τ ∈ p.1.tasks := by rw [htasks]; exact List.mem_singleton_self τ
  obtain ⟨hreleased, hawaited⟩ := io_results_decided (Reachable.of_execute hp)
  have hone := (hawaited (by rw [hwaiters]; exact List.mem_singleton_self _)).2 τ hmem haccepted
  obtain ⟨-, hforever⟩ := hreleased 0 τ (by rw [htasks]; rfl) (by rw [hone]; exact Nat.one_ne_zero)
  refine ⟨p, hp, hwaiters, by rw [htasks]; simp [hpending], fun p' hrun τ' result hτ' hresult => ?_⟩
  exact ((hforever p' hrun).2 τ' result hτ' hresult).trans hdecided

end TokioExecutorProofs.IoSettlement
