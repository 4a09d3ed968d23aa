import TokioExecutorProofs.BlockingAdmission
import TokioExecutorProofs.BlockingSignals
import TokioExecutorProofs.IoAdmission
import TokioExecutorProofs.IoSignals
import TokioExecutorProofs.RetryProtocols

/-!
The retry loop of the user guide on both services: subscribe to
`capacity_changes()`, submit, and after a `Saturated` wait for the next change.
-/

namespace TokioExecutorProofs.CapacityRetry

open ServiceBasics
open BoundedAdmission
open ProcessFamilies
open TransitionSystems
open RetryProtocols

section

variable {taskCapacity : NonZeroUsize}

/-- A blocking submission fails the test of the counts only on a running service
whose slots are all taken. -/
theorem not_retryable_of_blocking_refusal {s s' : BlockingService.ServiceState}
    {a : BlockingService.Action} {t : TaskId}
    (hs : (BlockingService.service taskCapacity).Reachable s)
    (hstep : (BlockingService.service taskCapacity).step a s = some s')
    (hrefused : (BlockingAdmission.admissionView taskCapacity).answer t s' =
      some (.rejected .saturated)) :
    (BlockingAdmission.admissionView taskCapacity).answer t s = some (.rejected .saturated) ∨
      ¬ BlockingSignals.isRetryable s'.shared := by
  have hs' := RunUnder.tail hs trivial hstep
  cases (BlockingAdmission.implements taskCapacity).move hs hstep with
  | silent hsame | close _ _ _ _ hsame | release _ _ hsame => exact .inl (hsame t ▸ hrefused)
  | @submit t₁ _ _ hafter hsame _ hadmission =>
      by_cases ht : t = t₁
      · subst t₁
        have hspec := Option.some.inj (hafter.symm.trans hrefused)
        rw [Admission.submit_of_rejected hspec] at hadmission
        obtain ⟨hclosed, hfull⟩ := Admission.full_of_answer hspec
        rw [← hadmission] at hclosed hfull
        have hrunning : s'.shared.isNotRunning = false := hclosed
        have hsaturated := (BlockingAdmission.isSaturated_iff hs').mpr hfull
        exact .inr (by simp [BlockingSignals.isRetryable, hrunning, hsaturated])
      · exact .inl (hsame t ht ▸ hrefused)

theorem not_retryable_of_io_refusal {s s' : IoService.ServiceState}
    {a : IoService.Action} {t : TaskId}
    (hs : (IoService.service taskCapacity).Reachable s)
    (hstep : (IoService.service taskCapacity).step a s = some s')
    (hrefused : (IoAdmission.admissionView taskCapacity).answer t s' =
      some (.rejected .saturated)) :
    (IoAdmission.admissionView taskCapacity).answer t s = some (.rejected .saturated) ∨
      ¬ IoSignals.isRetryable s'.shared := by
  rcases (IoService.effect_of_step hstep).tasks with
    ⟨-, htasks⟩ | ⟨t₁, τ, τ', hτ, hτstep, htasks⟩ | ⟨k, -, htasks⟩ | htasks
  · refine .inl ?_
    simp only [IoAdmission.admissionView, htasks] at hrefused ⊢
    rw [← hrefused]
    exact (apply_getElem?_append (y := { submitter := .lockSubmission })
      (fun x : Option IoTask.Task => x.bind fun τ => IoAdmission.answer τ.submitter) rfl t).symm
  · by_cases ht : t = t₁
    · subst t₁
      have hafter : IoAdmission.answer τ'.submitter = some (.rejected .saturated) := by
        simpa [IoAdmission.admissionView, htasks, getElem?_set_self_of_some hτ] using hrefused
      rcases IoAdmission.answer_of_taskStep hτstep with hsame | ⟨_, hdecide⟩
      · left
        simp [IoAdmission.admissionView, hτ, ← hsame, hafter]
      · right
        rcases hdecide with ⟨_, _, _, hother⟩ | ⟨hpc, hsaturated, hshared, _⟩ | ⟨_, _, _, hother⟩
        · rw [hafter] at hother
          cases hother
        · have hrunning : ExecutorServiceLifecycleBits.load s.shared.lifecycle = .running :=
            (IoTermination.admissionGate taskCapacity).running_of_isAdmitted hs τ
              (mem_of_getElem? hτ) (congrArg IoTermination.SubmitterPc.isAdmitted hpc)
          rw [hshared]
          simp [IoSignals.isRetryable, hsaturated,
            IoServiceState.TokioIoExecutorServiceState.isNotRunning, hrunning]
        · rw [hafter] at hother
          cases hother
    · refine .inl ?_
      simpa [IoAdmission.admissionView, htasks, getElem?_set_of_ne ht] using hrefused
  · refine .inl ?_
    simp only [IoAdmission.admissionView, htasks, List.getElem?_map] at hrefused ⊢
    cases hτ : s.tasks[t]? with
    | none => simp [hτ] at hrefused
    | some τ => simpa [hτ, (IoAccounting.takeEntry_frame k τ).1] using hrefused
  · refine .inl ?_
    simpa [IoAdmission.admissionView, htasks] using hrefused

end

/-- The blocking service as seen by its producers. -/
def blockingProducers (taskCapacity : NonZeroUsize) :
    RefusingService (BlockingService.service taskCapacity) where
  condition s := BlockingSignals.isRetryable s.shared
  owed := BlockingSignals.capacitySignal.owed
  generation s := s.shared.capacityGeneration
  signalled := BlockingSignals.capacitySignal.signalled taskCapacity
  isSubmit
    | .callSubmit _ => true
    | _ => false
  submissions s := s.tasks.length
  refused t s := (BlockingAdmission.admissionView taskCapacity).answer t s =
    some (.rejected .saturated)
  answered t s := (s.tasks[t]?).any fun τ => τ.submitter == .rejected .saturated
  refused_of_answered := by
    intro t s hanswered
    obtain ⟨τ, hτ, hpc⟩ := (Option.any_eq_true _ _).mp hanswered
    simp only [beq_iff_eq] at hpc
    simp [BlockingAdmission.admissionView, hτ, hpc, BlockingAdmission.answer]
  not_refused_of_submit := by
    intro a s s' hsubmit hstep
    cases a <;> try cases hsubmit
    obtain rfl := Option.some.inj hstep
    simp [BlockingAdmission.admissionView, BlockingAdmission.answer]
  not_condition_of_refused hs hstep hrefused := not_retryable_of_blocking_refusal hs hstep hrefused

/-- The IO service as seen by its producers. -/
def ioProducers (taskCapacity : NonZeroUsize) :
    RefusingService (IoService.service taskCapacity) where
  condition s := IoSignals.isRetryable s.shared
  owed := IoSignals.capacitySignal.owed
  generation s := s.shared.capacityGeneration
  signalled := IoSignals.capacitySignal.signalled taskCapacity
  isSubmit
    | .callSpawn => true
    | _ => false
  submissions s := s.tasks.length
  refused t s := (IoAdmission.admissionView taskCapacity).answer t s =
    some (.rejected .saturated)
  answered t s := (s.tasks[t]?).any fun τ => τ.submitter == .rejected .saturated
  refused_of_answered := by
    intro t s hanswered
    obtain ⟨τ, hτ, hpc⟩ := (Option.any_eq_true _ _).mp hanswered
    simp only [beq_iff_eq] at hpc
    simp [IoAdmission.admissionView, hτ, hpc, IoAdmission.answer]
  not_refused_of_submit := by
    intro a s s' hsubmit hstep
    cases a <;> try cases hsubmit
    obtain rfl := Option.some.inj hstep
    simp [IoAdmission.admissionView, IoAdmission.answer]
  not_condition_of_refused hs hstep hrefused := not_retryable_of_io_refusal hs hstep hrefused

theorem capacity_change_not_missed (taskCapacity : NonZeroUsize) :
    (∀ s, (blockingProducers taskCapacity).retrying.Reachable s →
      ∀ seen, .waiting seen ∈ s.producers → s.service.shared.capacityGeneration = seen →
        (BlockingSignals.isRetryable s.service.shared →
          BlockingSignals.capacitySignal.owed s.service) ∧
        ((∀ c ∈ s.service.closers, c.pc = .returned) →
          (∀ τ ∈ s.service.tasks, ∀ site, BlockingTaskEffects.finishAt τ site = none) →
          s.service.shared.isSaturated = true ∧ s.service.shared.isNotRunning = false)) ∧
    (∀ s, (ioProducers taskCapacity).retrying.Reachable s →
      ∀ seen, .waiting seen ∈ s.producers → s.service.shared.capacityGeneration = seen →
        (IoSignals.isRetryable s.service.shared →
          IoSignals.capacitySignal.owed s.service) ∧
        ((∀ c ∈ s.service.closers, c.pc = .returned) →
          (∀ τ ∈ s.service.tasks, ∀ d, IoTaskInvariants.stage τ ≠ .droppingGuard d) →
          s.service.shared.isSaturated = true ∧ s.service.shared.isNotRunning = false)) := by
  constructor
  · intro s hs seen hx hseen
    have howed := RefusingService.owed_of_waiting hs hx hseen
    refine ⟨howed, fun hclosers hfinish => ?_⟩
    have hnot : ¬ BlockingSignals.isRetryable s.service.shared := fun hretryable =>
      BlockingSignals.Signal.not_owed_of_completed rfl hclosers hfinish (howed hretryable)
    simpa [BlockingSignals.isRetryable] using hnot
  · intro s hs seen hx hseen
    have howed := RefusingService.owed_of_waiting hs hx hseen
    refine ⟨howed, fun hclosers hguards => ?_⟩
    have hnot : ¬ IoSignals.isRetryable s.service.shared := fun hretryable =>
      IoSignals.Signal.not_owed_of_completed rfl hclosers hguards (howed hretryable)
    simpa [IoSignals.isRetryable] using hnot

/-- A producer waits for the only slot, and the callable that has just left it is
about to announce the change. -/
theorem capacity_change_not_missed_unannounced :
    ∃ s, (blockingProducers oneSlot).retrying.Reachable s ∧ s.producers = [.waiting 0] ∧
      BlockingSignals.capacitySignal.owed s.service := by
  have hexecute : ((blockingProducers oneSlot).retrying.execute
      ((.callSubmit .callable :: BlockingService.submission 0).map .service ++
        [.newProducer, .subscribe 0, .attempt 0 (.callSubmit .callable)] ++
        (List.replicate 6 (.submitter 1 false)).map .service ++ [.refusal 0] ++
        (.pickUp 0 :: List.replicate 21 (.worker 0 .ok)).map .service)
      (blockingProducers oneSlot).retrying.start).map (fun s =>
        (s.producers, s.service.shared.capacityGeneration, s.service.shared.isSaturated)) =
      some ([.waiting 0], 0, false) := by decide
  obtain ⟨s, hs, hvalues⟩ := Option.map_eq_some_iff.mp hexecute
  simp only [Prod.mk.injEq] at hvalues
  obtain ⟨hproducers, hgeneration, hfree⟩ := hvalues
  have hreachable := Reachable.of_execute hs
  refine ⟨s, hreachable, hproducers, ?_⟩
  exact ((capacity_change_not_missed oneSlot).1 s hreachable 0 (by simp [hproducers])
    hgeneration).1 (.inl hfree)

end TokioExecutorProofs.CapacityRetry
