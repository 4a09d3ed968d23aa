import TokioExecutorProofs.BlockingAdmission
import TokioExecutorProofs.IoAdmission

/-! Admission in both services is a bounded admission that one call uses at a time. -/

namespace TokioExecutorProofs.AdmissionOrder

open ServiceBasics
open BoundedAdmission
open BoundedAdmission.AdmissionView
open ProcessFamilies
open TransitionSystems
open TraceRefinements

section

variable {taskCapacity : NonZeroUsize}

theorem blocking_rejected_unchanged {s s' : BlockingService.ServiceState} {t : TaskId}
    {runtimeClosed : Bool} (hs : (BlockingService.service taskCapacity).Reachable s)
    (hstep : (BlockingService.service taskCapacity).step (.submitter t runtimeClosed) s = some s')
    {τ : BlockingTask.Task} (hτ : s'.tasks[t]? = some τ)
    (hrejected : BlockingAdmission.answer τ.submitter ≠ some .accepted) :
    (∃ locks, s'.shared = { s.shared with locks := locks }) ∧
      (∀ t', t' ≠ t → s'.tasks[t']? = s.tasks[t']?) ∧
      s'.closers = s.closers ∧ s'.waiters = s.waiters ∧
      τ = { kind := τ.kind, submitter := τ.submitter } := by
  have hs' := RunUnder.tail hs trivial hstep
  have hacc : BlockingTaskPlacement.isAccepted τ.submitter = false := by
    by_contra htrue
    exact hrejected (BlockingAdmission.isAccepted_iff_answer.mp (by simpa using htrue))
  have hform := BlockingAdmission.untouched_of_reachable hs' τ (mem_of_getElem? hτ) hacc
  obtain ⟨τ₀, g', τ', hτ₀, hsubmit, rfl⟩ := BlockingService.onTask_eq_some.mp hstep
  obtain rfl : τ = τ' :=
    Option.some.inj (hτ.symm.trans (getElem?_set_self_of_some hτ₀))
  exact ⟨BlockingAdmission.locks_of_submitterStep hsubmit hacc,
    fun t' ht => getElem?_set_of_ne ht, rfl, rfl, hform⟩

theorem io_rejected_unchanged {s s' : IoService.ServiceState} {t : TaskId}
    {runtimeClosed : Bool} (hs : (IoService.service taskCapacity).Reachable s)
    (hstep : (IoService.service taskCapacity).step (.submitter t runtimeClosed) s = some s')
    {τ : IoTask.Task} (hτ : s'.tasks[t]? = some τ)
    (hrejected : IoAdmission.answer τ.submitter ≠ some .accepted) :
    (∃ locks, s'.shared = { s.shared with locks := locks }) ∧
      (∀ t', t' ≠ t → s'.tasks[t']? = s.tasks[t']?) ∧
      s'.closers = s.closers ∧ s'.waiters = s.waiters ∧ τ = { submitter := τ.submitter } := by
  have hs' := RunUnder.tail hs trivial hstep
  have hform := IoAdmission.untouched_of_reachable hs' τ (mem_of_getElem? hτ) hrejected
  obtain ⟨τ₀, g', τ', hτ₀, hsubmit, rfl⟩ := IoService.onTask_eq_some.mp hstep
  obtain rfl : τ = τ' :=
    Option.some.inj (hτ.symm.trans (getElem?_set_self_of_some hτ₀))
  have hbefore := IoAdmission.isAccepted_before (.submitter hsubmit) hrejected
  have hform₀ := IoAdmission.untouched_of_reachable hs τ₀ (mem_of_getElem? hτ₀) hbefore
  exact ⟨(IoAdmission.untouched_of_submitterStep hform₀ hbefore hsubmit).2,
    fun t' ht => getElem?_set_of_ne ht, rfl, rfl, hform⟩

end

theorem admission_linearizable (taskCapacity : NonZeroUsize) :
    (Linearizable (BlockingAdmission.admissionView taskCapacity)
        (BlockingService.service taskCapacity) ∧
      ∀ s t runtimeClosed s', (BlockingService.service taskCapacity).Reachable s →
        (BlockingService.service taskCapacity).step (.submitter t runtimeClosed) s = some s' →
        ∀ τ : BlockingTask.Task, s'.tasks[t]? = some τ →
          BlockingAdmission.answer τ.submitter ≠ some .accepted →
          (∃ locks, s'.shared = { s.shared with locks := locks }) ∧
            (∀ t', t' ≠ t → s'.tasks[t']? = s.tasks[t']?) ∧
            s'.closers = s.closers ∧ s'.waiters = s.waiters ∧
            τ = { kind := τ.kind, submitter := τ.submitter }) ∧
    (Linearizable (IoAdmission.admissionView taskCapacity) (IoService.service taskCapacity) ∧
      ∀ s t runtimeClosed s', (IoService.service taskCapacity).Reachable s →
        (IoService.service taskCapacity).step (.submitter t runtimeClosed) s = some s' →
        ∀ τ : IoTask.Task, s'.tasks[t]? = some τ →
          IoAdmission.answer τ.submitter ≠ some .accepted →
          (∃ locks, s'.shared = { s.shared with locks := locks }) ∧
            (∀ t', t' ≠ t → s'.tasks[t']? = s.tasks[t']?) ∧
            s'.closers = s.closers ∧ s'.waiters = s.waiters ∧
            τ = { submitter := τ.submitter }) :=
  ⟨⟨(BlockingAdmission.implements taskCapacity).linearizable,
      fun _ _ _ _ hs hstep _ hτ => blocking_rejected_unchanged hs hstep hτ⟩,
    ⟨(IoAdmission.implements taskCapacity).linearizable,
      fun _ _ _ _ hs hstep _ hτ => io_rejected_unchanged hs hstep hτ⟩⟩

/-- The only slot goes to the first of two submissions; a third one comes after a
shutdown. -/
theorem admission_linearizable_last_slot :
    ∃ p, (logging (BlockingService.service oneSlot)
        (BlockingAdmission.admissionView oneSlot).emit).Reachable p ∧
      p.2 = [.submit 0 .accepted, .submit 1 (.rejected .saturated), .close 0,
        .submit 2 (.rejected .shutdown)] ∧
      (boundedAdmission 1).execute p.2 {} =
        some ((BlockingAdmission.admissionView oneSlot).admission p.1) := by
  have hexecute : ((logging (BlockingService.service oneSlot)
      (BlockingAdmission.admissionView oneSlot).emit).execute
      (.callSubmit .runnable :: BlockingService.submission 0 ++
        .callSubmit .callable :: List.replicate 6 (.submitter 1 false) ++
        .callClose .shutdown :: List.replicate 3 (.closer 0) ++
        .callSubmit .callable :: List.replicate 3 (.submitter 2 false))
      ((BlockingService.service oneSlot).start, [])).map (·.2) =
      some [.submit 0 .accepted, .submit 1 (.rejected .saturated), .close 0,
        .submit 2 (.rejected .shutdown)] := by decide
  obtain ⟨p, hp, hlog⟩ := Option.map_eq_some_iff.mp hexecute
  have hreachable := Reachable.of_execute hp
  exact ⟨p, hreachable, hlog, (admission_linearizable oneSlot).1.1.legal hreachable⟩

end TokioExecutorProofs.AdmissionOrder
