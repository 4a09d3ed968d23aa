import TokioExecutorProofs.BlockingRest
import TokioExecutorProofs.CapacityRetry
import TokioExecutorProofs.RetryBudgets

/-!
The producers of the blocking service do not retry for ever: the rank of a task
that has been accepted pays for its announcement, and a refused submission has
announced nothing.
-/

namespace TokioExecutorProofs.BlockingRetry

open ServiceBasics
open BlockingServiceState
open BlockingServiceState.TokioExecutorServiceState
open BlockingTask
open BlockingService
open BlockingTaskPlacement
open BlockingTaskInvariants
open BlockingTaskEffects
open BlockingAccounting
open BlockingAdmission
open BlockingSignals
open BlockingRanks
open BlockingRest
open BoundedAdmission (Answer)
open CapacityRetry
open ProcessFamilies
open RestingSystems
open RetryBudgets
open RetryProtocols
open TransitionSystems

/-- The rank of a task whose submission has just been called. -/
def submissionRank : Nat := 83

/-- The announcements that a submission can still make, and more. -/
def taskBudget (τ : Task) : Nat :=
  match answer τ.submitter with
  | none => submissionRank
  | some (.rejected _) => 0
  | some .accepted => taskRank τ

def closerBudget (closers : List Closer) : Nat := total (fun c => CloserPc.rank c.pc) closers

def budget (s : ServiceState) : Nat := total taskBudget s.tasks + closerBudget s.closers

def IsRefused (τ : Task) : Prop := answer τ.submitter = some (.rejected .saturated)

section

variable {t : TaskId} {g g' : TokioExecutorServiceState} {τ τ' : Task} {a : Action}

theorem taskRank_new (kind : TaskKind) : taskRank { kind := kind } = submissionRank := rfl

theorem taskBudget_new (kind : TaskKind) : taskBudget { kind := kind } = submissionRank := rfl

theorem taskRank_le_of_undecided (hi : TaskInvariant τ) (h : answer τ.submitter = none) :
    taskRank τ ≤ submissionRank := by
  have hcancels : τ.cancels = [] := by
    by_contra hne
    rw [(hi.registry.cancels hne).1] at h
    cases h
  have hplaced : consistent (workerPhase τ.worker) τ.channel (submitterPhase τ.submitter) :=
    hi.placed
  have hearly : submitterPhase τ.submitter = .early ∧ SubmitterPc.rank τ.submitter ≤ 32 := by
    cases hs : τ.submitter <;> rw [hs] at h <;> first | exact ⟨rfl, by decide⟩ | cases h
  obtain ⟨hphase, hsubmitter⟩ := hearly
  rw [hphase] at hplaced
  unfold taskRank submissionRank
  rw [hcancels, worker_of_absent hplaced.1, hi.registry.absent.mpr (by rw [hphase]; rfl)]
  simp only [total, WorkerPc.rank, EntryPc.rank, List.map_nil, List.sum_nil]
  omega

theorem generation_of_taskStep (hi : TaskInvariant τ) (h : TaskStep t g τ a g' τ') :
    g'.capacityGeneration ≤ g.capacityGeneration + 1 ∧
      (isAccepted τ.submitter = false → g'.capacityGeneration = g.capacityGeneration) := by
  cases sharedMove_of_taskStep hi h with
  | locks | accept | start => exact ⟨Nat.le_succ _, fun _ => rfl⟩
  | finish hat hstep =>
      have hgeneration := (finishTaskStep_fields hstep).2.2.2.1
      refine ⟨?_, fun hacc => ?_⟩
      · rw [hgeneration]
        split <;> omega
      · rw [isAccepted_of_closed hi (entry_ne_absent_of_finishAt hi hat)] at hacc
        cases hacc

theorem taskBudget_of_taskStep (hi : TaskInvariant τ) (h : TaskStep t g τ a g' τ')
    (hcall : isCall a = false) :
    g'.capacityGeneration + taskBudget τ' ≤ g.capacityGeneration + taskBudget τ ∧
        (IsRefused τ' → IsRefused τ) ∨
      g'.capacityGeneration + taskBudget τ' + submissionRank ≤
        g.capacityGeneration + taskBudget τ := by
  obtain ⟨hgeneration, hquiet⟩ := generation_of_taskStep hi h
  have hlt := taskRank_of_taskStep hi h hcall
  have hunaccepted : answer τ.submitter ≠ some .accepted →
      g'.capacityGeneration = g.capacityGeneration := by
    intro hne
    refine hquiet (Bool.eq_false_iff.mpr fun hacc => hne (isAccepted_iff_answer.mp hacc))
  unfold IsRefused taskBudget
  rcases answer_of_taskStep h with hsame | ⟨hnone, hdecide⟩
  · refine .inl ⟨?_, fun hrefused => hsame ▸ hrefused⟩
    rw [hsame]
    cases hanswer : answer τ.submitter with
    | none => rw [hunaccepted (by simp [hanswer])]
    | some answered =>
        cases answered with
        | rejected reason => rw [hunaccepted (by simp [hanswer])]
        | accepted =>
            dsimp only
            omega
  · rw [hunaccepted (by simp [hnone]), hnone]
    have hle := taskRank_le_of_undecided hi hnone
    rcases hdecide with ⟨_, _, _, hdecided⟩ | ⟨_, _, _, hdecided⟩ | ⟨_, _, _, hdecided⟩ <;>
      rw [hdecided]
    · exact .inl ⟨by simp, by simp⟩
    · exact .inr (by simp)
    · refine .inl ⟨?_, by simp⟩
      dsimp only
      omega

theorem taskBudget_takeEntry {k : Nat} (τ : Task) : taskBudget (takeEntry k τ) ≤ taskBudget τ := by
  unfold takeEntry
  split
  · rename_i hentry
    unfold taskBudget
    dsimp only
    split
    · exact Nat.le_refl _
    · exact Nat.le_refl _
    · simp [taskRank, hentry, EntryPc.rank]
  · exact Nat.le_refl _

theorem isRefused_of_takeEntry {k : Nat} (h : IsRefused (takeEntry k τ)) : IsRefused τ := by
  unfold takeEntry at h
  split at h
  · exact h
  · exact h

end

section

variable {taskCapacity : NonZeroUsize} {s s' : ServiceState} {a : Action}

theorem refused_iff (t : TaskId) (s : ServiceState) :
    (blockingProducers taskCapacity).refused t s ↔ ∃ τ, s.tasks[t]? = some τ ∧ IsRefused τ := by
  simp [blockingProducers, admissionView, IsRefused, Option.bind_eq_some_iff]

theorem refused_of_tasks (htasks : s'.tasks = s.tasks) (t : TaskId)
    (h : (blockingProducers taskCapacity).refused t s') :
    (blockingProducers taskCapacity).refused t s := by
  rw [refused_iff, htasks] at h
  exact (refused_iff t s).mpr h

theorem spends_of_step (hs : (service taskCapacity).Reachable s) (hcall : isCall a = false)
    (hnext : (service taskCapacity).step a s = some s') :
    Spends (blockingProducers taskCapacity) budget submissionRank s s' := by
  have hi := taskInvariant_of_reachable hs
  have htask : ∀ {t τ τ'}, s.tasks[t]? = some τ → TaskStep t s.shared τ a s'.shared τ' →
      s'.tasks = s.tasks.set t τ' → closerBudget s'.closers ≤ closerBudget s.closers →
      Spends (blockingProducers taskCapacity) budget submissionRank s s' :=
    fun hτ hτstep htasks hclosers => spends_of_task (fun _ => rfl) refused_iff hτ htasks hclosers
      (taskBudget_of_taskStep (hi _ (mem_of_getElem? hτ)) hτstep hcall)
  cases effect_of_step hnext with
  | newTask | newCloser | newWaiter => cases hcall
  | task hτ hτstep => exact htask hτ hτstep rfl (Nat.le_refl _)
  | sweepNext hc _ _ hτ hentry =>
      exact htask hτ (.sweepNext hentry) rfl (total_set_le hc (Nat.le_refl _))
  | finishSweep hc _ hτ hentry =>
      exact htask hτ (.finishSweep hentry) rfl (total_set_le hc (Nat.le_refl _))
  | take hc hpc =>
      exact spends_of_map (fun _ => rfl) refused_iff rfl
        (total_set_le hc (by simp [hpc, CloserPc.rank])) rfl (fun τ _ => taskBudget_takeEntry τ)
        fun _ => isRefused_of_takeEntry
  | @endSweep k c hc hpc =>
      refine .inl ⟨?_, refused_of_tasks rfl⟩
      have hclosers : closerBudget (s.closers.set k { c with pc := .notifyCapacity }) ≤
          closerBudget s.closers := total_set_le hc (by simp [hpc, CloserPc.rank])
      exact Nat.add_le_add_left (Nat.add_le_add_left hclosers _) _
  | @closer k c g' c' hc hcstep =>
      refine .inl ⟨?_, refused_of_tasks rfl⟩
      have hgeneration := (closerStep_fields hcstep).2.2.2.1
      have hclosers : closerBudget (s.closers.set k c') < closerBudget s.closers :=
        total_set_lt hc (closerStep_rank hcstep)
      show g'.capacityGeneration + (total taskBudget s.tasks + closerBudget (s.closers.set k c')) ≤
        s.shared.capacityGeneration + (total taskBudget s.tasks + closerBudget s.closers)
      rw [hgeneration]
      split <;> omega
  | waiter _ hwstep =>
      obtain ⟨_, rfl⟩ := waiterStep_locks hwstep
      exact .inl ⟨Nat.le_refl _, refused_of_tasks rfl⟩

/-- What one more task adds to the rank. -/
def cost (s : ServiceState) : Nat := (s.waiters.length * 6 + 1) * submissionRank

def blockingBudget (taskCapacity : NonZeroUsize) :
    Budget (blockingProducers taskCapacity) noCall where
  rank := rank
  lowers := lowers taskCapacity
  cost := cost
  budget := budget
  share := submissionRank
  submissions_le := by
    intro s a s' hnext
    show s.tasks.length ≤ s'.tasks.length
    cases effect_of_step hnext <;> simp
  cost_step := by
    intro s a s' hs hcall hnext
    unfold cost
    rw [(work_of_step hs hcall hnext).1]
  spends := spends_of_step
  submit := by
    intro s a s' hsubmit hnext
    cases a <;> try cases hsubmit
    rename_i kind
    obtain rfl := Option.some.inj hnext
    refine ⟨?_, rfl, ?_, ?_, fun t hrefused => ?_⟩
    · show s.tasks.length < (s.tasks ++ [_]).length
      simp
    · unfold rank work cost
      dsimp only
      rw [total_append_singleton, taskRank_new, Nat.add_right_comm, Nat.mul_add]
      omega
    · unfold budget
      dsimp only
      rw [total_append_singleton, taskBudget_new]
      show s.shared.capacityGeneration + _ ≤ s.shared.capacityGeneration + _ + _
      omega
    · rw [refused_iff] at hrefused ⊢
      obtain ⟨τ, hτ, hrefused⟩ := hrefused
      rcases getElem?_append_cases hτ with hτ | ⟨_, rfl⟩
      · exact ⟨τ, hτ, hrefused⟩
      · cases hrefused

theorem settling (taskCapacity : NonZeroUsize) :
    Settling (blockingProducers taskCapacity) (service taskCapacity).Reachable driven
      fun _ _ => True where
  submit _ _ := ⟨.callSubmit .runnable, _, trivial, rfl, rfl⟩
  answered := by
    intro s t hs hrest hrefused
    obtain ⟨τ, hτ, hrefused⟩ := (refused_iff t s).mp hrefused
    have hrested := restedTask_of_atRest hs hrest hτ
    unfold IsRefused at hrefused
    rcases hrested.submitted with ⟨⟨reason, hsubmitter⟩, _⟩ | ⟨hsubmitter, _⟩
    · rw [hsubmitter] at hrefused
      cases hrefused
      simp [blockingProducers, hτ, hsubmitter]
    · rw [hsubmitter] at hrefused
      cases hrefused
  condition := by
    intro s hs hrest
    have hrested := rested_of_atRest hs hrest
    refine ⟨.inl ?_, ?_⟩
    · rw [isSaturated, hrested.idle, (conserved_of_reachable hs).capacity]
      simp [saturatingAdd, Nat.ne_of_gt taskCapacity.pos]
    · exact Signal.not_owed_of_completed rfl hrested.closed
        fun τ hτ => (hrested.tasks τ hτ).finishAt

end

end TokioExecutorProofs.BlockingRetry
