import TokioExecutorProofs.AdmissionFamilies
import TokioExecutorProofs.BlockingTermination

/-!
The admission of the blocking service, step by step: a submission is decided at
its lifecycle check or at the test of the counts, and a close takes effect at its
store.
-/

namespace TokioExecutorProofs.BlockingAdmission

open ServiceBasics
open BlockingServiceState
open BlockingServiceState.TokioExecutorServiceState
open ExecutorServiceLifecycleBits
open ExecutorServiceLifecycleBits.ExecutorServiceLifecycle
open BlockingTask
open BlockingService
open BlockingTaskPlacement
open BlockingTaskRegistry
open BlockingTaskInvariants
open BlockingTaskEffects
open BlockingAccounting
open BlockingTermination
open BoundedAdmission
open AdmissionFamilies
open ProcessFamilies
open TransitionSystems

/-- The answer that a submission is going to return, once it is decided. -/
@[grind] def answer : SubmitterPc → Option Answer
  | .lockSubmission | .checkRunning | .acceptLock | .accept => none
  | .acceptUnlock accepted => some (if accepted then .accepted else .rejected .saturated)
  | .rejectUnlock reason | .rejected reason => some (.rejected reason)
  | .shareSlot | .spawn | .registerLock | .register | .registerUnlock _ | .dropHook
  | .wakeDropped | .unlockSubmission | .send | .dropClosure _ | .dropGuard _
  | .returned => some .accepted

/-- A closing call past its store. -/
def hasStored : CloserPc → Bool
  | .lockSubmission | .store => false
  | .snapshotLock | .snapshot | .snapshotUnlock | .unlockSubmission | .takeLock | .take
  | .takeUnlock | .sweep | .notifyCapacity | .wakeCapacity | .readLock | .read | .readUnlock _
  | .notifyAll | .notifyWaiters | .wakeTermination | .returned => true

/-- The task that a step is about. -/
def taskOf (s : ServiceState) : Action → Option TaskId
  | .submitter t _ | .pickUp t | .destroy t | .worker t _ | .callCancel t | .canceller t _
  | .sweepNext _ t => some t
  | .sweep k => (s.closers[k]?).bind (·.current)
  | .callSubmit _ | .callClose _ | .closer _ | .callWait _ | .waiter _ => none

def closerOf : Action → Option Nat
  | .closer k => some k
  | _ => none

def admissionView (taskCapacity : NonZeroUsize) : AdmissionView ServiceState Action where
  capacity := taskCapacity.get
  admission s := { closed := s.shared.isNotRunning, active := indices isUnfinished s.tasks }
  answer t s := (s.tasks[t]?).bind fun τ => answer τ.submitter
  hasClosed k s := (s.closers[k]?).any fun c => hasStored c.pc
  task := taskOf
  closer := closerOf

/-- The same view, by the lists that it is read off. -/
def admissionFamily (taskCapacity : NonZeroUsize) :
    FamilyView ServiceState Action Task Closer where
  capacity := taskCapacity.get
  isClosed s := s.shared.isNotRunning
  tasks s := s.tasks
  closers s := s.closers
  answer τ := answer τ.submitter
  isActive := isUnfinished
  hasStored c := hasStored c.pc
  task := taskOf
  closer := closerOf

section

variable {t : TaskId} {g g' : TokioExecutorServiceState} {τ τ' : Task} {a : Action}

theorem isAccepted_iff_answer {pc : SubmitterPc} :
    isAccepted pc = true ↔ answer pc = some .accepted := by
  cases pc with
  | acceptUnlock accepted => cases accepted <;> simp [isAccepted, answer]
  | _ => simp [isAccepted, answer]

/-- A submission is decided in one step, by what it reads there. -/
theorem answer_of_submitterStep {runtimeClosed : Bool}
    (h : submitterStep t runtimeClosed g τ = some (g', τ')) :
    answer τ'.submitter = answer τ.submitter ∨
      answer τ.submitter = none ∧
        (τ.submitter = .checkRunning ∧ g.isNotRunning = true ∧ g' = g ∧
            answer τ'.submitter = some (.rejected .shutdown) ∨
          τ.submitter = .accept ∧ g.isSaturated = true ∧ g' = g ∧
            answer τ'.submitter = some (.rejected .saturated) ∨
          τ.submitter = .accept ∧ g.isSaturated = false ∧ g' = g.acceptTask ∧
            answer τ'.submitter = some .accepted) := by
  cases hs : τ.submitter <;> simp only [submitterStep, hs] at h
  case dropClosure c =>
    rcases hc : closureStep τ c with ⟨τ₁, next⟩
    simp only [Option.some.injEq, Prod.mk.injEq, hc] at h
    obtain ⟨_, rfl⟩ := h
    cases next <;> exact .inl rfl
  case dropGuard d =>
    simp only [Option.map_eq_some_iff, Prod.mk.injEq, Prod.exists] at h
    obtain ⟨_, _, next, _, _, rfl⟩ := h
    cases next <;> exact .inl rfl
  all_goals grind -linarith

theorem answer_of_taskStep (h : TaskStep t g τ a g' τ') :
    answer τ'.submitter = answer τ.submitter ∨
      answer τ.submitter = none ∧
        (τ.submitter = .checkRunning ∧ g.isNotRunning = true ∧ g' = g ∧
            answer τ'.submitter = some (.rejected .shutdown) ∨
          τ.submitter = .accept ∧ g.isSaturated = true ∧ g' = g ∧
            answer τ'.submitter = some (.rejected .saturated) ∨
          τ.submitter = .accept ∧ g.isSaturated = false ∧ g' = g.acceptTask ∧
            answer τ'.submitter = some .accepted) := by
  rcases (taskStep_frame h).2.1 with heq | ⟨_, _, hstep⟩
  · exact .inl (by rw [heq])
  · exact answer_of_submitterStep hstep

theorem isAccepted_before (h : TaskStep t g τ a g' τ') (hacc : isAccepted τ'.submitter = false) :
    isAccepted τ.submitter = false := by
  by_contra htrue
  have hanswer := isAccepted_iff_answer.mp (by simpa using htrue)
  rcases answer_of_taskStep h with hsame | ⟨hnone, _⟩
  · rw [isAccepted_iff_answer.mpr (hsame.trans hanswer)] at hacc
    cases hacc
  · rw [hanswer] at hnone
    cases hnone

theorem isUnfinished_of_taskStep (hi : TaskInvariant τ) (h : TaskStep t g τ a g' τ') :
    isUnfinished τ' = isUnfinished τ ∧
        isAccepted τ'.submitter = isAccepted τ.submitter ∨
      τ.submitter = .accept ∧ isUnfinished τ' = true ∧ isAccepted τ'.submitter = true ∨
      isUnfinished τ = true ∧ isUnfinished τ' = false ∧
        isAccepted τ'.submitter = isAccepted τ.submitter := by
  cases sharedMove_of_taskStep hi h with
  | locks haccepted _ hfinishes | start _ haccepted _ hfinishes =>
      exact .inl ⟨by rw [isUnfinished, haccepted, hfinishes, isUnfinished], haccepted⟩
  | accept _ hbefore haccepted _ hfinishes =>
      obtain ⟨_, hnil⟩ := fresh_of_accept hi hbefore
      exact .inr (.inl ⟨hbefore, by simp [isUnfinished, haccepted, hfinishes, hnil], haccepted⟩)
  | @finish _ _ started f _ _ _ hat _ haccepted _ hfinishes =>
      by_cases hf : f = .update
      · subst f
        have hnil := finishes_of_finishAt hi hat rfl
        have hacc := isAccepted_of_closed hi (entry_ne_absent_of_finishAt hi hat)
        exact .inr (.inr ⟨by simp [isUnfinished, hacc, hnil], by simp [isUnfinished, hfinishes],
          haccepted⟩)
      · rw [if_neg hf] at hfinishes
        exact .inl ⟨by rw [isUnfinished, haccepted, hfinishes, isUnfinished], haccepted⟩

theorem isUnfinished_of_answer (h : answer τ.submitter ≠ some .accepted) :
    isUnfinished τ = false := by
  have hacc : isAccepted τ.submitter = false := by
    by_contra hacc
    exact h (isAccepted_iff_answer.mp (by simpa using hacc))
  simp [isUnfinished, hacc]

end

section

variable {taskCapacity : NonZeroUsize} {s s' : ServiceState} {a : Action}

theorem card_active (h : (service taskCapacity).Reachable s) :
    (indices isUnfinished s.tasks).card =
      s.shared.taskCounts.queued + s.shared.taskCounts.running := by
  rw [card_indices, (conserved_of_reachable h).sum]

theorem isSaturated_iff (h : (service taskCapacity).Reachable s) :
    s.shared.isSaturated = true ↔ taskCapacity.get ≤ (indices isUnfinished s.tasks).card := by
  have hc := conserved_of_reachable h
  have hbounded : s.shared.taskCounts.queued + s.shared.taskCounts.running ≤
      s.shared.taskCapacity.get := by rw [hc.capacity]; exact hc.bounded
  have hfree := isSaturated_eq_false hbounded
  rw [hc.capacity] at hfree
  rw [card_active h, ← Bool.not_eq_false, hfree]
  omega

theorem hasStored_of_closerStep {k : Nat} {g g' : TokioExecutorServiceState} {c c' : Closer}
    (h : closerStep k g c = some (g', c')) :
    hasStored c'.pc = hasStored c.pc ∧ g'.isNotRunning = g.isNotRunning ∨
      hasStored c.pc = false ∧ hasStored c'.pc = true ∧ g'.isNotRunning = true := by
  cases hpc : c.pc <;> simp only [closerStep, hpc] at h
  case store =>
    refine .inr ⟨rfl, ?_⟩
    split at h <;> simp only [Option.some.injEq, Prod.mk.injEq] at h <;> obtain ⟨rfl, rfl⟩ := h
    · exact ⟨rfl, isNotRunning_iff.mpr (load_shutdown_ne_running _)⟩
    · refine ⟨rfl, isNotRunning_iff.mpr ?_⟩
      simp [TokioExecutorServiceState.stop]
  case take | sweep | returned => cases h
  case lockSubmission | snapshotLock | takeLock | readLock =>
    simp only [map_acquire_eq_some, Prod.mk.injEq] at h
    obtain ⟨_, rfl, rfl⟩ := h
    exact .inl ⟨rfl, rfl⟩
  case unlockSubmission | readUnlock =>
    simp only [Option.some.injEq, Prod.mk.injEq] at h
    obtain ⟨rfl, rfl⟩ := h
    refine .inl ⟨?_, rfl⟩
    dsimp only
    split <;> rfl
  all_goals
    simp only [Option.some.injEq, Prod.mk.injEq] at h
    obtain ⟨rfl, rfl⟩ := h
    exact .inl ⟨rfl, rfl⟩

theorem submissionMove_of_taskStep {t : TaskId} {g' : TokioExecutorServiceState} {τ τ' : Task}
    (hs : (service taskCapacity).Reachable s) (hτ : τ ∈ s.tasks)
    (h : TaskStep t s.shared τ a g' τ') :
    (admissionFamily taskCapacity).SubmissionMove
      (((admissionView taskCapacity).admission s).answer taskCapacity.get) τ τ' := by
  have hi := taskInvariant_of_reachable hs τ hτ
  rcases answer_of_taskStep h with hsame | ⟨hnone, hdecide⟩
  · rcases isUnfinished_of_taskStep hi h with ⟨heq, _⟩ | ⟨haccept, _, hacc⟩ | ⟨hbefore, hafter, _⟩
    · exact .keep hsame heq
    · rw [haccept, isAccepted_iff_answer.mp hacc] at hsame
      cases hsame
    · exact .release hsame hbefore hafter
  have hfinished : isUnfinished τ = false := isUnfinished_of_answer (by simp [hnone])
  have hrejected : ∀ reason, answer τ'.submitter = some (.rejected reason) →
      (isUnfinished τ' = true ↔ Answer.rejected reason = .accepted) := by
    intro reason hanswer
    rw [isUnfinished_of_answer (by simp [hanswer])]
    simp
  have hrunning : τ.submitter = .accept →
      ((admissionView taskCapacity).admission s).closed = false := by
    intro hpc
    have hrunning : load s.shared.lifecycle = running :=
      (admissionGate taskCapacity).running_of_isAdmitted hs τ hτ
        (congrArg SubmitterPc.isAdmitted hpc)
    simpa [admissionView, isNotRunning] using hrunning
  rcases hdecide with ⟨_, hnotRunning, _, hdecided⟩ | ⟨hpc, hsaturated, _, hdecided⟩ |
    ⟨hpc, hfree, _, hdecided⟩
  · have hspec : ((admissionView taskCapacity).admission s).answer taskCapacity.get =
        .rejected .shutdown := Admission.answer_of_closed hnotRunning
    rw [hspec]
    exact .submit hnone hfinished hdecided (hrejected _ hdecided)
  · rw [Admission.answer_of_full (hrunning hpc) ((isSaturated_iff hs).mp hsaturated)]
    exact .submit hnone hfinished hdecided (hrejected _ hdecided)
  · have hroom : ((admissionView taskCapacity).admission s).active.card < taskCapacity.get := by
      by_contra hfull
      have := (isSaturated_iff hs).mpr (Nat.not_lt.mp hfull)
      rw [hfree] at this
      cases this
    have hnew : isAccepted τ'.submitter ≠ isAccepted τ.submitter := by
      rw [isAccepted_iff_answer.mpr hdecided, hpc]
      decide
    have hun : isUnfinished τ' = true := by
      rcases isUnfinished_of_taskStep hi h with ⟨_, hacc⟩ | ⟨_, hun, _⟩ | ⟨_, _, hacc⟩
      · exact absurd hacc hnew
      · exact hun
      · exact absurd hacc hnew
    rw [Admission.answer_of_free (hrunning hpc) hroom]
    exact .submit hnone hfinished hdecided (iff_of_true hun rfl)

/-- A step of one task is at most one step of the specification. -/
theorem move_of_taskStep {t : TaskId} {τ τ' : Task} (hs : (service taskCapacity).Reachable s)
    (hτ : s.tasks[t]? = some τ) (h : TaskStep t s.shared τ a s'.shared τ')
    (htasks : s'.tasks = s.tasks.set t τ') (htask : taskOf s a = some t)
    (hclosers : FamilyMove (fun c => hasStored c.pc = false)
      (fun c c' => hasStored c'.pc = hasStored c.pc) s.closers s'.closers) :
    (admissionView taskCapacity).Move s a s' := by
  have hmem := mem_of_getElem? hτ
  have hlifecycle : s'.shared.isNotRunning = s.shared.isNotRunning := by
    have hi := taskInvariant_of_reachable hs τ hmem
    rw [isNotRunning, sharedMove_lifecycle (sharedMove_of_taskStep hi h), isNotRunning]
  exact (submissionMove_of_taskStep hs hmem h).move hτ htasks htask hlifecycle
    (FamilyView.hasClosed_of_closers hclosers)

theorem takeEntry_frame (k : Nat) (τ : Task) :
    (takeEntry k τ).submitter = τ.submitter ∧ isUnfinished (takeEntry k τ) = isUnfinished τ := by
  unfold takeEntry
  split <;> exact ⟨rfl, rfl⟩

theorem implements (taskCapacity : NonZeroUsize) :
    (admissionView taskCapacity).Implements (service taskCapacity) where
  start := rfl
  noAnswer _ := rfl
  notClosed _ := rfl
  move := by
    intro s a s' hs hnext
    cases effect_of_step hnext with
    | newTask kind =>
        refine (admissionFamily taskCapacity).silent_move ?_
        exact ⟨.append ⟨rfl, rfl⟩, .keep, rfl⟩
    | newCloser kind => exact (admissionFamily taskCapacity).silent_of_closers rfl rfl (.append rfl)
    | newWaiter => exact (admissionFamily taskCapacity).silent_of_closers rfl rfl .keep
    | waiter _ hwstep =>
        obtain ⟨_, rfl⟩ := waiterStep_locks hwstep
        exact (admissionFamily taskCapacity).silent_of_closers rfl rfl .keep
    | task hτ hτstep _ _ hcurrent =>
        refine move_of_taskStep hs hτ hτstep rfl ?_ .keep
        cases hτstep with
        | sweep | finishSweep =>
            obtain ⟨c, hc, ht⟩ := hcurrent _ rfl
            simp [taskOf, hc, ht]
        | _ => rfl
    | sweepNext hc _ _ hτ hentry =>
        exact move_of_taskStep hs hτ (.sweepNext hentry) rfl rfl (.set hc rfl)
    | finishSweep hc hcurrent hτ hentry =>
        refine move_of_taskStep hs hτ (.finishSweep hentry) rfl ?_ (.set hc rfl)
        simp [taskOf, hc, hcurrent]
    | @take k c hc hpc =>
        refine (admissionFamily taskCapacity).silent_move ?_
        refine ⟨.map fun τ _ => ?_, .set hc (congrArg hasStored hpc).symm, rfl⟩
        exact ⟨congrArg answer (takeEntry_frame k τ).1, (takeEntry_frame k τ).2⟩
    | endSweep hc hpc =>
        exact (admissionFamily taskCapacity).silent_of_closers rfl rfl
          (.set hc (congrArg hasStored hpc).symm)
    | closer hc hcstep =>
        rcases hasStored_of_closerStep hcstep with ⟨hsame, hlifecycle⟩ |
          ⟨hbefore, hafter, hclosed⟩
        · exact (admissionFamily taskCapacity).silent_of_closers rfl hlifecycle (.set hc hsame)
        · exact (admissionFamily taskCapacity).close_move hc rfl hbefore hafter rfl rfl hclosed

/-! ### Rejected submissions -/

theorem untouched_of_submitterStep {t : TaskId} {runtimeClosed : Bool}
    {g g' : TokioExecutorServiceState} {τ τ' : Task}
    (hform : τ = { kind := τ.kind, submitter := τ.submitter })
    (hacc : isAccepted τ.submitter = false)
    (h : submitterStep t runtimeClosed g τ = some (g', τ')) :
    τ' = { kind := τ'.kind, submitter := τ'.submitter } := by
  cases hs : τ.submitter <;> simp only [submitterStep, hs] at h
  case lockSubmission | acceptLock =>
    simp only [map_acquire_eq_some, Prod.mk.injEq] at h
    obtain ⟨_, _, rfl⟩ := h
    rw [hform]
  case accept =>
    split at h <;> simp only [Option.some.injEq, Prod.mk.injEq] at h <;> obtain ⟨_, rfl⟩ := h <;>
      rw [hform]
  case checkRunning | acceptUnlock | rejectUnlock =>
    simp only [Option.some.injEq, Prod.mk.injEq] at h
    obtain ⟨_, rfl⟩ := h
    rw [hform]
  case rejected => cases h
  all_goals
    rw [hs] at hacc
    cases hacc

/-- Until it is accepted, a submission has done nothing to its task. -/
theorem untouched_of_reachable (h : (service taskCapacity).Reachable s) :
    ∀ τ ∈ s.tasks, isAccepted τ.submitter = false →
      τ = { kind := τ.kind, submitter := τ.submitter } := by
  refine forall_tasks_of_reachable (fun kind _ => rfl) ?_ ?_ h
  · intro k τ hτ hacc
    rw [(takeEntry_frame k τ).1] at hacc
    have := hτ hacc
    unfold takeEntry
    rw [if_neg (by rw [this]; simp)]
    exact this
  · intro t g τ a g' τ' hτ hstep hacc
    have hbefore := isAccepted_before hstep hacc
    have hform := hτ hbefore
    cases hstep with
    | submitter hstep => exact untouched_of_submitterStep hform hbefore hstep
    | worker hstep | canceller hstep =>
        rw [hform] at hstep
        cases hstep
    | pickUp hstep | destroy hstep =>
        rw [hform] at hstep
        cases hstep
    | callCancel hstep =>
        unfold callCancelStep at hstep
        split at hstep
        · rename_i hcall
          rw [hcall.2] at hbefore
          cases hbefore
        · cases hstep
    | sweepNext hentry | sweep hentry | finishSweep hentry =>
        rw [hform] at hentry
        cases hentry

theorem locks_of_submitterStep {t : TaskId} {runtimeClosed : Bool}
    {g g' : TokioExecutorServiceState} {τ τ' : Task}
    (h : submitterStep t runtimeClosed g τ = some (g', τ'))
    (hacc : isAccepted τ'.submitter = false) : ∃ locks, g' = { g with locks := locks } := by
  have hbefore := isAccepted_before (.submitter h) hacc
  cases hs : τ.submitter <;> simp only [submitterStep, hs] at h
  case lockSubmission | acceptLock =>
    simp only [map_acquire_eq_some, Prod.mk.injEq] at h
    exact ⟨_, h.2.1.symm⟩
  case accept =>
    split at h <;> simp only [Option.some.injEq, Prod.mk.injEq] at h <;> obtain ⟨rfl, rfl⟩ := h
    · exact ⟨_, rfl⟩
    · cases hacc
  case checkRunning | acceptUnlock | rejectUnlock =>
    simp only [Option.some.injEq, Prod.mk.injEq] at h
    exact ⟨_, h.1.symm⟩
  case rejected => cases h
  all_goals
    rw [hs] at hbefore
    cases hbefore

end

end TokioExecutorProofs.BlockingAdmission
