import TokioExecutorProofs.AdmissionFamilies
import TokioExecutorProofs.IoTermination

/-!
The admission of the IO service, step by step. A submission that has passed the
capacity check is accepted, although it is counted one step later: the submission
lock keeps everybody else from checking in between.
-/

namespace TokioExecutorProofs.IoAdmission

open ServiceBasics
open IoServiceState
open IoServiceState.TokioIoExecutorServiceState
open ExecutorServiceLifecycleBits
open ExecutorServiceLifecycleBits.ExecutorServiceLifecycle
open IoTask
open IoService
open IoTaskInvariants
open IoActivities
open IoLocks
open IoAccounting
open IoTermination
open BoundedAdmission
open AdmissionFamilies
open MutexTables
open ProcessFamilies
open TransitionSystems

/-- The answer that a submission is going to return, once it is decided. -/
@[grind] def answer : SubmitterPc → Option Answer
  | .lockSubmission | .checkRunning | .getActive => none
  | .rejectUnlock reason | .rejected reason => some (.rejected reason)
  | .inc | .spawn | .registerLock | .register | .registerUnlock | .unlockSubmission | .send
  | .dropFuture | .dropGuard _ | .returned | .abandonFuture | .abandonSender | .abandonGuard _
  | .abandoned => some .accepted

/-- Accepted, and not released by its guard. -/
def isClaimed (τ : Task) : Bool := answer τ.submitter == some .accepted && τ.decrements == 0

/-- A closing call past its store. -/
def hasStored : CloserPc → Bool
  | .lockSubmission | .store => false
  | .getActive | .unlockSubmission | .takeLock | .take | .takeUnlock | .sweep | .notifyCapacity
  | .wakeCapacity | .notifyWaiters | .wakeTermination | .returned => true

/-- The task that a step is about. -/
def taskOf (s : ServiceState) : Action → Option TaskId
  | .submitter t _ | .abandon t | .pickUp t | .destroy t | .worker t _ | .callCancel t
  | .canceller t _ | .sweepNext _ t => some t
  | .sweepAbort k => (s.closers[k]?).bind (·.current)
  | .callSpawn | .callClose _ | .closer _ | .callWait | .waiter _ => none

def closerOf : Action → Option Nat
  | .closer k => some k
  | _ => none

def admissionView (taskCapacity : NonZeroUsize) : AdmissionView ServiceState Action where
  capacity := taskCapacity.get
  admission s := { closed := s.shared.isNotRunning, active := indices isClaimed s.tasks }
  answer t s := (s.tasks[t]?).bind fun τ => answer τ.submitter
  hasClosed k s := (s.closers[k]?).any fun c => hasStored c.pc
  task := taskOf
  closer := closerOf

/-- The same view, by the lists that it is read off. -/
def admissionFamily (taskCapacity : NonZeroUsize) :
    FamilyView ServiceState Action Task Closer where
  capacity := taskCapacity.get
  isClosed s := s.shared.isNotRunning
  tasks s := s.tasks
  closers s := s.closers
  answer τ := answer τ.submitter
  isActive := isClaimed
  hasStored c := hasStored c.pc
  task := taskOf
  closer := closerOf

section

variable {t : TaskId} {g g' : TokioIoExecutorServiceState} {τ τ' : Task} {a : Action}

theorem answer_of_isAccepted {pc : SubmitterPc} (h : isAccepted pc = true) :
    answer pc = some .accepted := by
  cases pc <;> first | rfl | cases h

theorem isAccepted_of_answer {pc : SubmitterPc} (h : answer pc = some .accepted) :
    isAccepted pc = true ∨ pc = .inc := by
  cases pc <;> first | exact .inl rfl | exact .inr rfl | cases h

theorem answer_of_taskStep (h : TaskStep t g τ a g' τ') :
    answer τ'.submitter = answer τ.submitter ∨
      answer τ.submitter = none ∧
        (τ.submitter = .checkRunning ∧ g.isNotRunning = true ∧ g' = g ∧
            answer τ'.submitter = some (.rejected .shutdown) ∨
          τ.submitter = .getActive ∧ g.isSaturated = true ∧ g' = g ∧
            answer τ'.submitter = some (.rejected .saturated) ∨
          τ.submitter = .getActive ∧ g.isSaturated = false ∧ g' = g ∧
            answer τ'.submitter = some .accepted) := by
  cases h with
  | submitter h =>
      cases hs : τ.submitter <;> simp only [submitterStep, hs] at h
      case dropGuard d | abandonGuard d =>
        simp only [Option.map_eq_some_iff, Prod.mk.injEq, Prod.exists] at h
        obtain ⟨_, _, next, _, _, rfl⟩ := h
        cases next <;> exact .inl rfl
      all_goals grind -linarith
  | worker h => exact .inl (by rw [(workerStep_frame h).1])
  | abandon h => exact .inl (by rw [h]; rfl)
  | _ => exact .inl rfl

theorem isDecrementing_of_guardStep {b : Actor} {d : GuardPc} {next : Option GuardPc}
    (h : guardStep b g τ d = some (g', τ', next)) :
    τ'.decrements = τ.decrements ∨ d = .dec ∧ τ'.decrements = τ.decrements + 1 := by
  obtain ⟨_, _, n, rfl, hmove⟩ := guardMove_of_step h
  by_cases hd : d = .dec
  · exact .inr ⟨hd, by simpa [hd] using hmove.decrements⟩
  · exact .inl (by simpa [hd] using hmove.decrements)

theorem decrements_of_taskStep (h : TaskStep t g τ a g' τ') :
    τ'.decrements = τ.decrements ∨
      isDecrementing τ = true ∧ τ'.decrements = τ.decrements + 1 := by
  cases h with
  | submitter h =>
      cases hs : τ.submitter <;> simp only [submitterStep, hs] at h
      case dropGuard d | abandonGuard d =>
        simp only [Option.map_eq_some_iff, Prod.mk.injEq, Prod.exists] at h
        obtain ⟨_, _, next, hstep, _, rfl⟩ := h
        rcases isDecrementing_of_guardStep hstep with heq | ⟨rfl, heq⟩
        · exact .inl heq
        · exact .inr ⟨by simp [isDecrementing, hs], heq⟩
      all_goals grind -linarith
  | worker h =>
      cases hs : τ.worker <;> simp only [workerStep, hs] at h
      case dropGuard d =>
        simp only [Option.map_eq_some_iff, Prod.mk.injEq, Prod.exists] at h
        obtain ⟨_, _, next, hstep, _, rfl⟩ := h
        rcases isDecrementing_of_guardStep hstep with heq | ⟨rfl, heq⟩
        · exact .inl heq
        · exact .inr ⟨by simp [isDecrementing, hs], heq⟩
      all_goals grind -linarith
  | _ => exact .inl rfl

theorem hasStored_of_closerStep {k : Nat} {c c' : Closer} (h : closerStep k g c = some (g', c')) :
    hasStored c'.pc = hasStored c.pc ∧ g'.isNotRunning = g.isNotRunning ∨
      hasStored c.pc = false ∧ hasStored c'.pc = true ∧ g'.isNotRunning = true := by
  cases hpc : c.pc <;> simp only [closerStep, hpc] at h
  case store =>
    refine .inr ⟨rfl, ?_⟩
    split at h <;> simp only [Option.some.injEq, Prod.mk.injEq] at h <;> obtain ⟨rfl, rfl⟩ := h
    · exact ⟨rfl, isNotRunning_iff.mpr (load_shutdown_ne_running _)⟩
    · refine ⟨rfl, isNotRunning_iff.mpr ?_⟩
      simp [TokioIoExecutorServiceState.stop]
  case take | sweep | returned => cases h
  case lockSubmission | takeLock =>
    simp only [map_acquire_eq_some, Prod.mk.injEq] at h
    obtain ⟨_, rfl, rfl⟩ := h
    exact .inl ⟨rfl, rfl⟩
  case unlockSubmission =>
    simp only [Option.some.injEq, Prod.mk.injEq] at h
    obtain ⟨rfl, rfl⟩ := h
    refine .inl ⟨?_, rfl⟩
    dsimp only
    split <;> rfl
  all_goals
    simp only [Option.some.injEq, Prod.mk.injEq] at h
    obtain ⟨rfl, rfl⟩ := h
    exact .inl ⟨rfl, rfl⟩

end

section

variable {taskCapacity : NonZeroUsize} {s s' : ServiceState} {a : Action}

/-- At a capacity check, everybody who has been accepted has been counted. -/
theorem isSaturated_iff (h : (service taskCapacity).Reachable s) {t : TaskId} {τ : Task}
    (hτ : s.tasks[t]? = some τ) (hpc : τ.submitter = .getActive) :
    s.shared.isSaturated = true ↔ taskCapacity.get ≤ (indices isClaimed s.tasks).card := by
  have hc := conserved_of_reachable h
  have hnone : ∀ τ₁ ∈ s.tasks, τ₁.submitter ≠ .inc := by
    intro τ₁ hτ₁ hinc
    obtain ⟨t₁, ht₁⟩ := List.mem_iff_getElem?.mp hτ₁
    have hholds : holds s (.submitter t) .submission := ⟨t, τ, hτ, rfl, by rw [hpc]; rfl⟩
    have hholds₁ : holds s (.submitter t₁) .submission := ⟨t₁, τ₁, ht₁, rfl, by rw [hinc]; rfl⟩
    obtain rfl := Actor.submitter.inj ((respects_of_reachable h).unique hholds hholds₁)
    obtain rfl := Option.some.inj (hτ.symm.trans ht₁)
    rw [hpc] at hinc
    cases hinc
  have hcount : s.tasks.countP isClaimed = s.tasks.countP isActive := by
    refine List.countP_congr fun τ₁ hτ₁ => ?_
    have hiff : answer τ₁.submitter = some .accepted ↔ isAccepted τ₁.submitter = true :=
      ⟨fun hanswer => (isAccepted_of_answer hanswer).resolve_right (hnone τ₁ hτ₁),
        answer_of_isAccepted⟩
    simp [isClaimed, isActive, hiff]
  rw [card_indices, hcount, ← hc.active, ← hc.capacity]
  simp [isSaturated]

theorem submissionMove_of_taskStep {t : TaskId} {g' : TokioIoExecutorServiceState}
    {τ τ' : Task} (hs : (service taskCapacity).Reachable s) (hτ : s.tasks[t]? = some τ)
    (h : TaskStep t s.shared τ a g' τ') :
    (admissionFamily taskCapacity).SubmissionMove
      (((admissionView taskCapacity).admission s).answer taskCapacity.get) τ τ' := by
  have hmem := mem_of_getElem? hτ
  have hi := taskInvariant_of_reachable hs τ hmem
  rcases answer_of_taskStep h with hsame | ⟨hnone, hdecide⟩
  · rcases decrements_of_taskStep h with heq | ⟨hdec, heq⟩
    · refine .keep hsame ?_
      show isClaimed τ' = isClaimed τ
      rw [isClaimed, hsame, heq, isClaimed]
    · have hactive := isActive_of_isDecrementing hi hdec
      simp only [isActive, Bool.and_eq_true, beq_iff_eq] at hactive
      refine .release hsame ?_ ?_
      · show isClaimed τ = true
        simp [isClaimed, answer_of_isAccepted hactive.1, hactive.2]
      · show isClaimed τ' = false
        simp [isClaimed, heq]
  have hinactive : isClaimed τ = false := by simp [isClaimed, hnone]
  have hrejected : ∀ reason, answer τ'.submitter = some (.rejected reason) →
      (isClaimed τ' = true ↔ Answer.rejected reason = .accepted) := by
    intro reason hanswer
    simp [isClaimed, hanswer]
  have hrunning : τ.submitter = .getActive →
      ((admissionView taskCapacity).admission s).closed = false := by
    intro hpc
    have hrunning : load s.shared.lifecycle = running :=
      (admissionGate taskCapacity).running_of_isAdmitted hs τ hmem
        (congrArg SubmitterPc.isAdmitted hpc)
    simpa [admissionView, isNotRunning] using hrunning
  rcases hdecide with ⟨_, hnotRunning, _, hdecided⟩ | ⟨hpc, hsaturated, _, hdecided⟩ |
    ⟨hpc, hfree, _, hdecided⟩
  · have hspec : ((admissionView taskCapacity).admission s).answer taskCapacity.get =
        .rejected .shutdown := Admission.answer_of_closed hnotRunning
    rw [hspec]
    exact .submit hnone hinactive hdecided (hrejected _ hdecided)
  · rw [Admission.answer_of_full (hrunning hpc) ((isSaturated_iff hs hτ hpc).mp hsaturated)]
    exact .submit hnone hinactive hdecided (hrejected _ hdecided)
  · have hroom : ((admissionView taskCapacity).admission s).active.card < taskCapacity.get := by
      by_contra hfull
      have := (isSaturated_iff hs hτ hpc).mpr (Nat.not_lt.mp hfull)
      rw [hfree] at this
      cases this
    have hdecrements : τ'.decrements = 0 := by
      refine ((decrements_of_taskStep h).resolve_right fun hdec => ?_).trans ?_
      · have hactive := isActive_of_isDecrementing hi hdec.1
        simp [isActive, hpc, isAccepted] at hactive
      · rw [hi.decrements, stage, hpc]
        rfl
    have hclaimed : isClaimed τ' = true := by simp [isClaimed, hdecided, hdecrements]
    rw [Admission.answer_of_free (hrunning hpc) hroom]
    exact .submit hnone hinactive hdecided (iff_of_true hclaimed rfl)

theorem move_of_taskStep {t : TaskId} {τ τ' : Task} (hs : (service taskCapacity).Reachable s)
    (hτ : s.tasks[t]? = some τ) (h : TaskStep t s.shared τ a s'.shared τ')
    (htasks : s'.tasks = s.tasks.set t τ') (htask : taskOf s a = some t)
    (hclosers : FamilyMove (fun c => hasStored c.pc = false)
      (fun c c' => hasStored c'.pc = hasStored c.pc) s.closers s'.closers) :
    (admissionView taskCapacity).Move s a s' := by
  have hlifecycle : s'.shared.isNotRunning = s.shared.isNotRunning := by
    rw [isNotRunning, (taskStep_shared h).1, isNotRunning]
  exact (submissionMove_of_taskStep hs hτ h).move hτ htasks htask hlifecycle
    (FamilyView.hasClosed_of_closers hclosers)

theorem implements (taskCapacity : NonZeroUsize) :
    (admissionView taskCapacity).Implements (service taskCapacity) where
  start := rfl
  noAnswer _ := rfl
  notClosed _ := rfl
  move := by
    intro s a s' hs hnext
    cases effect_of_step hnext with
    | newTask =>
        refine (admissionFamily taskCapacity).silent_move ?_
        exact ⟨.append ⟨rfl, rfl⟩, .keep, rfl⟩
    | newCloser kind => exact (admissionFamily taskCapacity).silent_of_closers rfl rfl (.append rfl)
    | newWaiter | waiter => exact (admissionFamily taskCapacity).silent_of_closers rfl rfl .keep
    | task hτ hτstep hnext habort =>
        refine move_of_taskStep hs hτ hτstep rfl ?_ .keep
        cases hτstep with
        | sweepAbort => exact absurd rfl (habort _)
        | _ => rfl
    | sweepNext hc _ _ hτ hentry =>
        exact move_of_taskStep hs hτ (.sweepNext hentry) rfl rfl (.set hc rfl)
    | sweepAbort hc hcurrent hτ hentry =>
        refine move_of_taskStep hs hτ (.sweepAbort hentry) rfl ?_ (.set hc rfl)
        simp [taskOf, hc, hcurrent]
    | @take k c hc hpc =>
        refine (admissionFamily taskCapacity).silent_move ?_
        refine ⟨.map fun τ _ => ?_, .set hc (congrArg hasStored hpc).symm, rfl⟩
        obtain ⟨hsubmitter, _, hdecrements, _⟩ := takeEntry_frame k τ
        refine ⟨congrArg answer hsubmitter, ?_⟩
        show isClaimed (takeEntry k τ) = isClaimed τ
        rw [isClaimed, hsubmitter, hdecrements, isClaimed]
    | endSweep hc hpc =>
        exact (admissionFamily taskCapacity).silent_of_closers rfl rfl
          (.set hc (congrArg hasStored hpc).symm)
    | closer hc hcstep =>
        rcases hasStored_of_closerStep hcstep with ⟨hsame, hlifecycle⟩ |
          ⟨hbefore, hafter, hclosed⟩
        · exact (admissionFamily taskCapacity).silent_of_closers rfl hlifecycle (.set hc hsame)
        · exact (admissionFamily taskCapacity).close_move hc rfl hbefore hafter rfl rfl hclosed

/-! ### Rejected submissions -/

theorem isAccepted_before {t : TaskId} {g g' : TokioIoExecutorServiceState} {τ τ' : Task}
    (h : TaskStep t g τ a g' τ') (hanswer : answer τ'.submitter ≠ some .accepted) :
    answer τ.submitter ≠ some .accepted := by
  intro haccepted
  rcases answer_of_taskStep h with hsame | ⟨hnone, _⟩
  · exact hanswer (hsame.trans haccepted)
  · rw [haccepted] at hnone
    cases hnone

theorem untouched_of_submitterStep {t : TaskId} {runtimeClosed : Bool}
    {g g' : TokioIoExecutorServiceState} {τ τ' : Task}
    (hform : τ = { submitter := τ.submitter }) (hanswer : answer τ.submitter ≠ some .accepted)
    (h : submitterStep t runtimeClosed g τ = some (g', τ')) :
    τ' = { submitter := τ'.submitter } ∧ ∃ locks, g' = { g with locks := locks } := by
  cases hs : τ.submitter <;> simp only [submitterStep, hs] at h
  case lockSubmission =>
    simp only [map_acquire_eq_some, Prod.mk.injEq] at h
    obtain ⟨_, rfl, rfl⟩ := h
    exact ⟨by rw [hform], _, rfl⟩
  case checkRunning | getActive | rejectUnlock =>
    simp only [Option.some.injEq, Prod.mk.injEq] at h
    obtain ⟨rfl, rfl⟩ := h
    exact ⟨by rw [hform], _, rfl⟩
  case rejected => cases h
  all_goals
    rw [hs] at hanswer
    exact absurd rfl hanswer

theorem untouched_of_reachable (h : (service taskCapacity).Reachable s) :
    ∀ τ ∈ s.tasks, answer τ.submitter ≠ some .accepted → τ = { submitter := τ.submitter } := by
  refine forall_tasks_of_reachable (fun _ => rfl) ?_ ?_ h
  · intro k τ hτ hanswer
    rw [(takeEntry_frame k τ).1] at hanswer
    have := hτ hanswer
    unfold takeEntry
    rw [if_neg (by rw [this]; simp)]
    exact this
  · intro t g τ a g' τ' hτ hstep hanswer
    have hbefore := isAccepted_before hstep hanswer
    have hform := hτ hbefore
    cases hstep with
    | submitter hstep => exact (untouched_of_submitterStep hform hbefore hstep).1
    | worker hstep =>
        rw [hform] at hstep
        cases hstep
    | abandon hpc | callCancel hpc =>
        rw [hpc] at hbefore
        exact absurd rfl hbefore
    | pickUp hpc | destroy hpc =>
        rw [hform] at hpc
        cases hpc
    | canceller _ hcancels =>
        rw [hform] at hcancels
        exact absurd rfl hcancels
    | sweepNext hentry | sweepAbort hentry =>
        rw [hform] at hentry
        cases hentry

end

end TokioExecutorProofs.IoAdmission
