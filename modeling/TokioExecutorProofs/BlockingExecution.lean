import TokioExecutorProofs.BlockingAdmission
import TokioExecutorProofs.BoundedExecutors

/-!
The blocking service is a bounded executor: every step of it, of any of its threads,
is one step of the abstract executor or none.
-/

namespace TokioExecutorProofs.BlockingExecution

open ServiceBasics
open BlockingServiceState
open BlockingServiceState.TokioExecutorServiceState
open ExecutorServiceLifecycleBits
open ExecutorServiceLifecycleBits.ExecutorServiceLifecycle
open BlockingTask
open BlockingService
open BlockingTaskPlacement
open BlockingTaskSlots
open BlockingTaskInvariants
open BlockingTaskEffects
open BlockingAccounting
open BlockingTermination
open BlockingAdmission
open BoundedAdmission (Answer)
open BoundedExecutors
open ProcessFamilies
open TraceRefinements
open TransitionSystems
open TransitionSystem

/-- The phase of an accepted task: the counts tell whether it is queued, running or
released, the worker how far its callable is. -/
def acceptedPhase (τ : Task) : Phase :=
  if τ.finishes = [] then
    if τ.starts = 0 then .queued
    else if τ.worker = .executing then .executing
    else if τ.invocations = 0 then .started
    else .executed
  else if τ.starts = 0 then .withdrawn
  else .finished (τ.invocations != 0)

def phaseOf (τ : Task) : Phase :=
  match answer τ.submitter with
  | none => .submitted
  | some (.rejected reason) => .refused reason
  | some .accepted => acceptedPhase τ

def executorOf (s : ServiceState) : Executor where
  closed := s.shared.isNotRunning
  phases := s.tasks.map phaseOf

def taskEvents (t : TaskId) (before after : Option Phase) : List Event :=
  match before, after with
  | some p, some p' => if p' = p then [] else [.enter t p']
  | _, _ => []

/-- The events that take effect in a step. -/
def executionEvents : Emission ServiceState Action Event := fun s a s' =>
  (if s.tasks.length < s'.tasks.length then [.call] else []) ++
  (match taskOf s a with
    | some t => taskEvents t ((s.tasks[t]?).map phaseOf) ((s'.tasks[t]?).map phaseOf)
    | none => []) ++
  (if s.shared.isNotRunning = false ∧ s'.shared.isNotRunning = true then [.close] else [])

section

variable {t : TaskId} {g g' : TokioExecutorServiceState} {τ τ' : Task} {a : Action}

theorem phaseOf_of_accepted (h : answer τ.submitter = some .accepted) :
    phaseOf τ = acceptedPhase τ := by
  rw [phaseOf, h]

theorem executing_of_workerStep {outcome : RunOutcome}
    (h : workerStep t outcome g τ = some (g', τ')) :
    (τ.worker = .invoke ∧ τ' = { τ with worker := .executing, invocations := τ.invocations + 1 }) ∨
    (τ.worker = .executing ∧ ∃ pc result, pc ≠ .executing ∧
      τ' = { τ with worker := pc, returned := result }) ∨
    (τ.worker ≠ .executing ∧ τ'.worker ≠ .executing ∧ τ'.invocations = τ.invocations) := by
  have hinvocations := (taskStep_frame (.worker h : TaskStep t g τ (.worker t outcome) g' τ')).2.2.1
  cases hw : τ.worker <;> simp only [workerStep, hw] at h
  case absent | queued | finished => cases h
  case invoke =>
    simp only [Option.some.injEq, Prod.mk.injEq] at h
    exact .inl ⟨rfl, h.2.symm⟩
  case executing =>
    simp only [Option.some.injEq, Prod.mk.injEq] at h
    refine .inr (.inl ⟨rfl, _, _, ?_, h.2.symm⟩)
    split <;> simp
  all_goals refine .inr (.inr ⟨by simp, ?_, hinvocations.resolve_right (by simp [hw])⟩)
  case startLock =>
    simp only [map_acquire_eq_some, Prod.mk.injEq] at h
    rw [← h.2.2]
    simp
  case ranClosure c | refusedClosure c | destroyClosure c =>
    rcases hc : closureStep τ c with ⟨τ₁, next⟩
    simp only [Option.some.injEq, Prod.mk.injEq, hc] at h
    rw [← h.2]
    cases next <;> simp
  case ranGuard d | refusedGuard d | destroyGuard d =>
    simp only [Option.map_eq_some_iff, Prod.mk.injEq, Prod.exists] at h
    obtain ⟨_, _, next, _, _, rfl⟩ := h
    cases next <;> simp
  all_goals grind -linarith [Task.enterTask]

/-- Executing is a matter of the worker alone. -/
theorem executing_of_taskStep (hi : TaskInvariant τ) (h : TaskStep t g τ a g' τ') :
    (τ.worker = .invoke ∧ τ' = { τ with worker := .executing, invocations := τ.invocations + 1 }) ∨
    (τ.worker = .executing ∧ ∃ pc result, pc ≠ .executing ∧
      τ' = { τ with worker := pc, returned := result }) ∨
    ((τ'.worker = .executing ↔ τ.worker = .executing) ∧ τ'.invocations = τ.invocations) := by
  have hinvocations := (taskStep_frame h).2.2.1
  cases h with
  | worker h =>
      rcases executing_of_workerStep h with hinvoke | hreturn | ⟨hne, hne', heq⟩
      · exact .inl hinvoke
      · exact .inr (.inl hreturn)
      · exact .inr (.inr ⟨by simp [hne, hne'], heq⟩)
  | submitter h =>
      obtain ⟨_, _, _, _, _, _, _, _, _, rfl, hworker⟩ := submitterStep_frame h
      refine .inr (.inr ⟨?_, rfl⟩)
      rcases hworker with rfl | ⟨hs, hworker⟩
      · rfl
      · rcases hworker with rfl | rfl <;> simp [worker_of_spawn hi hs]
  | pickUp h =>
      unfold pickUpStep at h
      split at h
      · rename_i hqueued
        obtain rfl := Option.some.inj h
        refine .inr (.inr ⟨?_, rfl⟩)
        simp only [hqueued]
        split <;> simp
      · cases h
  | destroy h =>
      unfold destroyStep at h
      split at h
      · rename_i hqueued
        obtain rfl := Option.some.inj h
        exact .inr (.inr ⟨by simp [hqueued], rfl⟩)
      · cases h
  | callCancel h =>
      unfold callCancelStep at h
      split at h <;> cases h
      exact .inr (.inr ⟨Iff.rfl, rfl⟩)
  | canceller h =>
      obtain ⟨_, _, _, _, hstep, rfl⟩ := cancellerStep_cases h
      obtain ⟨_, _, _, _, _, _, _, rfl⟩ := cancelStep_frame hstep
      exact .inr (.inr ⟨Iff.rfl, rfl⟩)
  | sweep _ h =>
      obtain ⟨_, _, _, _, _, rfl⟩ := sweepStep_frame h
      exact .inr (.inr ⟨Iff.rfl, rfl⟩)
  | sweepNext => exact .inr (.inr ⟨Iff.rfl, rfl⟩)
  | finishSweep =>
      refine .inr (.inr ⟨?_, ?_⟩)
      · unfold finishSweep
        rfl
      · unfold finishSweep
        rfl

theorem running_of_isCountedRunning (h : isCountedRunning τ = true) :
    τ.finishes = [] ∧ τ.starts ≠ 0 := by
  simp only [isCountedRunning, isUnfinished, Bool.and_eq_true, List.isEmpty_iff, bne_iff_ne,
    ne_eq] at h
  exact ⟨h.1.2, h.2⟩

theorem worker_of_finishAt (hi : TaskInvariant τ) {site : Site} {f : FinishPc}
    (h : finishAt τ site = some (true, f)) : τ.worker ≠ .executing := by
  intro hw
  rcases finishAt_cases h with ⟨_, hstage⟩ | ⟨_, hfalse, _⟩ | ⟨_, _, hfalse, _⟩
  · have hreturned := hi.tracked.returned (hi.tracked.ran true (by rw [hw]; rfl))
    simp only [guardStage, hreturned, hw] at hstage
    cases hstage
  · cases hfalse
  · cases hfalse

theorem next_of_taskStep (hi : TaskInvariant τ) (h : TaskStep t g τ a g' τ') :
    acceptedPhase τ' = acceptedPhase τ ∨ τ.submitter = .accept ∨
      (acceptedPhase τ).next (acceptedPhase τ') = true := by
  rcases executing_of_taskStep hi h with
    ⟨hw, rfl⟩ | ⟨hw, pc, result, hpc, rfl⟩ | ⟨hexecuting, hinvocations⟩
  · obtain ⟨hnil, hstarts⟩ :=
      running_of_isCountedRunning (isUnfinished_of_running hi (by rw [hw]; rfl))
    have hzero := (hi.invoked.before (by rw [hw]; rfl)).1
    refine .inr (.inr ?_)
    simp [acceptedPhase, hnil, hstarts, hw, hzero, Phase.next]
  · obtain ⟨hnil, hstarts⟩ :=
      running_of_isCountedRunning (isUnfinished_of_running hi (by rw [hw]; rfl))
    have hone := (hi.invoked.executing hw).1
    refine .inr (.inr ?_)
    simp [acceptedPhase, hnil, hstarts, hw, hone, hpc, Phase.next]
  · cases sharedMove_of_taskStep hi h with
    | locks _ hstarts hfinishes =>
        refine .inl ?_
        simp only [acceptedPhase, hstarts, hfinishes, hexecuting, hinvocations]
    | accept _ hbefore => exact .inr (.inl hbefore)
    | start hbefore _ hstarts hfinishes =>
        obtain ⟨hzero, hnil, _⟩ := finishes_of_start hi hbefore
        have hnone := (hi.invoked.before (by rw [hbefore]; rfl)).1
        refine .inr (.inr ?_)
        simp [acceptedPhase, hstarts, hfinishes, hzero, hnil, hexecuting, hbefore, hinvocations,
          hnone, Phase.next]
    | @finish _ site started f _ _ _ hat _ _ hstarts hfinishes =>
        by_cases hf : f = .update
        · subst f
          have hnil := finishes_of_finishAt hi hat rfl
          have hone := starts_of_finishAt hi hat
          refine .inr (.inr ?_)
          cases started with
          | false =>
              simp [acceptedPhase, hstarts, hfinishes, hone, hnil, Phase.next]
          | true =>
              have hworker := worker_of_finishAt hi hat
              by_cases hnone : τ.invocations = 0
              · simp [acceptedPhase, hstarts, hfinishes, hone, hnil, hworker, hinvocations, hnone,
                  Phase.next]
              · simp [acceptedPhase, hstarts, hfinishes, hone, hnil, hworker, hinvocations, hnone,
                  Phase.next]
        · rw [if_neg hf] at hfinishes
          refine .inl ?_
          simp only [acceptedPhase, hstarts, hfinishes, hexecuting, hinvocations]

theorem phaseOf_of_answer {answered : Answer} (h : answer τ.submitter = some answered)
    (hnew : answered = .accepted → acceptedPhase τ = .queued) :
    phaseOf τ = Phase.ofAnswer answered := by
  rw [phaseOf, h]
  cases answered with
  | accepted => exact hnew rfl
  | rejected => rfl

/-! ### Counts -/

theorem isRunning_acceptedPhase (h : isAccepted τ.submitter = true) :
    (acceptedPhase τ).isRunning = isCountedRunning τ ∧
      (acceptedPhase τ == .queued) = isCountedQueued τ := by
  unfold acceptedPhase isCountedRunning isCountedQueued isUnfinished
  by_cases hnil : τ.finishes = []
  · by_cases hstarts : τ.starts = 0
    · simp [h, hnil, hstarts, Phase.isRunning]
    · rw [if_pos hnil, if_neg hstarts]
      split
      · simp [h, hnil, hstarts, Phase.isRunning]
      · split <;> simp [h, hnil, hstarts, Phase.isRunning]
  · have hempty : τ.finishes.isEmpty = false := by simpa using hnil
    rw [if_neg hnil, hempty, Bool.and_false, Bool.false_and, Bool.false_and]
    split <;> exact ⟨rfl, rfl⟩

theorem isRunning_phaseOf :
    (phaseOf τ).isRunning = isCountedRunning τ ∧ (phaseOf τ == .queued) = isCountedQueued τ := by
  by_cases hanswer : answer τ.submitter = some .accepted
  · rw [phaseOf_of_accepted hanswer]
    exact isRunning_acceptedPhase (isAccepted_iff_answer.mpr hanswer)
  · have hnone := isUnfinished_of_answer hanswer
    simp only [isCountedRunning, isCountedQueued, hnone, Bool.false_and]
    unfold phaseOf
    split
    · exact ⟨rfl, rfl⟩
    · exact ⟨rfl, rfl⟩
    · rename_i haccepted
      exact absurd haccepted hanswer

theorem isUnfinished_phaseOf : (phaseOf τ).isUnfinished = isUnfinished τ := by
  obtain ⟨hrunning, hqueued⟩ := isRunning_phaseOf (τ := τ)
  have hsplit : (phaseOf τ).isUnfinished = ((phaseOf τ == .queued) || (phaseOf τ).isRunning) := by
    cases phaseOf τ <;> rfl
  rw [hsplit, hrunning, hqueued, isCountedQueued, isCountedRunning]
  cases isUnfinished τ <;> cases hstarts : τ.starts == 0 <;> simp_all [bne]

end

section

variable {taskCapacity : NonZeroUsize} {s s' : ServiceState} {a : Action} {t : TaskId}
  {τ τ' : Task}

theorem unfinished_executorOf : (executorOf s).unfinished = s.tasks.countP isUnfinished := by
  unfold Executor.unfinished executorOf
  rw [List.countP_map]
  exact List.countP_congr fun τ _ => by simp [isUnfinished_phaseOf]

theorem isSaturated_iff_executor (h : (service taskCapacity).Reachable s) :
    s.shared.isSaturated = true ↔ taskCapacity.get ≤ (executorOf s).unfinished := by
  rw [isSaturated_iff h, card_indices, unfinished_executorOf]

theorem mayEnter_of_taskStep (hs : (service taskCapacity).Reachable s) (hτ : s.tasks[t]? = some τ)
    (h : TaskStep t s.shared τ a s'.shared τ') :
    phaseOf τ' = phaseOf τ ∨
      (executorOf s).mayEnter taskCapacity.get (phaseOf τ) (phaseOf τ') = true := by
  have hmem := mem_of_getElem? hτ
  have hi := taskInvariant_of_reachable hs τ hmem
  rcases answer_of_taskStep h with hsame | ⟨hnone, hdecide⟩
  · cases hanswer : answer τ.submitter with
    | none =>
        refine .inl ?_
        rw [phaseOf, phaseOf, hsame, hanswer]
    | some answered =>
        cases answered with
        | rejected reason =>
            refine .inl ?_
            rw [phaseOf, phaseOf, hsame, hanswer]
        | accepted =>
            rw [phaseOf_of_accepted hanswer, phaseOf_of_accepted (hsame.trans hanswer)]
            rcases next_of_taskStep hi h with heq | haccept | hnext
            · exact .inl heq
            · rw [haccept] at hanswer
              cases hanswer
            · exact .inr (mayEnter_of_next hnext)
  · have hsubmitted : phaseOf τ = .submitted := by rw [phaseOf, hnone]
    have hrunning : τ.submitter = .accept → (executorOf s).closed = false := by
      intro hpc
      have hrunning : load s.shared.lifecycle = running :=
        (admissionGate taskCapacity).running_of_isAdmitted hs τ hmem
          (congrArg SubmitterPc.isAdmitted hpc)
      simpa [executorOf, isNotRunning] using hrunning
    have hdecided : answer τ'.submitter = some ((executorOf s).answer taskCapacity.get) ∧
        ((executorOf s).answer taskCapacity.get = .accepted → acceptedPhase τ' = .queued) := by
      rcases hdecide with ⟨_, hclosed, _, hdecided⟩ | ⟨hpc, hsaturated, _, hdecided⟩ |
        ⟨hpc, hfree, _, hdecided⟩
      · rw [hdecided, answer_of_closed (x := executorOf s) hclosed]
        exact ⟨rfl, by simp⟩
      · rw [hdecided, answer_of_full (hrunning hpc) ((isSaturated_iff_executor hs).mp hsaturated)]
        exact ⟨rfl, by simp⟩
      · have hroom : (executorOf s).unfinished < taskCapacity.get := by
          by_contra hfull
          rw [(isSaturated_iff_executor hs).mpr (Nat.not_lt.mp hfull)] at hfree
          cases hfree
        rw [hdecided, answer_of_free (hrunning hpc) hroom]
        refine ⟨rfl, fun _ => ?_⟩
        obtain ⟨hzero, hnil⟩ := fresh_of_accept hi hpc
        have hshared := sharedMove_of_taskStep hi h
        generalize s'.shared = g' at hshared
        cases hshared with
        | accept _ _ _ hstarts hfinishes => simp [acceptedPhase, hstarts, hfinishes, hzero, hnil]
        | locks haccepted | start _ haccepted | finish _ _ haccepted =>
            rw [isAccepted_iff_answer.mpr hdecided, hpc] at haccepted
            cases haccepted
    refine .inr ?_
    rw [hsubmitted, phaseOf_of_answer hdecided.1 hdecided.2]
    exact mayEnter_submitted

/-! ### The refinement -/

theorem executionEvents_of_set (hτ : s.tasks[t]? = some τ) (htasks : s'.tasks = s.tasks.set t τ')
    (htask : taskOf s a = some t) (hclosed : s'.shared.isNotRunning = s.shared.isNotRunning) :
    executionEvents s a s' = if phaseOf τ' = phaseOf τ then [] else [.enter t (phaseOf τ')] := by
  have hlength : ¬ s.tasks.length < s'.tasks.length := by rw [htasks, List.length_set]; omega
  have hopen : ¬ (s.shared.isNotRunning = false ∧ s'.shared.isNotRunning = true) := by
    rw [hclosed]
    simp
  unfold executionEvents
  rw [if_neg hlength, if_neg hopen, htask, List.append_nil, List.nil_append, htasks]
  show taskEvents t ((s.tasks[t]?).map phaseOf) (((s.tasks.set t τ')[t]?).map phaseOf) = _
  rw [hτ, getElem?_set_self_of_some hτ]
  rfl

theorem execute_of_taskStep (hs : (service taskCapacity).Reachable s)
    (hτ : s.tasks[t]? = some τ) (h : TaskStep t s.shared τ a s'.shared τ')
    (htasks : s'.tasks = s.tasks.set t τ') (htask : taskOf s a = some t) :
    (boundedExecutor taskCapacity.get).execute (executionEvents s a s') (executorOf s) =
      some (executorOf s') := by
  have hi := taskInvariant_of_reachable hs τ (mem_of_getElem? hτ)
  have hclosed : s'.shared.isNotRunning = s.shared.isNotRunning := by
    rw [isNotRunning, sharedMove_lifecycle (sharedMove_of_taskStep hi h), isNotRunning]
  have hexecutor : executorOf s' =
      { executorOf s with phases := (executorOf s).phases.set t (phaseOf τ') } := by
    simp only [executorOf, htasks, hclosed, List.map_set]
  have hphase : (executorOf s).phases[t]? = some (phaseOf τ) := by
    simp [executorOf, hτ]
  rw [executionEvents_of_set hτ htasks htask hclosed, hexecutor]
  rcases mayEnter_of_taskStep hs hτ h with heq | hmay
  · rw [if_pos heq, heq, set_self_of_getElem? hphase]
    rfl
  · split
    · rename_i heq
      rw [heq, set_self_of_getElem? hphase]
      rfl
    · exact execute_cons_eq_some.mpr ⟨_, step_enter hphase hmay, rfl⟩

theorem execute_of_same (htask : taskOf s a = none)
    (hphases : s'.tasks.map phaseOf = s.tasks.map phaseOf)
    (hclosed : s'.shared.isNotRunning = s.shared.isNotRunning ∨ s'.shared.isNotRunning = true) :
    (boundedExecutor taskCapacity.get).execute (executionEvents s a s') (executorOf s) =
      some (executorOf s') := by
  have hlength : ¬ s.tasks.length < s'.tasks.length := by
    have := congrArg List.length hphases
    simp only [List.length_map] at this
    omega
  unfold executionEvents
  rw [if_neg hlength, htask, List.append_nil, List.nil_append]
  split
  · rename_i hclose
    simp [executeUnder, boundedExecutor, executorOf, hphases, hclose.2]
  · rename_i hopen
    have hsame : s'.shared.isNotRunning = s.shared.isNotRunning := by
      rcases hclosed with heq | htrue
      · exact heq
      · rw [htrue] at hopen ⊢
        simpa using hopen
    simp [executeUnder, executorOf, hphases, hsame]

theorem phaseOf_takeEntry (k : Nat) : phaseOf (takeEntry k τ) = phaseOf τ := by
  unfold takeEntry
  split <;> rfl

theorem blocking_refines (taskCapacity : NonZeroUsize) :
    Refines (service taskCapacity) executionEvents (boundedExecutor taskCapacity.get)
      executorOf where
  start := rfl
  step := by
    intro s a s' hs hnext
    cases effect_of_step hnext with
    | newTask kind =>
        simp [executionEvents, taskOf, executeUnder, boundedExecutor, executorOf]
        rfl
    | newCloser | newWaiter => exact execute_of_same rfl rfl (.inl rfl)
    | waiter _ hwstep =>
        obtain ⟨_, rfl⟩ := waiterStep_locks hwstep
        exact execute_of_same rfl rfl (.inl rfl)
    | endSweep => exact execute_of_same rfl rfl (.inl rfl)
    | closer _ hcstep =>
        refine execute_of_same rfl rfl ?_
        rcases hasStored_of_closerStep hcstep with ⟨_, hsame⟩ | ⟨_, _, hclosed⟩
        · exact .inl hsame
        · exact .inr hclosed
    | take =>
        refine execute_of_same rfl ?_ (.inl rfl)
        rw [List.map_map]
        exact List.map_congr_left fun τ _ => phaseOf_takeEntry _
    | task hτ hτstep _ _ hcurrent =>
        refine execute_of_taskStep hs hτ hτstep rfl ?_
        cases hτstep with
        | sweep | finishSweep =>
            obtain ⟨c, hc, ht⟩ := hcurrent _ rfl
            simp [taskOf, hc, ht]
        | _ => rfl
    | sweepNext _ _ _ hτ hentry =>
        refine execute_of_taskStep hs hτ ?_ rfl rfl
        exact .sweepNext hentry
    | finishSweep hc hcurrent hτ hentry =>
        refine execute_of_taskStep hs hτ ?_ rfl (by simp [taskOf, hc, hcurrent])
        exact .finishSweep hentry

/-! ### What follows -/

theorem starts_of_invocations (hi : TaskInvariant τ) (h : τ.invocations ≠ 0) :
    τ.starts ≠ 0 ∧ answer τ.submitter = some .accepted := by
  have hever := hi.invoked.ever h
  have hreturned := hi.tracked.returned hever
  have hstarting : isStarting (workerPhase τ.worker) = false := by
    by_contra hstarting
    have hbefore : isBeforeInvoke τ.worker = true := by
      cases hw : τ.worker <;> simp_all [workerPhase, isStarting, isBeforeInvoke]
    exact h (hi.invoked.before hbefore).1
  refine ⟨?_, by rw [hreturned]; rfl⟩
  rw [hi.tracked.starts, hever, hstarting]
  decide

theorem isInvoked_phaseOf (hi : TaskInvariant τ) :
    (phaseOf τ).isInvoked = (τ.invocations != 0) := by
  by_cases hzero : τ.invocations = 0
  · have hworker : τ.worker ≠ .executing := by
      intro hw
      have hone := (hi.invoked.executing hw).1
      omega
    unfold phaseOf
    split
    · simp [Phase.isInvoked, hzero]
    · simp [Phase.isInvoked, hzero]
    · simp only [acceptedPhase, hzero, hworker, if_true, if_false]
      split <;> split <;> rfl
  · obtain ⟨hstarts, hanswer⟩ := starts_of_invocations hi hzero
    rw [phaseOf_of_accepted hanswer]
    simp only [acceptedPhase, hzero, hstarts, if_false]
    split
    · split <;> simp [Phase.isInvoked, hzero]
    · rfl

theorem invoked_executorOf (hi : TaskInvariant τ) (hτ : s.tasks[t]? = some τ) :
    invoked t (executorOf s) = τ.invocations := by
  have hphase : (executorOf s).phases[t]? = some (phaseOf τ) := by
    simp [executorOf, hτ]
  have honce := hi.invoked.once
  show ((executorOf s).phases[t]?).elim 0 (weight Phase.isInvoked) = τ.invocations
  rw [hphase]
  show weight Phase.isInvoked (phaseOf τ) = τ.invocations
  rw [weight, isInvoked_phaseOf hi]
  split
  · rename_i hinvoked
    have hne : τ.invocations ≠ 0 := by simpa using hinvoked
    omega
  · rename_i hinvoked
    have hzero : τ.invocations = 0 := by simpa using hinvoked
    omega

theorem phaseOf_executing (hi : TaskInvariant τ) (hw : τ.worker = .executing) :
    phaseOf τ = .executing := by
  obtain ⟨hnil, hstarts⟩ :=
    running_of_isCountedRunning (isUnfinished_of_running hi (by rw [hw]; rfl))
  have hanswer := (starts_of_invocations hi (by rw [(hi.invoked.executing hw).1]; decide)).2
  rw [phaseOf_of_accepted hanswer]
  simp [acceptedPhase, hnil, hstarts, hw]

/-- The callables that are executed in a state. -/
def executingTasks (s : ServiceState) : Nat := s.tasks.countP fun τ => τ.worker == .executing

theorem executingTasks_le (h : (service taskCapacity).Reachable s) :
    executingTasks s ≤ (executorOf s).phases.count .executing := by
  show s.tasks.countP _ ≤ (s.tasks.map phaseOf).countP (· == .executing)
  rw [List.countP_map]
  refine List.countP_mono_left fun τ hτ hw => ?_
  have hi := taskInvariant_of_reachable h τ hτ
  rw [Function.comp_apply, phaseOf_executing hi (eq_of_beq hw)]
  rfl

theorem counts_executorOf (h : (service taskCapacity).Reachable s) :
    s.shared.taskCounts.queued = (executorOf s).phases.count .queued ∧
      s.shared.taskCounts.running = (executorOf s).phases.countP Phase.isRunning := by
  have hc := conserved_of_reachable h
  constructor
  · show _ = (s.tasks.map phaseOf).countP (· == .queued)
    rw [hc.queued, List.countP_map]
    exact List.countP_congr fun τ _ => by simp [← isRunning_phaseOf.2]
  · show _ = (s.tasks.map phaseOf).countP Phase.isRunning
    rw [hc.running, List.countP_map]
    exact List.countP_congr fun τ _ => by simp [← isRunning_phaseOf.1]

variable {p : ServiceState × List Event}

/-- The blocking service is a bounded executor. Its log is a run of the abstract
one, which its counts describe; at most `task_capacity` callables are executed at
once, and each as often as the log says; and nothing is heard any more of a task
that has been refused, withdrawn or finished. -/
theorem blocking_is_bounded_executor
    (h : (logging (service taskCapacity) executionEvents).Reachable p) :
    (boundedExecutor taskCapacity.get).execute p.2 {} = some (executorOf p.1) ∧
      p.1.shared.taskCounts.queued = (executorOf p.1).phases.count .queued ∧
      p.1.shared.taskCounts.running = (executorOf p.1).phases.countP Phase.isRunning ∧
      executingTasks p.1 ≤ p.1.shared.taskCounts.running ∧
      p.1.shared.taskCounts.running ≤ taskCapacity.get ∧
      (∀ (t : TaskId) (τ : Task), p.1.tasks[t]? = some τ →
        τ.invocations = p.2.count (.enter t .executing)) ∧
      ∀ (t : TaskId) (phase : Phase), (executorOf p.1).phases[t]? = some phase →
        phase.isFinal = true → ∀ p', (logging (service taskCapacity) executionEvents).Run p p' →
          (executorOf p'.1).phases[t]? = some phase ∧
            ∃ events, p'.2 = p.2 ++ events ∧ ∀ e ∈ events, e.isAbout t = false := by
  have hs := reachable_of_logging h
  have hexecute := (blocking_refines taskCapacity).execute h
  obtain ⟨hqueued, hrunning⟩ := counts_executorOf hs
  obtain ⟨hexecuting, hbounded⟩ := executing_le (Reachable.of_execute hexecute)
  refine ⟨hexecute, hqueued, hrunning, ?_, ?_, fun t τ hτ => ?_, ?_⟩
  · rw [hrunning]
    exact (executingTasks_le hs).trans hexecuting
  · rw [hrunning]
    exact hbounded
  · have hcount := invoked_execute (t := t) hexecute
    rw [invoked_executorOf (taskInvariant_of_reachable hs τ (mem_of_getElem? hτ)) hτ] at hcount
    exact hcount.trans (Nat.zero_add _)
  · intro t phase hphase hfinal p' hrun
    obtain ⟨events, hlog⟩ := prefix_of_run hrun
    have hexecute' := (blocking_refines taskCapacity).execute (Reachable.run h hrun)
    rw [← hlog, execute_append, hexecute] at hexecute'
    obtain ⟨hphase', hall⟩ := final_execute hexecute' hphase hfinal
    exact ⟨hphase', events, hlog.symm, hall⟩

end

/-- A callable fills the service and a runnable is refused, for good. -/
theorem blocking_is_bounded_executor_full : ∃ p,
    (logging (service oneSlot) executionEvents).execute
      (.callSubmit .callable :: submission 0 ++ .callSubmit .runnable ::
        List.replicate 6 (.submitter 1 false) ++ execution 0 .ok)
        ((service oneSlot).start, []) = some p ∧
    p.2 = [.call, .enter 0 .queued, .call, .enter 1 (.refused .saturated), .enter 0 .started,
      .enter 0 .executing, .enter 0 .executed, .enter 0 (.finished true)] ∧
    ∀ p', (logging (service oneSlot) executionEvents).Run p p' →
      ∃ events, p'.2 = p.2 ++ events ∧ ∀ e ∈ events, e.isAbout 1 = false := by
  have hexecute : ((logging (service oneSlot) executionEvents).execute
      (.callSubmit .callable :: submission 0 ++ .callSubmit .runnable ::
        List.replicate 6 (.submitter 1 false) ++ execution 0 .ok)
        ((service oneSlot).start, [])).map (fun p => (p.2, (executorOf p.1).phases)) =
      some ([.call, .enter 0 .queued, .call, .enter 1 (.refused .saturated), .enter 0 .started,
        .enter 0 .executing, .enter 0 .executed, .enter 0 (.finished true)],
        [.finished true, .refused .saturated]) := by decide
  obtain ⟨p, hp, hview⟩ := Option.map_eq_some_iff.mp hexecute
  obtain ⟨hlog, hphases⟩ := Prod.mk.inj hview
  obtain ⟨_, _, _, _, _, _, hfinal⟩ := blocking_is_bounded_executor (Reachable.of_execute hp)
  refine ⟨p, hp, hlog, fun p' hrun => ?_⟩
  exact (hfinal 1 (.refused .saturated) (by rw [hphases]; rfl) rfl p' hrun).2

end TokioExecutorProofs.BlockingExecution
