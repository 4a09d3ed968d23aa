import TokioExecutorProofs.BlockingLocks
import TokioExecutorProofs.LifecycleViews

/-!
The lifecycle of the blocking service over whole runs: it only moves forward,
nobody is admitted after it has left running, and a terminated service stays
terminated.
-/

namespace TokioExecutorProofs.BlockingTermination

open ServiceBasics
open BlockingServiceState
open BlockingServiceState.TokioExecutorServiceState
open ExecutorServiceLifecycleBits
open ExecutorServiceLifecycleBits.ExecutorServiceLifecycle
open BlockingTask
open BlockingService
open BlockingTaskPlacement
open BlockingTaskInvariants
open BlockingTaskEffects
open BlockingAccounting
open BlockingSweeps
open BlockingLocks
open LifecycleViews
open MutexTables
open ProcessFamilies
open TransitionSystems

/-! ### The stored lifecycle -/

section

variable {t : TaskId} {g g' : TokioExecutorServiceState} {τ τ' : Task}

theorem sharedMove_lifecycle (h : SharedMove g τ g' τ') : g'.lifecycle = g.lifecycle := by
  cases h with
  | locks | accept | start => rfl
  | @finish _ _ _ f _ _ _ _ hstep =>
      cases f <;> simp only [finishTaskStep] at hstep
      case lock =>
        simp only [map_acquire_eq_some, Prod.mk.injEq] at hstep
        obtain ⟨_, rfl, _⟩ := hstep
        rfl
      all_goals
        simp only [Option.some.injEq, Prod.mk.injEq] at hstep
        obtain ⟨rfl, _⟩ := hstep
        rfl

theorem closerStep_lifecycle {k : Nat} {c c' : Closer} (h : closerStep k g c = some (g', c')) :
    g'.lifecycle = g.lifecycle ∨
      c.pc = .store ∧ (g'.lifecycle = ExecutorServiceLifecycleBits.shutdown g.lifecycle ∨
        g'.lifecycle = ExecutorServiceLifecycleBits.stop g.lifecycle) := by
  cases hpc : c.pc <;> simp only [closerStep, hpc] at h
  case store =>
    split at h <;> simp only [Option.some.injEq, Prod.mk.injEq] at h <;>
      obtain ⟨rfl, _⟩ := h
    · exact .inr ⟨rfl, .inl rfl⟩
    · exact .inr ⟨rfl, .inr rfl⟩
  case take | sweep | returned => cases h
  case lockSubmission | snapshotLock | takeLock | readLock =>
    simp only [map_acquire_eq_some, Prod.mk.injEq] at h
    rw [← h.2.1]
    exact .inl rfl
  all_goals
    simp only [Option.some.injEq, Prod.mk.injEq] at h
    rw [← h.1]
    exact .inl rfl

end

section

variable {taskCapacity : NonZeroUsize} {s s' : ServiceState} {a : Action}

theorem lifecycle_of_step (hs : (service taskCapacity).Reachable s)
    (h : (service taskCapacity).step a s = some s') :
    s'.shared.lifecycle = s.shared.lifecycle ∨
      (∃ (k : Nat) (c : Closer), s.closers[k]? = some c ∧ c.pc = .store) ∧ s'.tasks = s.tasks ∧
        (s'.shared.lifecycle = ExecutorServiceLifecycleBits.shutdown s.shared.lifecycle ∨
          s'.shared.lifecycle = ExecutorServiceLifecycleBits.stop s.shared.lifecycle) := by
  have hi := taskInvariant_of_reachable hs
  cases effect_of_step h with
  | newTask | newCloser | newWaiter | sweepNext | finishSweep | take | endSweep => exact .inl rfl
  | task hτ hstep =>
      exact .inl (sharedMove_lifecycle (sharedMove_of_taskStep (hi _ (mem_of_getElem? hτ)) hstep))
  | closer hc hstep =>
      exact (closerStep_lifecycle hstep).imp_right fun ⟨hpc, hmove⟩ => ⟨⟨_, _, hc, hpc⟩, rfl, hmove⟩
  | waiter _ hstep =>
      obtain ⟨_, heq⟩ := waiterStep_locks hstep
      exact .inl (by rw [heq])

def lifecycleView (taskCapacity : NonZeroUsize) : LifecycleView (service taskCapacity) where
  stored s := s.shared.lifecycle
  running := rfl
  storedMove hs hstep := by
    rcases lifecycle_of_step hs hstep with heq | ⟨_, _, heq | heq⟩ <;> rw [heq] <;> constructor

/-! ### Admission -/

/-- Inside the admission section, past the lifecycle check. -/
@[grind] def SubmitterPc.isAdmitted : SubmitterPc → Bool
  | .acceptLock | .accept | .acceptUnlock _ | .shareSlot | .spawn | .registerLock | .register
  | .registerUnlock _ | .dropHook | .wakeDropped | .unlockSubmission => true
  | .lockSubmission | .checkRunning | .rejectUnlock _ | .rejected _ | .send | .dropClosure _
  | .dropGuard _ | .returned => false

theorem holds_of_isAdmitted {pc : SubmitterPc} (h : SubmitterPc.isAdmitted pc = true) :
    SubmitterPc.holds pc .submission = true := by
  cases pc <;> first | rfl | cases h

theorem isAdmitted_of_submitterStep {t : TaskId} {runtimeClosed : Bool}
    {g g' : TokioExecutorServiceState} {τ τ' : Task}
    (h : submitterStep t runtimeClosed g τ = some (g', τ'))
    (hadmitted : SubmitterPc.isAdmitted τ'.submitter = true) :
    SubmitterPc.isAdmitted τ.submitter = true ∨ g.isNotRunning = false := by
  cases hs : τ.submitter <;> simp only [submitterStep, hs] at h
  case checkRunning => grind -linarith
  case dropClosure c =>
    rcases hc : closureStep τ c with ⟨τ₁, next⟩
    simp only [Option.some.injEq, Prod.mk.injEq, hc] at h
    rw [← h.2] at hadmitted
    grind -linarith
  case dropGuard d =>
    simp only [Option.map_eq_some_iff, Prod.mk.injEq, Prod.exists] at h
    obtain ⟨_, _, next, _, _, rfl⟩ := h
    grind -linarith
  all_goals grind -linarith

/-- The store of a closing call happens under the submission lock. -/
def admissionGate (taskCapacity : NonZeroUsize) : AdmissionGate (service taskCapacity) Task where
  toLifecycleView := lifecycleView taskCapacity
  tasks s := s.tasks
  isAdmitted τ := SubmitterPc.isAdmitted τ.submitter
  noTask := rfl
  admissionMove := by
    intro s a s' hs hstep
    rcases lifecycle_of_step hs hstep with heq | ⟨⟨k, c, hc, hpc⟩, htasks, _⟩
    · refine .inl ⟨heq, (taskFamilyMove_of_step hstep).mono ?_ ?_⟩
      · rintro _ ⟨kind, rfl⟩
        rfl
      · rintro τ τ' _ (⟨t, hτstep⟩ | ⟨k, rfl⟩) hadmitted
        · rcases (taskStep_frame hτstep).2.1 with hsame | ⟨_, _, hsubmit⟩
          · exact .inl (hsame ▸ hadmitted)
          · refine (isAdmitted_of_submitterStep hsubmit hadmitted).imp_right fun hopen => ?_
            have hrunning : load s.shared.lifecycle = running := by
              simpa [isNotRunning] using hopen
            exact hrunning
        · unfold takeEntry at hadmitted
          split at hadmitted <;> exact .inl hadmitted
    · refine .inr fun τ hτ => ?_
      by_contra hadmitted
      rw [htasks] at hτ
      obtain ⟨t, ht⟩ := List.mem_iff_getElem?.mp hτ
      have hsubmitter : holds s (.submitter t) .submission :=
        ⟨t, τ, ht, rfl, holds_of_isAdmitted (by simpa using hadmitted)⟩
      have hcloser : holds s (.closer k) .submission := ⟨c, hc, .inl (by rw [hpc]; rfl)⟩
      cases (respects_of_reachable hs).unique hsubmitter hcloser

/-! ### A terminated service -/

theorem isUnfinished_of_running {τ : Task} (hi : TaskInvariant τ)
    (h : workerPhase τ.worker = .running) : isCountedRunning τ = true := by
  have hever : τ.everRunning = true := hi.tracked.ran true (by rw [h]; rfl)
  have hreturned := hi.tracked.returned hever
  have hstate : τ.taskState = .running := by
    apply hi.tracked.running hever
    simp only [guardStage, hreturned, h]
    rfl
  have hcons := hi.tracked.conserved
  rw [hstate, if_neg (by decide)] at hcons
  have hnil : τ.finishes = [] := List.eq_nil_of_length_eq_zero (by omega)
  have hone : τ.starts = 1 := by
    rw [hi.tracked.starts, hever, h]
    rfl
  simp [isCountedRunning, isUnfinished, hreturned, hnil, hone, isAccepted]

/-- After `before`, nobody has been accepted and no callable has been invoked. -/
structure Quiet (before after : ServiceState) : Prop where
  closed : load after.shared.lifecycle ≠ running
  finished : ∀ τ ∈ after.tasks, isUnfinished τ = false
  kept : ∀ (t : TaskId) (τ' : Task), after.tasks[t]? = some τ' → isAccepted τ'.submitter = true →
    ∃ τ : Task, before.tasks[t]? = some τ ∧ isAccepted τ.submitter = true ∧
      τ'.invocations = τ.invocations

theorem quiet_taskStep {t : TaskId} {g g' : TokioExecutorServiceState} {τ τ' : Task}
    (hi : TaskInvariant τ) (hadmitted : SubmitterPc.isAdmitted τ.submitter = false)
    (hfinished : isUnfinished τ = false) (h : TaskStep t g τ a g' τ') :
    isUnfinished τ' = false ∧ (isAccepted τ'.submitter = true → isAccepted τ.submitter = true) ∧
      (isAccepted τ'.submitter = true → τ'.invocations = τ.invocations) := by
  have haccepted : isAccepted τ'.submitter = isAccepted τ.submitter ∧
      (τ.finishes ≠ [] → τ'.finishes ≠ []) := by
    cases sharedMove_of_taskStep hi h with
    | locks haccepted _ hfinishes => exact ⟨haccepted, by rw [hfinishes]; exact id⟩
    | accept _ hbefore => simp [hbefore, SubmitterPc.isAdmitted] at hadmitted
    | start _ haccepted _ hfinishes => exact ⟨haccepted, by rw [hfinishes]; exact id⟩
    | finish _ _ haccepted _ hfinishes =>
        refine ⟨haccepted, ?_⟩
        rw [hfinishes]
        split <;> simp
  refine ⟨?_, by rw [haccepted.1]; exact id, fun _ => ?_⟩
  · unfold isUnfinished at hfinished ⊢
    rw [haccepted.1]
    cases hacc : isAccepted τ.submitter with
    | false => rfl
    | true => simpa [hacc] using haccepted.2 (by simpa [hacc] using hfinished)
  · refine (taskStep_frame h).2.2.1.resolve_right fun hinvoke => ?_
    have := isUnfinished_of_running hi (by rw [hinvoke]; rfl)
    simp [isCountedRunning, hfinished] at this

theorem isTerminated_iff_finished (h : (service taskCapacity).Reachable s) :
    s.shared.isTerminated = true ↔
      load s.shared.lifecycle ≠ running ∧ ∀ τ ∈ s.tasks, isUnfinished τ = false := by
  rw [isTerminated_iff, (conserved_of_reachable h).sum, countP_eq_zero_iff]

theorem quiet_of_run (h : (service taskCapacity).Reachable s)
    (hterminated : s.shared.isTerminated = true) (hrun : (service taskCapacity).Run s s') :
    Quiet s s' := by
  have hstart := (isTerminated_iff_finished h).mp hterminated
  refine Run.stable h hrun ⟨hstart.1, hstart.2, fun t τ hτ hacc => ⟨τ, hτ, hacc, rfl⟩⟩ ?_
  intro s₁ a s₂ hs₁ ih hstep
  have hi := taskInvariant_of_reachable hs₁
  have hadmitted : ∀ τ ∈ s₁.tasks, SubmitterPc.isAdmitted τ.submitter = false := by
    intro τ hτ
    by_contra hne
    exact ih.closed ((admissionGate taskCapacity).running_of_isAdmitted hs₁ τ hτ
      (Bool.eq_true_of_not_eq_false hne))
  have hclosed : load s₂.shared.lifecycle ≠ running :=
    (lifecycleView taskCapacity).not_running_of_step hs₁ hstep ih.closed
  rcases (effect_of_step hstep).tasks with
    ⟨kind, -, htasks⟩ | ⟨t, τ, τ', hτ, hτstep, htasks⟩ | ⟨k, -, htasks⟩ | htasks
  · refine ⟨hclosed, by rw [htasks]; exact forall_mem_append ih.finished rfl, ?_⟩
    intro t τ' hτ' hacc
    rw [htasks] at hτ'
    rcases getElem?_append_cases hτ' with hτ' | ⟨_, rfl⟩
    · exact ih.kept t τ' hτ' hacc
    · cases hacc
  · have hmem := mem_of_getElem? hτ
    obtain ⟨hfinished, hacc, hinvocations⟩ :=
      quiet_taskStep (hi τ hmem) (hadmitted τ hmem) (ih.finished τ hmem) hτstep
    refine ⟨hclosed, by rw [htasks]; exact forall_mem_set ih.finished hfinished, ?_⟩
    intro t₁ τ₁ hτ₁ hacc₁
    rw [htasks] at hτ₁
    rcases getElem?_set_cases hτ₁ with ⟨rfl, rfl⟩ | ⟨_, hτ₁⟩
    · obtain ⟨τ₀, hτ₀, hacc₀, heq⟩ := ih.kept t₁ τ hτ (hacc hacc₁)
      exact ⟨τ₀, hτ₀, hacc₀, (hinvocations hacc₁).trans heq⟩
    · exact ih.kept t₁ τ₁ hτ₁ hacc₁
  · have htake : ∀ τ, (takeEntry k τ).submitter = τ.submitter ∧
        (takeEntry k τ).finishes = τ.finishes ∧
        (takeEntry k τ).invocations = τ.invocations := by
      intro τ
      unfold takeEntry
      split <;> exact ⟨rfl, rfl, rfl⟩
    refine ⟨hclosed, ?_, ?_⟩
    · rw [htasks]
      intro τ' hτ'
      obtain ⟨τ, hτ, rfl⟩ := List.mem_map.mp hτ'
      rw [isUnfinished, (htake τ).1, (htake τ).2.1]
      exact ih.finished τ hτ
    · intro t τ' hτ' hacc
      rw [htasks, List.getElem?_map, Option.map_eq_some_iff] at hτ'
      obtain ⟨τ, hτ, rfl⟩ := hτ'
      rw [(htake τ).1] at hacc
      rw [(htake τ).2.2]
      exact ih.kept t τ hτ hacc
  · refine ⟨hclosed, by rw [htasks]; exact ih.finished, ?_⟩
    rw [htasks]
    exact ih.kept

theorem isTerminated_of_run (h : (service taskCapacity).Reachable s)
    (hterminated : s.shared.isTerminated = true) (hrun : (service taskCapacity).Run s s') :
    s'.shared.isTerminated = true := by
  have hquiet := quiet_of_run h hterminated hrun
  exact (isTerminated_iff_finished (Reachable.run h hrun)).mpr ⟨hquiet.closed, hquiet.finished⟩

def terminatingView (taskCapacity : NonZeroUsize) : TerminatingView (service taskCapacity) where
  toLifecycleView := lifecycleView taskCapacity
  isIdle s := s.shared.taskCounts.isEmpty
  isIdle_of_run := by
    intro s s' h hrun hclosed hidle
    rw [TokioExecutorTaskCounts.isEmpty_iff] at hidle ⊢
    have hterminated := isTerminated_of_run h (isTerminated_iff.mpr ⟨hclosed, hidle⟩) hrun
    exact (isTerminated_iff.mp hterminated).2

end

/-! ### `lifecycle()` -/

/-- A `lifecycle()` call: it loads the byte in one state and reads the counts under
their lock in a later one. -/
structure LifecycleCall (taskCapacity : NonZeroUsize) where
  loadedAt : ServiceState
  readAt : ServiceState
  run : (service taskCapacity).Run loadedAt readAt
  free : readAt.shared.locks .taskCounts = none

namespace LifecycleCall

variable {taskCapacity : NonZeroUsize}

def result (call : LifecycleCall taskCapacity) : ExecutorServiceLifecycle :=
  lifecycleOf (load call.loadedAt.shared.lifecycle) call.readAt.shared.taskCounts

theorem isTerminated_readAt {call : LifecycleCall taskCapacity}
    (h : (service taskCapacity).Reachable call.loadedAt) (hresult : call.result = terminated) :
    call.readAt.shared.isTerminated = true := by
  obtain ⟨hclosed, hidle⟩ := (terminatingView taskCapacity).idle_of_answer h call.run hresult
  rw [isTerminated_iff, ← TokioExecutorTaskCounts.isEmpty_iff]
  exact ⟨hclosed, hidle⟩

end LifecycleCall

section

variable {taskCapacity : NonZeroUsize} {call later : LifecycleCall taskCapacity}

theorem result_of_later (h : (service taskCapacity).Reachable call.loadedAt)
    (hresult : call.result = terminated)
    (hrun : (service taskCapacity).Run call.readAt later.loadedAt) : later.result = terminated :=
  (terminatingView taskCapacity).answer_of_later h call.run hrun later.run hresult

theorem result_le_of_later (h : (service taskCapacity).Reachable call.loadedAt)
    (hrun : (service taskCapacity).Run call.readAt later.loadedAt) : call.result ≤ later.result :=
  (terminatingView taskCapacity).answer_le_of_later h call.run hrun later.run

theorem lifecycle_terminated_absorbing (call : LifecycleCall taskCapacity)
    (h : (service taskCapacity).Reachable call.loadedAt) :
    (call.result = terminated → ∀ s, (service taskCapacity).Run call.readAt s →
      (∀ τ ∈ s.tasks, τ.worker ≠ .invoke ∧ τ.worker ≠ .executing) ∧
      (∀ (t : TaskId) (τ : Task), s.tasks[t]? = some τ → isAccepted τ.submitter = true →
        ∃ τ₀ : Task, call.readAt.tasks[t]? = some τ₀ ∧ isAccepted τ₀.submitter = true ∧
          τ.invocations = τ₀.invocations) ∧
      (∀ later : LifecycleCall taskCapacity, later.loadedAt = s →
        later.result = terminated)) ∧
    ∀ later : LifecycleCall taskCapacity,
      (service taskCapacity).Run call.readAt later.loadedAt → call.result ≤ later.result := by
  have hread := Reachable.run h call.run
  constructor
  · intro hresult s hrun
    have hquiet := quiet_of_run hread (LifecycleCall.isTerminated_readAt h hresult) hrun
    have hi := taskInvariant_of_reachable (Reachable.run hread hrun)
    refine ⟨fun τ hτ => ?_, hquiet.kept, fun later hlater => ?_⟩
    · have hnot : workerPhase τ.worker ≠ .running := by
        intro hphase
        have := isUnfinished_of_running (hi τ hτ) hphase
        simp [isCountedRunning, hquiet.finished τ hτ] at this
      constructor <;> intro hw <;> exact hnot (by rw [hw]; rfl)
    · exact result_of_later h hresult (hlater ▸ hrun)
  · exact fun later hrun => result_le_of_later h hrun

end

/-- A callable runs, a shutdown follows, and the service has terminated for good. -/
theorem lifecycle_terminated_absorbing_shutdown :
    ∃ call : LifecycleCall oneSlot, call.result = terminated ∧
      call.readAt.tasks.map (·.invocations) = [1] ∧
      ∀ later : LifecycleCall oneSlot,
        (service oneSlot).Run call.readAt later.loadedAt → later.result = terminated := by
  have hexecute : ((service oneSlot).execute
      (.callSubmit .callable :: submission 0 ++ execution 0 .panicked ++
        .callClose .shutdown :: List.replicate 3 (.closer 0)) (service oneSlot).start).map
        (fun s => (s.tasks.map (·.invocations), load s.shared.lifecycle,
          s.shared.taskCounts, s.shared.locks .taskCounts)) =
      some ([1], shuttingDown, {}, none) := by decide
  obtain ⟨s, hs, hvalues⟩ := Option.map_eq_some_iff.mp hexecute
  simp only [Prod.mk.injEq] at hvalues
  obtain ⟨htasks, hload, hcounts, hfree⟩ := hvalues
  have hresult : lifecycleOf (load s.shared.lifecycle) s.shared.taskCounts = terminated := by
    rw [hload, hcounts]
    rfl
  refine ⟨⟨s, s, runUnder_refl s, hfree⟩, hresult, htasks, fun later hrun => ?_⟩
  have habsorbing := lifecycle_terminated_absorbing ⟨s, s, runUnder_refl s, hfree⟩
    (Reachable.of_execute hs)
  exact (habsorbing.1 hresult later.loadedAt hrun).2.2 later rfl

end TokioExecutorProofs.BlockingTermination
