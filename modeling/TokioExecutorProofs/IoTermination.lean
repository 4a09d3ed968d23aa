import TokioExecutorProofs.IoAccounting
import TokioExecutorProofs.LifecycleViews

/-!
The lifecycle of the IO service over whole runs: it only moves forward, nobody is
admitted after it has left running, and a terminated service stays terminated,
with every accepted future gone.
-/

namespace TokioExecutorProofs.IoTermination

open ServiceBasics
open IoServiceState
open IoServiceState.TokioIoExecutorServiceState
open ExecutorServiceLifecycleBits
open ExecutorServiceLifecycleBits.ExecutorServiceLifecycle
open IoTask
open IoService
open IoTaskInvariants
open IoActivities
open IoLocks
open IoAccounting
open LifecycleViews
open MutexTables
open ProcessFamilies
open TransitionSystems

theorem closerStep_lifecycle {k : Nat} {g g' : TokioIoExecutorServiceState} {c c' : Closer}
    (h : closerStep k g c = some (g', c')) :
    g'.lifecycle = g.lifecycle ∨
      c.pc = .store ∧ (g'.lifecycle = ExecutorServiceLifecycleBits.shutdown g.lifecycle ∨
        g'.lifecycle = ExecutorServiceLifecycleBits.stop g.lifecycle) := by
  cases hpc : c.pc <;> simp only [closerStep, hpc] at h
  case store =>
    split at h <;> simp only [Option.some.injEq, Prod.mk.injEq] at h <;>
      obtain ⟨rfl, _⟩ := h
    · exact .inr ⟨rfl, .inl rfl⟩
    · exact .inr ⟨rfl, .inr rfl⟩
  case take | sweep | returned => cases h
  case lockSubmission | takeLock =>
    simp only [map_acquire_eq_some, Prod.mk.injEq] at h
    rw [← h.2.1]
    exact .inl rfl
  all_goals
    simp only [Option.some.injEq, Prod.mk.injEq] at h
    rw [← h.1]
    exact .inl rfl

section

variable {taskCapacity : NonZeroUsize} {s s' : ServiceState} {a : Action}

theorem lifecycle_of_step (h : (service taskCapacity).step a s = some s') :
    s'.shared.lifecycle = s.shared.lifecycle ∨
      (∃ (k : Nat) (c : Closer), s.closers[k]? = some c ∧ c.pc = .store) ∧ s'.tasks = s.tasks ∧
        (s'.shared.lifecycle = ExecutorServiceLifecycleBits.shutdown s.shared.lifecycle ∨
          s'.shared.lifecycle = ExecutorServiceLifecycleBits.stop s.shared.lifecycle) := by
  cases effect_of_step h with
  | newTask | newCloser | newWaiter | sweepNext | sweepAbort | take | endSweep | waiter =>
      exact .inl rfl
  | task hτ hstep => exact .inl (taskStep_shared hstep).1
  | closer hc hstep =>
      exact (closerStep_lifecycle hstep).imp_right fun ⟨hpc, hmove⟩ => ⟨⟨_, _, hc, hpc⟩, rfl, hmove⟩

def lifecycleView (taskCapacity : NonZeroUsize) : LifecycleView (service taskCapacity) where
  stored s := s.shared.lifecycle
  running := rfl
  storedMove _ hstep := by
    rcases lifecycle_of_step hstep with heq | ⟨_, _, heq | heq⟩ <;> rw [heq] <;> constructor

/-! ### Admission -/

/-- Inside the admission section, past the lifecycle check. -/
@[grind] def SubmitterPc.isAdmitted : SubmitterPc → Bool
  | .getActive | .inc | .spawn | .registerLock | .register | .registerUnlock
  | .unlockSubmission => true
  | .lockSubmission | .checkRunning | .rejectUnlock _ | .rejected _ | .send | .dropFuture
  | .dropGuard _ | .returned | .abandonFuture | .abandonSender | .abandonGuard _
  | .abandoned => false

theorem holds_of_isAdmitted {pc : SubmitterPc} (h : SubmitterPc.isAdmitted pc = true) :
    SubmitterPc.holds pc .submission = true := by
  cases pc <;> first | rfl | cases h

theorem isAdmitted_of_taskStep {t : TaskId} {g g' : TokioIoExecutorServiceState} {τ τ' : Task}
    (h : TaskStep t g τ a g' τ') (hadmitted : SubmitterPc.isAdmitted τ'.submitter = true) :
    SubmitterPc.isAdmitted τ.submitter = true ∨ g.isNotRunning = false := by
  cases h with
  | submitter h =>
      cases hs : τ.submitter <;> simp only [submitterStep, hs] at h
      case dropGuard d | abandonGuard d =>
        simp only [Option.map_eq_some_iff, Prod.mk.injEq, Prod.exists] at h
        obtain ⟨_, _, next, _, _, rfl⟩ := h
        grind -linarith
      all_goals grind -linarith
  | worker h => exact .inl ((workerStep_frame h).1 ▸ hadmitted)
  | abandon h => cases hadmitted
  | _ => exact .inl hadmitted

/-- The store of a closing call happens under the submission lock. -/
def admissionGate (taskCapacity : NonZeroUsize) : AdmissionGate (service taskCapacity) Task where
  toLifecycleView := lifecycleView taskCapacity
  tasks s := s.tasks
  isAdmitted τ := SubmitterPc.isAdmitted τ.submitter
  noTask := rfl
  admissionMove := by
    intro s a s' hs hstep
    rcases lifecycle_of_step hstep with heq | ⟨⟨k, c, hc, hpc⟩, htasks, _⟩
    · refine .inl ⟨heq, (taskFamilyMove_of_step hstep).mono ?_ ?_⟩
      · rintro _ rfl
        rfl
      · rintro τ τ' _ (⟨t, hτstep⟩ | ⟨k, rfl⟩) hadmitted
        · refine (isAdmitted_of_taskStep hτstep hadmitted).imp_right fun hopen => ?_
          have hrunning : load s.shared.lifecycle = running := by
            simpa [isNotRunning] using hopen
          exact hrunning
        · exact .inl ((takeEntry_frame k τ).1 ▸ hadmitted)
    · refine .inr fun τ hτ => ?_
      by_contra hadmitted
      rw [htasks] at hτ
      obtain ⟨t, ht⟩ := List.mem_iff_getElem?.mp hτ
      have hsubmitter : holds s (.submitter t) .submission :=
        ⟨t, τ, ht, rfl, holds_of_isAdmitted (by simpa using hadmitted)⟩
      have hcloser : holds s (.closer k) .submission := ⟨c, hc, by rw [hpc]; rfl⟩
      cases (respects_of_reachable hs).unique hsubmitter hcloser

/-! ### A terminated service -/

/-- After `before`, nobody has been accepted, and no accepted future is left. -/
structure Quiet (before after : ServiceState) : Prop where
  closed : load after.shared.lifecycle ≠ running
  inactive : ∀ τ ∈ after.tasks, isActive τ = false
  kept : ∀ (t : TaskId) (τ' : Task), after.tasks[t]? = some τ' → isAccepted τ'.submitter = true →
    ∃ τ : Task, before.tasks[t]? = some τ ∧ isAccepted τ.submitter = true

theorem isTerminated_iff_inactive (h : (service taskCapacity).Reachable s) :
    s.shared.isTerminated = true ↔
      load s.shared.lifecycle ≠ running ∧ ∀ τ ∈ s.tasks, isActive τ = false := by
  rw [isTerminated_iff, (conserved_of_reachable h).active, countP_eq_zero_iff]

/-- The submission is accepted in the step that counts it, and stays so. -/
theorem isAccepted_of_taskStep {t : TaskId} {g g' : TokioIoExecutorServiceState} {τ τ' : Task}
    (h : TaskStep t g τ a g' τ') :
    isAccepted τ'.submitter = isAccepted τ.submitter ∨ τ.submitter = .inc := by
  cases h with
  | submitter h =>
      cases hs : τ.submitter <;> simp only [submitterStep, hs] at h
      case dropGuard d | abandonGuard d =>
        simp only [Option.map_eq_some_iff, Prod.mk.injEq, Prod.exists] at h
        obtain ⟨_, _, next, _, _, rfl⟩ := h
        grind -linarith
      all_goals grind -linarith
  | worker h => exact .inl (by rw [(workerStep_frame h).1])
  | abandon h => exact .inl (by rw [h]; rfl)
  | _ => exact .inl rfl

theorem quiet_of_run (h : (service taskCapacity).Reachable s)
    (hterminated : s.shared.isTerminated = true) (hrun : (service taskCapacity).Run s s') :
    Quiet s s' := by
  have hstart := (isTerminated_iff_inactive h).mp hterminated
  refine Run.stable h hrun ⟨hstart.1, hstart.2, fun t τ hτ hacc => ⟨τ, hτ, hacc⟩⟩ ?_
  intro s₁ a s₂ hs₁ ih hstep
  have hclosed : load s₂.shared.lifecycle ≠ running :=
    (lifecycleView taskCapacity).not_running_of_step hs₁ hstep ih.closed
  rcases (effect_of_step hstep).tasks with
    ⟨-, htasks⟩ | ⟨t, τ, τ', hτ, hτstep, htasks⟩ | ⟨k, -, htasks⟩ | htasks
  · refine ⟨hclosed, by rw [htasks]; exact forall_mem_append ih.inactive rfl, ?_⟩
    intro t τ' hτ' hacc
    rw [htasks] at hτ'
    rcases getElem?_append_cases hτ' with hτ' | ⟨_, rfl⟩
    · exact ih.kept t τ' hτ' hacc
    · cases hacc
  · have hmem := mem_of_getElem? hτ
    have hne : τ.submitter ≠ .inc := by
      intro hinc
      have hadmitted : SubmitterPc.isAdmitted τ.submitter = true := by rw [hinc]; rfl
      exact ih.closed ((admissionGate taskCapacity).running_of_isAdmitted hs₁ τ hmem hadmitted)
    have hacc := (isAccepted_of_taskStep hτstep).resolve_right hne
    have hinactive : isActive τ' = false := by
      have hτinactive := ih.inactive τ hmem
      cases countMove_of_taskStep (taskInvariant_of_reachable hs₁ τ hmem) hτstep with
      | keep _ heq => rw [heq, hτinactive]
      | accept hinc => exact absurd hinc hne
      | release _ hbefore => simp [hτinactive] at hbefore
    refine ⟨hclosed, by rw [htasks]; exact forall_mem_set ih.inactive hinactive, ?_⟩
    intro t₁ τ₁ hτ₁ hacc₁
    rw [htasks] at hτ₁
    rcases getElem?_set_cases hτ₁ with ⟨rfl, rfl⟩ | ⟨_, hτ₁⟩
    · exact ih.kept t₁ τ hτ (hacc ▸ hacc₁)
    · exact ih.kept t₁ τ₁ hτ₁ hacc₁
  · refine ⟨hclosed, ?_, ?_⟩
    · rw [htasks]
      intro τ' hτ'
      obtain ⟨τ, hτ, rfl⟩ := List.mem_map.mp hτ'
      rw [isActive_takeEntry]
      exact ih.inactive τ hτ
    · intro t τ' hτ' hacc
      rw [htasks, List.getElem?_map, Option.map_eq_some_iff] at hτ'
      obtain ⟨τ, hτ, rfl⟩ := hτ'
      exact ih.kept t τ hτ ((takeEntry_frame k τ).1 ▸ hacc)
  · refine ⟨hclosed, by rw [htasks]; exact ih.inactive, ?_⟩
    rw [htasks]
    exact ih.kept

theorem isTerminated_of_run (h : (service taskCapacity).Reachable s)
    (hterminated : s.shared.isTerminated = true) (hrun : (service taskCapacity).Run s s') :
    s'.shared.isTerminated = true := by
  have hquiet := quiet_of_run h hterminated hrun
  exact (isTerminated_iff_inactive (Reachable.run h hrun)).mpr ⟨hquiet.closed, hquiet.inactive⟩

def terminatingView (taskCapacity : NonZeroUsize) : TerminatingView (service taskCapacity) where
  toLifecycleView := lifecycleView taskCapacity
  isIdle s := s.shared.activeTasks == 0
  isIdle_of_run := by
    intro s s' h hrun hclosed hidle
    rw [beq_iff_eq] at hidle ⊢
    have hterminated := isTerminated_of_run h (isTerminated_iff.mpr ⟨hclosed, hidle⟩) hrun
    exact (isTerminated_iff.mp hterminated).2

end

/-! ### `lifecycle()` -/

/-- A `lifecycle()` call: it loads the byte in one state and reads the count in a
later one. -/
structure LifecycleCall (taskCapacity : NonZeroUsize) where
  loadedAt : ServiceState
  readAt : ServiceState
  run : (service taskCapacity).Run loadedAt readAt

namespace LifecycleCall

variable {taskCapacity : NonZeroUsize}

def result (call : LifecycleCall taskCapacity) : ExecutorServiceLifecycle :=
  lifecycleOf (load call.loadedAt.shared.lifecycle) call.readAt.shared.activeTasks

theorem isTerminated_readAt {call : LifecycleCall taskCapacity}
    (h : (service taskCapacity).Reachable call.loadedAt) (hresult : call.result = terminated) :
    call.readAt.shared.isTerminated = true := by
  obtain ⟨hclosed, hidle⟩ := (terminatingView taskCapacity).idle_of_answer h call.run hresult
  exact isTerminated_iff.mpr ⟨hclosed, beq_iff_eq.mp hidle⟩

end LifecycleCall

section

variable {taskCapacity : NonZeroUsize} {call later : LifecycleCall taskCapacity}

theorem result_of_later (h : (service taskCapacity).Reachable call.loadedAt)
    (hresult : call.result = terminated)
    (hrun : (service taskCapacity).Run call.readAt later.loadedAt) : later.result = terminated :=
  (terminatingView taskCapacity).answer_of_later h call.run hrun later.run hresult

theorem result_le_of_later (h : (service taskCapacity).Reachable call.loadedAt)
    (hrun : (service taskCapacity).Run call.readAt later.loadedAt) : call.result ≤ later.result :=
  (terminatingView taskCapacity).answer_le_of_later h call.run hrun later.run

end

section

variable {taskCapacity : NonZeroUsize} {s : ServiceState}

theorem active_counts_live_futures (h : (service taskCapacity).Reachable s) :
    s.shared.activeTasks = s.tasks.countP isActive ∧
      s.shared.activeTasks ≤ taskCapacity.get ∧
      (∀ τ ∈ s.tasks, (isDecrementing τ = true → 0 < s.shared.activeTasks) ∧
        τ.decrements ≤ 1 ∧
        (isDecrementing τ = true ∨ τ.decrements = 1 → τ.futureDropped = true)) ∧
      ∀ call : LifecycleCall taskCapacity, call.loadedAt = s → call.result = terminated →
        ∀ s', (service taskCapacity).Run call.readAt s' →
          (∀ τ ∈ s'.tasks, isAccepted τ.submitter = true → τ.futureDropped = true) ∧
          (∀ (t : TaskId) (τ : Task), s'.tasks[t]? = some τ → isAccepted τ.submitter = true →
            ∃ τ₀ : Task, call.readAt.tasks[t]? = some τ₀ ∧ isAccepted τ₀.submitter = true) ∧
          ∀ later : LifecycleCall taskCapacity, later.loadedAt = s' →
            later.result = terminated := by
  have hc := conserved_of_reachable h
  have hi := taskInvariant_of_reachable h
  refine ⟨hc.active, hc.bounded, fun τ hτ => ⟨fun hdec => ?_, ?_, ?_⟩, ?_⟩
  · rw [hc.active]
    exact List.countP_pos_iff.mpr ⟨τ, hτ, isActive_of_isDecrementing (hi τ hτ) hdec⟩
  · by_cases hzero : τ.decrements = 0
    · omega
    · exact (futureDropped_of_decrements (hi τ hτ) hzero).1.le
  · rintro (hdec | hone)
    · have hfuture := (hi τ hτ).future
      rw [(stage_of_isDecrementing (hi τ hτ) hdec).1] at hfuture
      exact hfuture
    · exact (futureDropped_of_decrements (hi τ hτ) (by omega)).2
  · rintro call rfl hresult s' hrun
    have hread := Reachable.run h call.run
    have hterminated := LifecycleCall.isTerminated_readAt h hresult
    have hquiet := quiet_of_run hread hterminated hrun
    have hs' := Reachable.run hread hrun
    refine ⟨fun τ hτ hacc => ?_, hquiet.kept, ?_⟩
    · exact futureDropped_of_not_isActive (taskInvariant_of_reachable hs' τ hτ) hacc
        (hquiet.inactive τ hτ)
    · exact fun later hlater => result_of_later h hresult (hlater ▸ hrun)

end

/-- A future panics, a shutdown follows, and the service has terminated for good. -/
theorem active_counts_live_futures_panicked :
    ∃ call : LifecycleCall oneSlot, call.result = terminated ∧
      call.readAt.tasks.map (·.decrements) = [1] ∧
      ∀ s', (service oneSlot).Run call.readAt s' →
        ∀ τ ∈ s'.tasks, isAccepted τ.submitter = true → τ.futureDropped = true := by
  have hexecute : ((service oneSlot).execute
      (.callSpawn :: submission 0 ++ execution 0 .panicked ++
        .callClose .shutdown :: List.replicate 3 (.closer 0)) (service oneSlot).start).map
        (fun s => (s.tasks.map (·.decrements), load s.shared.lifecycle,
          s.shared.activeTasks)) =
      some ([1], shuttingDown, 0) := by decide
  obtain ⟨s, hs, hvalues⟩ := Option.map_eq_some_iff.mp hexecute
  simp only [Prod.mk.injEq] at hvalues
  obtain ⟨htasks, hload, hcount⟩ := hvalues
  have hresult : lifecycleOf (load s.shared.lifecycle) s.shared.activeTasks = terminated := by
    rw [hload, hcount]
    rfl
  refine ⟨⟨s, s, runUnder_refl s⟩, hresult, htasks, fun s' hrun => ?_⟩
  have hcounts := active_counts_live_futures (Reachable.of_execute hs)
  exact (hcounts.2.2.2 ⟨s, s, runUnder_refl s⟩ rfl hresult s' hrun).1

end TokioExecutorProofs.IoTermination
