import TokioExecutorProofs.IoLocks

/-!
The count of the IO service: `active_tasks` is the number of accepted tasks whose
guard has not given its place back, and a guard does so after its future is gone.
-/

namespace TokioExecutorProofs.IoAccounting

open ServiceBasics
open IoServiceState
open IoServiceState.TokioIoExecutorServiceState
open ExecutorServiceLifecycleBits
open ExecutorServiceLifecycleBits.ExecutorServiceLifecycle
open IoTask
open IoService
open IoTaskInvariants
open IoActivities
open IoLocks
open MutexTables
open ProcessFamilies
open TransitionSystems

/-- Accepted, and the guard has not performed its decrement. -/
def isActive (τ : Task) : Bool := isAccepted τ.submitter && τ.decrements == 0

/-- What a step of one task does to the count. -/
inductive CountMove (g : TokioIoExecutorServiceState) (τ : Task) :
    TokioIoExecutorServiceState → Task → Prop
  | keep {g' : TokioIoExecutorServiceState} {τ' : Task}
      (hcount : g'.activeTasks = g.activeTasks) (hactive : isActive τ' = isActive τ)
      (hinc : τ'.submitter = .inc → τ.submitter = .inc ∨ g.isSaturated = false) :
      CountMove g τ g' τ'
  | accept {g' : TokioIoExecutorServiceState} {τ' : Task} (hinc : τ.submitter = .inc)
      (hcount : g'.activeTasks = g.activeTasks + 1)
      (hbefore : isActive τ = false) (hafter : isActive τ' = true)
      (hspawn : τ'.submitter = .spawn) : CountMove g τ g' τ'
  | release {g' : TokioIoExecutorServiceState} {τ' : Task}
      (hcount : g'.activeTasks = g.activeTasks - 1) (hbefore : isActive τ = true)
      (hafter : isActive τ' = false) (hinc : τ'.submitter ≠ .inc) : CountMove g τ g' τ'

section

variable {t : TaskId} {g g' : TokioIoExecutorServiceState} {τ τ' : Task} {a : Actor}

theorem guardStep_shared {d : GuardPc} {next : Option GuardPc}
    (h : guardStep a g τ d = some (g', τ', next)) :
    g'.lifecycle = g.lifecycle ∧ g'.taskCapacity = g.taskCapacity ∧
      g'.activeTasks = if d = .dec then g.activeTasks - 1 else g.activeTasks := by
  cases d <;> simp only [guardStep] at h
  case lock =>
    simp only [map_acquire_eq_some, Prod.mk.injEq] at h
    obtain ⟨_, rfl, _⟩ := h
    exact ⟨rfl, rfl, rfl⟩
  all_goals
    simp only [Option.some.injEq, Prod.mk.injEq] at h
    obtain ⟨rfl, _⟩ := h
    exact ⟨rfl, rfl, rfl⟩

theorem taskStep_shared {b : Action} (h : TaskStep t g τ b g' τ') :
    g'.lifecycle = g.lifecycle ∧ g'.taskCapacity = g.taskCapacity := by
  cases h with
  | submitter h =>
      cases hs : τ.submitter <;> simp only [submitterStep, hs] at h
      case dropGuard d | abandonGuard d =>
        simp only [Option.map_eq_some_iff, Prod.mk.injEq, Prod.exists] at h
        obtain ⟨_, _, _, hstep, rfl, rfl⟩ := h
        exact ⟨(guardStep_shared hstep).1, (guardStep_shared hstep).2.1⟩
      all_goals grind -linarith [acceptTask, TokioIoExecutorServiceState.release]
  | worker h =>
      cases hs : τ.worker <;> simp only [workerStep, hs] at h
      case dropGuard d =>
        simp only [Option.map_eq_some_iff, Prod.mk.injEq, Prod.exists] at h
        obtain ⟨_, _, _, hstep, rfl, rfl⟩ := h
        exact ⟨(guardStep_shared hstep).1, (guardStep_shared hstep).2.1⟩
      all_goals grind -linarith
  | _ => exact ⟨rfl, rfl⟩

theorem countMove_of_guardStep {d : GuardPc} {next : Option GuardPc} (hi : TaskInvariant τ)
    (hd : stage τ = .droppingGuard d) (hacc : isAccepted τ.submitter = true)
    (h : guardStep a g τ d = some (g', τ', next)) {s : SubmitterPc} {w : WorkerPc}
    (hs : isAccepted s = true) :
    CountMove g τ g' { τ' with submitter := s, worker := w } := by
  obtain ⟨_, _, hcount⟩ := guardStep_shared h
  obtain ⟨marker, e, n, rfl, hmove⟩ := guardMove_of_step h
  have hdecrements := hi.decrements
  rw [hd] at hdecrements
  have hne : s ≠ .inc := by rintro rfl; cases hs
  by_cases hdec : d = .dec
  · subst d
    have hzero : τ.decrements = 0 := hdecrements
    refine .release (by simpa using hcount) (by simp [isActive, hacc, hzero]) ?_ hne
    simp [isActive, hmove.decrements, hzero]
  · refine .keep (by simpa [hdec] using hcount) ?_ fun h => absurd h hne
    simp [isActive, hacc, hs, hmove.decrements, hdec]

theorem countMove_of_payloadMove (hi : TaskInvariant τ) (h : PayloadMove a g τ g' τ') :
    CountMove g τ g' τ' := by
  cases h with
  | go hlocks _ _ _ haccepted hinc =>
      obtain ⟨_, rfl⟩ := hlocks
      exact .keep rfl (by simp [isActive, haccepted]) hinc
  | accept hs =>
      have hdecrements := hi.decrements
      rw [stage, hs] at hdecrements
      exact .accept hs rfl (by simp [isActive, hs, isAccepted])
        (by simp [isActive, isAccepted, hdecrements, submitterPhase, stageOf,
          PayloadStage.isReleased]) rfl
  | register hs | abandonSender hs =>
      exact .keep rfl (by simp [isActive, hs, isAccepted]) (by simp)
  | dropFuture _ _ _ _ haccepted hinc =>
      exact .keep rfl (by simp [isActive, haccepted]) fun h => .inl (hinc h)
  | guard hd hstep _ _ _ haccepted =>
      exact countMove_of_guardStep hi hd haccepted.1 hstep haccepted.2

theorem countMove_of_taskStep {b : Action} (hi : TaskInvariant τ)
    (h : TaskStep t g τ b g' τ') : CountMove g τ g' τ' := by
  rcases taskMove_of_taskStep hi h with ⟨_, hmove⟩ |
    ⟨rfl, ⟨_, _, _, rfl⟩ | ⟨_, _, _, rfl⟩ | ⟨_, _, _, rfl⟩⟩
  · exact countMove_of_payloadMove hi hmove
  · exact .keep rfl rfl .inl
  · exact .keep rfl rfl .inl
  · exact .keep rfl rfl .inl

end

/-! ### Over whole runs -/

section

variable {taskCapacity : NonZeroUsize} {s s' : ServiceState} {a : Action}

structure Conserved (taskCapacity : NonZeroUsize) (s : ServiceState) : Prop where
  capacity : s.shared.taskCapacity = taskCapacity
  active : s.shared.activeTasks = s.tasks.countP isActive
  bounded : s.shared.activeTasks ≤ taskCapacity.get
  /-- The check still holds at the increment: only releases can come in between. -/
  room : ∀ τ ∈ s.tasks, τ.submitter = .inc → s.shared.activeTasks < taskCapacity.get

theorem closerStep_counts {k : Nat} {g g' : TokioIoExecutorServiceState} {c c' : Closer}
    (h : closerStep k g c = some (g', c')) :
    g'.activeTasks = g.activeTasks ∧ g'.taskCapacity = g.taskCapacity := by
  cases hpc : c.pc <;> simp only [closerStep, hpc] at h
  case take | sweep | returned => cases h
  case store =>
    split at h <;> simp only [Option.some.injEq, Prod.mk.injEq] at h <;> rw [← h.1] <;>
      exact ⟨rfl, rfl⟩
  case lockSubmission | takeLock =>
    simp only [map_acquire_eq_some, Prod.mk.injEq] at h
    rw [← h.2.1]
    exact ⟨rfl, rfl⟩
  all_goals
    simp only [Option.some.injEq, Prod.mk.injEq] at h
    rw [← h.1]
    exact ⟨rfl, rfl⟩

/-- Two submissions cannot be between the capacity check and the increment. -/
theorem eq_of_inc (h : (service taskCapacity).Reachable s) {t t' : TaskId} {τ τ' : Task}
    (hτ : s.tasks[t]? = some τ) (hτ' : s.tasks[t']? = some τ') (hinc : τ.submitter = .inc)
    (hinc' : τ'.submitter = .inc) : t = t' := by
  have hholds : holds s (.submitter t) .submission := ⟨t, τ, hτ, rfl, by rw [hinc]; rfl⟩
  have hholds' : holds s (.submitter t') .submission := ⟨t', τ', hτ', rfl, by rw [hinc']; rfl⟩
  exact Actor.submitter.inj ((respects_of_reachable h).unique hholds hholds')

theorem Conserved.taskStep {t : TaskId} {τ τ' : Task} {g' : TokioIoExecutorServiceState}
    (hs : (service taskCapacity).Reachable s) (hc : Conserved taskCapacity s)
    (hτ : s.tasks[t]? = some τ) (hstep : TaskStep t s.shared τ a g' τ')
    (hs' : s'.shared = g' ∧ s'.tasks = s.tasks.set t τ') : Conserved taskCapacity s' := by
  have hmem := mem_of_getElem? hτ
  have hi := taskInvariant_of_reachable hs τ hmem
  have hcapacity := (taskStep_shared hstep).2
  have hcount := countP_set_add isActive hτ (y := τ')
  have hactive := hc.active
  have hbounded := hc.bounded
  have hroom := hc.room
  obtain ⟨rfl, htasks⟩ := hs'
  cases countMove_of_taskStep hi hstep with
  | keep hsame heq hinc =>
      simp only [weight, heq] at hcount
      refine ⟨hcapacity.trans hc.capacity, by rw [htasks]; omega, hsame ▸ hbounded, ?_⟩
      rw [htasks, hsame]
      refine forall_mem_set hroom fun hpc => ?_
      rcases hinc hpc with hpc | hfree
      · exact hroom τ hmem hpc
      · exact hc.capacity ▸ isSaturated_eq_false.mp hfree
  | accept hinc hsame hbefore hafter hspawn =>
      rw [weight_of_true hafter, weight_of_false hbefore] at hcount
      have hfree := hroom τ hmem hinc
      refine ⟨hcapacity.trans hc.capacity, by rw [htasks]; omega, by omega, ?_⟩
      intro τ₁ hτ₁ hpc
      rw [htasks] at hτ₁
      obtain ⟨t₁, ht₁⟩ := List.mem_iff_getElem?.mp hτ₁
      rcases getElem?_set_cases ht₁ with ⟨rfl, rfl⟩ | ⟨hne, ht₁⟩
      · rw [hspawn] at hpc
        cases hpc
      · exact absurd (eq_of_inc hs ht₁ hτ hpc hinc) hne
  | release hsame hbefore hafter hne =>
      rw [weight_of_true hbefore, weight_of_false hafter] at hcount
      refine ⟨hcapacity.trans hc.capacity, by rw [htasks]; omega, by omega, ?_⟩
      rw [htasks]
      refine forall_mem_set (fun τ₁ hτ₁ hpc => ?_) fun hpc => absurd hpc hne
      have := hroom τ₁ hτ₁ hpc
      omega

theorem takeEntry_frame (k : Nat) (τ : Task) :
    (takeEntry k τ).submitter = τ.submitter ∧ (takeEntry k τ).worker = τ.worker ∧
      (takeEntry k τ).decrements = τ.decrements ∧
      (takeEntry k τ).futureDropped = τ.futureDropped := by
  unfold takeEntry
  split <;> exact ⟨rfl, rfl, rfl, rfl⟩

theorem isActive_takeEntry {k : Nat} {τ : Task} : isActive (takeEntry k τ) = isActive τ := by
  obtain ⟨hsubmitter, _, hdecrements, _⟩ := takeEntry_frame k τ
  rw [isActive, hsubmitter, hdecrements, isActive]

theorem Conserved.keep (hc : Conserved taskCapacity s)
    (hcount : s'.shared.activeTasks = s.shared.activeTasks)
    (hcapacity : s'.shared.taskCapacity = s.shared.taskCapacity)
    (hactive : s'.tasks.countP isActive = s.tasks.countP isActive)
    (hroom : (∃ τ ∈ s'.tasks, τ.submitter = .inc) → ∃ τ ∈ s.tasks, τ.submitter = .inc) :
    Conserved taskCapacity s' := by
  refine ⟨hcapacity.trans hc.capacity, ?_, hcount ▸ hc.bounded, fun τ hτ hpc => ?_⟩
  · rw [hcount, hactive, hc.active]
  · obtain ⟨τ₀, hτ₀, hpc₀⟩ := hroom ⟨τ, hτ, hpc⟩
    exact hcount ▸ hc.room τ₀ hτ₀ hpc₀

theorem conserved_of_reachable (h : (service taskCapacity).Reachable s) :
    Conserved taskCapacity s := by
  refine Reachable.invariant (P := Conserved taskCapacity) h ?_ ?_
  · exact ⟨rfl, by simp [service], by simp [service], by simp [service]⟩
  intro s a s' hs ih hnext
  cases effect_of_step hnext with
  | newTask =>
      refine ih.keep rfl rfl ?_ ?_
      · rw [countP_append_singleton]
        rfl
      · simp
  | newCloser | newWaiter | waiter | endSweep => exact ih.keep rfl rfl rfl id
  | task hτ hstep => exact ih.taskStep hs hτ hstep ⟨rfl, rfl⟩
  | sweepNext _ _ _ hτ h => exact ih.taskStep hs hτ (.sweepNext h) ⟨rfl, rfl⟩
  | sweepAbort _ _ hτ h => exact ih.taskStep hs hτ (.sweepAbort h) ⟨rfl, rfl⟩
  | take =>
      refine ih.keep rfl rfl (countP_map_of_eq fun τ _ => isActive_takeEntry) ?_
      rintro ⟨_, hτ', hpc⟩
      obtain ⟨τ, hτ, rfl⟩ := List.mem_map.mp hτ'
      exact ⟨τ, hτ, (takeEntry_frame _ τ).1 ▸ hpc⟩
  | closer _ hstep =>
      obtain ⟨hcount, hcapacity⟩ := closerStep_counts hstep
      exact ih.keep hcount hcapacity rfl id

/-- The guard is about to give the place back. -/
def isDecrementing (τ : Task) : Bool :=
  τ.submitter == .dropGuard .dec || τ.submitter == .abandonGuard .dec ||
    τ.worker == .dropGuard .dec

theorem stage_of_isDecrementing {τ : Task} (hi : TaskInvariant τ)
    (h : isDecrementing τ = true) :
    stage τ = .droppingGuard .dec ∧ isAccepted τ.submitter = true := by
  have hplaced := hi.placed
  simp only [isDecrementing, Bool.or_eq_true, beq_iff_eq] at h
  rcases h with (h | h) | h
  · simp [stage, h, submitterPhase, stageOf, isAccepted]
  · simp [stage, h, submitterPhase, stageOf, isAccepted]
  · rw [h] at hplaced
    have hpc := submitterPhase_eq_returned.mp (returned_of_placed hplaced (.inr ⟨_, rfl⟩)).1
    simp [stage, h, hpc, submitterPhase, stageOf, workerPhase, workerStage, isAccepted]

theorem isActive_of_isDecrementing {τ : Task} (hi : TaskInvariant τ)
    (h : isDecrementing τ = true) : isActive τ = true := by
  obtain ⟨hstage, hacc⟩ := stage_of_isDecrementing hi h
  have hdecrements := hi.decrements
  rw [hstage] at hdecrements
  have hzero : τ.decrements = 0 := hdecrements
  simp [isActive, hacc, hzero]

theorem futureDropped_of_decrements {τ : Task} (hi : TaskInvariant τ) (h : τ.decrements ≠ 0) :
    τ.decrements = 1 ∧ τ.futureDropped = true := by
  have hdecrements := hi.decrements
  have hfuture := hi.future
  cases hstage : stage τ <;> simp_all [PayloadStage.isReleased, PayloadStage.isWhole]

theorem futureDropped_of_not_isActive {τ : Task} (hi : TaskInvariant τ)
    (hacc : isAccepted τ.submitter = true) (h : isActive τ = false) : τ.futureDropped = true := by
  refine (futureDropped_of_decrements hi fun hzero => ?_).2
  simp [isActive, hacc, hzero] at h

end

end TokioExecutorProofs.IoAccounting
