import TokioExecutorProofs.BlockingTaskEffects

/-!
Conservation of the task counts: `queued` and `running` are the numbers of
tasks that have entered the respective count and not left it.
-/

namespace TokioExecutorProofs.BlockingAccounting

open ServiceBasics
open BlockingServiceState
open BlockingServiceState.TokioExecutorServiceState
open BlockingTask
open BlockingService
open BlockingTaskPlacement
open BlockingTaskRegistry
open BlockingTaskTracking
open BlockingTaskInvariants
open BlockingTaskEffects
open ProcessFamilies
open TransitionSystems

/-- Accepted, and `finish_task` has not been applied. -/
def isUnfinished (τ : Task) : Bool := isAccepted τ.submitter && τ.finishes.isEmpty

def isCountedQueued (τ : Task) : Bool := isUnfinished τ && τ.starts == 0

def isCountedRunning (τ : Task) : Bool := isUnfinished τ && τ.starts != 0

section

variable {g g' : TokioExecutorServiceState} {τ τ' : Task}

theorem isAccepted_of_closed (hi : TaskInvariant τ) (h : τ.entry ≠ .absent) :
    isAccepted τ.submitter = true := by
  have habsent := hi.registry.absent
  cases hs : τ.submitter with
  | acceptUnlock accepted =>
      exact absurd (habsent.mpr (by rw [hs]; rfl)) h
  | lockSubmission | checkRunning | acceptLock | accept | rejectUnlock | rejected =>
      exact absurd (habsent.mpr (by rw [hs]; rfl)) h
  | _ => rfl

/-- The argument of `finish_task` is what the tracker has recorded. -/
theorem started_of_finishAt (hi : TaskInvariant τ) {site : Site} {started : Bool}
    {f : FinishPc} (h : finishAt τ site = some (started, f)) : started = τ.everRunning := by
  rcases finishAt_cases h with ⟨_, hstage⟩ | ⟨_, rfl, k, hentry⟩ | ⟨j, _, rfl, hc⟩
  · exact hi.tracked.guardFlag started (by rw [hstage]; rfl)
  · exact (hi.tracked.entryWon (by rw [hentry]; rfl)).1.symm
  · exact (hi.tracked.cancelWon _ (mem_of_getElem? hc) rfl).1.symm

theorem entry_ne_absent_of_finishAt (hi : TaskInvariant τ) {site : Site}
    {started : Bool} {f : FinishPc} (h : finishAt τ site = some (started, f)) :
    τ.entry ≠ .absent := by
  rcases finishAt_cases h with ⟨_, hstage⟩ | ⟨_, _, k, hentry⟩ | ⟨j, _, _, hc⟩
  · intro habsent
    have hclosed := isOpen_of_guardStage (τ := τ) (by simp [hstage])
    rw [hi.registry.absent.mp habsent] at hclosed
    cases hclosed
  · simp [hentry]
  · have hmem := mem_of_getElem? hc
    exact entry_ne_absent_of_returned hi.registry
      (hi.registry.cancels (List.ne_nil_of_mem hmem)).1

theorem finishes_of_finishAt (hi : TaskInvariant τ) {site : Site} {started : Bool}
    {f : FinishPc} (h : finishAt τ site = some (started, f)) (hf : f.isPending = true) :
    τ.finishes = [] := by
  have hcons := hi.tracked.conserved
  have hpending : 0 < pendingFinishes τ := by
    unfold pendingFinishes
    rcases finishAt_cases h with ⟨_, hstage⟩ | ⟨_, _, k, hentry⟩ | ⟨j, _, _, hc⟩
    · have : GuardStage.isPending (guardStage τ) = true := by rw [hstage]; exact hf
      rw [this, Bool.toNat_true]
      omega
    · have : EntryPc.isPending τ.entry = true := by rw [hentry]; exact hf
      rw [this, Bool.toNat_true]
      omega
    · have := weight_le_countP CancelPc.isPending hc
      rw [weight_of_true (by exact hf)] at this
      omega
  apply List.eq_nil_of_length_eq_zero
  split at hcons <;> omega

theorem starts_of_finishAt (hi : TaskInvariant τ) {site : Site} {started : Bool}
    {f : FinishPc} (h : finishAt τ site = some (started, f)) :
    τ.starts = if started then 1 else 0 := by
  have hstarted := started_of_finishAt hi h
  rw [hi.tracked.starts, ← hstarted]
  cases started with
  | false => rfl
  | true =>
      rcases finishAt_cases h with ⟨_, hstage⟩ | ⟨_, hfalse, _⟩ | ⟨_, _, hfalse, _⟩
      · have hreturned := hi.tracked.returned hstarted.symm
        simp only [guardStage, hreturned, submitterPhase, guardStageOf] at hstage
        have hstarting : isStarting (workerPhase τ.worker) = false := by
          cases hw : workerPhase τ.worker <;> simp_all [workerGuard, isStarting]
        simp [hstarting]
      · cases hfalse
      · cases hfalse

theorem finishes_of_start (hi : TaskInvariant τ) (h : τ.worker = .start) :
    τ.starts = 0 ∧ τ.finishes = [] ∧ isAccepted τ.submitter = true := by
  have hever : τ.everRunning = true := hi.tracked.ran true (by rw [h]; rfl)
  have hreturned := hi.tracked.returned hever
  have hstate : τ.taskState = .running := by
    apply hi.tracked.running hever
    simp only [guardStage, hreturned, h]
    rfl
  have hcons := hi.tracked.conserved
  rw [hstate, if_neg (by decide)] at hcons
  refine ⟨?_, List.eq_nil_of_length_eq_zero (by omega), by rw [hreturned]; rfl⟩
  rw [hi.tracked.starts, h]
  simp [workerPhase, isStarting]

theorem fresh_of_accept (hi : TaskInvariant τ) (h : τ.submitter = .accept) :
    τ.starts = 0 ∧ τ.finishes = [] := by
  have hever : τ.everRunning = false := by
    by_contra hever
    have := hi.tracked.returned (by simpa using hever)
    rw [h] at this
    cases this
  have hstate := hi.tracked.fresh (hi.registry.absent.mpr (by rw [h]; rfl))
  have hcons := hi.tracked.conserved
  rw [hstate, if_neg (by decide)] at hcons
  exact ⟨by rw [hi.tracked.starts, hever]; rfl, List.eq_nil_of_length_eq_zero (by omega)⟩

theorem finishTaskStep_counts {a : Actor} {started : Bool} {f : FinishPc}
    {next : Option FinishPc} (h : finishTaskStep a started g f = some (g', next))
    (hf : f ≠ .update) :
    g'.taskCounts = g.taskCounts ∧ g'.taskCapacity = g.taskCapacity := by
  cases f <;> simp only [finishTaskStep] at h
  case lock =>
    simp only [map_acquire_eq_some, Prod.mk.injEq] at h
    rw [← h.2.1]
    exact ⟨rfl, rfl⟩
  case update => exact absurd rfl hf
  all_goals
    simp only [Option.some.injEq, Prod.mk.injEq] at h
    obtain ⟨rfl, _⟩ := h
    exact ⟨rfl, rfl⟩

theorem counts_of_sharedMove (hi : TaskInvariant τ) (h : SharedMove g τ g' τ')
    (hqueued : weight isCountedQueued τ ≤ g.taskCounts.queued)
    (hrunning : weight isCountedRunning τ ≤ g.taskCounts.running) :
    g'.taskCounts.queued + weight isCountedQueued τ =
      g.taskCounts.queued + weight isCountedQueued τ' ∧
    g'.taskCounts.running + weight isCountedRunning τ =
      g.taskCounts.running + weight isCountedRunning τ' := by
  cases h with
  | locks haccepted hstarts hfinishes =>
      simp [weight, isCountedQueued, isCountedRunning, isUnfinished, haccepted, hstarts, hfinishes]
  | accept hfree hbefore haccepted hstarts hfinishes =>
      obtain ⟨hzero, hnil⟩ := fresh_of_accept hi hbefore
      have hopen : isAccepted τ.submitter = false := by rw [hbefore]; rfl
      simp [weight, isCountedQueued, isCountedRunning, isUnfinished, hopen, haccepted, hstarts,
        hfinishes, hzero, hnil, acceptTask, TokioExecutorTaskCounts.acceptTask]
  | start hbefore haccepted hstarts hfinishes =>
      obtain ⟨hzero, hnil, hacc⟩ := finishes_of_start hi hbefore
      simp [weight, isCountedQueued, isCountedRunning, isUnfinished, haccepted, hstarts,
        hfinishes, hzero, hnil, hacc] at *
      simp [markTaskStarted, TokioExecutorTaskCounts.markStarted]
      omega
  | @finish _ site started f _ _ _ hat hstep haccepted hstarts hfinishes =>
      by_cases hf : f = .update
      · subst f
        have hnil := finishes_of_finishAt hi hat rfl
        have hone := starts_of_finishAt hi hat
        have hacc := isAccepted_of_closed hi (entry_ne_absent_of_finishAt hi hat)
        simp only [finishTaskStep, Option.some.injEq, Prod.mk.injEq] at hstep
        obtain ⟨rfl, _⟩ := hstep
        cases started
        all_goals
          simp [weight, isCountedQueued, isCountedRunning, isUnfinished, haccepted, hstarts,
            hfinishes, hone, hnil, hacc] at *
          simp [finishTask, TokioExecutorTaskCounts.finishTask]
          omega
      · rw [if_neg hf] at hfinishes
        have hcounts := (finishTaskStep_counts hstep hf).1
        simp [weight, isCountedQueued, isCountedRunning, isUnfinished, haccepted, hstarts,
          hfinishes, hcounts]
end

/-! ### Over whole runs -/

/-- The counts are the numbers of counted tasks. -/
structure Conserved (taskCapacity : NonZeroUsize) (s : ServiceState) : Prop where
  capacity : s.shared.taskCapacity = taskCapacity
  queued : s.shared.taskCounts.queued = s.tasks.countP isCountedQueued
  running : s.shared.taskCounts.running = s.tasks.countP isCountedRunning
  bounded : s.shared.taskCounts.queued + s.shared.taskCounts.running ≤ taskCapacity.get

section

variable {taskCapacity : NonZeroUsize} {s s' : ServiceState} {a : Action}

theorem closerStep_counts {k : Nat} {g g' : TokioExecutorServiceState} {c c' : Closer}
    (h : closerStep k g c = some (g', c')) :
    g'.taskCounts = g.taskCounts ∧ g'.taskCapacity = g.taskCapacity := by
  unfold closerStep at h
  split at h
  case h_2 =>
    split at h <;> simp only [Option.some.injEq, Prod.mk.injEq] at h <;> rw [← h.1] <;>
      exact ⟨rfl, rfl⟩
  all_goals
    simp only [map_acquire_eq_some, Option.some.injEq, Prod.mk.injEq, reduceCtorEq] at h
  all_goals
    first
      | rw [← h.1]; exact ⟨rfl, rfl⟩
      | rw [← h.2.1]; exact ⟨rfl, rfl⟩

theorem waiterStep_locks {w : Nat} {g g' : TokioExecutorServiceState} {x x' : Waiter}
    (h : waiterStep w g x = some (g', x')) : ∃ locks, g' = { g with locks := locks } := by
  cases x <;> simp only [waiterStep] at h
  case lock =>
    simp only [map_acquire_eq_some, Prod.mk.injEq] at h
    exact ⟨_, h.2.1.symm⟩
  case waited | awaited => cases h
  case readCounts | parked | suspended =>
    split at h
    all_goals
      simp only [Option.some.injEq, Prod.mk.injEq, reduceCtorEq] at h
      try exact ⟨_, h.1.symm⟩
  case asyncReadCounts =>
    split at h
    · split at h <;> simp only [Option.some.injEq, Prod.mk.injEq] at h <;>
        exact ⟨_, h.1.symm⟩
    · cases h
  all_goals
    simp only [Option.some.injEq, Prod.mk.injEq] at h
    exact ⟨_, h.1.symm⟩

theorem Conserved.keep (hc : Conserved taskCapacity s)
    (hcounts : s'.shared.taskCounts = s.shared.taskCounts)
    (hcapacity : s'.shared.taskCapacity = s.shared.taskCapacity)
    (hqueued : s'.tasks.countP isCountedQueued = s.tasks.countP isCountedQueued)
    (hrunning : s'.tasks.countP isCountedRunning = s.tasks.countP isCountedRunning) :
    Conserved taskCapacity s' where
  capacity := hcapacity.trans hc.capacity
  queued := by rw [hcounts, hqueued, hc.queued]
  running := by rw [hcounts, hrunning, hc.running]
  bounded := by rw [hcounts]; exact hc.bounded

theorem bounded_of_sharedMove {g g' : TokioExecutorServiceState} {τ τ' : Task}
    (hi : TaskInvariant τ) (h : SharedMove g τ g' τ')
    (hpos : weight isCountedQueued τ ≤ g.taskCounts.queued)
    (hbounded : g.taskCounts.queued + g.taskCounts.running ≤ g.taskCapacity.get) :
    g'.taskCapacity = g.taskCapacity ∧
      g'.taskCounts.queued + g'.taskCounts.running ≤ g.taskCapacity.get := by
  cases h with
  | locks => exact ⟨rfl, hbounded⟩
  | accept hfree =>
      have := (isSaturated_eq_false hbounded).mp hfree
      refine ⟨rfl, ?_⟩
      simp only [acceptTask, TokioExecutorTaskCounts.acceptTask]
      omega
  | start hbefore =>
      obtain ⟨hzero, hnil, hacc⟩ := finishes_of_start hi hbefore
      rw [weight_of_true (by simp [isCountedQueued, isUnfinished, hzero, hnil, hacc])] at hpos
      refine ⟨rfl, ?_⟩
      simp only [markTaskStarted, TokioExecutorTaskCounts.markStarted]
      omega
  | @finish _ _ started f _ _ _ _ hstep =>
      by_cases hf : f = .update
      · subst f
        simp only [finishTaskStep, Option.some.injEq, Prod.mk.injEq] at hstep
        obtain ⟨rfl, _⟩ := hstep
        refine ⟨rfl, ?_⟩
        cases started <;> simp [finishTask, TokioExecutorTaskCounts.finishTask] <;> omega
      · obtain ⟨hcounts, hcapacity⟩ := finishTaskStep_counts hstep hf
        rw [hcounts]
        exact ⟨hcapacity, hbounded⟩

theorem Conserved.taskStep {t : TaskId} {τ τ' : Task} (hc : Conserved taskCapacity s)
    (hτ : s.tasks[t]? = some τ) (hi : TaskInvariant τ)
    (h : TaskStep t s.shared τ a s'.shared τ') (htasks : s'.tasks = s.tasks.set t τ') :
    Conserved taskCapacity s' := by
  have hshared := sharedMove_of_taskStep hi h
  have hq := weight_le_countP isCountedQueued hτ
  have hr := weight_le_countP isCountedRunning hτ
  rw [← hc.queued] at hq
  rw [← hc.running] at hr
  obtain ⟨hqueued, hrunning⟩ := counts_of_sharedMove hi hshared hq hr
  have hq' := countP_set_add (y := τ') isCountedQueued hτ
  have hr' := countP_set_add (y := τ') isCountedRunning hτ
  have := hc.queued
  have := hc.running
  obtain ⟨hcapacity, hbounded⟩ :=
    bounded_of_sharedMove hi hshared hq (by rw [hc.capacity]; exact hc.bounded)
  rw [hc.capacity] at hcapacity hbounded
  refine ⟨hcapacity, ?_, ?_, hbounded⟩
  · rw [htasks]
    omega
  · rw [htasks]
    omega

theorem isUnfinished_takeEntry {k : Nat} {τ : Task} :
    isCountedQueued (takeEntry k τ) = isCountedQueued τ ∧
      isCountedRunning (takeEntry k τ) = isCountedRunning τ := by
  unfold takeEntry
  split <;> exact ⟨rfl, rfl⟩

theorem conserved_of_reachable (h : (service taskCapacity).Reachable s) :
    Conserved taskCapacity s := by
  refine Reachable.invariant h ⟨rfl, rfl, rfl, Nat.zero_le _⟩ ?_
  intro s a s' hs hc hstep
  have hi := taskInvariant_of_reachable hs
  cases effect_of_step hstep with
  | newTask kind =>
      exact hc.keep rfl rfl (by rw [countP_append_singleton]; rfl)
        (by rw [countP_append_singleton]; rfl)
  | newCloser | newWaiter | endSweep => exact hc.keep rfl rfl rfl rfl
  | closer _ hcloser =>
      obtain ⟨hcounts, hcapacity⟩ := closerStep_counts hcloser
      exact hc.keep hcounts hcapacity rfl rfl
  | waiter _ hwaiter =>
      obtain ⟨_, rfl⟩ := waiterStep_locks hwaiter
      exact hc.keep rfl rfl rfl rfl
  | take =>
      exact hc.keep rfl rfl (countP_map_of_eq fun _ _ => isUnfinished_takeEntry.1)
        (countP_map_of_eq fun _ _ => isUnfinished_takeEntry.2)
  | task hτ hτstep => exact hc.taskStep hτ (hi _ (mem_of_getElem? hτ)) hτstep rfl
  | sweepNext _ _ _ hτ hentry =>
      exact hc.taskStep hτ (hi _ (mem_of_getElem? hτ)) (.sweepNext hentry) rfl
  | finishSweep _ _ hτ hentry =>
      exact hc.taskStep hτ (hi _ (mem_of_getElem? hτ)) (.finishSweep hentry) rfl

theorem Conserved.sum (hc : Conserved taskCapacity s) :
    s.shared.taskCounts.queued + s.shared.taskCounts.running =
      s.tasks.countP isUnfinished := by
  rw [hc.queued, hc.running]
  exact (countP_and_add_countP_and_not isUnfinished fun τ => τ.starts == 0).symm

/-- No activity is between a transition of the tracker and the count update that
belongs to it. -/
def isSettled (τ : Task) : Prop :=
  isStarting (workerPhase τ.worker) = false ∧
    ∀ site started f, finishAt τ site = some (started, f) → f.isPending = false

theorem finishes_length_le_one {τ : Task} (hi : TaskInvariant τ) : τ.finishes.length ≤ 1 := by
  have hcons := hi.tracked.conserved
  split at hcons <;> omega

theorem started_of_finishes {τ : Task} (hi : TaskInvariant τ) {started : Bool}
    (h : started ∈ τ.finishes) : started = true ↔ τ.starts = 1 := by
  have hever := hi.tracked.flags started h
  have hcons := hi.tracked.conserved
  have hpos := List.length_pos_of_mem h
  have hfinished : τ.taskState = .finished := by
    by_contra hstate
    rw [if_neg hstate] at hcons
    omega
  rw [hi.tracked.starts, ← hever]
  cases started with
  | false => simp
  | true =>
      -- A task that is still starting has not been finished by anybody.
      have hstarting : isStarting (workerPhase τ.worker) = false := by
        by_contra hstarting
        have hreturned := hi.tracked.returned hever.symm
        have hrunning := hi.tracked.running hever.symm
        simp only [guardStage, hreturned, submitterPhase, guardStageOf] at hrunning
        cases hw : workerPhase τ.worker <;>
          simp_all [workerGuard, isStarting, GuardStage.isSwapped]
      simp [hstarting]

theorem finishes_of_settled {τ : Task} (hi : TaskInvariant τ) (hdropped : guardStage τ = .dropped)
    (hsettled : isSettled τ) : τ.finishes.length = 1 := by
  have hcons := hi.tracked.conserved
  rw [if_pos (hi.tracked.swapped (by rw [hdropped]; rfl))] at hcons
  have hentry : EntryPc.isPending τ.entry = false := by
    cases hentry : τ.entry with
    | sweeping k p =>
        cases p with
        | finish f => exact hsettled.2 .sweep false f (by rw [finishAt, hentry]; rfl)
        | _ => rfl
    | _ => rfl
  have hcancels : τ.cancels.countP CancelPc.isPending = 0 := by
    rw [countP_eq_zero_iff]
    intro c hc
    obtain ⟨j, hj⟩ := List.mem_iff_getElem?.mp hc
    cases c with
    | finish f => exact hsettled.2 (.cancel j) false f (by rw [finishAt, hj]; rfl)
    | _ => rfl
  rw [pendingFinishes, hdropped, hentry, hcancels] at hcons
  exact hcons

theorem running_pos_of_finishAt {τ : Task} (hc : Conserved taskCapacity s) (hmem : τ ∈ s.tasks)
    (hi : TaskInvariant τ) {site : Site} {started : Bool}
    (h : finishAt τ site = some (started, .update)) :
    0 < if started then s.shared.taskCounts.running else s.shared.taskCounts.queued := by
  have hnil := finishes_of_finishAt hi h rfl
  have hone := starts_of_finishAt hi h
  have hacc := isAccepted_of_closed hi (entry_ne_absent_of_finishAt hi h)
  cases started with
  | false =>
      rw [if_neg (by decide), hc.queued]
      exact List.countP_pos_iff.mpr ⟨τ, hmem, by simp [isCountedQueued, isUnfinished, *]⟩
  | true =>
      rw [if_pos rfl, hc.running]
      exact List.countP_pos_iff.mpr ⟨τ, hmem, by simp [isCountedRunning, isUnfinished, *]⟩

theorem queued_pos_of_start {τ : Task} (hc : Conserved taskCapacity s) (hmem : τ ∈ s.tasks)
    (hi : TaskInvariant τ) (h : τ.worker = .start) : 0 < s.shared.taskCounts.queued := by
  obtain ⟨hzero, hnil, hacc⟩ := finishes_of_start hi h
  rw [hc.queued]
  exact List.countP_pos_iff.mpr ⟨τ, hmem, by simp [isCountedQueued, isUnfinished, *]⟩

theorem accounting_conserved (h : (service taskCapacity).Reachable s) :
    s.shared.taskCounts.queued + s.shared.taskCounts.running =
        s.tasks.countP isUnfinished ∧
      s.shared.taskCounts.queued + s.shared.taskCounts.running ≤ taskCapacity.get ∧
      (∀ τ ∈ s.tasks, τ.finishes.length ≤ 1 ∧
        (∀ started ∈ τ.finishes, started = true ↔ τ.starts = 1) ∧
        (guardStage τ = .dropped → isSettled τ → τ.finishes.length = 1)) ∧
      (∀ τ ∈ s.tasks, (τ.worker = .start → 0 < s.shared.taskCounts.queued) ∧
        ∀ site started, finishAt τ site = some (started, .update) →
          0 < if started then s.shared.taskCounts.running
            else s.shared.taskCounts.queued) := by
  have hc := conserved_of_reachable h
  have hi := taskInvariant_of_reachable h
  refine ⟨hc.sum, hc.bounded, ?_, ?_⟩
  · intro τ hτ
    exact ⟨finishes_length_le_one (hi τ hτ), fun _ => started_of_finishes (hi τ hτ),
      finishes_of_settled (hi τ hτ)⟩
  · intro τ hτ
    exact ⟨queued_pos_of_start hc hτ (hi τ hτ),
      fun _ _ => running_pos_of_finishAt hc hτ (hi τ hτ)⟩

end

/-- One callable fills a service of capacity one and leaves it empty. -/
theorem accounting_conserved_callable :
    ∃ s, (service oneSlot).execute
        (.callSubmit .callable :: submission 0 ++ execution 0 .ok) (service oneSlot).start =
          some s ∧
      s.tasks.map (fun τ => (τ.worker, τ.finishes)) = [(.finished, [true])] ∧
      s.shared.taskCounts.queued + s.shared.taskCounts.running =
        s.tasks.countP isUnfinished := by
  have hrun : ((service oneSlot).execute
      (.callSubmit .callable :: submission 0 ++ execution 0 .ok) (service oneSlot).start).map
        (fun s => s.tasks.map fun τ => (τ.worker, τ.finishes)) =
      some [(.finished, [true])] := by decide
  obtain ⟨s, hs, htasks⟩ := Option.map_eq_some_iff.mp hrun
  exact ⟨s, hs, htasks, (accounting_conserved (Reachable.of_execute hs)).1⟩

end TokioExecutorProofs.BlockingAccounting
