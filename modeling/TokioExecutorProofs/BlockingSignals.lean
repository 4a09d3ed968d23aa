import TokioExecutorProofs.BlockingAccounting
import TokioExecutorProofs.SignalledConditions

/-!
The announcements of the blocking service: the watch channel for the capacity and
the two notifiers for the termination. An activity that has changed the counts or
the lifecycle and has not announced it yet is recognised by its position.
-/

namespace TokioExecutorProofs.BlockingSignals

open ServiceBasics
open BlockingServiceState
open BlockingServiceState.TokioExecutorServiceState
open BlockingTask
open BlockingService
open BlockingTaskInvariants
open BlockingTaskEffects
open BlockingAccounting
open ProcessFamilies
open TransitionSystems
open SignalledConditions

/-- An announcement: the condition, the generation, and the positions in
`finish_task` and in a closing call that still have to advance it. -/
structure Signal where
  condition : TokioExecutorServiceState → Prop
  generation : TokioExecutorServiceState → Nat
  owedInFinish : FinishPc → Bool
  owedInClose : CloserPc → Bool
  condition_locks : ∀ {g locks}, condition { g with locks := locks } → condition g
  condition_accept : ∀ {g}, condition g.acceptTask → condition g
  condition_start : ∀ {g}, condition g.markTaskStarted → condition g
  generation_locks : ∀ {g locks}, generation { g with locks := locks } = generation g
  generation_accept : ∀ {g}, generation g.acceptTask = generation g
  generation_start : ∀ {g}, generation g.markTaskStarted = generation g
  generation_finish : ∀ {a started g f g' next},
    finishTaskStep a started g f = some (g', next) → generation g ≤ generation g'
  generation_close : ∀ {k g c g' c'}, closerStep k g c = some (g', c') →
    generation g ≤ generation g'
  finish : ∀ {a started g f g' next}, finishTaskStep a started g f = some (g', next) →
    condition g' → generation g' = generation g → owedInFinish f = true ∨ ¬ condition g →
    ∃ f', next = some f' ∧ owedInFinish f' = true
  close : ∀ {k g c g' c'}, closerStep k g c = some (g', c') →
    condition g' → generation g' = generation g → owedInClose c.pc = true ∨ ¬ condition g →
    owedInClose c'.pc = true
  take : owedInClose .take = true → owedInClose .takeUnlock = true
  endSweep : owedInClose .sweep = true → owedInClose .notifyCapacity = true

namespace Signal

variable (signal : Signal)

/-- Some activity has still to advance the generation. -/
def owed (s : ServiceState) : Prop :=
  (∃ τ ∈ s.tasks, ∃ site started f, finishAt τ site = some (started, f) ∧
    signal.owedInFinish f = true) ∨
  ∃ c ∈ s.closers, signal.owedInClose c.pc = true

variable {signal}

theorem owed_taskStep {s s' : ServiceState} {t : TaskId} {τ τ' : Task} {a : Action}
    (hτ : s.tasks[t]? = some τ) (htasks : s'.tasks = s.tasks.set t τ')
    (hclosers : ∀ c ∈ s.closers, signal.owedInClose c.pc = true →
      ∃ c' ∈ s'.closers, signal.owedInClose c'.pc = true)
    (hi : TaskInvariant τ) (h : TaskStep t s.shared τ a s'.shared τ')
    (hcondition : signal.condition s'.shared) (howed : signal.condition s.shared → signal.owed s)
    (hgeneration : signal.generation s'.shared = signal.generation s.shared) :
    signal.owed s' := by
  -- Whatever owes an advance at this task still does unless it is the stepping call.
  have hkeep : (∀ site started f, finishAt τ site = some (started, f) →
      signal.owedInFinish f = true → ∃ site' started' f', finishAt τ' site' =
        some (started', f') ∧ signal.owedInFinish f' = true) → signal.condition s.shared →
      signal.owed s' := by
    intro hfinish hbefore
    rcases howed hbefore with ⟨τ₁, hτ₁, site, started, f, hat, hf⟩ | ⟨c, hc, howes⟩
    · refine .inl ?_
      rw [htasks]
      refine exists_mem_set_of_ne (P := fun τ => ∃ site started f,
        finishAt τ site = some (started, f) ∧ signal.owedInFinish f = true) hτ
        ⟨τ₁, hτ₁, site, started, f, hat, hf⟩ ?_
      rintro ⟨site, started, f, hat, hf⟩
      exact hfinish site started f hat hf
    · exact .inr (hclosers c hc howes)
  have hpassive : (∀ site x, finishAt τ site = some x → finishAt τ' site = some x) →
      (signal.condition s'.shared → signal.condition s.shared) → signal.owed s' := by
    intro hsites hback
    refine hkeep (fun site started f hat hf => ?_) (hback hcondition)
    exact ⟨site, started, f, hsites site _ hat, hf⟩
  generalize hg : s'.shared = g' at *
  cases sharedMove_of_taskStep hi h with
  | locks _ _ _ hsites => exact hpassive hsites signal.condition_locks
  | accept _ _ _ _ _ hsites => exact hpassive hsites signal.condition_accept
  | start _ _ _ _ hsites => exact hpassive hsites signal.condition_start
  | @finish _ site started f _ next _ hat hstep _ _ _ hnext hsites =>
      have hmem : τ' ∈ s'.tasks := htasks ▸ mem_set_of_getElem? hτ
      by_cases hactive : signal.owedInFinish f = true ∨ ¬ signal.condition s.shared
      · obtain ⟨f', rfl, hf'⟩ := signal.finish hstep hcondition hgeneration hactive
        exact .inl ⟨τ', hmem, site, started, f', hnext, hf'⟩
      · simp only [not_or, not_not] at hactive
        refine hkeep (fun site₁ started₁ f₁ hat₁ hf₁ => ?_) hactive.2
        refine ⟨site₁, started₁, f₁, hsites site₁ _ ?_ hat₁, hf₁⟩
        rintro rfl
        rw [hat] at hat₁
        obtain ⟨-, rfl⟩ := Prod.mk.inj (Option.some.inj hat₁)
        exact hactive.1 hf₁

/-- The announcement of the service is sound, whatever it is about. -/
theorem signalled (signal : Signal) (taskCapacity : NonZeroUsize) :
    Signalled (service taskCapacity) (fun s => signal.condition s.shared) signal.owed
      (fun s => signal.generation s.shared) where
  mono := by
    intro s a s' hs hstep
    have hi := taskInvariant_of_reachable hs
    cases effect_of_step hstep with
    | newTask | newCloser | newWaiter | sweepNext | finishSweep | take | endSweep =>
        exact Nat.le_refl _
    | @task t τ _ g' τ' hτ hτstep =>
        dsimp only
        cases sharedMove_of_taskStep (hi τ (mem_of_getElem? hτ)) hτstep with
        | locks => exact Nat.le_of_eq signal.generation_locks.symm
        | accept => exact Nat.le_of_eq signal.generation_accept.symm
        | start => exact Nat.le_of_eq signal.generation_start.symm
        | finish _ hstep => exact signal.generation_finish hstep
    | closer _ hcstep => exact signal.generation_close hcstep
    | waiter _ hwstep =>
        obtain ⟨_, rfl⟩ := waiterStep_locks hwstep
        exact Nat.le_of_eq signal.generation_locks.symm
  signal := by
    intro s a s' hs hstep hcondition howed hgeneration
    have hi := taskInvariant_of_reachable hs
    cases effect_of_step hstep with
    | newTask kind =>
        rcases howed hcondition with ⟨τ, hτ, howes⟩ | howes
        · exact .inl ⟨τ, List.mem_append_left _ hτ, howes⟩
        · exact .inr howes
    | newCloser kind =>
        rcases howed hcondition with howes | ⟨c, hc, howes⟩
        · exact .inl howes
        · exact .inr ⟨c, List.mem_append_left _ hc, howes⟩
    | newWaiter => exact howed hcondition
    | waiter _ hwstep =>
        obtain ⟨_, rfl⟩ := waiterStep_locks hwstep
        exact howed (signal.condition_locks hcondition)
    | task hτ hτstep =>
        exact owed_taskStep hτ rfl (fun c hc howes => ⟨c, hc, howes⟩)
          (hi _ (mem_of_getElem? hτ)) hτstep hcondition howed hgeneration
    | sweepNext hc hpc _ hτ hentry =>
        refine owed_taskStep hτ rfl ?_ (hi _ (mem_of_getElem? hτ)) (.sweepNext hentry)
          hcondition howed hgeneration
        intro c₁ hc₁ howes
        refine exists_mem_set_of_ne (P := fun c => signal.owedInClose c.pc = true) hc
          ⟨c₁, hc₁, howes⟩ ?_
        exact id
    | finishSweep hc _ hτ hentry =>
        refine owed_taskStep hτ rfl ?_ (hi _ (mem_of_getElem? hτ)) (.finishSweep hentry)
          hcondition howed hgeneration
        intro c₁ hc₁ howes
        refine exists_mem_set_of_ne (P := fun c => signal.owedInClose c.pc = true) hc
          ⟨c₁, hc₁, howes⟩ ?_
        exact id
    | take hc hpc =>
        rcases howed hcondition with ⟨τ, hτ, site, started, f, hat, hf⟩ | howes
        · refine .inl ⟨takeEntry _ τ, List.mem_map_of_mem hτ, site, started, f, ?_, hf⟩
          rw [finishAt_takeEntry]
          exact hat
        · refine .inr (exists_mem_set_of_ne (P := fun c => signal.owedInClose c.pc = true) hc
            howes ?_)
          rw [hpc]
          exact signal.take
    | endSweep hc hpc =>
        rcases howed hcondition with howes | howes
        · exact .inl howes
        · refine .inr (exists_mem_set_of_ne (P := fun c => signal.owedInClose c.pc = true) hc
            howes ?_)
          rw [hpc]
          exact signal.endSweep
    | @closer k c g' c' hc hcstep =>
        by_cases hactive : signal.owedInClose c.pc = true ∨ ¬ signal.condition s.shared
        · have howes := signal.close hcstep hcondition hgeneration hactive
          exact .inr ⟨c', mem_set_of_getElem? hc, howes⟩
        · simp only [not_or, not_not] at hactive
          rcases howed hactive.2 with howes | howes
          · exact .inl howes
          · exact .inr (exists_mem_set_of_ne (P := fun c => signal.owedInClose c.pc = true) hc
              howes fun h => absurd h hactive.1)

theorem not_owed_of_completed {s : ServiceState} (hreturned : signal.owedInClose .returned = false)
    (hclosers : ∀ c ∈ s.closers, c.pc = .returned)
    (hfinish : ∀ τ ∈ s.tasks, ∀ site, finishAt τ site = none) : ¬ signal.owed s := by
  rintro (⟨τ, hτ, site, started, f, hat, _⟩ | ⟨c, hc, howes⟩)
  · rw [hfinish τ hτ site] at hat
    cases hat
  · rw [hclosers c hc, hreturned] at howes
    cases howes

end Signal

/-! ### The three announcements -/

/-- A closing call between its store and its bump of the watch channel. -/
def CloserPc.owesCapacity : CloserPc → Bool
  | .snapshotLock | .snapshot | .snapshotUnlock | .unlockSubmission | .takeLock | .take
  | .takeUnlock | .sweep | .notifyCapacity => true
  | .lockSubmission | .store | .wakeCapacity | .readLock | .read | .readUnlock _ | .notifyAll
  | .notifyWaiters | .wakeTermination | .returned => false

/-- A closing call between its store and its own check of the termination. -/
def CloserPc.isUnchecked : CloserPc → Bool
  | .snapshotLock | .snapshot | .snapshotUnlock | .unlockSubmission | .takeLock | .take
  | .takeUnlock | .sweep | .notifyCapacity | .wakeCapacity | .readLock => true
  | .lockSubmission | .store | .read | .readUnlock _ | .notifyAll | .notifyWaiters
  | .wakeTermination | .returned => false

/-- A closing call that has not checked yet, or that has found the service
terminated and has not notified the monitor. -/
def CloserPc.owesNotifyAll : CloserPc → Bool
  | .readUnlock terminated => terminated
  | .read | .notifyAll => true
  | pc => CloserPc.isUnchecked pc

def CloserPc.owesNotifyWaiters : CloserPc → Bool
  | .readUnlock terminated => terminated
  | .read | .notifyAll | .notifyWaiters => true
  | pc => CloserPc.isUnchecked pc

/-- A retry would not be answered with `Saturated`. -/
def isRetryable (g : TokioExecutorServiceState) : Prop :=
  g.isSaturated = false ∨ g.isNotRunning = true

theorem isRetryable_mono {g g' : TokioExecutorServiceState}
    (hcapacity : g'.taskCapacity = g.taskCapacity) (hlifecycle : g'.lifecycle = g.lifecycle)
    (hle : g.taskCounts.queued + g.taskCounts.running ≤
      g'.taskCounts.queued + g'.taskCounts.running)
    (h : isRetryable g') : isRetryable g := by
  refine h.imp (fun hfree => ?_) fun hclosed => ?_
  · rw [isSaturated, decide_eq_false_iff_not, saturatingAdd] at hfree ⊢
    rw [hcapacity] at hfree
    intro hfull
    obtain ⟨hsum, hmax⟩ := Nat.le_min.mp hfull
    exact hfree (Nat.le_min.mpr ⟨hsum.trans hle, hmax⟩)
  · rwa [isNotRunning, ← hlifecycle]

theorem finishTaskStep_fields {a : Actor} {started : Bool} {g g' : TokioExecutorServiceState}
    {f : FinishPc} {next : Option FinishPc} (h : finishTaskStep a started g f = some (g', next)) :
    g'.taskCapacity = g.taskCapacity ∧ g'.lifecycle = g.lifecycle ∧
      (f ≠ .update → g'.taskCounts = g.taskCounts) ∧
      g'.capacityGeneration = g.capacityGeneration +
        (if ∃ terminated, f = .notifyCapacity terminated then 1 else 0) ∧
      g'.notifyAllCalls = g.notifyAllCalls + (if f = .notifyAll then 1 else 0) ∧
      g'.notifyWaitersCalls = g.notifyWaitersCalls +
        (if f = .notifyWaiters then 1 else 0) := by
  cases f <;> simp only [finishTaskStep] at h
  case lock =>
    simp only [map_acquire_eq_some, Prod.mk.injEq] at h
    obtain ⟨_, rfl, _⟩ := h
    exact ⟨rfl, rfl, fun _ => rfl, by simp, rfl, rfl⟩
  case update =>
    simp only [Option.some.injEq, Prod.mk.injEq] at h
    obtain ⟨rfl, _⟩ := h
    exact ⟨rfl, rfl, fun hne => absurd rfl hne, by simp [finishTask], rfl, rfl⟩
  all_goals
    simp only [Option.some.injEq, Prod.mk.injEq] at h
    obtain ⟨rfl, _⟩ := h
    refine ⟨rfl, rfl, fun _ => rfl, ?_, rfl, rfl⟩
    simp [release, notifyCapacityChanged, notifyAll, notifyWaiters]

theorem closerStep_fields {k : Nat} {g g' : TokioExecutorServiceState} {c c' : Closer}
    (h : closerStep k g c = some (g', c')) :
    g'.taskCapacity = g.taskCapacity ∧ (c.pc ≠ .store → g'.lifecycle = g.lifecycle) ∧
      g'.taskCounts = g.taskCounts ∧
      g'.capacityGeneration = g.capacityGeneration +
        (if c.pc = .notifyCapacity then 1 else 0) ∧
      g'.notifyAllCalls = g.notifyAllCalls + (if c.pc = .notifyAll then 1 else 0) ∧
      g'.notifyWaitersCalls = g.notifyWaitersCalls +
        (if c.pc = .notifyWaiters then 1 else 0) := by
  cases hpc : c.pc <;> simp only [closerStep, hpc] at h
  case take | sweep | returned => cases h
  case store =>
    split at h <;> simp only [Option.some.injEq, Prod.mk.injEq] at h <;> obtain ⟨rfl, _⟩ := h
    all_goals exact ⟨rfl, fun hne => absurd rfl hne, rfl, rfl, rfl, rfl⟩
  case lockSubmission | snapshotLock | takeLock | readLock =>
    simp only [map_acquire_eq_some, Prod.mk.injEq] at h
    obtain ⟨_, rfl, _⟩ := h
    exact ⟨rfl, fun _ => rfl, rfl, rfl, rfl, rfl⟩
  all_goals
    simp only [Option.some.injEq, Prod.mk.injEq] at h
    obtain ⟨rfl, _⟩ := h
    exact ⟨rfl, fun _ => rfl, rfl, rfl, rfl, rfl⟩

theorem isRetryable_of_acceptTask {g : TokioExecutorServiceState}
    (h : isRetryable g.acceptTask) : isRetryable g := by
  have hle : g.taskCounts.queued + g.taskCounts.running ≤
      g.acceptTask.taskCounts.queued + g.acceptTask.taskCounts.running := by
    simp only [acceptTask, TokioExecutorTaskCounts.acceptTask]
    omega
  refine isRetryable_mono ?_ ?_ hle h <;> rfl

theorem isRetryable_of_markTaskStarted {g : TokioExecutorServiceState}
    (h : isRetryable g.markTaskStarted) : isRetryable g := by
  have hle : g.taskCounts.queued + g.taskCounts.running ≤
      g.markTaskStarted.taskCounts.queued + g.markTaskStarted.taskCounts.running := by
    simp only [markTaskStarted, TokioExecutorTaskCounts.markStarted]
    omega
  refine isRetryable_mono ?_ ?_ hle h <;> rfl

theorem capacityGeneration_of_finish {a : Actor} {started : Bool}
    {g g' : TokioExecutorServiceState} {f : FinishPc} {next : Option FinishPc}
    (h : finishTaskStep a started g f = some (g', next)) :
    g.capacityGeneration ≤ g'.capacityGeneration := by
  rw [(finishTaskStep_fields h).2.2.2.1]
  omega

theorem capacityGeneration_of_close {k : Nat} {g g' : TokioExecutorServiceState}
    {c c' : Closer} (h : closerStep k g c = some (g', c')) :
    g.capacityGeneration ≤ g'.capacityGeneration := by
  rw [(closerStep_fields h).2.2.2.1]
  omega

theorem owesCapacity_of_finish {a : Actor} {started : Bool} {g g' : TokioExecutorServiceState}
    {f : FinishPc} {next : Option FinishPc}
    (h : finishTaskStep a started g f = some (g', next)) (hcondition : isRetryable g')
    (hgeneration : g'.capacityGeneration = g.capacityGeneration)
    (hactive : f.owesCapacity = true ∨ ¬ isRetryable g) :
    ∃ f', next = some f' ∧ FinishPc.owesCapacity f' = true := by
  obtain ⟨hcapacity, hlifecycle, hcounts, hbump, _, _⟩ := finishTaskStep_fields h
  have hback : f ≠ .update → isRetryable g := fun hne =>
    isRetryable_mono hcapacity hlifecycle (by rw [hcounts hne]) hcondition
  cases f <;> simp only [finishTaskStep] at h
  case update | unlock =>
    simp only [Option.some.injEq, Prod.mk.injEq] at h
    exact ⟨_, h.2.symm, rfl⟩
  case notifyCapacity =>
    rw [if_pos ⟨_, rfl⟩] at hbump
    omega
  all_goals
    exact absurd (hback (by simp)) (hactive.resolve_left (by simp [FinishPc.owesCapacity]))

theorem owesCapacity_of_close {k : Nat} {g g' : TokioExecutorServiceState} {c c' : Closer}
    (h : closerStep k g c = some (g', c')) (hcondition : isRetryable g')
    (hgeneration : g'.capacityGeneration = g.capacityGeneration)
    (hactive : CloserPc.owesCapacity c.pc = true ∨ ¬ isRetryable g) :
    CloserPc.owesCapacity c'.pc = true := by
  obtain ⟨hcapacity, hlifecycle, hcounts, hbump, _, _⟩ := closerStep_fields h
  have hback : c.pc ≠ .store → isRetryable g := fun hne =>
    isRetryable_mono hcapacity (hlifecycle hne) (by rw [hcounts]) hcondition
  cases hpc : c.pc <;> simp only [closerStep, hpc] at h
  case notifyCapacity =>
    rw [hpc, if_pos rfl] at hbump
    omega
  case store | unlockSubmission =>
    cases hkind : c.kind <;> simp only [hkind, Option.some.injEq, Prod.mk.injEq] at h <;>
      rw [← h.2] <;> rfl
  case snapshotLock | takeLock =>
    simp only [map_acquire_eq_some, Prod.mk.injEq] at h
    rw [← h.2.2]
    rfl
  case snapshot | snapshotUnlock | takeUnlock =>
    simp only [Option.some.injEq, Prod.mk.injEq] at h
    rw [← h.2]
    rfl
  case take | sweep => cases h
  all_goals
    exact absurd (hback (by simp [hpc]))
      (hactive.resolve_left (by simp [hpc, CloserPc.owesCapacity]))

def capacitySignal : Signal where
  condition := isRetryable
  generation g := g.capacityGeneration
  owedInFinish := FinishPc.owesCapacity
  owedInClose := CloserPc.owesCapacity
  condition_locks := id
  condition_accept := isRetryable_of_acceptTask
  condition_start := isRetryable_of_markTaskStarted
  generation_locks := rfl
  generation_accept := rfl
  generation_start := rfl
  generation_finish := capacityGeneration_of_finish
  generation_close := capacityGeneration_of_close
  finish := owesCapacity_of_finish
  close := owesCapacity_of_close
  take := id
  endSweep := id

theorem isTerminated_congr {g g' : TokioExecutorServiceState}
    (hlifecycle : g'.lifecycle = g.lifecycle) (hcounts : g'.taskCounts = g.taskCounts) :
    g'.isTerminated = g.isTerminated := by
  rw [isTerminated, isNotRunning, hlifecycle, hcounts]
  rfl

theorem isTerminated_acceptTask {g : TokioExecutorServiceState} :
    g.acceptTask.isTerminated = false := by
  simp [isTerminated, acceptTask, TokioExecutorTaskCounts.acceptTask,
    TokioExecutorTaskCounts.isEmpty]

theorem isTerminated_markTaskStarted {g : TokioExecutorServiceState} :
    g.markTaskStarted.isTerminated = false := by
  simp [isTerminated, markTaskStarted, TokioExecutorTaskCounts.markStarted,
    TokioExecutorTaskCounts.isEmpty]

/-- Both termination notifiers: synchronous waiters are notified before
asynchronous ones. -/
def terminationSignal (async : Bool) : Signal where
  condition g := g.isTerminated = true
  generation g := if async then g.notifyWaitersCalls else g.notifyAllCalls
  owedInFinish f := if async then f.owesNotifyWaiters else f.owesNotifyAll
  owedInClose pc :=
    if async then CloserPc.owesNotifyWaiters pc else CloserPc.owesNotifyAll pc
  condition_locks := id
  condition_accept h := by simp [isTerminated_acceptTask] at h
  condition_start h := by simp [isTerminated_markTaskStarted] at h
  generation_locks := rfl
  generation_accept := rfl
  generation_start := rfl
  generation_finish h := by
    obtain ⟨_, _, _, _, hall, hwaiters⟩ := finishTaskStep_fields h
    cases async <;> simp [hall, hwaiters]
  generation_close h := by
    obtain ⟨_, _, _, _, hall, hwaiters⟩ := closerStep_fields h
    cases async <;> simp [hall, hwaiters]
  finish := by
    intro a started g f g' next h hcondition hgeneration hactive
    obtain ⟨-, hlifecycle, hcounts, -, hall, hwaiters⟩ := finishTaskStep_fields h
    have hback : f ≠ .update → g.isTerminated = true := fun hne => by
      rwa [← isTerminated_congr hlifecycle (hcounts hne)]
    have howed : f ≠ .update →
        (if async then f.owesNotifyWaiters else f.owesNotifyAll) = true := fun hne =>
      hactive.resolve_right (not_not_intro (hback hne))
    cases f <;> simp only [finishTaskStep] at h
    case update =>
      simp only [Option.some.injEq, Prod.mk.injEq] at h
      obtain ⟨rfl, rfl⟩ := h
      refine ⟨_, rfl, ?_⟩
      cases async <;> exact hcondition
    case unlock terminated | notifyCapacity terminated =>
      simp only [Option.some.injEq, Prod.mk.injEq] at h
      exact ⟨_, h.2.symm, by cases async <;> exact howed (by simp)⟩
    case wakeCapacity terminated =>
      obtain rfl : terminated = true := by cases async <;> exact howed (by simp)
      simp only [Option.some.injEq, Prod.mk.injEq] at h
      exact ⟨_, h.2.symm, by cases async <;> rfl⟩
    case notifyAll =>
      simp only [Option.some.injEq, Prod.mk.injEq] at h
      cases async with
      | true => exact ⟨_, h.2.symm, rfl⟩
      | false => simp [hall] at hgeneration
    case notifyWaiters =>
      cases async with
      | true => simp [hwaiters] at hgeneration
      | false => simp [FinishPc.owesNotifyAll] at howed
    all_goals
      cases async <;> simp [FinishPc.owesNotifyAll, FinishPc.owesNotifyWaiters] at howed
  close := by
    intro k g c g' c' h hcondition hgeneration hactive
    obtain ⟨-, hlifecycle, hcounts, -, hall, hwaiters⟩ := closerStep_fields h
    have hback : c.pc ≠ .store → g.isTerminated = true := fun hne => by
      rwa [← isTerminated_congr (hlifecycle hne) hcounts]
    have howed : c.pc ≠ .store → (if async then CloserPc.owesNotifyWaiters c.pc
        else CloserPc.owesNotifyAll c.pc) = true := fun hne =>
      hactive.resolve_right (not_not_intro (hback hne))
    cases hpc : c.pc <;> simp only [closerStep, hpc] at h
    case store | unlockSubmission =>
      cases hkind : c.kind <;> simp only [hkind, Option.some.injEq, Prod.mk.injEq] at h <;>
        rw [← h.2] <;> cases async <;> rfl
    case snapshotLock | takeLock | readLock =>
      simp only [map_acquire_eq_some, Prod.mk.injEq] at h
      rw [← h.2.2]
      cases async <;> rfl
    case snapshot | snapshotUnlock | takeUnlock | notifyCapacity | wakeCapacity =>
      simp only [Option.some.injEq, Prod.mk.injEq] at h
      rw [← h.2]
      cases async <;> rfl
    case read =>
      simp only [Option.some.injEq, Prod.mk.injEq] at h
      rw [← h.2, hback (by simp [hpc])]
      cases async <;> rfl
    case readUnlock terminated =>
      obtain rfl : terminated = true := by
        rw [hpc] at howed
        cases async <;> exact howed (by simp)
      simp only [Option.some.injEq, Prod.mk.injEq] at h
      rw [← h.2]
      cases async <;> rfl
    case notifyAll =>
      simp only [Option.some.injEq, Prod.mk.injEq] at h
      cases async with
      | true =>
          rw [← h.2]
          rfl
      | false => simp [hall, hpc] at hgeneration
    case notifyWaiters =>
      cases async with
      | true => simp [hwaiters, hpc] at hgeneration
      | false => simp [hpc, CloserPc.owesNotifyAll, CloserPc.isUnchecked] at howed
    case take | sweep | returned => cases h
    all_goals
      cases async <;> simp [hpc, CloserPc.owesNotifyAll, CloserPc.owesNotifyWaiters,
        CloserPc.isUnchecked] at howed
  take := by cases async <;> exact id
  endSweep := by cases async <;> exact id

end TokioExecutorProofs.BlockingSignals
