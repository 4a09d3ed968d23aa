import TokioExecutorProofs.BlockingTask
import TokioExecutorProofs.ProcessFamilies
import TokioExecutorProofs.TransitionSystems

/-!
The blocking service as a transition system. Any number of `try_submit*`,
`cancel`, `shutdown`, `stop`, `wait_termination` and `await_termination` calls,
pool threads and a runtime that destroys queued closures take their atomic
steps in any order. Code of the user that runs inside one of the steps may
start further calls, which are further activities of the same system.
-/

namespace TokioExecutorProofs.BlockingService

open ServiceBasics
open BlockingServiceState
open BlockingTask
open ProcessFamilies
open TransitionSystems

/-! ### `shutdown()` and `stop()` -/

inductive CloserPc where
  | lockSubmission
  | store
  | snapshotLock
  | snapshot
  | snapshotUnlock
  | unlockSubmission
  | takeLock
  | take
  | takeUnlock
  | sweep
  | notifyCapacity
  | wakeCapacity
  | readLock
  | read
  | readUnlock (terminated : Bool)
  | notifyAll
  | notifyWaiters
  | wakeTermination
  | returned
  deriving DecidableEq, Repr

/-- A `shutdown()` or `stop()` call. The counts of a stop become its
`StopReport`. -/
structure Closer where
  kind : CloserKind
  pc : CloserPc := .lockSubmission
  queuedCount : Nat := 0
  runningCount : Nat := 0
  cancellationCount : Nat := 0
  /-- The entry in the loop body of `abort_tracked_tasks`. -/
  current : Option TaskId := none
  deriving DecidableEq, Repr

/-- The steps of a closing call that touch no task. -/
def closerStep (k : Nat) (g : TokioExecutorServiceState) (c : Closer) :
    Option (TokioExecutorServiceState × Closer) :=
  match c.pc with
  | .lockSubmission =>
      (g.acquire .submission (.closer k)).map fun g' => (g', { c with pc := .store })
  | .store =>
      match c.kind with
      | .shutdown => some (g.shutdown, { c with pc := .unlockSubmission })
      | .stop => some (g.stop, { c with pc := .snapshotLock })
  | .snapshotLock =>
      (g.acquire .taskCounts (.closer k)).map fun g' => (g', { c with pc := .snapshot })
  | .snapshot =>
      some (g, { c with pc := .snapshotUnlock, queuedCount := g.taskCounts.queued,
                        runningCount := g.taskCounts.running })
  | .snapshotUnlock => some (g.release .taskCounts, { c with pc := .unlockSubmission })
  | .unlockSubmission =>
      let pc := match c.kind with | .shutdown => .notifyCapacity | .stop => .takeLock
      some (g.release .submission, { c with pc := pc })
  | .takeLock =>
      (g.acquire .abortHandles (.closer k)).map fun g' => (g', { c with pc := .take })
  | .take => none
  | .takeUnlock => some (g.release .abortHandles, { c with pc := .sweep })
  | .sweep => none
  | .notifyCapacity => some (g.notifyCapacityChanged, { c with pc := .wakeCapacity })
  | .wakeCapacity => some (g, { c with pc := .readLock })
  | .readLock =>
      (g.acquire .taskCounts (.closer k)).map fun g' => (g', { c with pc := .read })
  | .read => some (g, { c with pc := .readUnlock g.isTerminated })
  | .readUnlock terminated =>
      let pc := if terminated then .notifyAll else .returned
      some (g.release .taskCounts, { c with pc := pc })
  | .notifyAll => some (g.notifyAll, { c with pc := .notifyWaiters })
  | .notifyWaiters => some (g.notifyWaiters, { c with pc := .wakeTermination })
  | .wakeTermination => some (g, { c with pc := .returned })
  | .returned => none

/-! ### Waiting for termination -/

/-- A `wait_termination()` call on the monitor, or an `await_termination()`
future. `since` is the number of notifications when the waiter could first
receive one. -/
inductive Waiter where
  | lock
  | load
  | readCounts (notRunning : Bool)
  | unlock
  | parked (since : Nat)
  | waited
  | enable
  | asyncLoad (since : Nat)
  | asyncReadCounts (since : Nat) (loaded :
      ExecutorServiceLifecycleBits.ExecutorServiceLifecycle)
  | suspended (since : Nat)
  | awaited
  deriving DecidableEq, Repr

def waiterStep (w : Nat) (g : TokioExecutorServiceState) :
    Waiter → Option (TokioExecutorServiceState × Waiter)
  | .lock => (g.acquire .taskCounts (.waiter w)).map fun g' => (g', .load)
  | .load => some (g, .readCounts g.isNotRunning)
  | .readCounts notRunning =>
      -- Parking releases the monitor atomically.
      if notRunning && g.taskCounts.isEmpty then some (g, .unlock)
      else some (g.release .taskCounts, .parked g.notifyAllCalls)
  | .unlock => some (g.release .taskCounts, .waited)
  | .parked since => if since < g.notifyAllCalls then some (g, .lock) else none
  | .waited => none
  | .enable => some (g, .asyncLoad g.notifyWaitersCalls)
  | .asyncLoad since =>
      some (g, .asyncReadCounts since (ExecutorServiceLifecycleBits.load g.lifecycle))
  | .asyncReadCounts since loaded =>
      if g.locks .taskCounts = none then
        if TokioExecutorServiceState.lifecycleOf loaded g.taskCounts = .terminated then
          some (g, .awaited)
        else some (g, .suspended since)
      else none
  | .suspended since => if since < g.notifyWaitersCalls then some (g, .enable) else none
  | .awaited => none

/-! ### The whole service -/

structure ServiceState where
  shared : TokioExecutorServiceState
  tasks : List Task := []
  closers : List Closer := []
  waiters : List Waiter := []

inductive Action where
  | callSubmit (kind : TaskKind)
  | submitter (t : TaskId) (runtimeClosed : Bool)
  | pickUp (t : TaskId)
  | destroy (t : TaskId)
  | worker (t : TaskId) (outcome : RunOutcome)
  | callCancel (t : TaskId)
  | canceller (t : TaskId) (j : Nat)
  | callClose (kind : CloserKind)
  | closer (k : Nat)
  | sweepNext (k : Nat) (t : TaskId)
  | sweep (k : Nat)
  | callWait (async : Bool)
  | waiter (w : Nat)
  deriving DecidableEq, Repr

/-- Let task `t` take a step of its own. -/
def ServiceState.onTask (s : ServiceState) (t : TaskId)
    (f : TokioExecutorServiceState → Task → Option (TokioExecutorServiceState × Task)) :
    Option ServiceState :=
  match s.tasks[t]? with
  | none => none
  | some τ => (f s.shared τ).map fun (g, τ') =>
      { s with shared := g, tasks := s.tasks.set t τ' }

/-- A `cancel()` call needs the tracked handle, which the submission returns. -/
def callCancelStep (τ : Task) : Option Task :=
  if τ.kind = .trackedCallable ∧ τ.submitter = .returned then
    some { τ with cancels := τ.cancels ++ [.cancel] }
  else none

/-- Leave the loop body of `abort_tracked_tasks` for the task. -/
def finishSweep (k : Nat) (counted : Bool) (τ : Task) : Task :=
  { τ with entry := .gone
           countedBy := if counted then τ.countedBy ++ [k] else τ.countedBy }

/-- The end of the loop body in the stop call. -/
def Closer.countSweep (counted : Bool) (c : Closer) : Closer :=
  { c with current := none
           cancellationCount :=
             if counted then c.cancellationCount + 1 else c.cancellationCount }

def stepCloser (s : ServiceState) (k : Nat) : Option ServiceState :=
  match s.closers[k]? with
  | none => none
  | some c =>
      match c.pc with
      | .take =>
          some { s with tasks := s.tasks.map (takeEntry k)
                        closers := s.closers.set k { c with pc := .takeUnlock } }
      | .sweep =>
          if c.current = none ∧ ∀ τ ∈ s.tasks, τ.entry ≠ .taken k then
            some { s with closers := s.closers.set k { c with pc := .notifyCapacity } }
          else none
      | _ => (closerStep k s.shared c).map fun (g, c') =>
          { s with shared := g, closers := s.closers.set k c' }

/-- The stop call `k` takes the next entry out of its local map. The iteration
order of a hash map is arbitrary. -/
def stepSweepNext (s : ServiceState) (k : Nat) (t : TaskId) : Option ServiceState :=
  match s.closers[k]?, s.tasks[t]? with
  | some c, some τ =>
      if c.pc = .sweep ∧ c.current = none ∧ τ.entry = .taken k then
        some { s with
          tasks := s.tasks.set t { τ with entry := .sweeping k .isFinished }
          closers := s.closers.set k { c with current := some t } }
      else none
  | _, _ => none

/-- The stop call `k` works on its current entry. -/
def stepSweep (s : ServiceState) (k : Nat) : Option ServiceState :=
  match s.closers[k]? with
  | none => none
  | some c =>
      match c.current with
      | none => none
      | some t =>
          match s.tasks[t]? with
          | none => none
          | some τ =>
              match τ.entry with
              | .sweeping k' (.next counted) =>
                  if k' = k then
                    some { s with
                      tasks := s.tasks.set t (finishSweep k counted τ)
                      closers := s.closers.set k (c.countSweep counted) }
                  else none
              | .sweeping k' h =>
                  if k' = k then
                    (sweepStep k s.shared τ h).map fun (g, τ', h') =>
                      { s with
                        shared := g
                        tasks := s.tasks.set t { τ' with entry := .sweeping k h' } }
                  else none
              | _ => none

def stepWaiter (s : ServiceState) (w : Nat) : Option ServiceState :=
  match s.waiters[w]? with
  | none => none
  | some x => (waiterStep w s.shared x).map fun (g, x') =>
      { s with shared := g, waiters := s.waiters.set w x' }

def step : Action → ServiceState → Option ServiceState
  | .callSubmit kind, s => some { s with tasks := s.tasks ++ [{ kind := kind }] }
  | .submitter t runtimeClosed, s => s.onTask t (submitterStep t runtimeClosed)
  | .pickUp t, s => s.onTask t fun g τ => (pickUpStep τ).map fun τ' => (g, τ')
  | .destroy t, s => s.onTask t fun g τ => (destroyStep τ).map fun τ' => (g, τ')
  | .worker t outcome, s => s.onTask t (workerStep t outcome)
  | .callCancel t, s => s.onTask t fun g τ => (callCancelStep τ).map fun τ' => (g, τ')
  | .canceller t j, s => s.onTask t (cancellerStep t j)
  | .callClose kind, s => some { s with closers := s.closers ++ [{ kind := kind }] }
  | .closer k, s => stepCloser s k
  | .sweepNext k t, s => stepSweepNext s k t
  | .sweep k, s => stepSweep s k
  | .callWait async, s =>
      some { s with waiters := s.waiters ++ [if async then .enable else .lock] }
  | .waiter w, s => stepWaiter s w

/-- `TokioExecutorService::with_task_capacity`. -/
def service (taskCapacity : NonZeroUsize) : TransitionSystem ServiceState Action where
  start := { shared := { taskCapacity := taskCapacity } }
  step := step

/-- A submission that finds the runtime open, the admission free and no stop in
its way takes twelve steps. -/
def submission (t : TaskId) : List Action := List.replicate 12 (.submitter t false)

/-- A pool thread runs a registered callable from the pick-up to the end. -/
def execution (t : TaskId) (outcome : RunOutcome) : List Action :=
  .pickUp t :: List.replicate 25 (.worker t outcome)

/-! ### What a step can do -/

/-- A step that changes one task: a step of the submission, of Tokio's task, of
a cancellation, or of a stop call that works on the task's registry entry. -/
inductive TaskStep (t : TaskId) (g : TokioExecutorServiceState) (τ : Task) :
    Action → TokioExecutorServiceState → Task → Prop
  | submitter {runtimeClosed g' τ'} (h : submitterStep t runtimeClosed g τ = some (g', τ')) :
      TaskStep t g τ (.submitter t runtimeClosed) g' τ'
  | pickUp {τ'} (h : pickUpStep τ = some τ') : TaskStep t g τ (.pickUp t) g τ'
  | destroy {τ'} (h : destroyStep τ = some τ') : TaskStep t g τ (.destroy t) g τ'
  | worker {outcome g' τ'} (h : workerStep t outcome g τ = some (g', τ')) :
      TaskStep t g τ (.worker t outcome) g' τ'
  | callCancel {τ'} (h : callCancelStep τ = some τ') : TaskStep t g τ (.callCancel t) g τ'
  | canceller {j g' τ'} (h : cancellerStep t j g τ = some (g', τ')) :
      TaskStep t g τ (.canceller t j) g' τ'
  | sweepNext {k} (h : τ.entry = .taken k) :
      TaskStep t g τ (.sweepNext k t) g { τ with entry := .sweeping k .isFinished }
  | sweep {k h g' τ' h'} (hentry : τ.entry = .sweeping k h)
      (hstep : sweepStep k g τ h = some (g', τ', h')) :
      TaskStep t g τ (.sweep k) g' { τ' with entry := .sweeping k h' }
  | finishSweep {k counted} (h : τ.entry = .sweeping k (.next counted)) :
      TaskStep t g τ (.sweep k) g (finishSweep k counted τ)

/-- Everything that a step of the service can do. -/
inductive Effect (s : ServiceState) : Action → ServiceState → Prop
  | newTask (kind : TaskKind) :
      Effect s (.callSubmit kind) { s with tasks := s.tasks ++ [{ kind := kind }] }
  | newCloser (kind : CloserKind) :
      Effect s (.callClose kind) { s with closers := s.closers ++ [{ kind := kind }] }
  | newWaiter (async : Bool) :
      Effect s (.callWait async)
        { s with waiters := s.waiters ++ [if async then .enable else .lock] }
  | task {t τ a g' τ'} (hτ : s.tasks[t]? = some τ) (h : TaskStep t s.shared τ a g' τ')
      (hnext : ∀ k, a ≠ .sweepNext k t)
      (hlast : ∀ k counted, a = .sweep k → τ.entry ≠ .sweeping k (.next counted))
      (hcurrent : ∀ k, a = .sweep k → ∃ c, s.closers[k]? = some c ∧ c.current = some t) :
      Effect s a { s with shared := g', tasks := s.tasks.set t τ' }
  | sweepNext {k c t τ} (hc : s.closers[k]? = some c) (hpc : c.pc = .sweep)
      (hcurrent : c.current = none) (hτ : s.tasks[t]? = some τ) (h : τ.entry = .taken k) :
      Effect s (.sweepNext k t)
        { s with tasks := s.tasks.set t { τ with entry := .sweeping k .isFinished }
                 closers := s.closers.set k { c with current := some t } }
  | finishSweep {k c t τ counted} (hc : s.closers[k]? = some c) (hcurrent : c.current = some t)
      (hτ : s.tasks[t]? = some τ) (h : τ.entry = .sweeping k (.next counted)) :
      Effect s (.sweep k)
        { s with tasks := s.tasks.set t (finishSweep k counted τ)
                 closers := s.closers.set k (c.countSweep counted) }
  | take {k c} (hc : s.closers[k]? = some c) (hpc : c.pc = .take) :
      Effect s (.closer k)
        { s with tasks := s.tasks.map (takeEntry k)
                 closers := s.closers.set k { c with pc := .takeUnlock } }
  | endSweep {k c} (hc : s.closers[k]? = some c) (hpc : c.pc = .sweep)
      (hcurrent : c.current = none) (hleft : ∀ τ ∈ s.tasks, τ.entry ≠ .taken k) :
      Effect s (.closer k)
        { s with closers := s.closers.set k { c with pc := .notifyCapacity } }
  | closer {k c g' c'} (hc : s.closers[k]? = some c)
      (h : closerStep k s.shared c = some (g', c')) :
      Effect s (.closer k) { s with shared := g', closers := s.closers.set k c' }
  | waiter {w x g' x'} (hx : s.waiters[w]? = some x)
      (h : waiterStep w s.shared x = some (g', x')) :
      Effect s (.waiter w) { s with shared := g', waiters := s.waiters.set w x' }

variable {s s' : ServiceState} {a : Action}

theorem onTask_eq_some {t : TaskId}
    {f : TokioExecutorServiceState → Task → Option (TokioExecutorServiceState × Task)} :
    s.onTask t f = some s' ↔ ∃ τ g' τ', s.tasks[t]? = some τ ∧
      f s.shared τ = some (g', τ') ∧
      s' = { s with shared := g', tasks := s.tasks.set t τ' } := by
  unfold ServiceState.onTask
  cases s.tasks[t]? with
  | none => simp
  | some τ =>
      simp only [Option.map_eq_some_iff, Prod.exists, Option.some.injEq]
      constructor
      · rintro ⟨g', τ', hf, rfl⟩
        exact ⟨τ, g', τ', rfl, hf, rfl⟩
      · rintro ⟨_, g', τ', rfl, hf, rfl⟩
        exact ⟨g', τ', hf, rfl⟩

theorem effect_of_closer {k : Nat} (h : stepCloser s k = some s') :
    Effect s (.closer k) s' := by
  unfold stepCloser at h
  cases hc : s.closers[k]? with
  | none => simp [hc] at h
  | some c =>
      simp only [hc] at h
      split at h
      · rename_i hpc
        obtain rfl := Option.some.inj h
        exact .take hc hpc
      · rename_i hpc
        split at h
        · rename_i hdone
          obtain rfl := Option.some.inj h
          exact .endSweep hc hpc hdone.1 hdone.2
        · cases h
      · simp only [Option.map_eq_some_iff, Prod.exists] at h
        obtain ⟨g', c', hstep, rfl⟩ := h
        exact .closer hc hstep

theorem effect_of_sweepNext {k : Nat} {t : TaskId} (h : stepSweepNext s k t = some s') :
    Effect s (.sweepNext k t) s' := by
  unfold stepSweepNext at h
  split at h
  · rename_i c τ hc hτ
    split at h
    · rename_i hready
      obtain rfl := Option.some.inj h
      exact .sweepNext hc hready.1 hready.2.1 hτ hready.2.2
    · cases h
  · cases h

theorem effect_of_sweep {k : Nat} (h : stepSweep s k = some s') :
    Effect s (.sweep k) s' := by
  unfold stepSweep at h
  cases hc : s.closers[k]? with
  | none => simp [hc] at h
  | some c =>
      cases ht : c.current with
      | none => simp [hc, ht] at h
      | some t =>
          cases hτ : s.tasks[t]? with
          | none => simp [hc, ht, hτ] at h
          | some τ =>
              simp only [hc, ht, hτ] at h
              split at h
              · rename_i k' counted hentry
                split at h
                · rename_i hk
                  subst k'
                  obtain rfl := Option.some.inj h
                  exact .finishSweep hc ht hτ hentry
                · cases h
              · rename_i k' pc hother hentry
                split at h
                · rename_i hk
                  subst k'
                  simp only [Option.map_eq_some_iff, Prod.exists] at h
                  obtain ⟨g', τ', pc', hstep, rfl⟩ := h
                  refine .task hτ (.sweep hentry hstep) (by simp) ?_ ?_
                  · intro k' counted _ hnext
                    rw [hentry] at hnext
                    exact hother counted (EntryPc.sweeping.inj hnext).2
                  · intro k' hk
                    obtain rfl := Action.sweep.inj hk
                    exact ⟨c, hc, ht⟩
                · cases h
              · cases h

theorem effect_of_step (h : step a s = some s') : Effect s a s' := by
  cases a <;> simp only [step] at h
  case callSubmit kind => exact Option.some.inj h ▸ .newTask kind
  case callClose kind => exact Option.some.inj h ▸ .newCloser kind
  case callWait async => exact Option.some.inj h ▸ .newWaiter async
  case closer k => exact effect_of_closer h
  case sweepNext k t => exact effect_of_sweepNext h
  case sweep k => exact effect_of_sweep h
  case waiter w =>
    unfold stepWaiter at h
    cases hx : s.waiters[w]? with
    | none => simp [hx] at h
    | some x =>
        simp only [hx, Option.map_eq_some_iff, Prod.exists] at h
        obtain ⟨g', x', hstep, rfl⟩ := h
        exact .waiter hx hstep
  case submitter t runtimeClosed =>
    obtain ⟨τ, g', τ', hτ, hstep, rfl⟩ := onTask_eq_some.mp h
    exact .task hτ (.submitter hstep) (by simp) (by simp) (by simp)
  case worker t outcome =>
    obtain ⟨τ, g', τ', hτ, hstep, rfl⟩ := onTask_eq_some.mp h
    exact .task hτ (.worker hstep) (by simp) (by simp) (by simp)
  case canceller t j =>
    obtain ⟨τ, g', τ', hτ, hstep, rfl⟩ := onTask_eq_some.mp h
    exact .task hτ (.canceller hstep) (by simp) (by simp) (by simp)
  case pickUp t | destroy t | callCancel t =>
    obtain ⟨τ, g', τ', hτ, hstep, rfl⟩ := onTask_eq_some.mp h
    simp only [Option.map_eq_some_iff, Prod.mk.injEq] at hstep
    obtain ⟨_, hstep, rfl, rfl⟩ := hstep
    exact .task hτ (by constructor; exact hstep) (by simp) (by simp) (by simp)

theorem Effect.tasks (h : Effect s a s') :
    (∃ kind, s'.shared = s.shared ∧ s'.tasks = s.tasks ++ [{ kind := kind }]) ∨
    (∃ t τ τ', s.tasks[t]? = some τ ∧ TaskStep t s.shared τ a s'.shared τ' ∧
      s'.tasks = s.tasks.set t τ') ∨
    (∃ k, s'.shared = s.shared ∧ s'.tasks = s.tasks.map (takeEntry k)) ∨
    s'.tasks = s.tasks := by
  cases h with
  | newTask kind => exact .inl ⟨kind, rfl, rfl⟩
  | task hτ h => exact .inr (.inl ⟨_, _, _, hτ, h, rfl⟩)
  | sweepNext _ _ _ hτ h => exact .inr (.inl ⟨_, _, _, hτ, .sweepNext h, rfl⟩)
  | finishSweep _ _ hτ h => exact .inr (.inl ⟨_, _, _, hτ, .finishSweep h, rfl⟩)
  | take => exact .inr (.inr (.inl ⟨_, rfl, rfl⟩))
  | newCloser | newWaiter | endSweep | closer | waiter => exact .inr (.inr (.inr rfl))

theorem taskFamilyMove_of_step (h : step a s = some s') :
    FamilyMove (fun τ => ∃ kind, τ = { kind := kind })
      (fun τ τ' => (∃ t, TaskStep t s.shared τ a s'.shared τ') ∨ ∃ k, τ' = takeEntry k τ)
      s.tasks s'.tasks := by
  rcases (effect_of_step h).tasks with
    ⟨kind, -, heq⟩ | ⟨t, τ, τ', hτ, hτstep, heq⟩ | ⟨k, -, heq⟩ | heq
  · rw [heq]
    exact .append ⟨kind, rfl⟩
  · rw [heq]
    exact .set hτ (.inl ⟨t, hτstep⟩)
  · rw [heq]
    exact .map fun τ _ => .inr ⟨k, rfl⟩
  · rw [heq]
    exact .keep

/-- A property of single tasks that every step of one task keeps holds of all
tasks of every reachable state. -/
theorem forall_tasks_of_reachable {taskCapacity : NonZeroUsize} {P : Task → Prop}
    (hnew : ∀ kind, P { kind := kind }) (htake : ∀ k τ, P τ → P (takeEntry k τ))
    (hstep : ∀ t g τ a g' τ', P τ → TaskStep t g τ a g' τ' → P τ')
    (h : (service taskCapacity).Reachable s) : ∀ τ ∈ s.tasks, P τ := by
  refine Reachable.invariant (P := fun s => ∀ τ ∈ s.tasks, P τ) h (by simp [service]) ?_
  intro s a s' _ ih hs
  refine (taskFamilyMove_of_step hs).forall_mem ?_ ?_ ih
  · rintro _ ⟨kind, rfl⟩
    exact hnew kind
  · rintro τ τ' _ (⟨t, hτstep⟩ | ⟨k, rfl⟩) hP
    · exact hstep t _ τ a _ τ' hP hτstep
    · exact htake k τ hP

theorem exists_task_of_step {P : Task → Prop} {t : TaskId} {τ : Task}
    (hnext : step a s = some s') (hτ : s.tasks[t]? = some τ) (hP : P τ)
    (hstep : ∀ τ', TaskStep t s.shared τ a s'.shared τ' → P τ')
    (htake : ∀ k, P (takeEntry k τ)) : ∃ τ', s'.tasks[t]? = some τ' ∧ P τ' := by
  rcases (effect_of_step hnext).tasks with
    ⟨_, -, heq⟩ | ⟨t₀, τ₀, τ₀', hτ₀, hτstep, heq⟩ | ⟨k, -, heq⟩ | heq
  · exact ⟨τ, by rw [heq, getElem?_append_of_some hτ], hP⟩
  · by_cases ht : t = t₀
    · subst t₀
      obtain rfl := Option.some.inj (hτ.symm.trans hτ₀)
      exact ⟨τ₀', by rw [heq, getElem?_set_self_of_some hτ], hstep τ₀' hτstep⟩
    · exact ⟨τ, by rw [heq, getElem?_set_of_ne ht, hτ], hP⟩
  · exact ⟨takeEntry k τ, by rw [heq, List.getElem?_map, hτ]; rfl, htake k⟩
  · exact ⟨τ, by rw [heq, hτ], hP⟩

end TokioExecutorProofs.BlockingService
