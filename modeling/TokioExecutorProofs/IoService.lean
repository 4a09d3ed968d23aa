import TokioExecutorProofs.IoTask
import TokioExecutorProofs.ProcessFamilies
import TokioExecutorProofs.TransitionSystems

/-!
The IO service as a transition system. Any number of `try_spawn`, `cancel`,
`shutdown`, `stop` and `await_termination` calls, runtime threads and a runtime
that destroys its tasks take their atomic steps in any order.
-/

namespace TokioExecutorProofs.IoService

open ServiceBasics
open IoServiceState
open IoTask
open ProcessFamilies
open TransitionSystems

/-! ### `shutdown()` and `stop()` -/

inductive CloserPc where
  | lockSubmission
  | store
  | getActive
  | unlockSubmission
  | takeLock
  | take
  | takeUnlock
  | sweep
  | notifyCapacity
  | wakeCapacity
  | notifyWaiters
  | wakeTermination
  | returned
  deriving DecidableEq, Repr

/-- A `shutdown()` or `stop()` call. The counts of a stop become its
`StopReport`. -/
structure Closer where
  kind : CloserKind
  pc : CloserPc := .lockSubmission
  runningCount : Nat := 0
  cancellationCount : Nat := 0
  /-- The entry that `abort_tracked_tasks` is about to abort. -/
  current : Option TaskId := none
  deriving DecidableEq, Repr

/-- The steps of a closing call that touch no task. -/
def closerStep (k : Nat) (g : TokioIoExecutorServiceState) (c : Closer) :
    Option (TokioIoExecutorServiceState × Closer) :=
  match c.pc with
  | .lockSubmission =>
      (g.acquire .submission (.closer k)).map fun g' => (g', { c with pc := .store })
  | .store =>
      match c.kind with
      | .shutdown => some (g.shutdown, { c with pc := .unlockSubmission })
      | .stop => some (g.stop, { c with pc := .getActive })
  | .getActive =>
      some (g, { c with pc := .unlockSubmission, runningCount := g.activeTasks })
  | .unlockSubmission =>
      let pc := match c.kind with | .shutdown => .notifyCapacity | .stop => .takeLock
      some (g.release .submission, { c with pc := pc })
  | .takeLock =>
      (g.acquire .abortHandles (.closer k)).map fun g' => (g', { c with pc := .take })
  | .take => none
  | .takeUnlock => some (g.release .abortHandles, { c with pc := .sweep })
  | .sweep => none
  | .notifyCapacity => some (g.notifyCapacityChanged, { c with pc := .wakeCapacity })
  | .wakeCapacity => some (g, { c with pc := .notifyWaiters })
  | .notifyWaiters => some (g.notifyWaiters, { c with pc := .wakeTermination })
  | .wakeTermination => some (g, { c with pc := .returned })
  | .returned => none

/-! ### `await_termination()` -/

/-- `since` is the number of notifications when the waiter enabled its
`Notified`. -/
inductive Waiter where
  | enable
  | load (since : Nat)
  | getActive (since : Nat) (loaded : ExecutorServiceLifecycleBits.ExecutorServiceLifecycle)
  | suspended (since : Nat)
  | awaited
  deriving DecidableEq, Repr

def waiterStep (g : TokioIoExecutorServiceState) : Waiter → Option Waiter
  | .enable => some (.load g.notifyWaitersCalls)
  | .load since => some (.getActive since (ExecutorServiceLifecycleBits.load g.lifecycle))
  | .getActive since loaded =>
      if TokioIoExecutorServiceState.lifecycleOf loaded g.activeTasks = .terminated then
        some .awaited
      else some (.suspended since)
  | .suspended since => if since < g.notifyWaitersCalls then some .enable else none
  | .awaited => none

/-! ### The whole service -/

structure ServiceState where
  shared : TokioIoExecutorServiceState
  tasks : List Task := []
  closers : List Closer := []
  waiters : List Waiter := []

inductive Action where
  | callSpawn
  | submitter (t : TaskId) (runtimeClosed : Bool)
  | abandon (t : TaskId)
  | pickUp (t : TaskId)
  | destroy (t : TaskId)
  | worker (t : TaskId) (outcome : PollOutcome)
  | callCancel (t : TaskId)
  | canceller (t : TaskId) (j : Nat)
  | callClose (kind : CloserKind)
  | closer (k : Nat)
  | sweepNext (k : Nat) (t : TaskId)
  | sweepAbort (k : Nat)
  | callWait
  | waiter (w : Nat)
  deriving DecidableEq, Repr

/-- Let task `t` take a step of its own. -/
def ServiceState.onTask (s : ServiceState) (t : TaskId)
    (f : TokioIoExecutorServiceState → Task → Option (TokioIoExecutorServiceState × Task)) :
    Option ServiceState :=
  match s.tasks[t]? with
  | none => none
  | some τ => (f s.shared τ).map fun (g, τ') =>
      { s with shared := g, tasks := s.tasks.set t τ' }

/-- A `cancel()` call needs the handle, which the submission returns. -/
def callCancelStep (τ : Task) : Option Task :=
  if τ.submitter = .returned then some { τ with cancels := τ.cancels ++ [.isFinished] }
  else none

/-- The check at the start of the loop body of `abort_tracked_tasks`. -/
def sweepCheck (k : Nat) (τ : Task) : Task :=
  { τ with entry := if τ.worker = .finished then .gone else .aborting k }

def sweepAbort (k : Nat) (τ : Task) : Task :=
  { τ with entry := .gone, aborted := true, countedBy := τ.countedBy ++ [k] }

def stepCloser (s : ServiceState) (k : Nat) : Option ServiceState :=
  match s.closers[k]? with
  | none => none
  | some c =>
      match c.pc with
      | .take =>
          some { s with tasks := s.tasks.map (takeEntry k)
                        closers := s.closers.set k { c with pc := .takeUnlock } }
      | .sweep =>
          if c.current = none ∧ ∀ τ ∈ s.tasks, τ.entry ≠ .taken k then
            some { s with closers := s.closers.set k { c with pc := .notifyCapacity } }
          else none
      | _ => (closerStep k s.shared c).map fun (g, c') =>
          { s with shared := g, closers := s.closers.set k c' }

/-- The stop call `k` takes the next entry out of its local map and checks it. -/
def stepSweepNext (s : ServiceState) (k : Nat) (t : TaskId) : Option ServiceState :=
  match s.closers[k]?, s.tasks[t]? with
  | some c, some τ =>
      if c.pc = .sweep ∧ c.current = none ∧ τ.entry = .taken k then
        let current := if τ.worker = .finished then none else some t
        some { s with tasks := s.tasks.set t (sweepCheck k τ)
                      closers := s.closers.set k { c with current := current } }
      else none
  | _, _ => none

def stepSweepAbort (s : ServiceState) (k : Nat) : Option ServiceState :=
  match s.closers[k]? with
  | none => none
  | some c =>
      match c.current with
      | none => none
      | some t =>
          match s.tasks[t]? with
          | none => none
          | some τ =>
              if τ.entry = .aborting k then
                some { s with
                  tasks := s.tasks.set t (sweepAbort k τ)
                  closers := s.closers.set k
                    { c with current := none, cancellationCount := c.cancellationCount + 1 } }
              else none

def stepWaiter (s : ServiceState) (w : Nat) : Option ServiceState :=
  match s.waiters[w]? with
  | none => none
  | some x => (waiterStep s.shared x).map fun x' => { s with waiters := s.waiters.set w x' }

def step : Action → ServiceState → Option ServiceState
  | .callSpawn, s => some { s with tasks := s.tasks ++ [{}] }
  | .submitter t runtimeClosed, s => s.onTask t (submitterStep t runtimeClosed)
  | .abandon t, s => s.onTask t fun g τ => (abandonStep τ).map fun τ' => (g, τ')
  | .pickUp t, s => s.onTask t fun g τ => (pickUpStep τ).map fun τ' => (g, τ')
  | .destroy t, s => s.onTask t fun g τ => (destroyStep τ).map fun τ' => (g, τ')
  | .worker t outcome, s => s.onTask t (workerStep t outcome)
  | .callCancel t, s => s.onTask t fun g τ => (callCancelStep τ).map fun τ' => (g, τ')
  | .canceller t j, s => s.onTask t fun g τ => (cancellerStep j τ).map fun τ' => (g, τ')
  | .callClose kind, s => some { s with closers := s.closers ++ [{ kind := kind }] }
  | .closer k, s => stepCloser s k
  | .sweepNext k t, s => stepSweepNext s k t
  | .sweepAbort k, s => stepSweepAbort s k
  | .callWait, s => some { s with waiters := s.waiters ++ [.enable] }
  | .waiter w, s => stepWaiter s w

/-- `TokioIoExecutorService::with_task_capacity`. -/
def service (taskCapacity : NonZeroUsize) : TransitionSystem ServiceState Action where
  start := { shared := { taskCapacity := taskCapacity } }
  step := step

/-- A spawn on an open runtime with free locks takes ten steps. -/
def submission (t : TaskId) : List Action := List.replicate 10 (.submitter t false)

/-- A runtime thread runs a delivered future whose first poll is the last. -/
def execution (t : TaskId) (outcome : PollOutcome) : List Action :=
  .pickUp t :: List.replicate 13 (.worker t outcome)

/-! ### What a step can do -/

/-- A step that changes one task and no stop call. -/
inductive TaskStep (t : TaskId) (g : TokioIoExecutorServiceState) (τ : Task) :
    Action → TokioIoExecutorServiceState → Task → Prop
  | submitter {runtimeClosed g' τ'} (h : submitterStep t runtimeClosed g τ = some (g', τ')) :
      TaskStep t g τ (.submitter t runtimeClosed) g' τ'
  | abandon (h : τ.submitter = .send) :
      TaskStep t g τ (.abandon t) g { τ with submitter := .abandonFuture }
  | pickUp {received} (h : τ.worker = .idle received) :
      TaskStep t g τ (.pickUp t) g
        { τ with worker := if τ.aborted then .cancelled received
                           else if received then .polling else .recv }
  | destroy {received} (h : τ.worker = .idle received) :
      TaskStep t g τ (.destroy t) g { τ with worker := .cancelled received }
  | worker {outcome g' τ'} (h : workerStep t outcome g τ = some (g', τ')) :
      TaskStep t g τ (.worker t outcome) g' τ'
  | callCancel (h : τ.submitter = .returned) :
      TaskStep t g τ (.callCancel t) g { τ with cancels := τ.cancels ++ [.isFinished] }
  | canceller {j aborted cancels} (h : aborted = τ.aborted ∨ aborted = true)
      (hcancels : τ.cancels ≠ []) :
      TaskStep t g τ (.canceller t j) g { τ with aborted := aborted, cancels := cancels }
  | sweepNext {k} (h : τ.entry = .taken k) :
      TaskStep t g τ (.sweepNext k t) g (sweepCheck k τ)
  | sweepAbort {k} (h : τ.entry = .aborting k) :
      TaskStep t g τ (.sweepAbort k) g (sweepAbort k τ)

/-- Everything that a step of the service can do. -/
inductive Effect (s : ServiceState) : Action → ServiceState → Prop
  | newTask : Effect s .callSpawn { s with tasks := s.tasks ++ [{}] }
  | newCloser (kind : CloserKind) :
      Effect s (.callClose kind) { s with closers := s.closers ++ [{ kind := kind }] }
  | newWaiter : Effect s .callWait { s with waiters := s.waiters ++ [.enable] }
  | task {t τ a g' τ'} (hτ : s.tasks[t]? = some τ) (h : TaskStep t s.shared τ a g' τ')
      (hnext : ∀ k, a ≠ .sweepNext k t) (habort : ∀ k, a ≠ .sweepAbort k) :
      Effect s a { s with shared := g', tasks := s.tasks.set t τ' }
  | sweepNext {k c t τ} (hc : s.closers[k]? = some c) (hpc : c.pc = .sweep)
      (hcurrent : c.current = none) (hτ : s.tasks[t]? = some τ) (h : τ.entry = .taken k) :
      Effect s (.sweepNext k t)
        { s with tasks := s.tasks.set t (sweepCheck k τ)
                 closers := s.closers.set k
                   { c with current := if τ.worker = .finished then none else some t } }
  | sweepAbort {k c t τ} (hc : s.closers[k]? = some c) (hcurrent : c.current = some t)
      (hτ : s.tasks[t]? = some τ) (h : τ.entry = .aborting k) :
      Effect s (.sweepAbort k)
        { s with tasks := s.tasks.set t (sweepAbort k τ)
                 closers := s.closers.set k
                   { c with current := none, cancellationCount := c.cancellationCount + 1 } }
  | take {k c} (hc : s.closers[k]? = some c) (hpc : c.pc = .take) :
      Effect s (.closer k)
        { s with tasks := s.tasks.map (takeEntry k)
                 closers := s.closers.set k { c with pc := .takeUnlock } }
  | endSweep {k c} (hc : s.closers[k]? = some c) (hpc : c.pc = .sweep)
      (hcurrent : c.current = none) (hleft : ∀ τ ∈ s.tasks, τ.entry ≠ .taken k) :
      Effect s (.closer k)
        { s with closers := s.closers.set k { c with pc := .notifyCapacity } }
  | closer {k c g' c'} (hc : s.closers[k]? = some c)
      (h : closerStep k s.shared c = some (g', c')) :
      Effect s (.closer k) { s with shared := g', closers := s.closers.set k c' }
  | waiter {w x x'} (hx : s.waiters[w]? = some x) (h : waiterStep s.shared x = some x') :
      Effect s (.waiter w) { s with waiters := s.waiters.set w x' }

variable {s s' : ServiceState} {a : Action}

theorem onTask_eq_some {t : TaskId}
    {f : TokioIoExecutorServiceState → Task → Option (TokioIoExecutorServiceState × Task)} :
    s.onTask t f = some s' ↔ ∃ τ g' τ', s.tasks[t]? = some τ ∧
      f s.shared τ = some (g', τ') ∧
      s' = { s with shared := g', tasks := s.tasks.set t τ' } := by
  unfold ServiceState.onTask
  cases s.tasks[t]? with
  | none => simp
  | some τ =>
      simp only [Option.map_eq_some_iff, Prod.exists, Option.some.injEq]
      constructor
      · rintro ⟨g', τ', hf, rfl⟩
        exact ⟨τ, g', τ', rfl, hf, rfl⟩
      · rintro ⟨_, g', τ', rfl, hf, rfl⟩
        exact ⟨g', τ', hf, rfl⟩

theorem effect_of_closer {k : Nat} (h : stepCloser s k = some s') :
    Effect s (.closer k) s' := by
  unfold stepCloser at h
  cases hc : s.closers[k]? with
  | none => simp [hc] at h
  | some c =>
      simp only [hc] at h
      split at h
      · rename_i hpc
        obtain rfl := Option.some.inj h
        exact .take hc hpc
      · rename_i hpc
        split at h
        · rename_i hdone
          obtain rfl := Option.some.inj h
          exact .endSweep hc hpc hdone.1 hdone.2
        · cases h
      · simp only [Option.map_eq_some_iff, Prod.exists] at h
        obtain ⟨g', c', hstep, rfl⟩ := h
        exact .closer hc hstep

theorem effect_of_sweepNext {k : Nat} {t : TaskId} (h : stepSweepNext s k t = some s') :
    Effect s (.sweepNext k t) s' := by
  unfold stepSweepNext at h
  split at h
  · rename_i c τ hc hτ
    split at h
    · rename_i hready
      obtain rfl := Option.some.inj h
      exact .sweepNext hc hready.1 hready.2.1 hτ hready.2.2
    · cases h
  · cases h

theorem effect_of_sweepAbort {k : Nat} (h : stepSweepAbort s k = some s') :
    Effect s (.sweepAbort k) s' := by
  unfold stepSweepAbort at h
  cases hc : s.closers[k]? with
  | none => simp [hc] at h
  | some c =>
      cases ht : c.current with
      | none => simp [hc, ht] at h
      | some t =>
          cases hτ : s.tasks[t]? with
          | none => simp [hc, ht, hτ] at h
          | some τ =>
              simp only [hc, ht, hτ] at h
              split at h
              · rename_i hentry
                obtain rfl := Option.some.inj h
                exact .sweepAbort hc ht hτ hentry
              · cases h

theorem taskStep_of_canceller {t : TaskId} {j : Nat} {g : TokioIoExecutorServiceState}
    {τ τ' : Task} (h : cancellerStep j τ = some τ') : TaskStep t g τ (.canceller t j) g τ' := by
  unfold cancellerStep at h
  cases hc : τ.cancels[j]? with
  | none => simp [hc] at h
  | some c =>
      have hne : τ.cancels ≠ [] := List.ne_nil_of_mem (mem_of_getElem? hc)
      cases c <;> simp only [hc, cancelStep, Option.map_some, Option.map_none, Option.some.injEq,
        reduceCtorEq] at h
      · rw [← h]
        exact .canceller (.inl rfl) hne
      · rw [← h]
        exact .canceller (.inr rfl) hne

theorem effect_of_step (h : step a s = some s') : Effect s a s' := by
  cases a <;> simp only [step] at h
  case callSpawn => exact Option.some.inj h ▸ .newTask
  case callClose kind => exact Option.some.inj h ▸ .newCloser kind
  case callWait => exact Option.some.inj h ▸ .newWaiter
  case closer k => exact effect_of_closer h
  case sweepNext k t => exact effect_of_sweepNext h
  case sweepAbort k => exact effect_of_sweepAbort h
  case waiter w =>
    unfold stepWaiter at h
    cases hx : s.waiters[w]? with
    | none => simp [hx] at h
    | some x =>
        simp only [hx, Option.map_eq_some_iff] at h
        obtain ⟨x', hstep, rfl⟩ := h
        exact .waiter hx hstep
  case submitter t runtimeClosed =>
    obtain ⟨τ, g', τ', hτ, hstep, rfl⟩ := onTask_eq_some.mp h
    exact .task hτ (.submitter hstep) (by simp) (by simp)
  case worker t outcome =>
    obtain ⟨τ, g', τ', hτ, hstep, rfl⟩ := onTask_eq_some.mp h
    exact .task hτ (.worker hstep) (by simp) (by simp)
  case abandon t =>
    obtain ⟨τ, g', τ', hτ, hstep, rfl⟩ := onTask_eq_some.mp h
    simp only [Option.map_eq_some_iff, Prod.mk.injEq, abandonStep] at hstep
    obtain ⟨_, hstep, rfl, rfl⟩ := hstep
    split at hstep <;> cases hstep
    exact .task hτ (.abandon ‹_›) (by simp) (by simp)
  case callCancel t =>
    obtain ⟨τ, g', τ', hτ, hstep, rfl⟩ := onTask_eq_some.mp h
    simp only [Option.map_eq_some_iff, Prod.mk.injEq, callCancelStep] at hstep
    obtain ⟨_, hstep, rfl, rfl⟩ := hstep
    split at hstep <;> cases hstep
    exact .task hτ (.callCancel ‹_›) (by simp) (by simp)
  case canceller t j =>
    obtain ⟨τ, g', τ', hτ, hstep, rfl⟩ := onTask_eq_some.mp h
    simp only [Option.map_eq_some_iff, Prod.mk.injEq] at hstep
    obtain ⟨_, hstep, rfl, rfl⟩ := hstep
    exact .task hτ (taskStep_of_canceller hstep) (by simp) (by simp)
  case pickUp t =>
    obtain ⟨τ, g', τ', hτ, hstep, rfl⟩ := onTask_eq_some.mp h
    simp only [Option.map_eq_some_iff, Prod.mk.injEq, pickUpStep] at hstep
    obtain ⟨_, hstep, rfl, rfl⟩ := hstep
    split at hstep <;> cases hstep
    exact .task hτ (.pickUp ‹_›) (by simp) (by simp)
  case destroy t =>
    obtain ⟨τ, g', τ', hτ, hstep, rfl⟩ := onTask_eq_some.mp h
    simp only [Option.map_eq_some_iff, Prod.mk.injEq, destroyStep] at hstep
    obtain ⟨_, hstep, rfl, rfl⟩ := hstep
    split at hstep <;> cases hstep
    exact .task hτ (.destroy ‹_›) (by simp) (by simp)

theorem Effect.tasks (h : Effect s a s') :
    (s'.shared = s.shared ∧ s'.tasks = s.tasks ++ [{ submitter := .lockSubmission }]) ∨
    (∃ t τ τ', s.tasks[t]? = some τ ∧ TaskStep t s.shared τ a s'.shared τ' ∧
      s'.tasks = s.tasks.set t τ') ∨
    (∃ k, s'.shared = s.shared ∧ s'.tasks = s.tasks.map (takeEntry k)) ∨
    s'.tasks = s.tasks := by
  cases h with
  | newTask => exact .inl ⟨rfl, rfl⟩
  | task hτ h => exact .inr (.inl ⟨_, _, _, hτ, h, rfl⟩)
  | sweepNext _ _ _ hτ h => exact .inr (.inl ⟨_, _, _, hτ, .sweepNext h, rfl⟩)
  | sweepAbort _ _ hτ h => exact .inr (.inl ⟨_, _, _, hτ, .sweepAbort h, rfl⟩)
  | take => exact .inr (.inr (.inl ⟨_, rfl, rfl⟩))
  | newCloser | newWaiter | endSweep | closer | waiter => exact .inr (.inr (.inr rfl))

theorem taskFamilyMove_of_step (h : step a s = some s') :
    FamilyMove (fun τ => τ = {})
      (fun τ τ' => (∃ t, TaskStep t s.shared τ a s'.shared τ') ∨ ∃ k, τ' = takeEntry k τ)
      s.tasks s'.tasks := by
  rcases (effect_of_step h).tasks with
    ⟨-, heq⟩ | ⟨t, τ, τ', hτ, hτstep, heq⟩ | ⟨k, -, heq⟩ | heq
  · rw [heq]
    exact .append rfl
  · rw [heq]
    exact .set hτ (.inl ⟨t, hτstep⟩)
  · rw [heq]
    exact .map fun τ _ => .inr ⟨k, rfl⟩
  · rw [heq]
    exact .keep

theorem forall_tasks_of_reachable {taskCapacity : NonZeroUsize} {P : Task → Prop}
    (hnew : P {}) (htake : ∀ k τ, P τ → P (takeEntry k τ))
    (hstep : ∀ t g τ a g' τ', P τ → TaskStep t g τ a g' τ' → P τ')
    (h : (service taskCapacity).Reachable s) : ∀ τ ∈ s.tasks, P τ := by
  refine Reachable.invariant (P := fun s => ∀ τ ∈ s.tasks, P τ) h (by simp [service]) ?_
  intro s a s' _ ih hs
  refine (taskFamilyMove_of_step hs).forall_mem ?_ ?_ ih
  · rintro _ rfl
    exact hnew
  · rintro τ τ' _ (⟨t, hτstep⟩ | ⟨k, rfl⟩) hP
    · exact hstep t _ τ a _ τ' hP hτstep
    · exact htake k τ hP

theorem exists_task_of_step {P : Task → Prop} {t : TaskId} {τ : Task}
    (hnext : step a s = some s') (hτ : s.tasks[t]? = some τ) (hP : P τ)
    (hstep : ∀ τ', TaskStep t s.shared τ a s'.shared τ' → P τ')
    (htake : ∀ k, P (takeEntry k τ)) : ∃ τ', s'.tasks[t]? = some τ' ∧ P τ' := by
  rcases (effect_of_step hnext).tasks with
    ⟨-, heq⟩ | ⟨t₀, τ₀, τ₀', hτ₀, hτstep, heq⟩ | ⟨k, -, heq⟩ | heq
  · exact ⟨τ, by rw [heq, getElem?_append_of_some hτ], hP⟩
  · by_cases ht : t = t₀
    · subst t₀
      obtain rfl := Option.some.inj (hτ.symm.trans hτ₀)
      exact ⟨τ₀', by rw [heq, getElem?_set_self_of_some hτ], hstep τ₀' hτstep⟩
    · exact ⟨τ, by rw [heq, getElem?_set_of_ne ht, hτ], hP⟩
  · exact ⟨takeEntry k τ, by rw [heq, List.getElem?_map, hτ]; rfl, htake k⟩
  · exact ⟨τ, by rw [heq, hτ], hP⟩

end TokioExecutorProofs.IoService
