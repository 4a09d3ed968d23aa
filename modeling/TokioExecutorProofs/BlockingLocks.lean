import TokioExecutorProofs.BlockingActivities

/-!
Which locks each activity holds, read off its position, and that the lock table
agrees: the critical sections of the service exclude each other.
-/

namespace TokioExecutorProofs.BlockingLocks

open ServiceBasics
open BlockingServiceState
open BlockingServiceState.TokioExecutorServiceState
open BlockingTask
open BlockingService
open BlockingTaskPlacement
open BlockingTaskRegistry
open BlockingTaskInvariants
open BlockingSweeps
open BlockingActivities
open MutexTables
open ProcessFamilies
open TransitionSystems

/-! ### Positions that hold a lock -/

def RemovePc.holds : RemovePc → Lock → Bool
  | .remove, .abortHandles | .dropEntry, .abortHandles | .wakeDropped, .abortHandles
  | .unlock, .abortHandles => true
  | _, _ => false

def GuardPc.holds : GuardPc → Lock → Bool
  | .remove r => RemovePc.holds r
  | .swap => fun _ => false
  | .finish _ f => f.holds

def SubmitterPc.holds : SubmitterPc → Lock → Bool
  | .checkRunning, .submission | .acceptLock, .submission | .accept, .submission
  | .acceptUnlock _, .submission | .rejectUnlock _, .submission | .shareSlot, .submission
  | .spawn, .submission | .registerLock, .submission | .register, .submission
  | .registerUnlock _, .submission | .dropHook, .submission | .wakeDropped, .submission
  | .unlockSubmission, .submission => true
  | .accept, .taskCounts | .acceptUnlock _, .taskCounts => true
  | .register, .abortHandles | .registerUnlock _, .abortHandles => true
  | .dropGuard d, l => GuardPc.holds d l
  | _, _ => false

def WorkerPc.holds : WorkerPc → Lock → Bool
  | .start, .taskCounts | .startUnlock, .taskCounts => true
  | .ranGuard d, l | .refusedGuard d, l | .destroyGuard d, l => GuardPc.holds d l
  | _, _ => false

def SweepPc.holds : SweepPc → Lock → Bool
  | .finish f => f.holds
  | _ => fun _ => false

def EntryPc.holds (k : Nat) : EntryPc → Lock → Bool
  | .sweeping k' p, l => decide (k' = k) && SweepPc.holds p l
  | _, _ => false

def CancelPc.holds : CancelPc → Lock → Bool
  | .remove r => RemovePc.holds r
  | .finish f => f.holds
  | _ => fun _ => false

def CloserPc.holds : CloserPc → Lock → Bool
  | .store, .submission | .snapshotLock, .submission | .snapshot, .submission
  | .snapshotUnlock, .submission | .unlockSubmission, .submission => true
  | .snapshot, .taskCounts | .snapshotUnlock, .taskCounts | .read, .taskCounts
  | .readUnlock _, .taskCounts => true
  | .take, .abortHandles | .takeUnlock, .abortHandles => true
  | _, _ => false

def Waiter.holds : Waiter → Lock → Bool
  | .load, .taskCounts | .readCounts _, .taskCounts | .unlock, .taskCounts => true
  | _, _ => false

/-- The locks that an activity holds at task `t`. -/
def taskHolds (t : TaskId) (τ : Task) : Actor → Lock → Prop
  | .submitter t', l => t' = t ∧ SubmitterPc.holds τ.submitter l = true
  | .worker t', l => t' = t ∧ WorkerPc.holds τ.worker l = true
  | .canceller t' j, l =>
      t' = t ∧ ∃ c, τ.cancels[j]? = some c ∧ CancelPc.holds c l = true
  | .closer k, l => EntryPc.holds k τ.entry l = true
  | .waiter _, _ => False

/-- The locks that an activity holds. A stop call in a loop body also holds what
the position of its entry says. -/
def holds (s : ServiceState) (o : Actor) (l : Lock) : Prop :=
  match o with
  | .closer k => ∃ c, s.closers[k]? = some c ∧ (CloserPc.holds c.pc l = true ∨
      ∃ t τ, c.current = some t ∧ s.tasks[t]? = some τ ∧ taskHolds t τ o l)
  | .waiter w => ∃ x, s.waiters[w]? = some x ∧ Waiter.holds x l = true
  | _ => ∃ t τ, s.tasks[t]? = some τ ∧ taskHolds t τ o l

/-! ### What a step does to the table -/

section

variable {t : TaskId} {g g' : TokioExecutorServiceState} {τ τ' : Task} {a : Actor}

theorem finishTaskStep_lockMove {started : Bool} {f : FinishPc} {next : Option FinishPc}
    (h : finishTaskStep a started g f = some (g', next)) :
    LockMove g.locks a (fun l => f.holds l = true)
      (fun l => ∃ f', next = some f' ∧ f'.holds l = true) g'.locks := by
  cases f <;> simp only [finishTaskStep] at h
  case lock =>
    simp only [map_acquire_eq_some, Prod.mk.injEq] at h
    obtain ⟨hfree, rfl, rfl⟩ := h
    exact .acquire hfree (by intro l; cases l <;> simp [FinishPc.holds])
  case update =>
    simp only [Option.some.injEq, Prod.mk.injEq] at h
    obtain ⟨rfl, rfl⟩ := h
    exact .keep fun l => by cases l <;> simp [FinishPc.holds]
  case unlock =>
    simp only [Option.some.injEq, Prod.mk.injEq] at h
    obtain ⟨rfl, rfl⟩ := h
    refine .release (l := Lock.taskCounts) rfl fun l => ?_
    cases l <;> simp [FinishPc.holds]
  all_goals
    simp only [Option.some.injEq, Prod.mk.injEq] at h
    obtain ⟨rfl, rfl⟩ := h
    exact .keep fun l => by cases l <;> simp [FinishPc.holds]

theorem removeAbortHandleStep_lockMove {r : RemovePc} {next : Option RemovePc}
    (h : removeAbortHandleStep a g τ r = some (g', τ', next)) :
    LockMove g.locks a (fun l => RemovePc.holds r l = true)
      (fun l => ∃ r', next = some r' ∧ RemovePc.holds r' l = true) g'.locks := by
  cases r <;> simp only [removeAbortHandleStep] at h
  case lock =>
    simp only [map_acquire_eq_some, Prod.mk.injEq] at h
    obtain ⟨hfree, rfl, rfl, rfl⟩ := h
    exact .acquire hfree (by intro l; cases l <;> simp [RemovePc.holds])
  case unlock =>
    simp only [Option.some.injEq, Prod.mk.injEq] at h
    obtain ⟨rfl, rfl, rfl⟩ := h
    refine .release (l := Lock.abortHandles) rfl fun l => ?_
    cases l <;> simp [RemovePc.holds]
  case remove =>
    split at h <;> simp only [Option.some.injEq, Prod.mk.injEq] at h <;>
      obtain ⟨rfl, rfl, rfl⟩ := h <;>
      exact .keep (by intro l; cases l <;> simp [RemovePc.holds])
  case dropEntry =>
    simp only [Option.some.injEq, Prod.mk.injEq] at h
    obtain ⟨rfl, rfl, rfl⟩ := h
    exact .keep (by intro l; split <;> cases l <;> simp [RemovePc.holds])
  all_goals
    simp only [Option.some.injEq, Prod.mk.injEq] at h
    obtain ⟨rfl, rfl, rfl⟩ := h
    exact .keep (by intro l; cases l <;> simp [RemovePc.holds])

theorem guardStep_lockMove {d : GuardPc} {next : Option GuardPc}
    (h : guardStep a g τ d = some (g', τ', next)) :
    LockMove g.locks a (fun l => GuardPc.holds d l = true)
      (fun l => ∃ d', next = some d' ∧ GuardPc.holds d' l = true) g'.locks := by
  cases d <;> simp only [guardStep] at h
  case remove r =>
    simp only [Option.map_eq_some_iff, Prod.mk.injEq, Prod.exists] at h
    obtain ⟨_, _, next', hstep, rfl, rfl, rfl⟩ := h
    refine (removeAbortHandleStep_lockMove hstep).congr (fun _ => Iff.rfl) fun l => ?_
    cases next' <;> simp [GuardPc.holds]
  case swap =>
    split at h <;> simp only [Option.some.injEq, Prod.mk.injEq] at h <;>
      obtain ⟨rfl, rfl, rfl⟩ := h <;>
      exact .keep (by intro l; cases l <;> simp [GuardPc.holds, FinishPc.holds])
  case finish started f =>
    simp only [Option.map_eq_some_iff, Prod.mk.injEq, Prod.exists] at h
    obtain ⟨_, next', hstep, rfl, rfl, rfl⟩ := h
    refine (finishTaskStep_lockMove hstep).congr (fun _ => Iff.rfl) fun l => ?_
    cases next' <;> simp [GuardPc.holds]

theorem submitterStep_lockMove {runtimeClosed : Bool}
    (h : submitterStep t runtimeClosed g τ = some (g', τ')) :
    LockMove g.locks (.submitter t) (fun l => SubmitterPc.holds τ.submitter l = true)
      (fun l => SubmitterPc.holds τ'.submitter l = true) g'.locks := by
  cases hs : τ.submitter <;> simp only [submitterStep, hs] at h
  case rejected | returned => cases h
  case lockSubmission | acceptLock | registerLock =>
    simp only [map_acquire_eq_some, Prod.mk.injEq] at h
    obtain ⟨hfree, rfl, rfl⟩ := h
    exact .acquire hfree (by intro l; cases l <;> simp [SubmitterPc.holds])
  case acceptUnlock accepted =>
    simp only [Option.some.injEq, Prod.mk.injEq] at h
    obtain ⟨rfl, rfl⟩ := h
    refine .release (l := Lock.taskCounts) rfl fun l => ?_
    cases accepted <;> cases l <;> simp [SubmitterPc.holds]
  case registerUnlock inserted =>
    simp only [Option.some.injEq, Prod.mk.injEq] at h
    obtain ⟨rfl, rfl⟩ := h
    refine .release (l := Lock.abortHandles) rfl fun l => ?_
    cases inserted <;> cases l <;> simp [SubmitterPc.holds]
  case rejectUnlock | unlockSubmission =>
    simp only [Option.some.injEq, Prod.mk.injEq] at h
    obtain ⟨rfl, rfl⟩ := h
    refine .release (l := Lock.submission) rfl fun l => ?_
    cases l <;> simp [SubmitterPc.holds]
  case dropClosure c =>
    simp only [Option.some.injEq, Prod.mk.injEq] at h
    obtain ⟨rfl, rfl⟩ := h
    refine .keep ?_
    intro l
    dsimp only
    split <;> cases l <;> simp [SubmitterPc.holds, GuardPc.holds, RemovePc.holds]
  case dropGuard d =>
    simp only [Option.map_eq_some_iff, Prod.mk.injEq, Prod.exists] at h
    obtain ⟨_, τ₁, next, hstep, rfl, rfl⟩ := h
    refine (guardStep_lockMove hstep).congr (fun _ => Iff.rfl) fun l => ?_
    cases next <;> simp [SubmitterPc.holds]
  case dropHook | checkRunning =>
    simp only [Option.some.injEq, Prod.mk.injEq] at h
    obtain ⟨rfl, rfl⟩ := h
    refine .keep ?_
    intro l
    dsimp only
    split <;> cases l <;> simp [SubmitterPc.holds]
  case accept | spawn | register | send =>
    split at h
    all_goals
      simp only [Option.some.injEq, Prod.mk.injEq, reduceCtorEq] at h
      try obtain ⟨rfl, rfl⟩ := h
      try exact .keep (by intro l; cases l <;> simp [SubmitterPc.holds])
  all_goals
    simp only [Option.some.injEq, Prod.mk.injEq] at h
    obtain ⟨rfl, rfl⟩ := h
    exact .keep (by intro l; cases l <;> simp [SubmitterPc.holds])

theorem workerStep_lockMove {outcome : RunOutcome}
    (h : workerStep t outcome g τ = some (g', τ')) :
    LockMove g.locks (.worker t) (fun l => WorkerPc.holds τ.worker l = true)
      (fun l => WorkerPc.holds τ'.worker l = true) g'.locks := by
  have henter : ∀ l, WorkerPc.holds τ.enterTask l = false := by
    intro l
    unfold Task.enterTask
    split <;> rfl
  cases hs : τ.worker <;> simp only [workerStep, hs] at h
  case absent | queued | finished => cases h
  case startLock =>
    simp only [map_acquire_eq_some, Prod.mk.injEq] at h
    obtain ⟨hfree, rfl, rfl⟩ := h
    exact .acquire hfree (by intro l; cases l <;> simp [WorkerPc.holds])
  case startUnlock =>
    simp only [Option.some.injEq, Prod.mk.injEq] at h
    obtain ⟨rfl, rfl⟩ := h
    refine .release (l := Lock.taskCounts) rfl fun l => ?_
    simp only [henter]
    cases l <;> simp [WorkerPc.holds]
  case ranClosure | refusedClosure | destroyClosure =>
    simp only [Option.some.injEq, Prod.mk.injEq] at h
    obtain ⟨rfl, rfl⟩ := h
    refine .keep fun l => ?_
    dsimp only
    split <;> cases l <;> simp [WorkerPc.holds, GuardPc.holds, RemovePc.holds]
  case ranGuard d | refusedGuard d | destroyGuard d =>
    simp only [Option.map_eq_some_iff, Prod.mk.injEq, Prod.exists] at h
    obtain ⟨_, τ₁, next, hstep, rfl, rfl⟩ := h
    refine (guardStep_lockMove hstep).congr (fun _ => Iff.rfl) fun l => ?_
    cases next <;> simp [WorkerPc.holds]
  case executing | dropReceiver =>
    simp only [Option.some.injEq, Prod.mk.injEq] at h
    obtain ⟨rfl, rfl⟩ := h
    refine .keep fun l => ?_
    dsimp only
    split <;> cases l <;> simp [WorkerPc.holds]
  case markStarted =>
    split at h <;> simp only [Option.some.injEq, Prod.mk.injEq] at h <;>
      obtain ⟨rfl, rfl⟩ := h <;> refine .keep fun l => ?_
    · cases l <;> simp [WorkerPc.holds]
    · simp only [henter]
      simp [WorkerPc.holds]
    · cases l <;> simp [WorkerPc.holds, GuardPc.holds, RemovePc.holds]
  case recv | takeSlot | startSlot =>
    split at h
    all_goals
      simp only [Option.some.injEq, Prod.mk.injEq, reduceCtorEq] at h
      try obtain ⟨rfl, rfl⟩ := h
      try exact .keep (by intro l; cases l <;> simp [WorkerPc.holds])
  all_goals
    simp only [Option.some.injEq, Prod.mk.injEq] at h
    obtain ⟨rfl, rfl⟩ := h
    exact .keep fun l => by cases l <;> simp [WorkerPc.holds]

theorem cancelStep_lockMove {c c' : CancelPc} (h : cancelStep a g τ c = some (g', τ', c')) :
    LockMove g.locks a (fun l => CancelPc.holds c l = true)
      (fun l => CancelPc.holds c' l = true) g'.locks := by
  cases c <;> simp only [cancelStep] at h
  case remove r =>
    simp only [Option.map_eq_some_iff, Prod.mk.injEq, Prod.exists] at h
    obtain ⟨_, _, next, hstep, rfl, rfl, rfl⟩ := h
    refine (removeAbortHandleStep_lockMove hstep).congr (fun _ => Iff.rfl) fun l => ?_
    cases next <;> simp [CancelPc.holds]
  case finish f =>
    simp only [Option.map_eq_some_iff, Prod.mk.injEq, Prod.exists] at h
    obtain ⟨_, next, hstep, rfl, rfl, rfl⟩ := h
    refine (finishTaskStep_lockMove hstep).congr (fun _ => Iff.rfl) fun l => ?_
    cases next <;> simp [CancelPc.holds]
  case cancel =>
    split at h <;> simp only [Option.some.injEq, Prod.mk.injEq] at h <;>
      obtain ⟨rfl, rfl, rfl⟩ := h <;> exact .keep fun l => by simp [CancelPc.holds]
  case finishQueued =>
    simp only [Option.some.injEq, Prod.mk.injEq] at h
    obtain ⟨rfl, rfl, rfl⟩ := h
    refine .keep fun l => ?_
    split <;> cases l <;> simp [CancelPc.holds, FinishPc.holds]
  case returned => cases h
  all_goals
    simp only [Option.some.injEq, Prod.mk.injEq] at h
    obtain ⟨rfl, rfl, rfl⟩ := h
    exact .keep fun l => by cases l <;> simp [CancelPc.holds, RemovePc.holds]

theorem sweepStep_lockMove {k : Nat} {p p' : SweepPc}
    (h : sweepStep k g τ p = some (g', τ', p')) :
    LockMove g.locks (.closer k) (fun l => SweepPc.holds p l = true)
      (fun l => SweepPc.holds p' l = true) g'.locks := by
  cases p <;> simp only [sweepStep] at h
  case finish f =>
    simp only [Option.map_eq_some_iff, Prod.mk.injEq, Prod.exists] at h
    obtain ⟨_, next, hstep, rfl, rfl, rfl⟩ := h
    refine (finishTaskStep_lockMove hstep).congr (fun _ => Iff.rfl) fun l => ?_
    cases next with
    | some f' => simp [SweepPc.holds]
    | none =>
        dsimp only
        split <;> simp [SweepPc.holds]
  case next => cases h
  case abort | wakeCancelled | wakeDropped =>
    simp only [Option.some.injEq, Prod.mk.injEq] at h
    obtain ⟨rfl, rfl, rfl⟩ := h
    exact .keep fun l => by simp [SweepPc.holds]
  all_goals
    simp only [Option.some.injEq, Prod.mk.injEq] at h
    obtain ⟨rfl, rfl, rfl⟩ := h
    refine .keep fun l => ?_
    split <;> cases l <;> simp [SweepPc.holds, FinishPc.holds]

theorem closerStep_lockMove {k : Nat} {c c' : Closer} (h : closerStep k g c = some (g', c')) :
    LockMove g.locks (.closer k) (fun l => CloserPc.holds c.pc l = true)
      (fun l => CloserPc.holds c'.pc l = true) g'.locks := by
  cases hpc : c.pc <;> simp only [closerStep, hpc] at h
  case take | sweep | returned => cases h
  case lockSubmission | snapshotLock | takeLock | readLock =>
    simp only [map_acquire_eq_some, Prod.mk.injEq] at h
    obtain ⟨hfree, rfl, rfl⟩ := h
    exact .acquire hfree fun l => by cases l <;> simp [CloserPc.holds]
  case store =>
    split at h <;> simp only [Option.some.injEq, Prod.mk.injEq] at h <;>
      obtain ⟨rfl, rfl⟩ := h <;> exact .keep fun l => by cases l <;> simp [CloserPc.holds]
  case unlockSubmission =>
    simp only [Option.some.injEq, Prod.mk.injEq] at h
    obtain ⟨rfl, rfl⟩ := h
    refine .release (l := Lock.submission) rfl fun l => ?_
    dsimp only
    split <;> cases l <;> simp [CloserPc.holds]
  case snapshotUnlock =>
    simp only [Option.some.injEq, Prod.mk.injEq] at h
    obtain ⟨rfl, rfl⟩ := h
    refine .release (l := Lock.taskCounts) rfl fun l => ?_
    cases l <;> simp [CloserPc.holds]
  case readUnlock terminated =>
    simp only [Option.some.injEq, Prod.mk.injEq] at h
    obtain ⟨rfl, rfl⟩ := h
    refine .release (l := Lock.taskCounts) rfl fun l => ?_
    dsimp only
    split <;> cases l <;> simp [CloserPc.holds]
  case takeUnlock =>
    simp only [Option.some.injEq, Prod.mk.injEq] at h
    obtain ⟨rfl, rfl⟩ := h
    refine .release (l := Lock.abortHandles) rfl fun l => ?_
    cases l <;> simp [CloserPc.holds]
  all_goals
    simp only [Option.some.injEq, Prod.mk.injEq] at h
    obtain ⟨rfl, rfl⟩ := h
    exact .keep fun l => by cases l <;> simp [CloserPc.holds]

theorem waiterStep_lockMove {w : Nat} {x x' : Waiter} (h : waiterStep w g x = some (g', x')) :
    LockMove g.locks (.waiter w) (fun l => Waiter.holds x l = true)
      (fun l => Waiter.holds x' l = true) g'.locks := by
  cases x <;> simp only [waiterStep] at h
  case lock =>
    simp only [map_acquire_eq_some, Prod.mk.injEq] at h
    obtain ⟨hfree, rfl, rfl⟩ := h
    exact .acquire hfree fun l => by cases l <;> simp [Waiter.holds]
  case waited | awaited => cases h
  case readCounts =>
    split at h <;> simp only [Option.some.injEq, Prod.mk.injEq] at h <;>
      obtain ⟨rfl, rfl⟩ := h
    · exact .keep fun l => by cases l <;> simp [Waiter.holds]
    · refine .release (l := Lock.taskCounts) rfl fun l => ?_
      cases l <;> simp [Waiter.holds]
  case unlock =>
    simp only [Option.some.injEq, Prod.mk.injEq] at h
    obtain ⟨rfl, rfl⟩ := h
    refine .release (l := Lock.taskCounts) rfl fun l => ?_
    cases l <;> simp [Waiter.holds]
  case parked | suspended =>
    split at h
    · simp only [Option.some.injEq, Prod.mk.injEq] at h
      obtain ⟨rfl, rfl⟩ := h
      exact .keep fun l => by cases l <;> simp [Waiter.holds]
    · cases h
  case asyncReadCounts =>
    split at h
    · split at h <;> simp only [Option.some.injEq, Prod.mk.injEq] at h <;>
        obtain ⟨rfl, rfl⟩ := h <;> exact .keep fun l => by cases l <;> simp [Waiter.holds]
    · cases h
  all_goals
    simp only [Option.some.injEq, Prod.mk.injEq] at h
    obtain ⟨rfl, rfl⟩ := h
    exact .keep fun l => by cases l <;> simp [Waiter.holds]

end

/-! ### Over whole runs -/

section

variable {s s' : ServiceState} {a : Action} {t : TaskId} {τ : Task} {o : Actor} {l : Lock}
  {taskCapacity : NonZeroUsize}

def Position.holds : Position → Lock → Bool
  | .submitter pc, l => SubmitterPc.holds pc l
  | .worker pc, l => WorkerPc.holds pc l
  | .canceller pc, l => CancelPc.holds pc l
  | .closer pc sweep, l => CloserPc.holds pc l || sweep.any (SweepPc.holds · l)
  | .waiter pc, l => Waiter.holds pc l

theorem holds_submitter_iff (hτ : s.tasks[t]? = some τ) :
    holds s (.submitter t) l ↔ SubmitterPc.holds τ.submitter l = true := by
  constructor
  · rintro ⟨t₁, τ₁, hτ₁, rfl, hh⟩
    obtain rfl := Option.some.inj (hτ₁.symm.trans hτ)
    exact hh
  · exact fun hh => ⟨t, τ, hτ, rfl, hh⟩

theorem holds_worker_iff (hτ : s.tasks[t]? = some τ) :
    holds s (.worker t) l ↔ WorkerPc.holds τ.worker l = true := by
  constructor
  · rintro ⟨t₁, τ₁, hτ₁, rfl, hh⟩
    obtain rfl := Option.some.inj (hτ₁.symm.trans hτ)
    exact hh
  · exact fun hh => ⟨t, τ, hτ, rfl, hh⟩

theorem holds_canceller_iff {j : Nat} {c : CancelPc} (hτ : s.tasks[t]? = some τ)
    (hc : τ.cancels[j]? = some c) :
    holds s (.canceller t j) l ↔ CancelPc.holds c l = true := by
  constructor
  · rintro ⟨t₁, τ₁, hτ₁, rfl, c₁, hc₁, hh⟩
    obtain rfl := Option.some.inj (hτ₁.symm.trans hτ)
    obtain rfl := Option.some.inj (hc₁.symm.trans hc)
    exact hh
  · exact fun hh => ⟨t, τ, hτ, rfl, c, hc, hh⟩

theorem holds_closer_iff {k : Nat} {c : Closer} (hc : s.closers[k]? = some c)
    (hnone : c.current = none) :
    holds s (.closer k) l ↔ CloserPc.holds c.pc l = true := by
  constructor
  · rintro ⟨c₁, hc₁, hh⟩
    obtain rfl := Option.some.inj (hc₁.symm.trans hc)
    rcases hh with hh | ⟨t, _, ht, _⟩
    · exact hh
    · rw [hnone] at ht
      cases ht
  · exact fun hh => ⟨c, hc, .inl hh⟩

theorem holds_sweeping_iff {k : Nat} {c : Closer} {p : SweepPc} (hc : s.closers[k]? = some c)
    (hpc : c.pc = .sweep) (hcurrent : c.current = some t) (hτ : s.tasks[t]? = some τ)
    (hentry : τ.entry = .sweeping k p) :
    holds s (.closer k) l ↔ SweepPc.holds p l = true := by
  constructor
  · rintro ⟨c₁, hc₁, hh⟩
    obtain rfl := Option.some.inj (hc₁.symm.trans hc)
    rcases hh with hh | ⟨t₁, τ₁, ht₁, hτ₁, hh⟩
    · simp [hpc, CloserPc.holds] at hh
    · obtain rfl := Option.some.inj (ht₁.symm.trans hcurrent)
      obtain rfl := Option.some.inj (hτ₁.symm.trans hτ)
      simpa [taskHolds, hentry, EntryPc.holds] using hh
  · exact fun hh => ⟨c, hc, .inr ⟨t, τ, hcurrent, hτ, by simpa [taskHolds, hentry, EntryPc.holds]⟩⟩

theorem holds_waiter_iff {w : Nat} {x : Waiter} (hx : s.waiters[w]? = some x) :
    holds s (.waiter w) l ↔ Waiter.holds x l = true := by
  constructor
  · rintro ⟨x₁, hx₁, hh⟩
    obtain rfl := Option.some.inj (hx₁.symm.trans hx)
    exact hh
  · exact fun hh => ⟨x, hx, hh⟩

theorem holds_iff_position :
    holds s o l ↔ ∃ p, position s o = some p ∧ Position.holds p l = true := by
  cases o with
  | submitter t =>
      cases hτ : s.tasks[t]? with
      | none => simp [holds, taskHolds, position, hτ]
      | some τ => simp [holds_submitter_iff hτ, position, hτ, Position.holds]
  | worker t =>
      cases hτ : s.tasks[t]? with
      | none => simp [holds, taskHolds, position, hτ]
      | some τ =>
          rw [holds_worker_iff hτ]
          cases hw : τ.worker <;>
            simp [position, hτ, hw, WorkerPc.position, Position.holds, WorkerPc.holds]
  | canceller t j =>
      cases hτ : s.tasks[t]? with
      | none => simp [holds, taskHolds, position, hτ]
      | some τ =>
          cases hc : τ.cancels[j]? with
          | none => simp [holds, taskHolds, position, hτ, hc]
          | some c => simp [holds_canceller_iff hτ hc, position, hτ, hc, Position.holds]
  | closer k =>
      cases hc : s.closers[k]? with
      | none => simp [holds, position, hc]
      | some c =>
          cases ht : c.current with
          | none => simp [holds_closer_iff hc ht, position, hc, ht, Position.holds]
          | some t =>
              cases hτ : s.tasks[t]? with
              | none => simp [holds, position, hc, ht, hτ, Position.holds]
              | some τ =>
                  cases hentry : τ.entry <;>
                    simp [holds, taskHolds, position, hc, ht, hτ, hentry, Position.holds,
                      EntryPc.holds, EntryPc.sweepPc]
                  split <;> simp_all
  | waiter w =>
      cases hx : s.waiters[w]? with
      | none => simp [holds, position, hx]
      | some x => simp [holds_waiter_iff hx, position, hx, Position.holds]

theorem holds_congr (h : position s' o = position s o) : holds s' o l ↔ holds s o l := by
  rw [holds_iff_position, holds_iff_position, h]

theorem not_holds_of_position (h : position s o = none) : ¬ holds s o l := by
  rw [holds_iff_position, h]
  rintro ⟨_, hp, _⟩
  cases hp

theorem lockMove_of_taskStep {g' : TokioExecutorServiceState} {τ' : Task}
    (hτ : s.tasks[t]? = some τ) (h : TaskStep t s.shared τ a g' τ')
    (hnext : ∀ k, a ≠ .sweepNext k t)
    (hlast : ∀ k counted, a = .sweep k → τ.entry ≠ .sweeping k (.next counted))
    (hcurrent : ∀ k, a = .sweep k → ∃ c, s.closers[k]? = some c ∧ c.pc = .sweep ∧
      c.current = some t) :
    LockMove s.shared.locks (actor s a) (holds s (actor s a))
      (holds { s with shared := g', tasks := s.tasks.set t τ' } (actor s a)) g'.locks := by
  have hτ' := getElem?_set_self_of_some (y := τ') hτ
  cases h with
  | submitter h =>
      exact (submitterStep_lockMove h).congr (fun l => (holds_submitter_iff hτ).symm)
        fun l => (holds_submitter_iff (by exact hτ')).symm
  | worker h =>
      exact (workerStep_lockMove h).congr (fun l => (holds_worker_iff hτ).symm)
        fun l => (holds_worker_iff (by exact hτ')).symm
  | canceller h =>
      obtain ⟨c, τ₁, c', hc, hcancel, rfl⟩ := cancellerStep_cases h
      have hc' := getElem?_set_self_of_some (y := c') hc
      exact (cancelStep_lockMove hcancel).congr (fun l => (holds_canceller_iff hτ hc).symm)
        fun l => (holds_canceller_iff (by exact hτ') hc').symm
  | pickUp h | destroy h =>
      refine .keep fun l => ?_
      first | unfold pickUpStep at h | unfold destroyStep at h
      split at h <;> cases h
      rename_i hw
      rw [actor, holds_worker_iff hτ, holds_worker_iff (by exact hτ'), hw]
      dsimp only
      try split
      all_goals simp [WorkerPc.holds]
  | callCancel h =>
      refine .keep fun l => ?_
      unfold callCancelStep at h
      split at h <;> cases h
      rw [actor, hτ, Option.elim, holds_canceller_iff (by exact hτ') List.getElem?_concat_length]
      have hbefore : ¬ holds s (.canceller t τ.cancels.length) l :=
        not_holds_of_position (by simp [position, hτ])
      simp [hbefore, CancelPc.holds]
  | sweepNext => exact absurd rfl (hnext _)
  | sweep hentry hsweep =>
      obtain ⟨c, hc, hpc, ht⟩ := hcurrent _ rfl
      exact (sweepStep_lockMove hsweep).congr
        (fun l => (holds_sweeping_iff hc hpc ht hτ hentry).symm)
        fun l => (holds_sweeping_iff (by exact hc) hpc ht (by exact hτ') rfl).symm
  | finishSweep hentry => exact absurd hentry (hlast _ _ rfl)

theorem lockMove_of_step (h : (service taskCapacity).Reachable s)
    (hnext : (service taskCapacity).step a s = some s') :
    LockMove s.shared.locks (actor s a) (holds s (actor s a)) (holds s' (actor s a))
      s'.shared.locks := by
  obtain ⟨howned, hidle⟩ := sweeping_of_reachable h
  cases effect_of_step hnext with
  | newTask kind =>
      refine .keep fun l => ?_
      simp [holds_iff_position, actor, position, Position.holds, SubmitterPc.holds]
  | newCloser kind =>
      refine .keep fun l => ?_
      simp [holds_iff_position, actor, position, Position.holds, CloserPc.holds]
  | newWaiter async =>
      refine .keep fun l => ?_
      cases async <;> simp [holds_iff_position, actor, position, Position.holds, Waiter.holds]
  | task hτ hτstep hfirst hlast hcurrent =>
      refine lockMove_of_taskStep hτ hτstep hfirst hlast fun k hk => ?_
      obtain ⟨c, hc, ht⟩ := hcurrent k hk
      refine ⟨c, hc, ?_, ht⟩
      by_contra hne
      simp [hidle c (mem_of_getElem? hc) hne] at ht
  | sweepNext hc hpc hnone hτ hentry =>
      refine .keep fun l => ?_
      rw [actor, holds_closer_iff hc hnone, holds_sweeping_iff (getElem?_set_self_of_some hc)
        (by exact hpc) (by rfl) (getElem?_set_self_of_some hτ) (by rfl), hpc]
      simp [CloserPc.holds, SweepPc.holds]
  | @finishSweep k c _ _ _ hc hcurrent hτ hentry =>
      have hpc : c.pc = .sweep := by
        by_contra hne
        simp [hidle _ (mem_of_getElem? hc) hne] at hcurrent
      refine .keep fun l => ?_
      rw [actor, holds_sweeping_iff hc hpc hcurrent hτ hentry,
        holds_closer_iff (getElem?_set_self_of_some hc) (by rfl)]
      simp [Closer.countSweep, hpc, CloserPc.holds, SweepPc.holds]
  | take hc hpc =>
      have hnone := hidle _ (mem_of_getElem? hc) (by simp [hpc])
      refine .keep fun l => ?_
      rw [actor, holds_closer_iff hc hnone,
        holds_closer_iff (getElem?_set_self_of_some hc) (by exact hnone), hpc]
      cases l <;> simp [CloserPc.holds]
  | endSweep hc hpc hnone =>
      refine .keep fun l => ?_
      rw [actor, holds_closer_iff hc hnone,
        holds_closer_iff (getElem?_set_self_of_some hc) (by exact hnone), hpc]
      simp [CloserPc.holds]
  | closer hc hcstep =>
      obtain ⟨hcurrent, hsweep, _⟩ := closerStep_current hcstep
      have hnone := hidle _ (mem_of_getElem? hc) hsweep
      exact (closerStep_lockMove hcstep).congr (fun l => (holds_closer_iff hc hnone).symm)
        fun l => (holds_closer_iff (getElem?_set_self_of_some hc) (hcurrent.trans hnone)).symm
  | waiter hx hwstep =>
      exact (waiterStep_lockMove hwstep).congr (fun l => (holds_waiter_iff hx).symm)
        fun l => (holds_waiter_iff (getElem?_set_self_of_some hx)).symm

/-- The lock table records exactly what the positions say. -/
theorem agrees_of_reachable (h : (service taskCapacity).Reachable s) :
    Agrees s.shared.locks (holds s) := by
  refine Reachable.invariant (P := fun s => Agrees s.shared.locks (holds s)) h ?_ ?_
  · intro o l
    cases o <;> simp [holds, service]
  · intro s a s' hs ih hnext
    exact ih.move (lockMove_of_step hs hnext) fun o l hne =>
      holds_congr (framed taskCapacity s a s' hs hnext o hne)

theorem respects_of_reachable (h : (service taskCapacity).Reachable s) :
    Respects s.shared.locks (holds s) :=
  (agrees_of_reachable h).respects

end

end TokioExecutorProofs.BlockingLocks
