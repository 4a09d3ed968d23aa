import TokioExecutorProofs.IoActivities

/-!
Which locks each activity of the IO service holds, read off its position, and
that the lock table agrees.
-/

namespace TokioExecutorProofs.IoLocks

open ServiceBasics
open IoServiceState
open IoServiceState.TokioIoExecutorServiceState
open IoTask
open IoService
open IoTaskInvariants
open IoActivities
open MutexTables
open ProcessFamilies
open TransitionSystems

def GuardPc.holds : GuardPc → Lock → Bool
  | .remove, .abortHandles | .unlock, .abortHandles => true
  | _, _ => false

def SubmitterPc.holds : SubmitterPc → Lock → Bool
  | .checkRunning, .submission | .getActive, .submission | .inc, .submission
  | .rejectUnlock _, .submission | .spawn, .submission | .registerLock, .submission
  | .register, .submission | .registerUnlock, .submission
  | .unlockSubmission, .submission => true
  | .register, .abortHandles | .registerUnlock, .abortHandles => true
  | .dropGuard d, l | .abandonGuard d, l => GuardPc.holds d l
  | _, _ => false

def WorkerPc.holds : WorkerPc → Lock → Bool
  | .dropGuard d, l => GuardPc.holds d l
  | _, _ => false

def CloserPc.holds : CloserPc → Lock → Bool
  | .store, .submission | .getActive, .submission | .unlockSubmission, .submission => true
  | .take, .abortHandles | .takeUnlock, .abortHandles => true
  | _, _ => false

/-- The locks that an activity holds at task `t`. -/
def taskHolds (t : TaskId) (τ : Task) : Actor → Lock → Prop
  | .submitter t', l => t' = t ∧ SubmitterPc.holds τ.submitter l = true
  | .worker t', l => t' = t ∧ WorkerPc.holds τ.worker l = true
  | .canceller _ _, _ | .closer _, _ | .waiter _, _ => False

/-- The locks that an activity holds. -/
def holds (s : ServiceState) (o : Actor) (l : Lock) : Prop :=
  match o with
  | .closer k => ∃ c, s.closers[k]? = some c ∧ CloserPc.holds c.pc l = true
  | _ => ∃ t τ, s.tasks[t]? = some τ ∧ taskHolds t τ o l

section

variable {t : TaskId} {g g' : TokioIoExecutorServiceState} {τ τ' : Task} {a : Actor}

theorem guardStep_lockMove {d : GuardPc} {next : Option GuardPc}
    (h : guardStep a g τ d = some (g', τ', next)) :
    LockMove g.locks a (fun l => GuardPc.holds d l = true)
      (fun l => ∃ d', next = some d' ∧ GuardPc.holds d' l = true) g'.locks := by
  cases d <;> simp only [guardStep] at h
  case lock =>
    simp only [map_acquire_eq_some, Prod.mk.injEq] at h
    obtain ⟨hfree, rfl, rfl, rfl⟩ := h
    exact .acquire hfree (by intro l; cases l <;> simp [GuardPc.holds])
  case unlock =>
    simp only [Option.some.injEq, Prod.mk.injEq] at h
    obtain ⟨rfl, rfl, rfl⟩ := h
    refine .release (l := Lock.abortHandles) rfl fun l => ?_
    cases l <;> simp [GuardPc.holds]
  all_goals
    simp only [Option.some.injEq, Prod.mk.injEq] at h
    obtain ⟨rfl, rfl, rfl⟩ := h
    exact .keep (by intro l; cases l <;> simp [GuardPc.holds])

theorem submitterStep_lockMove {runtimeClosed : Bool}
    (h : submitterStep t runtimeClosed g τ = some (g', τ')) :
    LockMove g.locks (.submitter t) (fun l => SubmitterPc.holds τ.submitter l = true)
      (fun l => SubmitterPc.holds τ'.submitter l = true) g'.locks := by
  cases hs : τ.submitter <;> simp only [submitterStep, hs] at h
  case rejected | returned | abandoned => cases h
  case lockSubmission | registerLock =>
    simp only [map_acquire_eq_some, Prod.mk.injEq] at h
    obtain ⟨hfree, rfl, rfl⟩ := h
    exact .acquire hfree (by intro l; cases l <;> simp [SubmitterPc.holds])
  case rejectUnlock | unlockSubmission =>
    simp only [Option.some.injEq, Prod.mk.injEq] at h
    obtain ⟨rfl, rfl⟩ := h
    refine .release (l := Lock.submission) rfl fun l => ?_
    cases l <;> simp [SubmitterPc.holds]
  case registerUnlock =>
    simp only [Option.some.injEq, Prod.mk.injEq] at h
    obtain ⟨rfl, rfl⟩ := h
    refine .release (l := Lock.abortHandles) rfl fun l => ?_
    cases l <;> simp [SubmitterPc.holds]
  case checkRunning | getActive =>
    simp only [Option.some.injEq, Prod.mk.injEq] at h
    obtain ⟨rfl, rfl⟩ := h
    refine .keep fun l => ?_
    dsimp only
    split <;> cases l <;> simp [SubmitterPc.holds]
  case dropGuard d | abandonGuard d =>
    simp only [Option.map_eq_some_iff, Prod.mk.injEq, Prod.exists] at h
    obtain ⟨_, τ₁, next, hstep, rfl, rfl⟩ := h
    refine (guardStep_lockMove hstep).congr (fun _ => Iff.rfl) fun l => ?_
    cases next <;> simp [SubmitterPc.holds]
  case spawn | send =>
    split at h
    all_goals
      simp only [Option.some.injEq, Prod.mk.injEq, reduceCtorEq] at h
      try obtain ⟨rfl, rfl⟩ := h
      try exact .keep (by intro l; cases l <;> simp [SubmitterPc.holds])
  all_goals
    simp only [Option.some.injEq, Prod.mk.injEq] at h
    obtain ⟨rfl, rfl⟩ := h
    exact .keep (by intro l; cases l <;> simp [SubmitterPc.holds, GuardPc.holds])

theorem workerStep_lockMove {outcome : PollOutcome}
    (h : workerStep t outcome g τ = some (g', τ')) :
    LockMove g.locks (.worker t) (fun l => WorkerPc.holds τ.worker l = true)
      (fun l => WorkerPc.holds τ'.worker l = true) g'.locks := by
  cases hs : τ.worker <;> simp only [workerStep, hs] at h
  case absent | idle | finished => cases h
  case dropGuard d =>
    simp only [Option.map_eq_some_iff, Prod.mk.injEq, Prod.exists] at h
    obtain ⟨_, τ₁, next, hstep, rfl, rfl⟩ := h
    refine (guardStep_lockMove hstep).congr (fun _ => Iff.rfl) fun l => ?_
    cases next <;> simp [WorkerPc.holds]
  case recv | polling =>
    split at h <;> simp only [Option.some.injEq, Prod.mk.injEq] at h <;>
      obtain ⟨rfl, rfl⟩ := h <;> exact .keep (by simp [WorkerPc.holds])
  case dropReceiver =>
    simp only [Option.some.injEq, Prod.mk.injEq] at h
    obtain ⟨rfl, rfl⟩ := h
    refine .keep fun l => ?_
    dsimp only
    split <;> simp [WorkerPc.holds]
  all_goals
    simp only [Option.some.injEq, Prod.mk.injEq] at h
    obtain ⟨rfl, rfl⟩ := h
    exact .keep (by simp [WorkerPc.holds, GuardPc.holds])

theorem closerStep_lockMove {k : Nat} {c c' : Closer} (h : closerStep k g c = some (g', c')) :
    LockMove g.locks (.closer k) (fun l => CloserPc.holds c.pc l = true)
      (fun l => CloserPc.holds c'.pc l = true) g'.locks := by
  cases hpc : c.pc <;> simp only [closerStep, hpc] at h
  case take | sweep | returned => cases h
  case lockSubmission | takeLock =>
    simp only [map_acquire_eq_some, Prod.mk.injEq] at h
    obtain ⟨hfree, rfl, rfl⟩ := h
    exact .acquire hfree fun l => by cases l <;> simp [CloserPc.holds]
  case store =>
    split at h <;> simp only [Option.some.injEq, Prod.mk.injEq] at h <;>
      obtain ⟨rfl, rfl⟩ := h <;> exact .keep fun l => by cases l <;> simp [CloserPc.holds]
  case unlockSubmission =>
    simp only [Option.some.injEq, Prod.mk.injEq] at h
    obtain ⟨rfl, rfl⟩ := h
    refine .release (l := Lock.submission) rfl fun l => ?_
    dsimp only
    split <;> cases l <;> simp [CloserPc.holds]
  case takeUnlock =>
    simp only [Option.some.injEq, Prod.mk.injEq] at h
    obtain ⟨rfl, rfl⟩ := h
    refine .release (l := Lock.abortHandles) rfl fun l => ?_
    cases l <;> simp [CloserPc.holds]
  all_goals
    simp only [Option.some.injEq, Prod.mk.injEq] at h
    obtain ⟨rfl, rfl⟩ := h
    exact .keep fun l => by cases l <;> simp [CloserPc.holds]

end

/-! ### Over whole runs -/

section

variable {s s' : ServiceState} {a : Action} {t : TaskId} {τ : Task} {o : Actor} {l : Lock}
  {taskCapacity : NonZeroUsize}

def Position.holds : Position → Lock → Bool
  | .submitter pc, l => SubmitterPc.holds pc l
  | .worker pc, l => WorkerPc.holds pc l
  | .closer pc, l => CloserPc.holds pc l
  | .canceller _, _ | .waiter _, _ => false

theorem holds_submitter_iff (hτ : s.tasks[t]? = some τ) :
    holds s (.submitter t) l ↔ SubmitterPc.holds τ.submitter l = true := by
  constructor
  · rintro ⟨t₁, τ₁, hτ₁, rfl, hh⟩
    obtain rfl := Option.some.inj (hτ₁.symm.trans hτ)
    exact hh
  · exact fun hh => ⟨t, τ, hτ, rfl, hh⟩

theorem holds_worker_iff (hτ : s.tasks[t]? = some τ) :
    holds s (.worker t) l ↔ WorkerPc.holds τ.worker l = true := by
  constructor
  · rintro ⟨t₁, τ₁, hτ₁, rfl, hh⟩
    obtain rfl := Option.some.inj (hτ₁.symm.trans hτ)
    exact hh
  · exact fun hh => ⟨t, τ, hτ, rfl, hh⟩

theorem holds_closer_iff {k : Nat} {c : Closer} (hc : s.closers[k]? = some c) :
    holds s (.closer k) l ↔ CloserPc.holds c.pc l = true := by
  constructor
  · rintro ⟨c₁, hc₁, hh⟩
    obtain rfl := Option.some.inj (hc₁.symm.trans hc)
    exact hh
  · exact fun hh => ⟨c, hc, hh⟩

theorem not_holds_canceller {j : Nat} : ¬ holds s (.canceller t j) l :=
  fun ⟨_, _, _, hh⟩ => hh

theorem not_holds_waiter {w : Nat} : ¬ holds s (.waiter w) l :=
  fun ⟨_, _, _, hh⟩ => hh

theorem holds_iff_position :
    holds s o l ↔ ∃ p, position s o = some p ∧ Position.holds p l = true := by
  cases o with
  | submitter t =>
      cases hτ : s.tasks[t]? with
      | none => simp [holds, taskHolds, position, hτ]
      | some τ => simp [holds_submitter_iff hτ, position, hτ, Position.holds]
  | worker t =>
      cases hτ : s.tasks[t]? with
      | none => simp [holds, taskHolds, position, hτ]
      | some τ =>
          rw [holds_worker_iff hτ]
          cases hw : τ.worker <;>
            simp [position, hτ, hw, WorkerPc.position, Position.holds, WorkerPc.holds]
  | closer k =>
      cases hc : s.closers[k]? with
      | none => simp [holds, position, hc]
      | some c => simp [holds_closer_iff hc, position, hc, Position.holds]
  | canceller t j =>
      refine iff_of_false not_holds_canceller ?_
      rintro ⟨p, hp, hh⟩
      simp only [position, Option.bind_eq_some_iff, Option.map_eq_some_iff] at hp
      obtain ⟨_, _, _, _, rfl⟩ := hp
      cases hh
  | waiter w =>
      refine iff_of_false not_holds_waiter ?_
      rintro ⟨p, hp, hh⟩
      simp only [position, Option.map_eq_some_iff] at hp
      obtain ⟨_, _, rfl⟩ := hp
      cases hh

theorem holds_congr (h : position s' o = position s o) : holds s' o l ↔ holds s o l := by
  rw [holds_iff_position, holds_iff_position, h]

theorem lockMove_of_taskStep {g' : TokioIoExecutorServiceState} {τ' : Task}
    (hτ : s.tasks[t]? = some τ) (h : TaskStep t s.shared τ a g' τ')
    (hnext : ∀ k, a ≠ .sweepNext k t) (habort : ∀ k, a ≠ .sweepAbort k) :
    LockMove s.shared.locks (actor s a) (holds s (actor s a))
      (holds { s with shared := g', tasks := s.tasks.set t τ' } (actor s a)) g'.locks := by
  have hτ' := getElem?_set_self_of_some (y := τ') hτ
  cases h with
  | submitter h =>
      exact (submitterStep_lockMove h).congr (fun l => (holds_submitter_iff hτ).symm)
        fun l => (holds_submitter_iff (by exact hτ')).symm
  | worker h =>
      exact (workerStep_lockMove h).congr (fun l => (holds_worker_iff hτ).symm)
        fun l => (holds_worker_iff (by exact hτ')).symm
  | abandon hs =>
      refine .keep fun l => ?_
      rw [actor, holds_submitter_iff hτ, holds_submitter_iff (by exact hτ'), hs]
      cases l <;> simp [SubmitterPc.holds]
  | @pickUp received hw | @destroy received hw =>
      refine .keep fun l => ?_
      rw [actor, holds_worker_iff hτ, holds_worker_iff (by exact hτ'), hw]
      cases received <;> cases τ.aborted <;> simp [WorkerPc.holds, WorkerPc.cancelled]
  | callCancel | canceller =>
      exact .keep fun l => iff_of_false not_holds_canceller not_holds_canceller
  | sweepNext => exact absurd rfl (hnext _)
  | sweepAbort => exact absurd rfl (habort _)

theorem lockMove_of_step (hnext : (service taskCapacity).step a s = some s') :
    LockMove s.shared.locks (actor s a) (holds s (actor s a)) (holds s' (actor s a))
      s'.shared.locks := by
  cases effect_of_step hnext with
  | newTask =>
      refine .keep fun l => ?_
      simp [holds_iff_position, actor, position, Position.holds, SubmitterPc.holds]
  | newCloser kind =>
      refine .keep fun l => ?_
      simp [holds_iff_position, actor, position, Position.holds, CloserPc.holds]
  | newWaiter | waiter => exact .keep fun l => iff_of_false not_holds_waiter not_holds_waiter
  | task hτ hτstep hfirst habort => exact lockMove_of_taskStep hτ hτstep hfirst habort
  | sweepNext hc | sweepAbort hc =>
      refine .keep fun l => ?_
      rw [actor, holds_closer_iff hc, holds_closer_iff (getElem?_set_self_of_some hc)]
  | take hc hpc =>
      refine .keep fun l => ?_
      rw [actor, holds_closer_iff hc, holds_closer_iff (getElem?_set_self_of_some hc), hpc]
      cases l <;> simp [CloserPc.holds]
  | endSweep hc hpc =>
      refine .keep fun l => ?_
      rw [actor, holds_closer_iff hc, holds_closer_iff (getElem?_set_self_of_some hc), hpc]
      simp [CloserPc.holds]
  | closer hc hcstep =>
      exact (closerStep_lockMove hcstep).congr (fun l => (holds_closer_iff hc).symm)
        fun l => (holds_closer_iff (getElem?_set_self_of_some hc)).symm

theorem agrees_of_reachable (h : (service taskCapacity).Reachable s) :
    Agrees s.shared.locks (holds s) := by
  refine Reachable.invariant (P := fun s => Agrees s.shared.locks (holds s)) h ?_ ?_
  · intro o l
    cases o <;> simp [holds, service]
  · intro s a s' hs ih hnext
    exact ih.move (lockMove_of_step hnext) fun o l hne =>
      holds_congr (framed taskCapacity s a s' hs hnext o hne)

theorem respects_of_reachable (h : (service taskCapacity).Reachable s) :
    Respects s.shared.locks (holds s) :=
  (agrees_of_reachable h).respects

end

end TokioExecutorProofs.IoLocks
