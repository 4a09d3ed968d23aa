import TokioExecutorProofs.BlockingTaskMoves
import TokioExecutorProofs.RestingSystems

/-!
How far the activities of the blocking service are from their ends. Every step
that is not a new call lowers the rank of the service, so the calls that have been
made keep it busy for a bounded number of steps.
-/

namespace TokioExecutorProofs.BlockingRanks

open ServiceBasics
open BlockingServiceState
open BlockingServiceState.TokioExecutorServiceState
open BlockingTask
open BlockingService
open BlockingTaskPlacement
open BlockingTaskRegistry
open BlockingTaskInvariants
open BlockingTaskMoves
open ProcessFamilies
open RestingSystems
open TransitionSystems

/-! ### Ranks of positions -/

@[grind] def FinishPc.rank : FinishPc → Nat
  | .lock => 8
  | .update => 7
  | .unlock _ => 6
  | .notifyCapacity _ => 5
  | .wakeCapacity _ => 4
  | .notifyAll => 3
  | .notifyWaiters => 2
  | .wakeTermination => 1

@[grind] def RemovePc.rank : RemovePc → Nat
  | .finishMarker => 6
  | .lock => 5
  | .remove => 4
  | .dropEntry => 3
  | .wakeDropped => 2
  | .unlock => 1

@[grind] def ClosurePc.rank : ClosurePc → Nat
  | .dropSlotRef => 3
  | .wakeDropped => 2
  | .dropTask => 1

@[grind] def GuardPc.rank : GuardPc → Nat
  | .remove r => 9 + RemovePc.rank r
  | .swap => 9
  | .finish _ f => FinishPc.rank f

@[grind] def SubmitterPc.rank : SubmitterPc → Nat
  | .lockSubmission => 32
  | .checkRunning => 31
  | .acceptLock => 30
  | .accept => 29
  | .acceptUnlock _ => 28
  | .shareSlot => 27
  | .spawn => 26
  | .registerLock => 25
  | .register => 24
  | .registerUnlock _ => 23
  | .dropHook => 22
  | .wakeDropped => 21
  | .unlockSubmission => 20
  | .send => 19
  | .dropClosure c => 15 + ClosurePc.rank c
  | .dropGuard d => GuardPc.rank d
  | .rejectUnlock _ => 1
  | .rejected _ | .returned => 0

@[grind] def WorkerPc.rank : WorkerPc → Nat
  | .absent => 32
  | .queued => 31
  | .recv => 30
  | .markStarted => 29
  | .startLock => 28
  | .start => 27
  | .startUnlock => 26
  | .takeSlot => 25
  | .startSlot => 24
  | .invoke => 23
  | .executing => 22
  | .publish _ => 21
  | .wakePublished | .dropReceiver => 20
  | .ranClosure c | .destroyClosure c => 16 + ClosurePc.rank c
  | .ranGuard d | .destroyGuard d => 1 + GuardPc.rank d
  | .refusedGuard d => 4 + GuardPc.rank d
  | .refusedClosure c => 1 + ClosurePc.rank c
  | .complete => 1
  | .finished => 0

@[grind] def CancelPc.rank : CancelPc → Nat
  | .cancel => 18
  | .wakeCancelled => 17
  | .remove r => 10 + RemovePc.rank r
  | .finishQueued => 10
  | .finish f => 1 + FinishPc.rank f
  | .abort => 1
  | .returned _ => 0

@[grind] def SweepPc.rank : SweepPc → Nat
  | .isFinished => 16
  | .abort => 15
  | .finishQueued => 14
  | .finish f => 5 + FinishPc.rank f
  | .cancelUnstarted => 5
  | .wakeCancelled => 4
  | .dropHook _ => 3
  | .wakeDropped _ => 2
  | .next _ => 1

@[grind] def EntryPc.rank : EntryPc → Nat
  | .absent => 19
  | .registered => 18
  | .taken _ => 17
  | .sweeping _ p => SweepPc.rank p
  | .removed => 1
  | .gone => 0

def taskRank (τ : Task) : Nat :=
  SubmitterPc.rank τ.submitter + WorkerPc.rank τ.worker + total CancelPc.rank τ.cancels +
    EntryPc.rank τ.entry

@[grind] def CloserPc.rank : CloserPc → Nat
  | .lockSubmission => 18
  | .store => 17
  | .snapshotLock => 16
  | .snapshot => 15
  | .snapshotUnlock => 14
  | .unlockSubmission => 13
  | .takeLock => 12
  | .take => 11
  | .takeUnlock => 10
  | .sweep => 9
  | .notifyCapacity => 8
  | .wakeCapacity => 7
  | .readLock => 6
  | .read => 5
  | .readUnlock _ => 4
  | .notifyAll => 3
  | .notifyWaiters => 2
  | .wakeTermination => 1
  | .returned => 0

/-- A notification sends a waiter once more through its loop. -/
@[grind] def waiterRank (g : TokioExecutorServiceState) : Waiter → Nat
  | .lock => 4
  | .load => 3
  | .readCounts _ => 2
  | .unlock => 1
  | .parked since => if since < g.notifyAllCalls then 5 else 0
  | .enable => 3
  | .asyncLoad since => if since < g.notifyWaitersCalls then 6 else 2
  | .asyncReadCounts since _ => if since < g.notifyWaitersCalls then 5 else 1
  | .suspended since => if since < g.notifyWaitersCalls then 4 else 0
  | .waited | .awaited => 0

/-- The steps that the tasks and the closing calls have before them. -/
def work (s : ServiceState) : Nat :=
  total taskRank s.tasks + total (fun c => CloserPc.rank c.pc) s.closers

def rank (s : ServiceState) : Nat :=
  (s.waiters.length * 6 + 1) * work s + total (waiterRank s.shared) s.waiters

/-- The step begins a call. -/
def isCall : Action → Bool
  | .callSubmit _ | .callCancel _ | .callClose _ | .callWait _ => true
  | .submitter _ _ | .pickUp _ | .destroy _ | .worker _ _ | .canceller _ _ | .closer _
  | .sweepNext _ _ | .sweep _ | .waiter _ => false

/-- Only the calls that have been made go on. -/
def noCall (_ : ServiceState) (a : Action) : Prop := isCall a = false

/-- The step goes on whatever the runtime and the users do: a pool takes up its
tasks, and a callable and a waker return. -/
def isDriven : Action → Bool
  | .submitter _ runtimeClosed => !runtimeClosed
  | .pickUp _ | .worker _ _ | .canceller _ _ | .closer _ | .sweepNext _ _ | .sweep _
  | .waiter _ => true
  | .callSubmit _ | .callCancel _ | .callClose _ | .callWait _ | .destroy _ => false

def driven (_ : ServiceState) (a : Action) : Prop := isDriven a = true

theorem noCall_of_driven {s : ServiceState} {a : Action} (h : driven s a) : noCall s a := by
  cases a <;> first | rfl | cases h

/-! ### Every step lowers a rank -/

section

variable {t : TaskId} {g g' : TokioExecutorServiceState} {τ τ' : Task} {a : Action} {b : Actor}

theorem finishTaskStep_rank {started : Bool} {f : FinishPc} {next : Option FinishPc}
    (h : finishTaskStep b started g f = some (g', next)) :
    next.elim 0 FinishPc.rank < FinishPc.rank f := by
  cases f <;> simp only [finishTaskStep] at h
  case lock =>
    simp only [map_acquire_eq_some, Prod.mk.injEq] at h
    rw [← h.2.2]
    decide
  case wakeCapacity terminated =>
    simp only [Option.some.injEq, Prod.mk.injEq] at h
    rw [← h.2]
    cases terminated <;> decide
  all_goals
    simp only [Option.some.injEq, Prod.mk.injEq] at h
    rw [← h.2]
    simp [FinishPc.rank]

theorem removeAbortHandleStep_rank {r : RemovePc} {next : Option RemovePc}
    (h : removeAbortHandleStep b g τ r = some (g', τ', next)) :
    next.elim 0 RemovePc.rank < RemovePc.rank r := by
  cases r <;> simp only [removeAbortHandleStep] at h
  case lock =>
    simp only [map_acquire_eq_some, Prod.mk.injEq] at h
    rw [← h.2.2.2]
    decide
  case remove =>
    split at h <;> simp only [Option.some.injEq, Prod.mk.injEq] at h <;>
      rw [← h.2.2] <;> decide
  case dropEntry =>
    simp only [Option.some.injEq, Prod.mk.injEq] at h
    rw [← h.2.2]
    split <;> decide
  all_goals
    simp only [Option.some.injEq, Prod.mk.injEq] at h
    rw [← h.2.2]
    decide

theorem closureStep_rank {c : ClosurePc} {next : Option ClosurePc}
    (h : closureStep τ c = (τ', next)) : next.elim 0 ClosurePc.rank < ClosurePc.rank c := by
  cases c <;> simp only [closureStep, Prod.mk.injEq] at h <;> rw [← h.2]
  case dropSlotRef => split <;> decide
  all_goals decide

theorem guardStep_rank {d : GuardPc} {next : Option GuardPc}
    (h : guardStep b g τ d = some (g', τ', next)) :
    next.elim 0 GuardPc.rank < GuardPc.rank d := by
  cases d <;> simp only [guardStep] at h
  case remove r =>
    simp only [Option.map_eq_some_iff, Prod.mk.injEq, Prod.exists] at h
    obtain ⟨_, _, next', hstep, _, _, rfl⟩ := h
    have hlt := removeAbortHandleStep_rank hstep
    cases next' with
    | none => simpa [GuardPc.rank] using hlt
    | some r' => simpa [GuardPc.rank] using hlt
  case swap =>
    split at h <;> simp only [Option.some.injEq, Prod.mk.injEq] at h <;>
      rw [← h.2.2] <;> decide
  case finish started f =>
    simp only [Option.map_eq_some_iff, Prod.mk.injEq, Prod.exists] at h
    obtain ⟨_, next', hstep, _, _, rfl⟩ := h
    have hlt := finishTaskStep_rank hstep
    cases next' with
    | none => exact hlt
    | some f' => exact hlt

theorem cancelStep_rank {c c' : CancelPc} (h : cancelStep b g τ c = some (g', τ', c')) :
    CancelPc.rank c' < CancelPc.rank c := by
  cases c <;> simp only [cancelStep] at h
  case remove r =>
    simp only [Option.map_eq_some_iff, Prod.mk.injEq, Prod.exists] at h
    obtain ⟨_, _, next, hstep, _, _, rfl⟩ := h
    have hlt := removeAbortHandleStep_rank hstep
    cases next <;> simp_all [CancelPc.rank]
  case finish f =>
    simp only [Option.map_eq_some_iff, Prod.mk.injEq, Prod.exists] at h
    obtain ⟨_, next, hstep, _, _, rfl⟩ := h
    have hlt := finishTaskStep_rank hstep
    cases next <;> simp_all [CancelPc.rank]
  case cancel =>
    split at h <;> simp only [Option.some.injEq, Prod.mk.injEq] at h <;>
      rw [← h.2.2] <;> simp [CancelPc.rank]
  case finishQueued =>
    simp only [Option.some.injEq, Prod.mk.injEq] at h
    rw [← h.2.2]
    split <;> decide
  case returned => cases h
  all_goals
    simp only [Option.some.injEq, Prod.mk.injEq] at h
    rw [← h.2.2]
    simp [CancelPc.rank, RemovePc.rank]

theorem sweepStep_rank {k : Nat} {p p' : SweepPc} (h : sweepStep k g τ p = some (g', τ', p')) :
    SweepPc.rank p' < SweepPc.rank p := by
  cases p <;> simp only [sweepStep] at h
  case finish f =>
    simp only [Option.map_eq_some_iff, Prod.mk.injEq, Prod.exists] at h
    obtain ⟨_, next, hstep, _, _, rfl⟩ := h
    have hlt := finishTaskStep_rank hstep
    cases next with
    | some f' => simpa [SweepPc.rank] using hlt
    | none =>
        simp only [Option.elim] at hlt
        dsimp only
        split <;> simp only [SweepPc.rank] <;> omega
  case next => cases h
  case abort | wakeCancelled | wakeDropped =>
    simp only [Option.some.injEq, Prod.mk.injEq] at h
    rw [← h.2.2]
    simp [SweepPc.rank]
  all_goals
    simp only [Option.some.injEq, Prod.mk.injEq] at h
    rw [← h.2.2]
    split <;> simp [SweepPc.rank, FinishPc.rank]

/-- Outside a stop call an entry only goes forward: it is absent until the
submission registers it. -/
theorem entryRank_le (hi : TaskInvariant τ) (h : EntryMove a τ τ') (hsweep : ∀ k, a ≠ .sweep k) :
    EntryPc.rank τ'.entry ≤ EntryPc.rank τ.entry := by
  cases h with
  | keep hentry => exact hentry ▸ le_rfl
  | register hs hw hentry' =>
      rw [hi.registry.absent.mpr (by rw [hs]; rfl), hentry']
      decide
  | dropHook hs hentry' => exact hentry' ▸ Nat.zero_le _
  | remove _ hentry hentry' | drop hentry hentry' =>
      rw [hentry, hentry']
      decide
  | sweepNext hentry hentry' =>
      rw [hentry, hentry']
      simp [EntryPc.rank, SweepPc.rank]
  | sweep hact => exact absurd hact (hsweep _)
  | finishSweep hentry hentry' => exact hentry' ▸ Nat.zero_le _

theorem submitterStep_rank {runtimeClosed : Bool}
    (h : submitterStep t runtimeClosed g τ = some (g', τ')) :
    SubmitterPc.rank τ'.submitter < SubmitterPc.rank τ.submitter := by
  cases hs : τ.submitter <;> simp only [submitterStep, hs] at h
  case dropClosure c =>
    rcases hc : closureStep τ c with ⟨τ₁, next⟩
    have hlt := closureStep_rank hc
    simp only [Option.some.injEq, Prod.mk.injEq, hc] at h
    rw [← h.2]
    cases next <;> simp_all [SubmitterPc.rank, GuardPc.rank, RemovePc.rank]
  case dropGuard d =>
    simp only [Option.map_eq_some_iff, Prod.mk.injEq, Prod.exists] at h
    obtain ⟨_, _, next, hstep, _, rfl⟩ := h
    have hlt := guardStep_rank hstep
    cases next <;> simp_all [SubmitterPc.rank]
  case registerUnlock inserted =>
    simp only [Option.some.injEq, Prod.mk.injEq] at h
    rw [← h.2]
    cases inserted <;> simp [SubmitterPc.rank]
  all_goals grind -linarith

theorem workerStep_rank {outcome : RunOutcome}
    (h : workerStep t outcome g τ = some (g', τ')) :
    WorkerPc.rank τ'.worker < WorkerPc.rank τ.worker := by
  have henter : WorkerPc.rank τ.enterTask ≤ 25 := by
    unfold Task.enterTask
    split <;> decide
  cases hw : τ.worker <;> simp only [workerStep, hw] at h
  case ranClosure c | refusedClosure c | destroyClosure c =>
    rcases hc : closureStep τ c with ⟨τ₁, next⟩
    have hlt := closureStep_rank hc
    simp only [Option.some.injEq, Prod.mk.injEq, hc] at h
    rw [← h.2]
    cases next <;> simp_all [WorkerPc.rank, GuardPc.rank, RemovePc.rank]
  case ranGuard d | refusedGuard d | destroyGuard d =>
    simp only [Option.map_eq_some_iff, Prod.mk.injEq, Prod.exists] at h
    obtain ⟨_, _, next, hstep, _, rfl⟩ := h
    have hlt := guardStep_rank hstep
    cases next <;> simp_all [WorkerPc.rank, ClosurePc.rank]
  all_goals grind -linarith

theorem taskRank_of_taskStep (hi : TaskInvariant τ) (h : TaskStep t g τ a g' τ')
    (hcall : isCall a = false) : taskRank τ' < taskRank τ := by
  have hentry : (∀ k, a ≠ .sweep k) → EntryPc.rank τ'.entry ≤ EntryPc.rank τ.entry :=
    entryRank_le hi (entryMove_of_taskStep hi h)
  unfold taskRank
  cases h with
  | submitter h =>
      have hlt := submitterStep_rank h
      have hle := hentry (by simp)
      obtain ⟨_, worker, _, _, _, _, _, _, _, rfl, hw⟩ := submitterStep_frame h
      have hworker : WorkerPc.rank worker ≤ WorkerPc.rank τ.worker := by
        rcases hw with rfl | ⟨hs, rfl | rfl⟩
        · exact le_rfl
        · rw [worker_of_spawn hi hs]
          decide
        · exact Nat.zero_le _
      dsimp only at *
      omega
  | worker h =>
      have hlt := workerStep_rank h
      have hle := hentry (by simp)
      obtain ⟨_, _, _, _, _, _, _, _, _, _, _, _, rfl, _, _⟩ := workerStep_frame h
      dsimp only at *
      omega
  | pickUp h | destroy h =>
      first | unfold pickUpStep at h | unfold destroyStep at h
      split at h <;> cases h
      rename_i hw
      have hlt : ∀ aborted : Bool,
          WorkerPc.rank (if aborted then .dropReceiver else .recv) < 31 := by decide
      have := hlt τ.aborted
      simp only [hw, WorkerPc.rank] at *
      omega
  | callCancel => cases hcall
  | canceller h =>
      have hle := hentry (by simp)
      obtain ⟨c, τ₁, c', hc, hstep, rfl⟩ := cancellerStep_cases h
      have hlt := total_set_lt hc (cancelStep_rank hstep)
      obtain ⟨_, _, _, _, _, _, _, rfl⟩ := cancelStep_frame hstep
      dsimp only at *
      omega
  | sweepNext htaken =>
      rw [htaken]
      simp [EntryPc.rank, SweepPc.rank]
  | sweep hsweeping hstep =>
      have hlt := sweepStep_rank hstep
      obtain ⟨_, _, _, _, _, rfl⟩ := sweepStep_frame hstep
      rw [hsweeping]
      simpa [EntryPc.rank] using hlt
  | finishSweep hlast =>
      rw [hlast]
      simp [finishSweep, EntryPc.rank, SweepPc.rank]

theorem closerStep_rank {k : Nat} {c c' : Closer} (h : closerStep k g c = some (g', c')) :
    CloserPc.rank c'.pc < CloserPc.rank c.pc := by
  cases hpc : c.pc <;> simp only [closerStep, hpc] at h
  case take | sweep | returned => cases h
  all_goals grind -linarith

theorem waiterRank_le (g : TokioExecutorServiceState) (x : Waiter) : waiterRank g x ≤ 6 := by
  cases x <;> simp only [waiterRank] <;> first | omega | (split <;> omega)

theorem waiterStep_rank {w : Nat} {x x' : Waiter} (h : waiterStep w g x = some (g', x')) :
    waiterRank g' x' < waiterRank g x ∧ g'.notifyAllCalls = g.notifyAllCalls ∧
      g'.notifyWaitersCalls = g.notifyWaitersCalls := by
  cases x <;> simp only [waiterStep] at h <;>
    grind -linarith [TokioExecutorServiceState.release]

end

/-! ### Over whole runs -/

section

variable {s s' : ServiceState} {a : Action} {taskCapacity : NonZeroUsize}

theorem waiterRank_congr {g g' : TokioExecutorServiceState}
    (hall : g'.notifyAllCalls = g.notifyAllCalls)
    (hwaiters : g'.notifyWaitersCalls = g.notifyWaitersCalls) : waiterRank g' = waiterRank g := by
  funext x
  cases x <;> simp only [waiterRank, hall, hwaiters]

/-- A step of a task or of a closing call does work, and a step of a waiter
brings it nearer to its park. -/
theorem work_of_step (hs : (service taskCapacity).Reachable s) (hcall : isCall a = false)
    (hnext : (service taskCapacity).step a s = some s') :
    s'.waiters.length = s.waiters.length ∧
      (work s' < work s ∨ work s' = work s ∧
        total (waiterRank s'.shared) s'.waiters < total (waiterRank s.shared) s.waiters) := by
  have hi := taskInvariant_of_reachable hs
  cases effect_of_step hnext with
  | newTask | newCloser | newWaiter => cases hcall
  | task hτ hτstep =>
      have hlt := taskRank_of_taskStep (hi _ (mem_of_getElem? hτ)) hτstep hcall
      exact ⟨rfl, .inl (Nat.add_lt_add_right (total_set_lt hτ hlt) _)⟩
  | sweepNext hc hpc _ hτ hentry =>
      have hlt := taskRank_of_taskStep (g := s.shared) (hi _ (mem_of_getElem? hτ))
        (.sweepNext hentry) hcall
      exact ⟨rfl, .inl (Nat.add_lt_add_of_lt_of_le (total_set_lt hτ hlt) (total_set_le hc le_rfl))⟩
  | @finishSweep k c t τ counted hc _ hτ hentry =>
      have hlt := taskRank_of_taskStep (t := t) (g := s.shared) (hi _ (mem_of_getElem? hτ))
        (.finishSweep hentry) hcall
      exact ⟨rfl, .inl (Nat.add_lt_add_of_lt_of_le (total_set_lt hτ hlt) (total_set_le hc le_rfl))⟩
  | @take k c hc hpc =>
      have hle : ∀ τ ∈ s.tasks, taskRank (takeEntry k τ) ≤ taskRank τ := by
        intro τ _
        unfold takeEntry
        split
        · rename_i hentry
          simp [taskRank, hentry, EntryPc.rank]
        · exact le_rfl
      refine ⟨rfl, .inl (Nat.add_lt_add_of_le_of_lt (total_map_le hle) (total_set_lt hc ?_))⟩
      simp [hpc, CloserPc.rank]
  | endSweep hc hpc =>
      refine ⟨rfl, .inl (Nat.add_lt_add_left (total_set_lt hc ?_) _)⟩
      simp [hpc, CloserPc.rank]
  | closer hc hcstep =>
      exact ⟨rfl, .inl (Nat.add_lt_add_left (total_set_lt hc (closerStep_rank hcstep)) _)⟩
  | waiter hx hwstep =>
      obtain ⟨hlt, hall, hwaiters⟩ := waiterStep_rank hwstep
      rw [waiterRank_congr hall hwaiters] at hlt
      refine ⟨List.length_set, .inr ⟨rfl, ?_⟩⟩
      rw [waiterRank_congr hall hwaiters]
      exact total_set_lt hx hlt

theorem lowers (taskCapacity : NonZeroUsize) : Lowers (service taskCapacity) noCall rank := by
  intro s a s' hs hcall hnext
  obtain ⟨hlength, hwork⟩ := work_of_step hs hcall hnext
  unfold rank
  rw [hlength]
  refine weighted_lt (hwork.imp_left fun hlt => ⟨hlt, ?_⟩)
  exact hlength ▸ total_le_mul (waiterRank_le s'.shared) s'.waiters

end

end TokioExecutorProofs.BlockingRanks
