import TokioExecutorProofs.IoSweeps
import TokioExecutorProofs.RestingSystems

/-!
How far the activities of the IO service are from their ends. A future can stay
pending for ever, and a task can be polled for nothing; every other step that is
not a new call lowers the rank of the service.
-/

namespace TokioExecutorProofs.IoRanks

open ServiceBasics
open IoServiceState
open IoServiceState.TokioIoExecutorServiceState
open IoTask
open IoService
open IoTaskInvariants
open IoActivities
open IoSweeps
open ProcessFamilies
open RestingSystems
open TransitionSystems

/-! ### Ranks of positions -/

@[grind] def GuardPc.rank : GuardPc → Nat
  | .finishMarker => 9
  | .lock => 8
  | .remove => 7
  | .unlock => 6
  | .dec => 5
  | .notifyCapacity => 4
  | .wakeCapacity => 3
  | .notifyWaiters => 2
  | .wakeTermination => 1

@[grind] def SubmitterPc.rank : SubmitterPc → Nat
  | .lockSubmission => 21
  | .checkRunning => 20
  | .getActive => 19
  | .inc => 18
  | .spawn => 17
  | .registerLock => 16
  | .register => 15
  | .registerUnlock => 14
  | .unlockSubmission => 13
  | .send => 12
  | .abandonFuture => 11
  | .dropFuture | .abandonSender => 10
  | .dropGuard d | .abandonGuard d => GuardPc.rank d
  | .rejectUnlock _ => 1
  | .rejected _ | .returned | .abandoned => 0

/-- A task that is polled before its payload has been sent goes back to sleep. -/
@[grind] def WorkerPc.rank (c : Channel) : WorkerPc → Nat
  | .absent => 16
  | .recv => if c = .empty then 15 else 13
  | .idle received => if received then 13 else 14
  | .polling | .dropReceiver => 12
  | .dropFuture => 11
  | .dropGuard d => 1 + GuardPc.rank d
  | .complete => 1
  | .finished => 0

@[grind] def CancelPc.rank : CancelPc → Nat
  | .isFinished => 2
  | .abort => 1
  | .returned _ => 0

@[grind] def EntryPc.rank : EntryPc → Nat
  | .absent => 4
  | .registered => 3
  | .taken _ => 2
  | .aborting _ => 1
  | .gone => 0

def taskRank (τ : Task) : Nat :=
  SubmitterPc.rank τ.submitter + WorkerPc.rank τ.channel τ.worker +
    total CancelPc.rank τ.cancels + EntryPc.rank τ.entry

@[grind] def CloserPc.rank : CloserPc → Nat
  | .lockSubmission => 12
  | .store => 11
  | .getActive => 10
  | .unlockSubmission => 9
  | .takeLock => 8
  | .take => 7
  | .takeUnlock => 6
  | .sweep => 5
  | .notifyCapacity => 4
  | .wakeCapacity => 3
  | .notifyWaiters => 2
  | .wakeTermination => 1
  | .returned => 0

/-- A notification sends a waiter once more through its loop. -/
@[grind] def waiterRank (g : TokioIoExecutorServiceState) : Waiter → Nat
  | .enable => 3
  | .load since => if since < g.notifyWaitersCalls then 6 else 2
  | .getActive since _ => if since < g.notifyWaitersCalls then 5 else 1
  | .suspended since => if since < g.notifyWaitersCalls then 4 else 0
  | .awaited => 0

/-- The steps that the tasks and the closing calls have before them. -/
def work (s : ServiceState) : Nat :=
  total taskRank s.tasks + total (fun c => CloserPc.rank c.pc) s.closers

def rank (s : ServiceState) : Nat :=
  (s.waiters.length * 6 + 1) * work s + total (waiterRank s.shared) s.waiters

/-- A poll finds something: the payload, the end of the channel or an abort. -/
def hasNews (τ : Task) : Bool :=
  τ.aborted || τ.channel != .empty || τ.worker == .idle true

/-- No new call, no poll for nothing and no future that stays pending. -/
def advances (s : ServiceState) : Action → Bool
  | .callSpawn | .callCancel _ | .callClose _ | .callWait => false
  | .pickUp t => (s.tasks[t]?).all hasNews
  | .worker _ outcome => outcome != .pending
  | .submitter _ _ | .abandon _ | .destroy _ | .canceller _ _ | .closer _ | .sweepNext _ _
  | .sweepAbort _ | .waiter _ => true

def advancing (s : ServiceState) (a : Action) : Prop := advances s a = true

/-- The step goes on whatever the runtime and the users do: a runtime polls a task
that has been woken, and a future that is polled and a waker return. -/
def isDriven (s : ServiceState) : Action → Bool
  | .submitter _ runtimeClosed => !runtimeClosed
  | .abandon _ | .destroy _ => false
  | a => advances s a

def driven (s : ServiceState) (a : Action) : Prop := isDriven s a = true

theorem advancing_of_driven {s : ServiceState} {a : Action} (h : driven s a) : advancing s a := by
  cases a with
  | submitter => rfl
  | abandon | destroy => cases h
  | _ => exact h

/-! ### Every step lowers a rank -/

section

variable {t : TaskId} {g g' : TokioIoExecutorServiceState} {τ τ' : Task} {a : Action} {b : Actor}

theorem guardStep_rank {d : GuardPc} {next : Option GuardPc}
    (h : guardStep b g τ d = some (g', τ', next)) :
    next.elim 0 GuardPc.rank < GuardPc.rank d := by
  cases d <;> simp only [guardStep] at h
  case lock =>
    simp only [map_acquire_eq_some, Prod.mk.injEq] at h
    rw [← h.2.2.2]
    decide
  all_goals
    simp only [Option.some.injEq, Prod.mk.injEq] at h
    rw [← h.2.2]
    decide

theorem entryRank_le (hi : TaskInvariant τ) (h : EntryMove τ τ' a) :
    EntryPc.rank τ'.entry ≤ EntryPc.rank τ.entry := by
  cases h with
  | keep hentry => exact hentry ▸ le_rfl
  | register hs hentry =>
      rw [hi.absent.mpr (by rw [hs]; rfl), hentry]
      decide
  | refuse _ _ hentry | remove _ _ hentry => exact hentry ▸ Nat.zero_le _
  | sweepNext hbefore hentry =>
      rw [hbefore, hentry]
      split <;> simp [EntryPc.rank]
  | sweepAbort _ hentry => exact hentry ▸ Nat.zero_le _

theorem rank_le_of_channel {c c' : Channel} (w : WorkerPc) (h : c' ≠ .empty) :
    WorkerPc.rank c' w ≤ WorkerPc.rank c w := by
  cases w with
  | recv =>
      simp only [WorkerPc.rank, if_neg h]
      split <;> omega
  | _ => exact le_rfl

/-- A submission may hand its payload to a task that waits for it. -/
theorem submitterStep_rank {runtimeClosed : Bool} (hi : TaskInvariant τ)
    (h : submitterStep t runtimeClosed g τ = some (g', τ')) :
    SubmitterPc.rank τ'.submitter < SubmitterPc.rank τ.submitter ∧
      WorkerPc.rank τ'.channel τ'.worker ≤ WorkerPc.rank τ.channel τ.worker := by
  have hplaced := hi.placed
  cases hs : τ.submitter <;> simp only [submitterStep, hs] at h hplaced
  case dropGuard d | abandonGuard d =>
    simp only [Option.map_eq_some_iff, Prod.mk.injEq, Prod.exists] at h
    obtain ⟨_, _, next, hstep, _, rfl⟩ := h
    have hlt := guardStep_rank hstep
    obtain ⟨_, _, _, rfl, _⟩ := guardMove_of_step hstep
    refine ⟨?_, le_rfl⟩
    cases next <;> simp_all [SubmitterPc.rank]
  case spawn =>
    rw [worker_of_absent hplaced.1]
    split at h <;> simp only [Option.some.injEq, Prod.mk.injEq] at h <;> obtain ⟨_, rfl⟩ := h <;>
      simp [SubmitterPc.rank, WorkerPc.rank]
  case send =>
    split at h <;> simp only [Option.some.injEq, Prod.mk.injEq, reduceCtorEq] at h
    · obtain ⟨_, rfl⟩ := h
      exact ⟨by simp [SubmitterPc.rank], rank_le_of_channel τ.worker (by simp)⟩
    · obtain ⟨_, rfl⟩ := h
      exact ⟨by simp [SubmitterPc.rank], le_rfl⟩
  case abandonSender =>
    simp only [Option.some.injEq, Prod.mk.injEq] at h
    obtain ⟨_, rfl⟩ := h
    exact ⟨by simp [SubmitterPc.rank, GuardPc.rank], rank_le_of_channel τ.worker (by simp)⟩
  all_goals grind -linarith

theorem workerStep_rank {outcome : PollOutcome} (houtcome : outcome ≠ .pending)
    (h : workerStep t outcome g τ = some (g', τ')) :
    WorkerPc.rank τ'.channel τ'.worker < WorkerPc.rank τ.channel τ.worker := by
  cases hw : τ.worker <;> simp only [workerStep, hw] at h
  case dropGuard d =>
    simp only [Option.map_eq_some_iff, Prod.mk.injEq, Prod.exists] at h
    obtain ⟨_, _, next, hstep, _, rfl⟩ := h
    have hlt := guardStep_rank hstep
    cases next <;> simp_all [WorkerPc.rank]
  all_goals grind -linarith

theorem taskRank_of_taskStep {s : ServiceState} (hτ : s.tasks[t]? = some τ) (hi : TaskInvariant τ)
    (hm : Marked τ) (h : TaskStep t g τ a g' τ') (hcancel : ∀ j, a ≠ .canceller t j)
    (hadvances : advances s a = true) : taskRank τ' < taskRank τ := by
  have hentry := entryRank_le hi (entryMove_of_taskStep hi hm h)
  unfold taskRank
  cases h with
  | submitter h =>
      obtain ⟨hlt, hle⟩ := submitterStep_rank hi h
      have hcancels := (submitterStep_frame h).2.1
      rw [hcancels]
      omega
  | worker h =>
      have hlt := workerStep_rank (by simpa [advances] using hadvances) h
      obtain ⟨hsubmitter, hcancels, _⟩ := workerStep_frame h
      rw [hsubmitter, hcancels]
      omega
  | abandon h =>
      rw [h]
      simp only [SubmitterPc.rank]
      omega
  | @pickUp received h =>
      have hnews : hasNews τ = true := by simpa [advances, hτ] using hadvances
      have hlt : WorkerPc.rank τ.channel (if τ.aborted then .cancelled received
          else if received then .polling else .recv) < WorkerPc.rank τ.channel τ.worker := by
        simp only [hasNews, h] at hnews
        rw [h]
        unfold WorkerPc.cancelled
        cases received <;> cases haborted : τ.aborted <;> cases hchannel : τ.channel <;>
          simp [haborted, hchannel] at hnews <;> decide
      dsimp only
      omega
  | @destroy received h =>
      have hlt : WorkerPc.rank τ.channel (.cancelled received) <
          WorkerPc.rank τ.channel τ.worker := by
        rw [h]
        cases received <;> simp [WorkerPc.cancelled, WorkerPc.rank]
      dsimp only
      omega
  | callCancel => cases hadvances
  | canceller => exact absurd rfl (hcancel _)
  | sweepNext h =>
      rw [h]
      simp only [sweepCheck]
      split <;> simp [EntryPc.rank]
  | sweepAbort h =>
      rw [h]
      simp [sweepAbort, EntryPc.rank]

theorem taskRank_of_cancellerStep {j : Nat} (h : cancellerStep j τ = some τ') :
    taskRank τ' < taskRank τ := by
  unfold cancellerStep at h
  split at h
  · cases h
  · rename_i c hc
    simp only [Option.map_eq_some_iff, Prod.exists] at h
    obtain ⟨τ₁, c', hstep, rfl⟩ := h
    have hlt : CancelPc.rank c' < CancelPc.rank c := by
      cases c <;>
        simp only [cancelStep, Option.some.injEq, Prod.mk.injEq, reduceCtorEq] at hstep <;>
        rw [← hstep.2]
      · split <;> decide
      · decide
    have htotal := total_set_lt hc hlt
    have hsame : τ₁.submitter = τ.submitter ∧ τ₁.worker = τ.worker ∧ τ₁.channel = τ.channel ∧
        τ₁.entry = τ.entry ∧ τ₁.cancels = τ.cancels := by
      cases c <;>
        simp only [cancelStep, Option.some.injEq, Prod.mk.injEq, reduceCtorEq] at hstep <;>
        exact hstep.1 ▸ ⟨rfl, rfl, rfl, rfl, rfl⟩
    obtain ⟨hsubmitter, hworker, hchannel, hentry, hcancels⟩ := hsame
    simp only [taskRank, hsubmitter, hworker, hchannel, hentry, hcancels]
    omega

theorem closerStep_rank {k : Nat} {c c' : Closer} (h : closerStep k g c = some (g', c')) :
    CloserPc.rank c'.pc < CloserPc.rank c.pc := by
  cases hpc : c.pc <;> simp only [closerStep, hpc] at h
  case take | sweep | returned => cases h
  all_goals grind -linarith

theorem waiterRank_le (g : TokioIoExecutorServiceState) (x : Waiter) : waiterRank g x ≤ 6 := by
  cases x <;> simp only [waiterRank] <;> first | omega | (split <;> omega)

theorem waiterStep_rank {x x' : Waiter} (h : waiterStep g x = some x') :
    waiterRank g x' < waiterRank g x := by
  cases x <;> simp only [waiterStep] at h <;> grind -linarith

end

/-! ### Over whole runs -/

section

variable {s s' : ServiceState} {a : Action} {taskCapacity : NonZeroUsize}

theorem taskRank_of_step (hs : (service taskCapacity).Reachable s) (hadvances : advances s a = true)
    (hnext : (service taskCapacity).step a s = some s') {t : TaskId} {τ τ' : Task}
    (hτ : s.tasks[t]? = some τ) (h : TaskStep t s.shared τ a s'.shared τ')
    (htasks : s'.tasks = s.tasks.set t τ') : taskRank τ' < taskRank τ := by
  obtain ⟨hinv, hmarked⟩ := marked_of_reachable hs τ (mem_of_getElem? hτ)
  by_cases hcancel : ∃ j, a = .canceller t j
  · obtain ⟨j, rfl⟩ := hcancel
    simp only [service, step] at hnext
    obtain ⟨τ₁, _, τ₂, hτ₁, hstep, rfl⟩ := onTask_eq_some.mp hnext
    simp only [Option.map_eq_some_iff, Prod.mk.injEq] at hstep
    obtain ⟨_, hstep, rfl, rfl⟩ := hstep
    obtain rfl := Option.some.inj (hτ.symm.trans hτ₁)
    have hat := congrArg (fun tasks => tasks[t]?) htasks
    simp only [getElem?_set_self_of_some hτ, Option.some.injEq] at hat
    exact hat ▸ taskRank_of_cancellerStep hstep
  · exact taskRank_of_taskStep hτ hinv hmarked h (by simpa using hcancel) hadvances

theorem work_of_step (hs : (service taskCapacity).Reachable s) (hadvances : advances s a = true)
    (hnext : (service taskCapacity).step a s = some s') :
    s'.waiters.length = s.waiters.length ∧
      (work s' < work s ∨ work s' = work s ∧
        total (waiterRank s'.shared) s'.waiters < total (waiterRank s.shared) s.waiters) := by
  have htask : ∀ {t : TaskId} {τ τ' : Task}, s.tasks[t]? = some τ →
      TaskStep t s.shared τ a s'.shared τ' → s'.tasks = s.tasks.set t τ' →
      taskRank τ' < taskRank τ :=
    fun hτ hτstep htasks => taskRank_of_step hs hadvances hnext hτ hτstep htasks
  cases effect_of_step hnext with
  | newTask | newCloser | newWaiter => cases hadvances
  | task hτ hτstep =>
      exact ⟨rfl, .inl (Nat.add_lt_add_right (total_set_lt hτ (htask hτ hτstep rfl)) _)⟩
  | sweepNext hc _ _ hτ hentry =>
      have hlt := htask hτ (.sweepNext hentry) rfl
      exact ⟨rfl, .inl (Nat.add_lt_add_of_lt_of_le (total_set_lt hτ hlt) (total_set_le hc le_rfl))⟩
  | sweepAbort hc _ hτ hentry =>
      have hlt := htask hτ (.sweepAbort hentry) rfl
      exact ⟨rfl, .inl (Nat.add_lt_add_of_lt_of_le (total_set_lt hτ hlt) (total_set_le hc le_rfl))⟩
  | @take k c hc hpc =>
      have hle : ∀ τ ∈ s.tasks, taskRank (takeEntry k τ) ≤ taskRank τ := by
        intro τ _
        unfold takeEntry
        split
        · rename_i hentry
          simp [taskRank, hentry, EntryPc.rank]
        · exact le_rfl
      refine ⟨rfl, .inl (Nat.add_lt_add_of_le_of_lt (total_map_le hle) (total_set_lt hc ?_))⟩
      simp [hpc, CloserPc.rank]
  | endSweep hc hpc =>
      refine ⟨rfl, .inl (Nat.add_lt_add_left (total_set_lt hc ?_) _)⟩
      simp [hpc, CloserPc.rank]
  | closer hc hcstep =>
      exact ⟨rfl, .inl (Nat.add_lt_add_left (total_set_lt hc (closerStep_rank hcstep)) _)⟩
  | waiter hx hwstep =>
      exact ⟨List.length_set, .inr ⟨rfl, total_set_lt hx (waiterStep_rank hwstep)⟩⟩

theorem lowers (taskCapacity : NonZeroUsize) : Lowers (service taskCapacity) advancing rank := by
  intro s a s' hs hadvances hnext
  obtain ⟨hlength, hwork⟩ := work_of_step hs hadvances hnext
  unfold rank
  rw [hlength]
  refine weighted_lt (hwork.imp_left fun hlt => ⟨hlt, ?_⟩)
  exact hlength ▸ total_le_mul (waiterRank_le s'.shared) s'.waiters

end

end TokioExecutorProofs.IoRanks
