import TokioExecutorProofs.IoRest
import TokioExecutorProofs.IoResults
import TokioExecutorProofs.IoStop

/-!
An orderly shutdown of the IO service. A future that nobody gives up, neither a stop
call nor its own handle nor the hand-off nor the runtime, is polled until a poll
completes it, and the handle resolves to that.
-/

namespace TokioExecutorProofs.IoDrain

open ServiceBasics
open IoServiceState
open IoServiceState.TokioIoExecutorServiceState
open IoTask
open IoService
open IoTaskInvariants
open IoAccounting
open IoTermination
open IoSweeps
open IoStop
open IoRanks
open IoRest
open IoResults
open ProcessFamilies
open RestingSystems
open TransitionSystems

/-! ### The course of a future that is not given up -/

/-- The submission delivers its payload. -/
def delivers : SubmitterPc → Bool
  | .lockSubmission | .checkRunning | .getActive | .inc | .rejectUnlock _ | .rejected _ | .spawn
  | .registerLock | .register | .registerUnlock | .unlockSubmission | .send | .returned => true
  | .dropFuture | .dropGuard _ | .abandonFuture | .abandonSender | .abandonGuard _
  | .abandoned => false

structure OnCourse (τ : Task) : Prop where
  cancels : τ.cancels = []
  aborted : τ.aborted = false
  submitter : delivers τ.submitter = true
  worker : τ.worker ≠ .dropReceiver
  completed : isOver τ.worker = true → τ.submitter = .returned ∧ τ.output ≠ .cancelled

section

variable {t : TaskId} {g g' : TokioIoExecutorServiceState} {τ τ' : Task} {a : Action}

theorem onCourse_new : OnCourse {} where
  cancels := rfl
  aborted := rfl
  submitter := rfl
  worker h := by cases h
  completed h := by cases h

theorem waiting_of_submitting (hi : TaskInvariant τ) (hc : OnCourse τ)
    (hs : τ.submitter ≠ .returned) (hspawned : submitterPhase τ.submitter ≠ .early) :
    workerPhase τ.worker = .waiting ∧ τ.channel = .empty := by
  have hcourse := hc.submitter
  rcases consistent_cases hi.placed with h | ⟨hw, hchannel, _⟩ | h | ⟨_, _, h⟩ | h | h
  · exact absurd h.2.2 hspawned
  · exact ⟨hw, hchannel⟩
  · exact absurd (submitterPhase_eq_returned.mp h.2.2) hs
  · cases hpc : τ.submitter <;> simp_all [submitterPhase, delivers]
  · exact absurd (hc.completed (isOver_of_isMarked (by rw [h.1]; rfl))).1 hs
  · exact absurd (submitterPhase_eq_returned.mp h.2.2.2.2) hs

theorem OnCourse.submit {pc : SubmitterPc} {channel : Channel} {entry : EntryPc}
    (hc : OnCourse τ) (hs : τ.submitter ≠ .returned) (hpc : delivers pc = true) :
    OnCourse { τ with submitter := pc, channel := channel, entry := entry } where
  cancels := hc.cancels
  aborted := hc.aborted
  submitter := hpc
  worker := hc.worker
  completed h := absurd (hc.completed h).1 hs

theorem OnCourse.work {τ' : Task} (hc : OnCourse τ) (hcancels : τ'.cancels = τ.cancels)
    (haborted : τ'.aborted = τ.aborted) (hsubmitter : τ'.submitter = τ.submitter)
    (hworker : τ'.worker ≠ .dropReceiver)
    (hover : isOver τ'.worker = true → τ'.submitter = .returned ∧ τ'.output ≠ .cancelled) :
    OnCourse τ' where
  cancels := hcancels.trans hc.cancels
  aborted := haborted.trans hc.aborted
  submitter := hsubmitter ▸ hc.submitter
  worker := hworker
  completed := hover

theorem onCourse_of_submitterStep (hi : TaskInvariant τ) (hc : OnCourse τ)
    (h : submitterStep t false g τ = some (g', τ')) : OnCourse τ' := by
  have hcourse := hc.submitter
  cases hs : τ.submitter <;> simp only [submitterStep, hs] at h hcourse
  case rejected | returned | abandoned => cases h
  case dropFuture | dropGuard | abandonFuture | abandonSender | abandonGuard => cases hcourse
  case lockSubmission | registerLock =>
    simp only [map_acquire_eq_some, Prod.mk.injEq] at h
    obtain ⟨_, _, rfl⟩ := h
    exact hc.submit (by simp [hs]) rfl
  case checkRunning | getActive =>
    simp only [Option.some.injEq, Prod.mk.injEq] at h
    obtain ⟨_, rfl⟩ := h
    exact hc.submit (by simp [hs]) (by split <;> rfl)
  case inc | rejectUnlock | register | registerUnlock | unlockSubmission =>
    obtain ⟨_, rfl⟩ := Prod.mk.inj (Option.some.inj h)
    exact hc.submit (by simp [hs]) rfl
  case spawn =>
    obtain ⟨_, rfl⟩ := Prod.mk.inj (Option.some.inj h)
    exact ⟨hc.cancels, hc.aborted, rfl, by simp, by simp [isOver]⟩
  case send =>
    have hempty := (waiting_of_submitting hi hc (by simp [hs]) (by simp [hs, submitterPhase])).2
    simp only [hempty, Option.some.injEq, Prod.mk.injEq] at h
    obtain ⟨_, rfl⟩ := h
    exact hc.submit (by simp [hs]) rfl

theorem onCourse_of_workerStep {outcome : PollOutcome} (hi : TaskInvariant τ) (hc : OnCourse τ)
    (h : workerStep t outcome g τ = some (g', τ')) : OnCourse τ' := by
  cases hw : τ.worker <;> simp only [workerStep, hw] at h
  case absent | idle | finished => cases h
  case dropReceiver => exact absurd hw hc.worker
  case recv =>
    -- Only a hand-off that is given up closes the channel before the delivery.
    have hopen : τ.channel ≠ .closed := by
      intro hclosed
      have hcourse := hc.submitter
      have hplaced := hi.placed
      rw [hw, hclosed] at hplaced
      cases hs : τ.submitter <;> simp_all [submitterPhase, workerPhase, consistent, delivers]
    split at h
    · obtain ⟨_, rfl⟩ := Prod.mk.inj (Option.some.inj h)
      exact hc.work rfl rfl rfl (by simp) (by simp [isOver])
    · obtain ⟨_, rfl⟩ := Prod.mk.inj (Option.some.inj h)
      exact hc.work rfl rfl rfl (by simp) (by simp [isOver])
    · exact absurd ‹_› hopen
  case polling =>
    have hreturned : τ.submitter = .returned := by
      have hplaced := hi.placed
      rw [hw] at hplaced
      cases hs : τ.submitter <;> simp_all [submitterPhase, workerPhase, consistent]
    cases outcome <;> obtain ⟨_, rfl⟩ := Prod.mk.inj (Option.some.inj h)
    · exact hc.work rfl rfl rfl (by simp) (by simp [isOver])
    all_goals exact hc.work rfl rfl rfl (by simp) fun _ => ⟨hreturned, by simp⟩
  case dropFuture =>
    obtain ⟨_, rfl⟩ := Prod.mk.inj (Option.some.inj h)
    obtain ⟨hreturned, houtput⟩ := hc.completed (by rw [hw]; rfl)
    refine hc.work rfl rfl rfl (by simp) fun _ => ⟨hreturned, ?_⟩
    dsimp only
    split
    · simp
    · exact houtput
  case complete =>
    obtain ⟨_, rfl⟩ := Prod.mk.inj (Option.some.inj h)
    exact hc.work rfl rfl rfl (by simp) fun _ => hc.completed (by rw [hw]; rfl)
  case dropGuard d =>
    simp only [Option.map_eq_some_iff, Prod.mk.injEq, Prod.exists] at h
    obtain ⟨_, _, next, hstep, _, rfl⟩ := h
    obtain ⟨_, _, _, rfl, _⟩ := guardMove_of_step hstep
    have hover := hc.completed (by rw [hw]; rfl)
    cases next <;> exact hc.work rfl rfl rfl (by simp) fun _ => hover

/-- Nobody stops the service, and neither the handle nor the hand-off nor the runtime
gives up task `t`. -/
def spares (t : TaskId) : Action → Bool
  | .callClose kind => kind != .stop
  | .submitter t' runtimeClosed => t' != t || !runtimeClosed
  | .abandon t' | .destroy t' | .callCancel t' => t' != t
  | .callSpawn | .pickUp _ | .worker _ _ | .canceller _ _ | .closer _ | .sweepNext _ _
  | .sweepAbort _ | .callWait | .waiter _ => true

def sparing (t : TaskId) (_ : ServiceState) (a : Action) : Prop := spares t a = true

instance (t : TaskId) (s : ServiceState) (a : Action) : Decidable (sparing t s a) :=
  inferInstanceAs (Decidable (spares t a = true))

theorem onCourse_of_taskStep (hi : TaskInvariant τ) (hc : OnCourse τ) (hspares : spares t a = true)
    (haborting : ∀ k, τ.entry ≠ .aborting k) (h : TaskStep t g τ a g' τ') : OnCourse τ' := by
  cases h with
  | @submitter runtimeClosed _ _ h =>
      cases runtimeClosed with
      | false => exact onCourse_of_submitterStep hi hc h
      | true => simp [spares] at hspares
  | worker h => exact onCourse_of_workerStep hi hc h
  | @pickUp received h =>
      have hpoll : (if τ.aborted then WorkerPc.cancelled received
          else if received then .polling else .recv) = if received then .polling else .recv :=
        if_neg (by simp [hc.aborted])
      rw [hpoll]
      cases received <;> exact hc.work rfl rfl rfl (by simp) (by simp [isOver])
  | abandon | destroy | callCancel => simp [spares] at hspares
  | canceller _ hcancels => exact absurd hc.cancels hcancels
  | sweepNext => exact ⟨hc.cancels, hc.aborted, hc.submitter, hc.worker, hc.completed⟩
  | sweepAbort hentry => exact absurd hentry (haborting _)

theorem onCourse_takeEntry {k : Nat} (hc : OnCourse τ) : OnCourse (takeEntry k τ) := by
  unfold takeEntry
  split
  · exact ⟨hc.cancels, hc.aborted, hc.submitter, hc.worker, hc.completed⟩
  · exact hc

end

section

variable {taskCapacity : NonZeroUsize} {s s' : ServiceState} {a : Action} {t : TaskId} {τ : Task}

theorem sparing_of_driven (h : driven s a) : sparing t s a := by
  cases a <;> simp_all [driven, isDriven, advances, sparing, spares]

theorem not_aborting_of_sparing (h : (service taskCapacity).ReachableUnder (sparing t) s)
    {i : TaskId} (hτ : s.tasks[i]? = some τ) (k : Nat) : τ.entry ≠ .aborting k := by
  intro hentry
  have hs := ReachableUnder.reachable h
  have howned := owned_of_reachable hs i τ hτ
  rw [hentry] at howned
  obtain ⟨c, hc, hpc, _⟩ := howned
  have hmem := mem_of_getElem? hc
  refine (closingView taskCapacity).not_isStop_of_reachableUnder ?_ h c hmem ?_
  · rintro s₁ _ hspares rfl
    cases hspares
  · exact (closingView taskCapacity).isStop_of_isStopOnly hs c hmem (congrArg isStopOnly hpc)

theorem onCourse_of_sparing (h : (service taskCapacity).ReachableUnder (sparing t) s) :
    ∀ τ, s.tasks[t]? = some τ → OnCourse τ := by
  refine ReachableUnder.invariant (P := fun s => ∀ τ, s.tasks[t]? = some τ → OnCourse τ) h
    (by simp [service]) ?_
  intro s a s' hs ih hspares hnext τ' hτ'
  rcases (effect_of_step hnext).tasks with
    ⟨-, htasks⟩ | ⟨i, τ, τ₁, hτ, hstep, htasks⟩ | ⟨k, -, htasks⟩ | htasks
  · rw [htasks] at hτ'
    rcases getElem?_append_cases hτ' with hτ' | ⟨_, rfl⟩
    · exact ih τ' hτ'
    · exact onCourse_new
  · rw [htasks] at hτ'
    rcases getElem?_set_cases hτ' with ⟨rfl, rfl⟩ | ⟨_, hτ'⟩
    · have hi := taskInvariant_of_reachable (ReachableUnder.reachable hs) τ (mem_of_getElem? hτ)
      exact onCourse_of_taskStep hi (ih τ hτ) hspares (not_aborting_of_sparing hs hτ) hstep
    · exact ih τ' hτ'
  · rw [htasks, List.getElem?_map, Option.map_eq_some_iff] at hτ'
    obtain ⟨τ, hτ, rfl⟩ := hτ'
    exact onCourse_takeEntry (ih τ hτ)
  · rw [htasks] at hτ'
    exact ih τ' hτ'

theorem accepted_of_run (h : (service taskCapacity).Reachable s)
    (hrun : (service taskCapacity).Run s s') (hτ : s.tasks[t]? = some τ)
    (haccepted : isAccepted τ.submitter = true) :
    ∃ τ', s'.tasks[t]? = some τ' ∧ isAccepted τ'.submitter = true := by
  refine Run.stable (P := fun s => ∃ τ, s.tasks[t]? = some τ ∧ isAccepted τ.submitter = true)
    h hrun ⟨τ, hτ, haccepted⟩ ?_
  intro s a s' _ hbefore hnext
  obtain ⟨τ, hτ, haccepted⟩ := hbefore
  have hne : τ.submitter ≠ .inc := by
    intro hinc
    rw [hinc] at haccepted
    cases haccepted
  refine exists_task_of_step hnext hτ haccepted (fun τ' hstep => ?_) fun k => ?_
  · exact ((isAccepted_of_taskStep hstep).resolve_right hne).trans haccepted
  · rw [(takeEntry_frame k τ).1]
    exact haccepted

end

end TokioExecutorProofs.IoDrain
