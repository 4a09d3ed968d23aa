import TokioExecutorProofs.IoService

/-!
One task of the IO service over its whole life. The payload, a user future with
its guard, is in the hands of exactly one of the submission, the channel and
Tokio's task, and whoever destroys it drops the future before the guard.
-/

namespace TokioExecutorProofs.IoTaskInvariants

open ServiceBasics
open IoServiceState
open IoServiceState.TokioIoExecutorServiceState
open IoTask
open IoService

/-! ### Where the payload is -/

inductive SubmitterPhase where
  | early
  | holding
  /-- The abandoned hand-off has dropped the future and still has the guard. -/
  | futureDropped
  | failing
  | droppingGuard (d : GuardPc)
  | returned
  | abandoning (d : GuardPc)
  | abandoned
  deriving DecidableEq, Repr

inductive WorkerPhase where
  | absent
  | waiting
  | holding
  | droppingGuard (d : GuardPc)
  | ended
  deriving DecidableEq, Repr

/-- How much of the payload is left. -/
inductive PayloadStage where
  | whole
  | futureDropped
  | droppingGuard (d : GuardPc)
  | destroyed
  deriving DecidableEq, Repr

@[grind] def submitterPhase : SubmitterPc → SubmitterPhase
  | .lockSubmission | .checkRunning | .getActive | .inc | .rejectUnlock _ | .rejected _
  | .spawn => .early
  | .registerLock | .register | .registerUnlock | .unlockSubmission | .send
  | .abandonFuture => .holding
  | .abandonSender => .futureDropped
  | .dropFuture => .failing
  | .dropGuard d => .droppingGuard d
  | .returned => .returned
  | .abandonGuard d => .abandoning d
  | .abandoned => .abandoned

@[grind] def workerPhase : WorkerPc → WorkerPhase
  | .absent => .absent
  | .idle false | .recv | .dropReceiver => .waiting
  | .idle true | .polling | .dropFuture => .holding
  | .dropGuard d => .droppingGuard d
  | .complete | .finished => .ended

theorem worker_of_absent {w : WorkerPc} (h : workerPhase w = .absent) : w = .absent := by
  cases w with
  | absent => rfl
  | idle received => cases received <;> cases h
  | _ => cases h

@[grind] def consistent (w : WorkerPhase) (c : Channel) : SubmitterPhase → Prop
  | .early => w = .absent ∧ c = .empty
  | .holding | .futureDropped => w = .waiting ∧ c = .empty ∨ w = .ended ∧ c = .closed
  | .failing | .droppingGuard _ => w = .ended ∧ c = .closed
  | .abandoning _ | .abandoned => (w = .waiting ∨ w = .ended) ∧ c = .closed
  | .returned => w = .waiting ∧ c = .full ∨ w ≠ .absent ∧ w ≠ .waiting ∧ c = .closed

@[grind →] theorem consistent_cases {w : WorkerPhase} {c : Channel} {s : SubmitterPhase}
    (h : consistent w c s) :
    (w = .absent ∧ c = .empty ∧ s = .early) ∨
    (w = .waiting ∧ c = .empty ∧ (s = .holding ∨ s = .futureDropped)) ∨
    (w = .waiting ∧ c = .full ∧ s = .returned) ∨
    (w = .waiting ∧ c = .closed ∧ (s = .abandoned ∨ ∃ d, s = .abandoning d)) ∨
    (w = .ended ∧ c = .closed ∧ s ≠ .early) ∨
    (w ≠ .absent ∧ w ≠ .waiting ∧ w ≠ .ended ∧ c = .closed ∧ s = .returned) := by
  cases s <;> simp only [consistent] at h <;> grind -linarith

@[grind =] theorem submitterPhase_eq_returned {pc : SubmitterPc} :
    submitterPhase pc = .returned ↔ pc = .returned := by
  cases pc <;> simp [submitterPhase]

@[grind] def workerStage : WorkerPhase → PayloadStage
  | .absent | .waiting | .holding => .whole
  | .droppingGuard d => .droppingGuard d
  | .ended => .destroyed

@[grind] def stageOf (w : WorkerPhase) : SubmitterPhase → PayloadStage
  | .early | .holding | .failing => .whole
  | .futureDropped => .futureDropped
  | .droppingGuard d | .abandoning d => .droppingGuard d
  | .returned => workerStage w
  | .abandoned => .destroyed

def stage (τ : Task) : PayloadStage :=
  stageOf (workerPhase τ.worker) (submitterPhase τ.submitter)

/-- The stage after a step of the guard's drop. -/
@[grind] def PayloadStage.after : Option GuardPc → PayloadStage
  | some d => .droppingGuard d
  | none => .destroyed

@[grind] def PayloadStage.isWhole : PayloadStage → Bool
  | .whole => true
  | .futureDropped | .droppingGuard _ | .destroyed => false

@[grind] def GuardPc.isPastRemove : GuardPc → Bool
  | .finishMarker | .lock | .remove => false
  | .unlock | .dec | .notifyCapacity | .wakeCapacity | .notifyWaiters | .wakeTermination => true

@[grind] def GuardPc.isPastDec : GuardPc → Bool
  | .finishMarker | .lock | .remove | .unlock | .dec => false
  | .notifyCapacity | .wakeCapacity | .notifyWaiters | .wakeTermination => true

@[grind] def PayloadStage.isPastRemove : PayloadStage → Bool
  | .whole | .futureDropped => false
  | .droppingGuard d => GuardPc.isPastRemove d
  | .destroyed => true

/-- The guard has given the capacity back. -/
@[grind] def PayloadStage.isReleased : PayloadStage → Bool
  | .whole | .futureDropped => false
  | .droppingGuard d => GuardPc.isPastDec d
  | .destroyed => true

/-- No decision about the registry entry yet. -/
@[grind] def isOpen : SubmitterPc → Bool
  | .lockSubmission | .checkRunning | .getActive | .inc | .rejectUnlock _ | .rejected _
  | .spawn | .registerLock | .register => true
  | .registerUnlock | .unlockSubmission | .send | .dropFuture | .dropGuard _ | .returned
  | .abandonFuture | .abandonSender | .abandonGuard _ | .abandoned => false

/-- The submission has taken a place in the count. -/
@[grind] def isAccepted : SubmitterPc → Bool
  | .lockSubmission | .checkRunning | .getActive | .inc | .rejectUnlock _
  | .rejected _ => false
  | .spawn | .registerLock | .register | .registerUnlock | .unlockSubmission | .send
  | .dropFuture | .dropGuard _ | .returned | .abandonFuture | .abandonSender
  | .abandonGuard _ | .abandoned => true

structure TaskInvariant (τ : Task) : Prop where
  placed : consistent (workerPhase τ.worker) τ.channel (submitterPhase τ.submitter)
  future : τ.futureDropped = !(stage τ).isWhole
  decrements : τ.decrements = if (stage τ).isReleased then 1 else 0
  absent : τ.entry = .absent ↔ isOpen τ.submitter = true
  registered : τ.entry = .registered → (stage τ).isPastRemove = false
  cancels : τ.cancels ≠ [] → τ.submitter = .returned

/-- What the submission and Tokio's task can do to the payload and the shared state. -/
inductive PayloadMove (a : Actor) (g : TokioIoExecutorServiceState) (τ : Task) :
    TokioIoExecutorServiceState → Task → Prop
  | go {g' s w ch o} (hlocks : ∃ locks, g' = { g with locks := locks })
      (hplaced : consistent (workerPhase w) ch (submitterPhase s))
      (hstage : stageOf (workerPhase w) (submitterPhase s) = stage τ)
      (hopen : isOpen s = isOpen τ.submitter)
      (haccepted : isAccepted s = isAccepted τ.submitter)
      (hinc : s = .inc → τ.submitter = .inc ∨ g.isSaturated = false)
      (hreturned : τ.submitter = .returned → s = .returned) :
      PayloadMove a g τ g' { τ with submitter := s, worker := w, channel := ch, output := o }
  | accept (hs : τ.submitter = .inc) :
      PayloadMove a g τ g.acceptTask { τ with submitter := .spawn }
  | register (hs : τ.submitter = .register) :
      PayloadMove a g τ g
        { τ with submitter := .registerUnlock
                 entry := if !τ.markerFinished && τ.worker != .finished then .registered
                          else .gone }
  | dropFuture {s w o} (hplaced : consistent (workerPhase w) τ.channel (submitterPhase s))
      (hwhole : stage τ = .whole)
      (hstage : stageOf (workerPhase w) (submitterPhase s) = .futureDropped ∨
        stageOf (workerPhase w) (submitterPhase s) = .droppingGuard .finishMarker)
      (hopen : isOpen s = isOpen τ.submitter)
      (haccepted : isAccepted s = isAccepted τ.submitter)
      (hinc : s = .inc → τ.submitter = .inc)
      (hreturned : τ.submitter = .returned → s = .returned) :
      PayloadMove a g τ g
        { τ with submitter := s, worker := w, futureDropped := true, output := o }
  | abandonSender (hs : τ.submitter = .abandonSender) :
      PayloadMove a g τ g
        { τ with submitter := .abandonGuard .finishMarker, channel := .closed }
  | guard {g' d τ₁ next s w} (hd : stage τ = .droppingGuard d)
      (hstep : guardStep a g τ d = some (g', τ₁, next))
      (hplaced : consistent (workerPhase w) τ.channel (submitterPhase s))
      (hstage : stageOf (workerPhase w) (submitterPhase s) = PayloadStage.after next)
      (hopen : isOpen s = isOpen τ.submitter)
      (haccepted : isAccepted τ.submitter = true ∧ isAccepted s = true)
      (hreturned : τ.submitter = .returned → s = .returned) :
      PayloadMove a g τ g' { τ₁ with submitter := s, worker := w }

section

variable {t : TaskId} {g g' : TokioIoExecutorServiceState} {τ τ' : Task} {a : Actor}

/-- What a step of the guard's drop does to the entry and the count of
decrements. -/
structure GuardMove (τ : Task) (d : GuardPc) (next : Option GuardPc) (e : EntryPc)
    (n : Nat) : Prop where
  decrements : n = τ.decrements + (if d = .dec then 1 else 0)
  entry : e = τ.entry ∨ τ.entry = .registered ∧ e = .gone
  remove : GuardPc.isPastRemove d = false → (PayloadStage.after next).isPastRemove = true →
    e ≠ .registered
  past : GuardPc.isPastRemove d = true → (PayloadStage.after next).isPastRemove = true
  released : (PayloadStage.after next).isReleased = (GuardPc.isPastDec d || d == .dec)
  whole : (PayloadStage.after next).isWhole = false

theorem guardMove_of_step {d : GuardPc} {next : Option GuardPc}
    (h : guardStep a g τ d = some (g', τ', next)) :
    ∃ marker e n, τ' =
      { τ with markerFinished := marker, entry := e, decrements := n } ∧
      GuardMove τ d next e n := by
  cases d <;> simp only [guardStep] at h
  case lock =>
    simp only [map_acquire_eq_some, Prod.mk.injEq] at h
    obtain ⟨_, _, rfl, rfl⟩ := h
    exact ⟨_, _, _, rfl, rfl, .inl rfl, by simp [PayloadStage.after, PayloadStage.isPastRemove,
      GuardPc.isPastRemove], by simp [GuardPc.isPastRemove], rfl, rfl⟩
  case remove =>
    simp only [Option.some.injEq, Prod.mk.injEq] at h
    obtain ⟨_, rfl, rfl⟩ := h
    refine ⟨_, _, _, rfl, rfl, ?_, ?_, by simp [GuardPc.isPastRemove], rfl, rfl⟩
    · split
      · rename_i hentry
        exact .inr ⟨hentry, rfl⟩
      · exact .inl rfl
    · intro _ _
      split
      · simp
      · assumption
  case finishMarker =>
    simp only [Option.some.injEq, Prod.mk.injEq] at h
    obtain ⟨_, rfl, rfl⟩ := h
    exact ⟨_, _, _, rfl, rfl, .inl rfl, by simp [PayloadStage.after, PayloadStage.isPastRemove,
      GuardPc.isPastRemove], by simp [GuardPc.isPastRemove], rfl, rfl⟩
  case unlock | dec | notifyCapacity | wakeCapacity | notifyWaiters | wakeTermination =>
    simp only [Option.some.injEq, Prod.mk.injEq] at h
    obtain ⟨_, rfl, rfl⟩ := h
    exact ⟨_, _, _, rfl, rfl, .inl rfl, by simp [GuardPc.isPastRemove], fun _ => rfl, rfl, rfl⟩

theorem taskInvariant_of_guardMove {d : GuardPc} {next : Option GuardPc} {s : SubmitterPc}
    {w : WorkerPc} {marker : Bool} {e : EntryPc} {n : Nat} (hi : TaskInvariant τ)
    (hd : stage τ = .droppingGuard d) (h : GuardMove τ d next e n)
    (hplaced : consistent (workerPhase w) τ.channel (submitterPhase s))
    (hstage : stageOf (workerPhase w) (submitterPhase s) = PayloadStage.after next)
    (hopen : isOpen s = isOpen τ.submitter)
    (hreturned : τ.submitter = .returned → s = .returned) :
    TaskInvariant { τ with submitter := s, worker := w, markerFinished := marker,
                           entry := e, decrements := n } where
  placed := hplaced
  future := by
    rw [stage, hstage, h.whole, hi.future, hd]
    rfl
  decrements := by
    have hbefore := hi.decrements
    rw [hd] at hbefore
    rw [stage, hstage, h.released, h.decrements, hbefore]
    cases d <;> rfl
  absent := by
    rw [hopen, ← hi.absent]
    rcases h.entry with hsame | ⟨hbefore, hafter⟩
    · rw [hsame]
    · simp [hbefore, hafter]
  registered hentry := by
    rw [stage, hstage]
    by_contra hpast
    have hbefore : τ.entry = .registered := by
      rcases h.entry with hsame | ⟨hbefore, _⟩
      · exact hsame.symm.trans hentry
      · exact hbefore
    have hnot := hi.registered hbefore
    rw [hd] at hnot
    exact h.remove hnot (by simpa using hpast) hentry
  cancels hne := hreturned (hi.cancels hne)

theorem taskInvariant_of_payloadMove (hi : TaskInvariant τ) (h : PayloadMove a g τ g' τ') :
    TaskInvariant τ' := by
  cases h with
  | go _ hplaced hstage hopen _ _ hreturned =>
      exact {
        placed := hplaced
        future := by
          rw [stage, hstage]
          exact hi.future
        decrements := by
          rw [stage, hstage]
          exact hi.decrements
        absent := by
          rw [hopen]
          exact hi.absent
        registered := fun hentry => by
          rw [stage, hstage]
          exact hi.registered hentry
        cancels := fun hne => hreturned (hi.cancels hne) }
  | accept hs =>
      have hplaced := hi.placed
      have hstage : stage τ = stageOf (workerPhase τ.worker) (submitterPhase τ.submitter) := rfl
      rw [hs] at hplaced hstage
      exact {
        placed := hplaced
        future := hi.future.trans (by rw [hstage]; rfl)
        decrements := hi.decrements.trans (by rw [hstage]; rfl)
        absent := hi.absent.trans (by rw [hs]; rfl)
        registered := fun _ => rfl
        cancels := fun hne => absurd (hi.cancels hne) (by simp [hs]) }
  | register hs =>
      have hplaced := hi.placed
      have hstage : stage τ = stageOf (workerPhase τ.worker) (submitterPhase τ.submitter) := rfl
      rw [hs] at hplaced hstage
      exact {
        placed := hplaced
        future := hi.future.trans (by rw [hstage]; rfl)
        decrements := hi.decrements.trans (by rw [hstage]; rfl)
        absent := by
          refine ⟨fun habsent => ?_, fun hopen => by cases hopen⟩
          dsimp only at habsent
          split at habsent <;> cases habsent
        registered := fun _ => rfl
        cancels := fun hne => absurd (hi.cancels hne) (by simp [hs]) }
  | dropFuture hplaced hwhole hstage hopen _ _ hreturned =>
      have hbefore := hi.decrements
      rw [hwhole] at hbefore
      exact {
        placed := hplaced
        future := by rcases hstage with hstage | hstage <;> rw [stage, hstage] <;> rfl
        decrements := by rcases hstage with hstage | hstage <;> rw [stage, hstage] <;> exact hbefore
        absent := by
          rw [hopen]
          exact hi.absent
        registered := fun _ => by rcases hstage with hstage | hstage <;> rw [stage, hstage] <;> rfl
        cancels := fun hne => hreturned (hi.cancels hne) }
  | abandonSender hs =>
      have hplaced := hi.placed
      have hstage : stage τ = stageOf (workerPhase τ.worker) (submitterPhase τ.submitter) := rfl
      rw [hs] at hplaced hstage
      exact {
        placed := ⟨hplaced.imp And.left And.left, rfl⟩
        future := hi.future.trans (by rw [hstage]; rfl)
        decrements := hi.decrements.trans (by rw [hstage]; rfl)
        absent := hi.absent.trans (by rw [hs]; rfl)
        registered := fun _ => rfl
        cancels := fun hne => absurd (hi.cancels hne) (by simp [hs]) }
  | guard hd hstep hplaced hstage hopen _ hreturned =>
      obtain ⟨_, _, _, rfl, hmove⟩ := guardMove_of_step hstep
      exact taskInvariant_of_guardMove (τ := τ) hi hd hmove hplaced hstage hopen hreturned

theorem TaskInvariant.setEntry {e : EntryPc} {aborted : Bool} {countedBy : List Nat}
    (hi : TaskInvariant τ) (hheld : τ.entry ≠ .absent) (he : e ≠ .absent ∧ e ≠ .registered) :
    TaskInvariant { τ with entry := e, aborted := aborted, countedBy := countedBy } where
  placed := hi.placed
  future := hi.future
  decrements := hi.decrements
  absent := ⟨fun h => absurd h he.1, fun h => absurd (hi.absent.mpr h) hheld⟩
  registered h := absurd h he.2
  cancels := hi.cancels

theorem returned_of_full {w : WorkerPhase} {s : SubmitterPhase} (h : consistent w .full s) :
    s = .returned ∧ w = .waiting := by
  cases s <;> simp_all [consistent]

theorem returned_of_placed {w : WorkerPhase} {c : Channel} {s : SubmitterPhase}
    (h : consistent w c s) (hw : w = .holding ∨ ∃ d, w = .droppingGuard d) :
    s = .returned ∧ c = .closed := by
  rcases hw with rfl | ⟨d, rfl⟩ <;> cases s <;> simp_all [consistent]

theorem end_of_waiting {c : Channel} {s : SubmitterPhase} (h : consistent .waiting c s)
    (hc : c ≠ .full) :
    consistent .ended .closed s ∧ stageOf .ended s = stageOf .waiting s := by
  cases s <;> simp_all [consistent, stageOf]

theorem PayloadMove.submit {s s' : SubmitterPc} (hi : TaskInvariant τ) (hs : τ.submitter = s)
    (hlocks : ∃ locks, g' = { g with locks := locks })
    (hphase : submitterPhase s' = submitterPhase s) (hopen : isOpen s' = isOpen s)
    (haccepted : isAccepted s' = isAccepted s) (hinc : s' = .inc → g.isSaturated = false)
    (hne : s ≠ .returned) : PayloadMove a g τ g' { τ with submitter := s' } := by
  refine .go hlocks ?_ ?_ (by rw [hs, hopen]) (by rw [hs, haccepted]) (fun h => .inr (hinc h))
    fun h => absurd (hs.symm.trans h) hne
  · rw [hphase, ← hs]
    exact hi.placed
  · rw [hphase, ← hs]
    rfl

theorem PayloadMove.work {w : WorkerPc} {o : TaskResult} (hi : TaskInvariant τ)
    (hphase : workerPhase w = workerPhase τ.worker) :
    PayloadMove a g τ g { τ with worker := w, output := o } := by
  refine .go ⟨_, rfl⟩ ?_ ?_ rfl rfl .inl id
  · rw [hphase]
    exact hi.placed
  · rw [hphase]
    rfl

theorem payloadMove_of_submitterStep {runtimeClosed : Bool} (hi : TaskInvariant τ)
    (h : submitterStep t runtimeClosed g τ = some (g', τ')) :
    PayloadMove (.submitter t) g τ g' τ' := by
  have hstage : stage τ = stageOf (workerPhase τ.worker) (submitterPhase τ.submitter) := rfl
  have hplaced := hi.placed
  cases hs : τ.submitter <;> simp only [submitterStep, hs] at h hplaced hstage
  case rejected | returned | abandoned => cases h
  case lockSubmission | registerLock =>
    simp only [map_acquire_eq_some, Prod.mk.injEq] at h
    obtain ⟨_, rfl, rfl⟩ := h
    exact .submit hi hs ⟨_, rfl⟩ rfl rfl rfl (by simp) (by simp)
  case checkRunning =>
    obtain ⟨rfl, rfl⟩ := Prod.mk.inj (Option.some.inj h)
    split <;> exact .submit hi hs ⟨_, rfl⟩ rfl rfl rfl (by simp) (by simp)
  case getActive =>
    obtain ⟨rfl, rfl⟩ := Prod.mk.inj (Option.some.inj h)
    split
    · exact .submit hi hs ⟨_, rfl⟩ rfl rfl rfl (by simp) (by simp)
    · rename_i hfree
      exact .submit hi hs ⟨_, rfl⟩ rfl rfl rfl (fun _ => by simpa using hfree) (by simp)
  case inc =>
    obtain ⟨rfl, rfl⟩ := Prod.mk.inj (Option.some.inj h)
    exact .accept hs
  case rejectUnlock | registerUnlock | unlockSubmission =>
    obtain ⟨rfl, rfl⟩ := Prod.mk.inj (Option.some.inj h)
    exact .submit hi hs ⟨_, rfl⟩ rfl rfl rfl (by simp) (by simp)
  case spawn =>
    split at h <;> obtain ⟨rfl, rfl⟩ := Prod.mk.inj (Option.some.inj h)
    · exact .go ⟨_, rfl⟩ (.inr ⟨rfl, rfl⟩) hstage.symm (by rw [hs]; rfl) (by rw [hs]; rfl)
        (by simp) (by simp [hs])
    · exact .go ⟨_, rfl⟩ (.inl ⟨rfl, hplaced.2⟩) hstage.symm (by rw [hs]; rfl) (by rw [hs]; rfl)
        (by simp) (by simp [hs])
  case register =>
    obtain ⟨rfl, rfl⟩ := Prod.mk.inj (Option.some.inj h)
    exact .register hs
  case send =>
    split at h
    · rename_i hempty
      obtain ⟨rfl, rfl⟩ := Prod.mk.inj (Option.some.inj h)
      rcases hplaced with ⟨hwaiting, _⟩ | ⟨_, hclosed⟩
      · exact .go ⟨_, rfl⟩ (.inl ⟨hwaiting, rfl⟩) (by rw [hstage, hwaiting]; rfl)
          (by rw [hs]; rfl) (by rw [hs]; rfl) (by simp) (by simp [hs])
      · simp [hclosed] at hempty
    · cases h
    · rename_i hclosed
      obtain ⟨rfl, rfl⟩ := Prod.mk.inj (Option.some.inj h)
      rcases hplaced with ⟨_, hempty⟩ | hended
      · simp [hclosed] at hempty
      · exact .go ⟨_, rfl⟩ hended hstage.symm (by rw [hs]; rfl) (by rw [hs]; rfl) (by simp)
          (by simp [hs])
  case dropFuture =>
    obtain ⟨rfl, rfl⟩ := Prod.mk.inj (Option.some.inj h)
    exact .dropFuture hplaced hstage (.inr rfl) (by rw [hs]; rfl) (by rw [hs]; rfl) (by simp)
      (by simp [hs])
  case abandonFuture =>
    obtain ⟨rfl, rfl⟩ := Prod.mk.inj (Option.some.inj h)
    exact .dropFuture hplaced hstage (.inl rfl) (by rw [hs]; rfl) (by rw [hs]; rfl) (by simp)
      (by simp [hs])
  case abandonSender =>
    obtain ⟨rfl, rfl⟩ := Prod.mk.inj (Option.some.inj h)
    exact .abandonSender hs
  case dropGuard d =>
    simp only [Option.map_eq_some_iff, Prod.mk.injEq, Prod.exists] at h
    obtain ⟨_, τ₁, next, hstep, rfl, rfl⟩ := h
    obtain ⟨_, _, _, rfl, _⟩ := guardMove_of_step hstep
    obtain ⟨hended, hclosed⟩ := hplaced
    cases next with
    | some d' =>
        exact .guard hstage hstep ⟨hended, hclosed⟩ rfl (by rw [hs]; rfl)
          (by rw [hs]; exact ⟨rfl, rfl⟩) (by simp [hs])
    | none =>
        exact .guard hstage hstep (.inr ⟨by simp [hended], by simp [hended], hclosed⟩)
          (by dsimp only; rw [hended]; rfl) (by rw [hs]; rfl) (by rw [hs]; exact ⟨rfl, rfl⟩)
          (by simp)
  case abandonGuard d =>
    simp only [Option.map_eq_some_iff, Prod.mk.injEq, Prod.exists] at h
    obtain ⟨_, τ₁, next, hstep, rfl, rfl⟩ := h
    obtain ⟨_, _, _, rfl, _⟩ := guardMove_of_step hstep
    cases next <;>
      exact .guard hstage hstep hplaced rfl (by rw [hs]; rfl) (by rw [hs]; exact ⟨rfl, rfl⟩)
        (by simp [hs])

theorem payloadMove_of_workerStep {outcome : PollOutcome} (hi : TaskInvariant τ)
    (h : workerStep t outcome g τ = some (g', τ')) : PayloadMove (.worker t) g τ g' τ' := by
  have hstage : stage τ = stageOf (workerPhase τ.worker) (submitterPhase τ.submitter) := rfl
  have hplaced := hi.placed
  cases hs : τ.worker <;> simp only [workerStep, hs] at h hplaced hstage
  case absent | idle | finished => cases h
  case recv =>
    split at h <;> rename_i hchannel <;> rw [hchannel] at hplaced <;>
      obtain ⟨rfl, rfl⟩ := Prod.mk.inj (Option.some.inj h)
    · obtain ⟨hreturned, _⟩ := returned_of_full hplaced
      refine .go ⟨_, rfl⟩ ?_ ?_ rfl rfl .inl id
      · rw [hreturned]
        exact .inr ⟨by simp [workerPhase], by simp [workerPhase], rfl⟩
      · rw [hstage, hreturned]
        rfl
    · exact .work hi (by rw [hs]; rfl)
    · obtain ⟨hended, hsame⟩ := end_of_waiting hplaced (by simp)
      exact .go ⟨_, rfl⟩ (by rw [hchannel]; exact hended) (hsame.trans hstage.symm) rfl rfl .inl id
  case polling =>
    split at h <;> obtain ⟨rfl, rfl⟩ := Prod.mk.inj (Option.some.inj h) <;>
      exact .work hi (by rw [hs]; rfl)
  case dropReceiver =>
    obtain ⟨rfl, rfl⟩ := Prod.mk.inj (Option.some.inj h)
    split <;> rename_i hchannel
    · rw [hchannel] at hplaced
      obtain ⟨hreturned, _⟩ := returned_of_full hplaced
      refine .go ⟨_, rfl⟩ ?_ ?_ rfl rfl .inl id
      · rw [hreturned]
        exact .inr ⟨by simp [workerPhase], by simp [workerPhase], rfl⟩
      · rw [hstage, hreturned]
        rfl
    · obtain ⟨hended, hsame⟩ := end_of_waiting hplaced hchannel
      exact .go ⟨_, rfl⟩ hended (hsame.trans hstage.symm) rfl rfl .inl id
  case dropFuture =>
    obtain ⟨hreturned, hclosed⟩ := returned_of_placed hplaced (.inl rfl)
    obtain ⟨rfl, rfl⟩ := Prod.mk.inj (Option.some.inj h)
    refine .dropFuture ?_ ?_ (.inr ?_) rfl rfl id id
    · rw [hreturned, hclosed]
      exact .inr ⟨by simp [workerPhase], by simp [workerPhase], rfl⟩
    · rw [hstage, hreturned]
      rfl
    · rw [hreturned]
      rfl
  case dropGuard d =>
    obtain ⟨hreturned, hclosed⟩ := returned_of_placed hplaced (.inr ⟨d, rfl⟩)
    have haccepted : isAccepted τ.submitter = true := by
      rw [submitterPhase_eq_returned.mp hreturned]
      rfl
    simp only [Option.map_eq_some_iff, Prod.mk.injEq, Prod.exists] at h
    obtain ⟨_, τ₁, next, hstep, rfl, rfl⟩ := h
    obtain ⟨_, _, _, rfl, _⟩ := guardMove_of_step hstep
    rw [hreturned] at hstage
    refine .guard hstage hstep ?_ ?_ rfl ⟨haccepted, haccepted⟩ id
    all_goals
      dsimp only
      rw [hreturned]
    · rw [hclosed]
      cases next <;> exact .inr ⟨by simp [workerPhase], by simp [workerPhase], rfl⟩
    · cases next <;> rfl
  case complete =>
    obtain ⟨rfl, rfl⟩ := Prod.mk.inj (Option.some.inj h)
    exact .work hi (by rw [hs]; rfl)

theorem taskMove_of_taskStep {b : Action} (hi : TaskInvariant τ) (h : TaskStep t g τ b g' τ') :
    (∃ a, PayloadMove a g τ g' τ') ∨
    g' = g ∧ ((∃ aborted cancels, τ.submitter = .returned ∧
        τ' = { τ with aborted := aborted, cancels := cancels }) ∨
      (∃ k, b = .sweepNext k t ∧ τ.entry = .taken k ∧ τ' = sweepCheck k τ) ∨
      ∃ k, b = .sweepAbort k ∧ τ.entry = .aborting k ∧ τ' = sweepAbort k τ) := by
  cases h with
  | submitter h => exact .inl ⟨_, payloadMove_of_submitterStep hi h⟩
  | worker h => exact .inl ⟨_, payloadMove_of_workerStep hi h⟩
  | abandon h =>
      exact .inl ⟨.submitter t, .submit hi h ⟨_, rfl⟩ rfl rfl rfl (by simp) (by simp)⟩
  | @pickUp received h =>
      refine .inl ⟨.worker t, .work hi ?_⟩
      rw [h]
      cases received <;> split <;> rfl
  | @destroy received h =>
      refine .inl ⟨.worker t, .work hi ?_⟩
      rw [h]
      cases received <;> rfl
  | callCancel h => exact .inr ⟨rfl, .inl ⟨_, _, h, rfl⟩⟩
  | canceller _ hcancels => exact .inr ⟨rfl, .inl ⟨_, _, hi.cancels hcancels, rfl⟩⟩
  | sweepNext h => exact .inr ⟨rfl, .inr (.inl ⟨_, rfl, h, rfl⟩)⟩
  | sweepAbort h => exact .inr ⟨rfl, .inr (.inr ⟨_, rfl, h, rfl⟩)⟩

theorem taskInvariant_of_taskStep {b : Action} (hi : TaskInvariant τ)
    (h : TaskStep t g τ b g' τ') : TaskInvariant τ' := by
  rcases taskMove_of_taskStep hi h with ⟨a, hmove⟩ |
    ⟨_, ⟨_, _, hs, rfl⟩ | ⟨k, _, hentry, rfl⟩ | ⟨k, _, hentry, rfl⟩⟩
  · exact taskInvariant_of_payloadMove hi hmove
  · exact ⟨hi.placed, hi.future, hi.decrements, hi.absent, hi.registered, fun _ => hs⟩
  · exact hi.setEntry (by simp [hentry]) (by split <;> simp)
  · exact hi.setEntry (by simp [hentry]) (by simp)

theorem taskInvariant_takeEntry {k : Nat} (hi : TaskInvariant τ) :
    TaskInvariant (takeEntry k τ) := by
  unfold takeEntry
  split
  · rename_i hentry
    exact hi.setEntry (by simp [hentry]) (by simp)
  · exact hi

theorem taskInvariant_new : TaskInvariant {} where
  placed := ⟨rfl, rfl⟩
  future := rfl
  decrements := rfl
  absent := ⟨fun _ => rfl, fun _ => rfl⟩
  registered _ := rfl
  cancels hne := absurd rfl hne

theorem taskInvariant_of_reachable {taskCapacity : NonZeroUsize} {s : ServiceState}
    (h : (service taskCapacity).Reachable s) : ∀ τ ∈ s.tasks, TaskInvariant τ :=
  forall_tasks_of_reachable taskInvariant_new (fun _ _ => taskInvariant_takeEntry)
    (fun _ _ _ _ _ _ hi hstep => taskInvariant_of_taskStep hi hstep) h

end

end TokioExecutorProofs.IoTaskInvariants
