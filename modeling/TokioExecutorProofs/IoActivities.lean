import TokioExecutorProofs.CallStacks
import TokioExecutorProofs.IoTaskInvariants

/-!
The activities of the IO service: which of them takes a step, where each of
them stands, and that nobody else moves it.
-/

namespace TokioExecutorProofs.IoActivities

open ServiceBasics
open IoServiceState
open IoServiceState.TokioIoExecutorServiceState
open IoTask
open IoService
open IoTaskInvariants
open CallStacks
open ProcessFamilies
open TransitionSystems

/-! ### Positions -/

inductive Position where
  | submitter (pc : SubmitterPc)
  | worker (pc : WorkerPc)
  | canceller (pc : CancelPc)
  | closer (pc : CloserPc)
  | waiter (pc : Waiter)
  deriving DecidableEq, Repr

/-- No thread is at work on a task of these positions. -/
def WorkerPc.position : WorkerPc → Option Position
  | .absent | .idle _ | .finished => none
  | pc => some (.worker pc)

def position (s : ServiceState) : Actor → Option Position
  | .submitter t => (s.tasks[t]?).map fun τ => .submitter τ.submitter
  | .worker t => (s.tasks[t]?).bind fun τ => WorkerPc.position τ.worker
  | .canceller t j => (s.tasks[t]?).bind fun τ => (τ.cancels[j]?).map .canceller
  | .closer k => (s.closers[k]?).map fun c => .closer c.pc
  | .waiter w => (s.waiters[w]?).map .waiter

/-- The activity that takes the step. -/
def actor (s : ServiceState) : Action → Actor
  | .callSpawn => .submitter s.tasks.length
  | .submitter t _ | .abandon t => .submitter t
  | .pickUp t | .destroy t | .worker t _ => .worker t
  | .callCancel t => .canceller t ((s.tasks[t]?).elim 0 (·.cancels.length))
  | .canceller t j => .canceller t j
  | .callClose _ => .closer s.closers.length
  | .closer k | .sweepNext k _ | .sweepAbort k => .closer k
  | .callWait => .waiter s.waiters.length
  | .waiter w => .waiter w

/-- A thread takes up an activity with this step. A suspended future is polled
again by any thread. -/
def begins (s : ServiceState) : Action → Bool
  | .callSpawn | .pickUp _ | .destroy _ | .callCancel _ | .callClose _ | .callWait => true
  | .waiter w => (s.waiters[w]?).any fun x => match x with | .suspended _ => true | _ => false
  | .submitter _ _ | .abandon _ | .worker _ _ | .canceller _ _ | .closer _ | .sweepNext _ _
  | .sweepAbort _ => false

def GuardPc.runsUserCode : GuardPc → Bool
  | .wakeCapacity | .wakeTermination => true
  | .finishMarker | .lock | .remove | .unlock | .dec | .notifyCapacity | .notifyWaiters => false

def SubmitterPc.runsUserCode : SubmitterPc → Bool
  | .dropFuture | .abandonFuture => true
  | .dropGuard d | .abandonGuard d => GuardPc.runsUserCode d
  | _ => false

/-- Completing the task wakes whoever awaits the handle. -/
def WorkerPc.runsUserCode : WorkerPc → Bool
  | .polling | .dropFuture | .complete => true
  | .dropGuard d => GuardPc.runsUserCode d
  | .absent | .idle _ | .recv | .dropReceiver | .finished => false

def CloserPc.runsUserCode : CloserPc → Bool
  | .wakeCapacity | .wakeTermination => true
  | _ => false

namespace Position

/-- The step at the position runs a waker, or polls or drops a user future. -/
def runsUserCode : Position → Bool
  | submitter pc => SubmitterPc.runsUserCode pc
  | worker pc => WorkerPc.runsUserCode pc
  | closer pc => CloserPc.runsUserCode pc
  | canceller _ | waiter _ => false

/-- The call has returned or the future is suspended. -/
def isOver : Position → Bool
  | submitter (.rejected _) | submitter .returned | submitter .abandoned
  | canceller (.returned _) | closer .returned | waiter (.suspended _) | waiter .awaited => true
  | submitter _ | worker _ | canceller _ | closer _ | waiter _ => false

end Position

def activities : Activities ServiceState Action Actor Position where
  actor := actor
  begins := begins
  position := position
  runsUserCode := Position.runsUserCode
  isOver := Position.isOver

/-! ### Nobody else moves an activity -/

section

variable {t : TaskId} {g g' : TokioIoExecutorServiceState} {τ τ' : Task}

theorem marker_of_guardStep {b : Actor} {d : GuardPc} {next : Option GuardPc}
    (h : guardStep b g τ d = some (g', τ', next)) (hfinished : τ.markerFinished = true) :
    τ'.markerFinished = true := by
  cases d <;> simp only [guardStep] at h
  case lock =>
    simp only [map_acquire_eq_some, Prod.mk.injEq] at h
    obtain ⟨_, _, rfl, _⟩ := h
    exact hfinished
  all_goals
    simp only [Option.some.injEq, Prod.mk.injEq] at h
    obtain ⟨_, rfl, _⟩ := h
    first | exact hfinished | rfl

theorem submitterStep_frame {runtimeClosed : Bool}
    (h : submitterStep t runtimeClosed g τ = some (g', τ')) :
    (τ'.worker = τ.worker ∨ τ.submitter = .spawn ∧
        (τ'.worker = .finished ∨ τ'.worker = .idle false)) ∧
      τ'.cancels = τ.cancels ∧ τ'.aborted = τ.aborted ∧ τ'.countedBy = τ.countedBy ∧
      (τ.markerFinished = true → τ'.markerFinished = true) := by
  cases hs : τ.submitter <;> simp only [submitterStep, hs] at h
  case rejected | returned | abandoned => cases h
  case dropGuard d | abandonGuard d =>
    simp only [Option.map_eq_some_iff, Prod.mk.injEq, Prod.exists] at h
    obtain ⟨_, τ₁, next, hstep, rfl, rfl⟩ := h
    have hmarker := marker_of_guardStep hstep
    obtain ⟨_, _, _, rfl, _⟩ := guardMove_of_step hstep
    exact ⟨.inl rfl, rfl, rfl, rfl, hmarker⟩
  case lockSubmission | registerLock =>
    simp only [map_acquire_eq_some, Prod.mk.injEq] at h
    obtain ⟨_, rfl, rfl⟩ := h
    exact ⟨.inl rfl, rfl, rfl, rfl, id⟩
  case spawn =>
    split at h <;> simp only [Option.some.injEq, Prod.mk.injEq] at h <;> obtain ⟨rfl, rfl⟩ := h
    · exact ⟨.inr ⟨rfl, .inl rfl⟩, rfl, rfl, rfl, id⟩
    · exact ⟨.inr ⟨rfl, .inr rfl⟩, rfl, rfl, rfl, id⟩
  case send =>
    split at h
    all_goals
      simp only [Option.some.injEq, Prod.mk.injEq, reduceCtorEq] at h
      try obtain ⟨rfl, rfl⟩ := h
      try exact ⟨.inl rfl, rfl, rfl, rfl, id⟩
  all_goals
    simp only [Option.some.injEq, Prod.mk.injEq] at h
    obtain ⟨rfl, rfl⟩ := h
    exact ⟨.inl rfl, rfl, rfl, rfl, id⟩

theorem workerStep_frame {outcome : PollOutcome}
    (h : workerStep t outcome g τ = some (g', τ')) :
    τ'.submitter = τ.submitter ∧ τ'.cancels = τ.cancels ∧ τ'.aborted = τ.aborted ∧
      τ'.countedBy = τ.countedBy ∧ (τ.markerFinished = true → τ'.markerFinished = true) := by
  cases hs : τ.worker <;> simp only [workerStep, hs] at h
  case absent | idle | finished => cases h
  case dropGuard d =>
    simp only [Option.map_eq_some_iff, Prod.mk.injEq, Prod.exists] at h
    obtain ⟨_, τ₁, next, hstep, rfl, rfl⟩ := h
    have hmarker := marker_of_guardStep hstep
    obtain ⟨_, _, _, rfl, _⟩ := guardMove_of_step hstep
    exact ⟨rfl, rfl, rfl, rfl, hmarker⟩
  case recv | polling =>
    split at h <;> simp only [Option.some.injEq, Prod.mk.injEq] at h <;>
      obtain ⟨rfl, rfl⟩ := h <;> exact ⟨rfl, rfl, rfl, rfl, id⟩
  all_goals
    simp only [Option.some.injEq, Prod.mk.injEq] at h
    obtain ⟨rfl, rfl⟩ := h
    exact ⟨rfl, rfl, rfl, rfl, id⟩

end

section

variable {s s' : ServiceState} {t : TaskId} {τ τ' : Task} {o : Actor}
  {g g' : TokioIoExecutorServiceState} {taskCapacity : NonZeroUsize} {a : Action}

/-- What a step of one task leaves alone for the activity `o`. -/
def Leaves (t : TaskId) (o : Actor) (τ τ' : Task) : Prop :=
  match o with
  | .submitter t' => t' = t → τ'.submitter = τ.submitter
  | .worker t' => t' = t → WorkerPc.position τ'.worker = WorkerPc.position τ.worker
  | .canceller t' j => t' = t → τ'.cancels[j]? = τ.cancels[j]?
  | .closer _ | .waiter _ => True

theorem position_of_set (hτ : s.tasks[t]? = some τ) (h : Leaves t o τ τ') :
    position { s with shared := g', tasks := s.tasks.set t τ' } o = position s o := by
  cases o with
  | closer | waiter => rfl
  | submitter t₁ | worker t₁ | canceller t₁ j =>
      by_cases ht : t₁ = t
      · subst t₁
        simp only [position, getElem?_set_self_of_some hτ, hτ, Option.map_some, Option.bind_some,
          h rfl]
      · simp only [position, getElem?_set_of_ne ht]

theorem position_of_spawn (hi : TaskInvariant τ) (hs : τ.submitter = .spawn) :
    WorkerPc.position τ.worker = none := by
  have hplaced := hi.placed
  rw [hs] at hplaced
  have hw : workerPhase τ.worker = .absent := hplaced.1
  cases hworker : τ.worker with
  | absent => rfl
  | idle received => cases received <;> simp [hworker, workerPhase] at hw
  | _ => simp [hworker, workerPhase] at hw

theorem leaves_of_cancellerStep {j : Nat} (h : cancellerStep j τ = some τ')
    (hne : o ≠ .canceller t j) : Leaves t o τ τ' := by
  unfold cancellerStep at h
  split at h
  · cases h
  · rename_i c hc
    simp only [Option.map_eq_some_iff, Prod.exists] at h
    obtain ⟨τ₁, c', hstep, rfl⟩ := h
    have hsame : τ₁.submitter = τ.submitter ∧ τ₁.worker = τ.worker ∧ τ₁.cancels = τ.cancels := by
      cases c <;> simp only [cancelStep, Option.some.injEq, Prod.mk.injEq, reduceCtorEq] at hstep
      · exact hstep.1 ▸ ⟨rfl, rfl, rfl⟩
      · exact hstep.1 ▸ ⟨rfl, rfl, rfl⟩
    obtain ⟨hs, hw, hcancels⟩ := hsame
    cases o with
    | submitter => exact fun _ => hs
    | worker => exact fun _ => congrArg WorkerPc.position hw
    | canceller t' j' =>
        rintro rfl
        have hj : j' ≠ j := fun hj => hne (by rw [hj])
        exact (getElem?_set_of_ne hj).trans (by rw [hcancels])
    | closer | waiter => exact trivial

theorem leaves_of_taskStep (hτ : s.tasks[t]? = some τ) (hi : TaskInvariant τ)
    (h : TaskStep t g τ a g' τ') (hcancel : ∀ j, a ≠ .canceller t j) (hne : o ≠ actor s a) :
    Leaves t o τ τ' := by
  cases h with
  | submitter h =>
      obtain ⟨hw, hcancels, _⟩ := submitterStep_frame h
      cases o with
      | submitter t' => exact fun ht => absurd (by rw [ht]; rfl) hne
      | worker t' =>
          rintro -
          rcases hw with hw | ⟨hs, hw | hw⟩
          · rw [hw]
          · rw [position_of_spawn hi hs, hw]
            rfl
          · rw [position_of_spawn hi hs, hw]
            rfl
      | canceller => exact fun _ => by rw [hcancels]
      | closer | waiter => exact trivial
  | worker h =>
      obtain ⟨hs, hcancels, _⟩ := workerStep_frame h
      cases o with
      | submitter => exact fun _ => hs
      | worker t' => exact fun ht => absurd (by rw [ht]; rfl) hne
      | canceller => exact fun _ => by rw [hcancels]
      | closer | waiter => exact trivial
  | abandon =>
      cases o with
      | submitter t' => exact fun ht => absurd (by rw [ht]; rfl) hne
      | worker | canceller => exact fun _ => rfl
      | closer | waiter => exact trivial
  | pickUp | destroy =>
      cases o with
      | submitter | canceller => exact fun _ => rfl
      | worker t' => exact fun ht => absurd (by rw [ht]; rfl) hne
      | closer | waiter => exact trivial
  | callCancel =>
      cases o with
      | submitter | worker => exact fun _ => rfl
      | canceller t' j =>
          rintro rfl
          refine getElem?_append_of_ne fun hj => hne ?_
          simp only [actor, hτ, Option.elim, hj]
      | closer | waiter => exact trivial
  | canceller => exact absurd rfl (hcancel _)
  | sweepNext | sweepAbort =>
      cases o with
      | submitter | worker | canceller => exact fun _ => rfl
      | closer | waiter => exact trivial

theorem position_of_setCloser {k : Nat} {c' : Closer} (hne : o ≠ .closer k) :
    position { s with shared := g', closers := s.closers.set k c' } o = position s o := by
  cases o with
  | closer k' =>
      have hk : k' ≠ k := fun hk => hne (by rw [hk])
      simp only [position, getElem?_set_of_ne hk]
  | _ => rfl

theorem position_of_append (hne : o ≠ .submitter s.tasks.length) :
    position { s with tasks := s.tasks ++ [{}] } o = position s o := by
  cases o with
  | closer | waiter => rfl
  | submitter t =>
      have ht : t ≠ s.tasks.length := fun ht => hne (by rw [ht])
      simp only [position, getElem?_append_of_ne ht]
  | worker t =>
      exact apply_getElem?_append
        (fun x : Option Task => x.bind fun τ => WorkerPc.position τ.worker) rfl t
  | canceller t j =>
      exact apply_getElem?_append
        (fun x : Option Task => x.bind fun τ => (τ.cancels[j]?).map Position.canceller) rfl t

theorem position_takeEntry (k : Nat) :
    position { s with tasks := s.tasks.map (takeEntry k) } o = position s o := by
  have hsame : ∀ τ, (takeEntry k τ).submitter = τ.submitter ∧
      (takeEntry k τ).worker = τ.worker ∧ (takeEntry k τ).cancels = τ.cancels := by
    intro τ
    unfold takeEntry
    split <;> exact ⟨rfl, rfl, rfl⟩
  cases o <;> simp only [position, List.getElem?_map]
  case submitter t | worker t | canceller t j =>
    cases s.tasks[t]? <;> simp [hsame]

theorem framed (taskCapacity : NonZeroUsize) : Framed (service taskCapacity) activities := by
  intro s a s' hs hnext o hne
  by_cases hcancel : ∃ t j, a = .canceller t j
  · obtain ⟨t, j, rfl⟩ := hcancel
    simp only [service, step] at hnext
    obtain ⟨τ, g', τ', hτ, hstep, rfl⟩ := onTask_eq_some.mp hnext
    simp only [Option.map_eq_some_iff, Prod.mk.injEq] at hstep
    obtain ⟨_, hstep, rfl, rfl⟩ := hstep
    exact position_of_set hτ (leaves_of_cancellerStep hstep hne)
  simp only [not_exists] at hcancel
  cases effect_of_step hnext with
  | newTask => exact position_of_append hne
  | newCloser kind =>
      cases o with
      | closer k =>
          have hk : k ≠ s.closers.length := fun hk => hne (by rw [hk]; rfl)
          simp only [activities, position, getElem?_append_of_ne hk]
      | _ => rfl
  | newWaiter =>
      cases o with
      | waiter w =>
          have hw : w ≠ s.waiters.length := fun hw => hne (by rw [hw]; rfl)
          simp only [activities, position, getElem?_append_of_ne hw]
      | _ => rfl
  | @task t τ _ _ τ' hτ hτstep =>
      have hi := taskInvariant_of_reachable hs τ (mem_of_getElem? hτ)
      exact position_of_set hτ (leaves_of_taskStep hτ hi hτstep (hcancel t) hne)
  | @sweepNext k c t τ hc hpc hcurrent hτ hentry =>
      have hi := taskInvariant_of_reachable hs τ (mem_of_getElem? hτ)
      have hleaves := leaves_of_taskStep (g := s.shared) hτ hi (.sweepNext hentry) (by simp) hne
      exact (position_of_setCloser (s := { s with tasks := _ }) hne).trans
        (position_of_set hτ hleaves)
  | @sweepAbort k c t τ hc hcurrent hτ hentry =>
      have hi := taskInvariant_of_reachable hs τ (mem_of_getElem? hτ)
      have hleaves := leaves_of_taskStep (g := s.shared) hτ hi (.sweepAbort hentry) (by simp) hne
      exact (position_of_setCloser (s := { s with tasks := _ }) hne).trans
        (position_of_set hτ hleaves)
  | @take k c hc hpc =>
      exact (position_of_setCloser (s := { s with tasks := _ }) hne).trans (position_takeEntry k)
  | endSweep | closer => exact position_of_setCloser hne
  | @waiter w x x' hx hwstep =>
      cases o with
      | waiter w' =>
          have hw : w' ≠ w := fun hw => hne (by rw [hw]; rfl)
          simp only [activities, position, getElem?_set_of_ne hw]
      | _ => rfl

end

end TokioExecutorProofs.IoActivities
