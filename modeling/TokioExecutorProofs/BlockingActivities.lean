import TokioExecutorProofs.BlockingSweeps
import TokioExecutorProofs.CallStacks

/-!
The activities of the blocking service: which of them takes a step, where each
of them stands, and that nobody else moves it.
-/

namespace TokioExecutorProofs.BlockingActivities

open ServiceBasics
open BlockingServiceState
open BlockingTask
open BlockingService
open BlockingTaskPlacement
open BlockingTaskRegistry
open BlockingTaskInvariants
open BlockingSweeps
open CallStacks
open ProcessFamilies
open TransitionSystems

/-! ### Positions -/

inductive Position where
  | submitter (pc : SubmitterPc)
  | worker (pc : WorkerPc)
  | canceller (pc : CancelPc)
  /-- A stop call in a loop body is also at a position of its entry. -/
  | closer (pc : CloserPc) (sweep : Option SweepPc)
  | waiter (pc : Waiter)
  deriving DecidableEq, Repr

/-- No thread is at work on a task of these positions. -/
def WorkerPc.position : WorkerPc → Option Position
  | .absent | .queued | .finished => none
  | pc => some (.worker pc)

/-- Where the stop call `k` stands with the entry. -/
def EntryPc.sweepPc (k : Nat) : EntryPc → Option SweepPc
  | .sweeping k' p => if k' = k then some p else none
  | .absent | .registered | .taken _ | .removed | .gone => none

def position (s : ServiceState) : Actor → Option Position
  | .submitter t => (s.tasks[t]?).map fun τ => .submitter τ.submitter
  | .worker t => (s.tasks[t]?).bind fun τ => WorkerPc.position τ.worker
  | .canceller t j => (s.tasks[t]?).bind fun τ => (τ.cancels[j]?).map .canceller
  | .closer k => (s.closers[k]?).map fun c =>
      .closer c.pc (c.current.bind fun t =>
        (s.tasks[t]?).bind fun τ => EntryPc.sweepPc k τ.entry)
  | .waiter w => (s.waiters[w]?).map .waiter

/-- The activity that takes the step. -/
def actor (s : ServiceState) : Action → Actor
  | .callSubmit _ => .submitter s.tasks.length
  | .submitter t _ => .submitter t
  | .pickUp t | .destroy t | .worker t _ => .worker t
  | .callCancel t => .canceller t ((s.tasks[t]?).elim 0 (·.cancels.length))
  | .canceller t j => .canceller t j
  | .callClose _ => .closer s.closers.length
  | .closer k | .sweepNext k _ | .sweep k => .closer k
  | .callWait _ => .waiter s.waiters.length
  | .waiter w => .waiter w

/-- A thread takes up an activity with this step. A suspended future is polled
again by any thread. -/
def begins (s : ServiceState) : Action → Bool
  | .callSubmit _ | .pickUp _ | .destroy _ | .callCancel _ | .callClose _ | .callWait _ => true
  | .waiter w => (s.waiters[w]?).any fun x => match x with | .suspended _ => true | _ => false
  | .submitter _ _ | .worker _ _ | .canceller _ _ | .closer _ | .sweepNext _ _ | .sweep _ => false

def RemovePc.runsUserCode : RemovePc → Bool
  | .wakeDropped => true
  | .finishMarker | .lock | .remove | .dropEntry | .unlock => false

def ClosurePc.runsUserCode : ClosurePc → Bool
  | .wakeDropped | .dropTask => true
  | .dropSlotRef => false

def GuardPc.runsUserCode : GuardPc → Bool
  | .remove r => RemovePc.runsUserCode r
  | .swap => false
  | .finish _ f => f.runsUserCode

def SubmitterPc.runsUserCode : SubmitterPc → Bool
  | .wakeDropped => true
  | .dropClosure c => ClosurePc.runsUserCode c
  | .dropGuard d => GuardPc.runsUserCode d
  | _ => false

def WorkerPc.runsUserCode : WorkerPc → Bool
  | .executing | .wakePublished => true
  | .ranClosure c | .refusedClosure c | .destroyClosure c => ClosurePc.runsUserCode c
  | .ranGuard d | .refusedGuard d | .destroyGuard d => GuardPc.runsUserCode d
  | _ => false

def CancelPc.runsUserCode : CancelPc → Bool
  | .wakeCancelled => true
  | .remove r => RemovePc.runsUserCode r
  | .finish f => f.runsUserCode
  | .cancel | .finishQueued | .abort | .returned _ => false

def SweepPc.runsUserCode : SweepPc → Bool
  | .wakeCancelled | .wakeDropped _ => true
  | .finish f => f.runsUserCode
  | .isFinished | .abort | .finishQueued | .cancelUnstarted | .dropHook _ | .next _ => false

def CloserPc.runsUserCode : CloserPc → Bool
  | .wakeCapacity | .wakeTermination => true
  | _ => false

namespace Position

/-- The step at the position runs a waker, or calls or drops a user task. -/
def runsUserCode : Position → Bool
  | submitter pc => SubmitterPc.runsUserCode pc
  | worker pc => WorkerPc.runsUserCode pc
  | canceller pc => CancelPc.runsUserCode pc
  | closer pc sweep => CloserPc.runsUserCode pc || sweep.any SweepPc.runsUserCode
  | waiter _ => false

/-- The call has returned or the future is suspended. -/
def isOver : Position → Bool
  | submitter (.rejected _) | submitter .returned | canceller (.returned _)
  | closer .returned _ | waiter (.suspended _) | waiter .waited | waiter .awaited => true
  | submitter _ | worker _ | canceller _ | closer _ _ | waiter _ => false

end Position

def activities : Activities ServiceState Action Actor Position where
  actor := actor
  begins := begins
  position := position
  runsUserCode := Position.runsUserCode
  isOver := Position.isOver

/-! ### Nobody else moves an activity -/

section

variable {s s' : ServiceState} {t : TaskId} {τ τ' : Task} {o : Actor}
  {g g' : TokioExecutorServiceState} {taskCapacity : NonZeroUsize} {a : Action}

/-- What a step of one task leaves alone for the activity `o`. -/
def Leaves (t : TaskId) (o : Actor) (τ τ' : Task) : Prop :=
  match o with
  | .submitter t' => t' = t → τ'.submitter = τ.submitter
  | .worker t' => t' = t → WorkerPc.position τ'.worker = WorkerPc.position τ.worker
  | .canceller t' j => t' = t → τ'.cancels[j]? = τ.cancels[j]?
  | .closer k => EntryPc.sweepPc k τ'.entry = EntryPc.sweepPc k τ.entry
  | .waiter _ => True

theorem position_of_set (hτ : s.tasks[t]? = some τ) (h : Leaves t o τ τ') :
    position { s with shared := g', tasks := s.tasks.set t τ' } o = position s o := by
  cases o with
  | waiter w => rfl
  | closer k =>
      simp only [position]
      refine congrArg (fun f => (s.closers[k]?).map f) (funext fun c => ?_)
      refine congrArg (Position.closer c.pc) (congrArg (c.current.bind ·) (funext fun t₁ => ?_))
      exact apply_getElem?_set (fun x : Option Task => x.bind fun τ => EntryPc.sweepPc k τ.entry)
        hτ h t₁
  | submitter t₁ | worker t₁ | canceller t₁ j =>
      by_cases ht : t₁ = t
      · subst t₁
        simp only [position, getElem?_set_self_of_some hτ, hτ, Option.map_some, Option.bind_some,
          h rfl]
      · simp only [position, getElem?_set_of_ne ht]

theorem sweepPc_of_keepsTaken {k : Nat} (h : KeepsTaken τ τ') :
    EntryPc.sweepPc k τ'.entry = EntryPc.sweepPc k τ.entry := by
  have hnone : ∀ e, EntryPc.isTakenBy k e = false → EntryPc.sweepPc k e = none := by
    intro e he
    cases e with
    | sweeping k' p =>
        have hne : ¬ k' = k := by simpa [EntryPc.isTakenBy] using he
        rw [EntryPc.sweepPc, if_neg hne]
    | _ => rfl
  rcases h with heq | hno
  · rw [heq]
  · rw [hnone _ (hno k).1, hnone _ (hno k).2]

theorem position_of_spawn (hi : TaskInvariant τ) (hs : τ.submitter = .spawn) :
    WorkerPc.position τ.worker = none := by
  have hplaced := hi.placed
  unfold Placed at hplaced
  have hw : workerPhase τ.worker = .absent := by
    rw [hs] at hplaced
    exact hplaced.1
  rw [worker_of_absent hw]
  rfl

theorem leaves_of_taskStep (hτ : s.tasks[t]? = some τ) (hi : TaskInvariant τ)
    (h : TaskStep t g τ a g' τ') (hne : o ≠ actor s a) : Leaves t o τ τ' := by
  have hkeep : (∀ k, a ≠ .sweepNext k t) → (∀ k, a ≠ .sweep k) → ∀ k,
      EntryPc.sweepPc k τ'.entry = EntryPc.sweepPc k τ.entry := fun hnext hsweep k =>
    sweepPc_of_keepsTaken (keepsTaken_of_taskStep hi h hnext hsweep)
  cases h with
  | submitter h =>
      obtain ⟨_, worker, _, _, _, _, _, _, _, rfl, hw⟩ := submitterStep_frame h
      cases o with
      | submitter t' => exact fun ht => absurd (by rw [ht]; rfl) hne
      | worker t' =>
          rintro rfl
          rcases hw with rfl | ⟨hs, rfl | rfl⟩
          · rfl
          · exact (position_of_spawn hi hs).symm
          · exact (position_of_spawn hi hs).symm
      | canceller => exact fun _ => rfl
      | closer k => exact hkeep (by simp) (by simp) k
      | waiter => exact trivial
  | worker h =>
      obtain ⟨_, _, _, _, _, _, _, _, _, _, _, _, rfl, _, _⟩ := workerStep_frame h
      cases o with
      | submitter | canceller => exact fun _ => rfl
      | worker t' => exact fun ht => absurd (by rw [ht]; rfl) hne
      | closer k => exact hkeep (by simp) (by simp) k
      | waiter => exact trivial
  | pickUp h | destroy h =>
      first | unfold pickUpStep at h | unfold destroyStep at h
      split at h <;> cases h
      cases o with
      | submitter | canceller => exact fun _ => rfl
      | worker t' => exact fun ht => absurd (by rw [ht]; rfl) hne
      | closer => exact rfl
      | waiter => exact trivial
  | callCancel h =>
      unfold callCancelStep at h
      split at h <;> cases h
      cases o with
      | submitter | worker => exact fun _ => rfl
      | canceller t' j =>
          rintro rfl
          refine getElem?_append_of_ne fun hj => hne ?_
          simp only [actor, hτ, Option.elim, hj]
      | closer => exact rfl
      | waiter => exact trivial
  | @canceller j _ _ h =>
      obtain ⟨c, τ₁, c', hc, hstep, rfl⟩ := cancellerStep_cases h
      obtain ⟨_, _, _, _, _, _, _, rfl⟩ := cancelStep_frame hstep
      cases o with
      | submitter | worker => exact fun _ => rfl
      | canceller t' j' =>
          rintro rfl
          refine getElem?_set_of_ne fun hj => hne ?_
          rw [hj]
          rfl
      | closer k => exact hkeep (by simp) (by simp) k
      | waiter => exact trivial
  | @sweepNext k h =>
      cases o with
      | submitter | worker | canceller => exact fun _ => rfl
      | closer k' =>
          have hk : ¬ k = k' := fun hk => hne (by rw [hk]; rfl)
          simp [Leaves, EntryPc.sweepPc, h, hk]
      | waiter => exact trivial
  | @sweep k p _ _ p' hentry h =>
      obtain ⟨_, _, _, _, _, rfl⟩ := sweepStep_frame h
      cases o with
      | submitter | worker | canceller => exact fun _ => rfl
      | closer k' =>
          have hk : ¬ k = k' := fun hk => hne (by rw [hk]; rfl)
          simp [Leaves, EntryPc.sweepPc, hentry, hk]
      | waiter => exact trivial
  | @finishSweep k counted hentry =>
      cases o with
      | submitter | worker | canceller => exact fun _ => rfl
      | closer k' =>
          have hk : ¬ k = k' := fun hk => hne (by rw [hk]; rfl)
          simp [Leaves, finishSweep, EntryPc.sweepPc, hentry, hk]
      | waiter => exact trivial

theorem position_of_setCloser {k : Nat} {c' : Closer} (hne : o ≠ .closer k) :
    position { s with shared := g', closers := s.closers.set k c' } o = position s o := by
  cases o with
  | closer k' =>
      have hk : k' ≠ k := fun hk => hne (by rw [hk])
      simp only [position, getElem?_set_of_ne hk]
  | _ => rfl

theorem position_of_append {kind : TaskKind} (hne : o ≠ .submitter s.tasks.length) :
    position { s with tasks := s.tasks ++ [{ kind := kind }] } o = position s o := by
  cases o with
  | waiter w => rfl
  | submitter t =>
      have ht : t ≠ s.tasks.length := fun ht => hne (by rw [ht])
      simp only [position, getElem?_append_of_ne ht]
  | worker t =>
      exact apply_getElem?_append
        (fun x : Option Task => x.bind fun τ => WorkerPc.position τ.worker) rfl t
  | canceller t j =>
      exact apply_getElem?_append
        (fun x : Option Task => x.bind fun τ => (τ.cancels[j]?).map Position.canceller) rfl t
  | closer k =>
      simp only [position]
      refine congrArg (fun f => (s.closers[k]?).map f) (funext fun c => ?_)
      refine congrArg (Position.closer c.pc) (congrArg (c.current.bind ·) (funext fun t => ?_))
      exact apply_getElem?_append
        (fun x : Option Task => x.bind fun τ => EntryPc.sweepPc k τ.entry) rfl t

theorem position_takeEntry (k : Nat) :
    position { s with tasks := s.tasks.map (takeEntry k) } o = position s o := by
  have hsweep : ∀ k' τ, EntryPc.sweepPc k' (takeEntry k τ).entry = EntryPc.sweepPc k' τ.entry := by
    intro k' τ
    unfold takeEntry
    split
    · rename_i hentry
      simp [EntryPc.sweepPc, hentry]
    · rfl
  have hsame : ∀ τ, (takeEntry k τ).submitter = τ.submitter ∧
      (takeEntry k τ).worker = τ.worker ∧ (takeEntry k τ).cancels = τ.cancels := by
    intro τ
    unfold takeEntry
    split <;> exact ⟨rfl, rfl, rfl⟩
  cases o <;> simp only [position, List.getElem?_map]
  case submitter t | worker t | canceller t j =>
    cases s.tasks[t]? <;> simp [hsame]
  case closer k' =>
    refine congrArg (fun f => (s.closers[k']?).map f) (funext fun c => ?_)
    refine congrArg (Position.closer c.pc) (congrArg (c.current.bind ·) (funext fun t => ?_))
    cases s.tasks[t]? <;> simp [hsweep]

theorem framed (taskCapacity : NonZeroUsize) : Framed (service taskCapacity) activities := by
  intro s a s' hs hnext o hne
  cases effect_of_step hnext with
  | newTask => exact position_of_append hne
  | newCloser kind =>
      cases o with
      | closer k =>
          have hk : k ≠ s.closers.length := fun hk => hne (by rw [hk]; rfl)
          simp only [activities, position, getElem?_append_of_ne hk]
      | _ => rfl
  | newWaiter async =>
      cases o with
      | waiter w =>
          have hw : w ≠ s.waiters.length := fun hw => hne (by rw [hw]; rfl)
          simp only [activities, position, getElem?_append_of_ne hw]
      | _ => rfl
  | @task t τ _ _ τ' hτ hτstep =>
      have hi := taskInvariant_of_reachable hs τ (mem_of_getElem? hτ)
      exact position_of_set hτ (leaves_of_taskStep hτ hi hτstep hne)
  | @sweepNext k c t τ hc hpc hcurrent hτ hentry =>
      have hi := taskInvariant_of_reachable hs τ (mem_of_getElem? hτ)
      have hleaves := leaves_of_taskStep (g := s.shared) hτ hi (.sweepNext hentry) hne
      exact (position_of_setCloser (s := { s with tasks := _ }) hne).trans
        (position_of_set hτ hleaves)
  | @finishSweep k c t τ counted hc hcurrent hτ hentry =>
      have hi := taskInvariant_of_reachable hs τ (mem_of_getElem? hτ)
      have hleaves := leaves_of_taskStep (g := s.shared) hτ hi (.finishSweep hentry) hne
      exact (position_of_setCloser (s := { s with tasks := _ }) hne).trans
        (position_of_set hτ hleaves)
  | @take k c hc hpc =>
      exact (position_of_setCloser (s := { s with tasks := _ }) hne).trans (position_takeEntry k)
  | endSweep | closer => exact position_of_setCloser hne
  | @waiter w x g' x' hx hwstep =>
      cases o with
      | waiter w' =>
          have hw : w' ≠ w := fun hw => hne (by rw [hw]; rfl)
          simp only [activities, position, getElem?_set_of_ne hw]
      | _ => rfl

end

end TokioExecutorProofs.BlockingActivities
