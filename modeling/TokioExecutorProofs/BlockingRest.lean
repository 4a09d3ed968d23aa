import TokioExecutorProofs.BlockingCallbacks
import TokioExecutorProofs.BlockingRanks
import TokioExecutorProofs.BlockingResults
import TokioExecutorProofs.BlockingWaiters

/-!
The blocking service at rest. When no more calls are made, the service goes on for
a bounded number of steps, and where it cannot go on, every call has returned,
every accepted task has been dropped with its result published, and nothing is
left in the registry, in the counts or under a lock.
-/

namespace TokioExecutorProofs.BlockingRest

open ServiceBasics
open BlockingServiceState
open BlockingServiceState.TokioExecutorServiceState
open ExecutorServiceLifecycleBits
open BlockingTask
open BlockingService
open BlockingTaskPlacement
open BlockingTaskRegistry
open BlockingTaskSlots
open BlockingTaskInvariants
open BlockingTaskEffects
open BlockingAccounting
open BlockingSweeps
open BlockingActivities
open BlockingLocks
open BlockingCallbacks
open BlockingRanks
open BlockingResults
open BlockingSignals
open BlockingWaiters
open MutexTables
open ProcessFamilies
open RestingSystems
open TransitionSystems

/-! ### An activity that waits for nothing takes a step -/

section

variable {g : TokioExecutorServiceState} {τ : Task} {b : Actor} {t : TaskId}

theorem finishTaskStep_of_ready (started : Bool) {f : FinishPc}
    (hfree : ∀ l, FinishPc.waitsFor f l = true → g.locks l = none) :
    ∃ y, finishTaskStep b started g f = some y := by
  cases f with
  | lock => exact finishTaskStep_of_free started rfl (hfree .taskCounts rfl)
  | _ => exact ⟨_, rfl⟩

theorem removeAbortHandleStep_of_ready {r : RemovePc}
    (hfree : ∀ l, RemovePc.waitsFor r l = true → g.locks l = none) :
    ∃ y, removeAbortHandleStep b g τ r = some y := by
  cases r with
  | lock => exact removeAbortHandleStep_of_free rfl (hfree .abortHandles rfl)
  | remove =>
      simp only [removeAbortHandleStep]
      split <;> exact ⟨_, rfl⟩
  | finishMarker | dropEntry | wakeDropped | unlock => exact ⟨_, rfl⟩

theorem guardStep_of_ready {d : GuardPc}
    (hfree : ∀ l, GuardPc.waitsFor d l = true → g.locks l = none) :
    ∃ y, guardStep b g τ d = some y := by
  cases d with
  | remove r =>
      obtain ⟨y, hy⟩ := removeAbortHandleStep_of_ready (b := b) (τ := τ) hfree
      exact ⟨_, by rw [guardStep, hy]; rfl⟩
  | swap =>
      simp only [guardStep]
      split <;> exact ⟨_, rfl⟩
  | finish started f =>
      obtain ⟨y, hy⟩ := finishTaskStep_of_ready (b := b) started hfree
      exact ⟨_, by rw [guardStep, hy]; rfl⟩

theorem submitterStep_of_ready
    (hfree : ∀ l, SubmitterPc.waitsFor τ.submitter l = true → g.locks l = none)
    (hover : Position.isOver (.submitter τ.submitter) = false)
    (hsend : τ.submitter = .send → τ.channel ≠ .full) :
    ∃ y, submitterStep t false g τ = some y := by
  cases hpc : τ.submitter <;> rw [hpc] at hfree hover
  case lockSubmission =>
    exact submitterStep_of_free (by rw [hpc]; rfl) (hfree .submission rfl)
  case acceptLock => exact submitterStep_of_free (by rw [hpc]; rfl) (hfree .taskCounts rfl)
  case registerLock => exact submitterStep_of_free (by rw [hpc]; rfl) (hfree .abortHandles rfl)
  case rejected | returned => cases hover
  case send =>
    have hne := hsend hpc
    cases hchannel : τ.channel <;> simp_all [submitterStep]
  case dropGuard d =>
    obtain ⟨y, hy⟩ := guardStep_of_ready (b := .submitter t) (τ := τ) hfree
    exact ⟨_, by simp only [submitterStep, hpc, hy, Option.map_some]; rfl⟩
  case accept | register =>
    simp only [submitterStep, hpc]
    split <;> exact ⟨_, rfl⟩
  all_goals exact ⟨_, by simp only [submitterStep, hpc]; rfl⟩

theorem workerStep_of_ready (outcome : RunOutcome)
    (hfree : ∀ l, WorkerPc.waitsFor τ.worker l = true → g.locks l = none)
    (hposition : WorkerPc.position τ.worker ≠ none)
    (hrecv : τ.worker = .recv → τ.channel = .full) :
    ∃ y, workerStep t outcome g τ = some y := by
  cases hpc : τ.worker <;> rw [hpc] at hfree hposition
  case absent | queued | finished => exact absurd rfl hposition
  case recv =>
    simp only [workerStep, hpc, hrecv hpc]
    exact ⟨_, rfl⟩
  case startLock => exact workerStep_of_free outcome (by rw [hpc]; rfl) (hfree .taskCounts rfl)
  case markStarted | takeSlot | startSlot =>
    simp only [workerStep, hpc]
    split <;> exact ⟨_, rfl⟩
  case ranGuard d | refusedGuard d | destroyGuard d =>
    obtain ⟨y, hy⟩ := guardStep_of_ready (b := .worker t) (τ := τ) hfree
    exact ⟨_, by simp only [workerStep, hpc, hy, Option.map_some]; rfl⟩
  all_goals exact ⟨_, by simp only [workerStep, hpc]; rfl⟩

theorem cancelStep_of_ready {c : CancelPc}
    (hfree : ∀ l, CancelPc.waitsFor c l = true → g.locks l = none)
    (hover : Position.isOver (.canceller c) = false) : ∃ y, cancelStep b g τ c = some y := by
  cases c with
  | cancel =>
      simp only [cancelStep]
      split <;> exact ⟨_, rfl⟩
  | remove r =>
      obtain ⟨y, hy⟩ := removeAbortHandleStep_of_ready (b := b) (τ := τ) hfree
      exact ⟨_, by rw [cancelStep, hy]; rfl⟩
  | finish f =>
      obtain ⟨y, hy⟩ := finishTaskStep_of_ready (b := b) false hfree
      exact ⟨_, by rw [cancelStep, hy]; rfl⟩
  | returned => cases hover
  | _ => exact ⟨_, rfl⟩

theorem sweepStep_of_ready {k : Nat} {p : SweepPc}
    (hfree : ∀ l, SweepPc.waitsFor p l = true → g.locks l = none)
    (hlast : ∀ counted, p ≠ .next counted) : ∃ y, sweepStep k g τ p = some y := by
  cases p with
  | finish f =>
      obtain ⟨y, hy⟩ := finishTaskStep_of_ready (b := .closer k) false hfree
      exact ⟨_, by rw [sweepStep, hy]; rfl⟩
  | next counted => exact absurd rfl (hlast counted)
  | _ => exact ⟨_, rfl⟩

theorem closerStep_of_ready {k : Nat} {c : Closer}
    (hfree : ∀ l, CloserPc.waitsFor c.pc l = true → g.locks l = none)
    (htake : c.pc ≠ .take) (hsweep : c.pc ≠ .sweep) (hover : c.pc ≠ .returned) :
    ∃ y, closerStep k g c = some y := by
  cases hpc : c.pc <;> rw [hpc] at hfree htake hsweep hover
  case take | sweep | returned => contradiction
  case lockSubmission =>
    obtain ⟨g', hg⟩ := acquire_of_free (b := .closer k) (hfree .submission rfl)
    exact ⟨_, by simp only [closerStep, hpc, hg, Option.map_some]; rfl⟩
  case snapshotLock | readLock =>
    obtain ⟨g', hg⟩ := acquire_of_free (b := .closer k) (hfree .taskCounts rfl)
    exact ⟨_, by simp only [closerStep, hpc, hg, Option.map_some]; rfl⟩
  case takeLock =>
    obtain ⟨g', hg⟩ := acquire_of_free (b := .closer k) (hfree .abortHandles rfl)
    exact ⟨_, by simp only [closerStep, hpc, hg, Option.map_some]; rfl⟩
  case store =>
    simp only [closerStep, hpc]
    split <;> exact ⟨_, rfl⟩
  all_goals
    simp only [closerStep, hpc]
    exact ⟨_, rfl⟩

theorem waiterStep_of_ready {w : Nat} {x : Waiter}
    (hfree : ∀ l, Waiter.waitsFor x l = true → g.locks l = none)
    (hover : Position.isOver (.waiter x) = false) (hparked : ∀ since, x ≠ .parked since) :
    ∃ y, waiterStep w g x = some y := by
  cases x with
  | lock =>
      obtain ⟨g', hg⟩ := acquire_of_free (b := .waiter w) (hfree .taskCounts rfl)
      exact ⟨_, by rw [waiterStep, hg]; rfl⟩
  | readCounts notRunning =>
      simp only [waiterStep]
      split <;> exact ⟨_, rfl⟩
  | asyncReadCounts since loaded =>
      simp only [waiterStep, hfree .taskCounts rfl, if_true]
      split <;> exact ⟨_, rfl⟩
  | parked since => exact absurd rfl (hparked since)
  | waited | suspended | awaited => cases hover
  | load | unlock | enable | asyncLoad => exact ⟨_, rfl⟩

end

/-! ### Where the service cannot go on -/

section

variable {taskCapacity : NonZeroUsize} {s s' : ServiceState} {a : Action} {o : Actor}
  {p : Position} {t : TaskId} {τ τ' : Task}

/-- A stop call in a loop body is at work on the entry that it names. -/
def SweepsCurrent (s : ServiceState) : Prop :=
  ∀ (k : Nat) (c : Closer) (t : TaskId), s.closers[k]? = some c → c.current = some t →
    ∃ τ p, s.tasks[t]? = some τ ∧ τ.entry = .sweeping k p

theorem sweepingBy_of_taskStep {g g' : TokioExecutorServiceState} {k : Nat} {q : SweepPc}
    (hi : TaskInvariant τ) (h : TaskStep t g τ a g' τ') (hentry : τ.entry = .sweeping k q)
    (hlast : ∀ k counted, a = .sweep k → τ.entry ≠ .sweeping k (.next counted)) :
    ∃ q', τ'.entry = .sweeping k q' := by
  by_cases hsweep : ∃ k', a = .sweep k'
  · obtain ⟨k', rfl⟩ := hsweep
    cases h with
    | sweep hentry' =>
        obtain ⟨rfl, rfl⟩ := EntryPc.sweeping.inj (hentry'.symm.trans hentry)
        exact ⟨_, rfl⟩
    | finishSweep hentry' => exact absurd hentry' (hlast _ _ rfl)
  · have hnext : ∀ k', a ≠ .sweepNext k' t := by
      rintro k' rfl
      cases h with
      | sweepNext htaken => simp [hentry] at htaken
    have hkeep := keepsTaken_of_taskStep hi h hnext fun k' hk' => hsweep ⟨k', hk'⟩
    rcases hkeep with heq | hno
    · exact ⟨q, heq.trans hentry⟩
    · have := (hno k).1
      simp [hentry, EntryPc.isTakenBy] at this

theorem sweepsCurrent_of_reachable (h : (service taskCapacity).Reachable s) :
    SweepsCurrent s := by
  refine Reachable.invariant h (fun k c t hc => by simp [service] at hc) ?_
  intro s a s' hs ih hnext k c t hc ht
  have hi := taskInvariant_of_reachable hs
  cases effect_of_step hnext with
  | newTask kind =>
      obtain ⟨τ, q, hτ, hentry⟩ := ih k c t hc ht
      exact ⟨τ, q, getElem?_append_of_some hτ, hentry⟩
  | newCloser kind =>
      rcases getElem?_append_cases hc with hc | ⟨_, rfl⟩
      · exact ih k c t hc ht
      · cases ht
  | newWaiter | waiter => exact ih k c t hc ht
  | @task t₀ τ₀ _ _ τ' hτ₀ hτstep _ hlast _ =>
      obtain ⟨τ, q, hτ, hentry⟩ := ih k c t hc ht
      by_cases htt : t = t₀
      · subst t₀
        obtain rfl := Option.some.inj (hτ.symm.trans hτ₀)
        obtain ⟨q', hentry'⟩ :=
          sweepingBy_of_taskStep (hi τ (mem_of_getElem? hτ)) hτstep hentry hlast
        exact ⟨τ', q', getElem?_set_self_of_some hτ, hentry'⟩
      · exact ⟨τ, q, (getElem?_set_of_ne htt).trans hτ, hentry⟩
  | @sweepNext k₀ c₀ t₀ τ₀ hc₀ _ _ hτ₀ htaken =>
      rcases getElem?_set_cases hc with ⟨rfl, rfl⟩ | ⟨_, hc⟩
      · obtain rfl := Option.some.inj ht
        exact ⟨_, _, getElem?_set_self_of_some hτ₀, rfl⟩
      · obtain ⟨τ, q, hτ, hentry⟩ := ih k c t hc ht
        have htt : t ≠ t₀ := by
          rintro rfl
          obtain rfl := Option.some.inj (hτ.symm.trans hτ₀)
          simp [hentry] at htaken
        exact ⟨τ, q, (getElem?_set_of_ne htt).trans hτ, hentry⟩
  | @finishSweep k₀ c₀ t₀ τ₀ counted hc₀ _ hτ₀ hlast =>
      rcases getElem?_set_cases hc with ⟨rfl, rfl⟩ | ⟨hk, hc⟩
      · cases ht
      · obtain ⟨τ, q, hτ, hentry⟩ := ih k c t hc ht
        have htt : t ≠ t₀ := by
          rintro rfl
          obtain rfl := Option.some.inj (hτ.symm.trans hτ₀)
          exact hk (EntryPc.sweeping.inj (hentry.symm.trans hlast)).1
        exact ⟨τ, q, (getElem?_set_of_ne htt).trans hτ, hentry⟩
  | @take k₀ c₀ hc₀ hpc =>
      have hold : ∃ c₁, s.closers[k]? = some c₁ ∧ c₁.current = some t := by
        rcases getElem?_set_cases hc with ⟨rfl, rfl⟩ | ⟨_, hc⟩
        · exact ⟨c₀, hc₀, ht⟩
        · exact ⟨c, hc, ht⟩
      obtain ⟨c₁, hc₁, ht₁⟩ := hold
      obtain ⟨τ, q, hτ, hentry⟩ := ih k c₁ t hc₁ ht₁
      refine ⟨takeEntry k₀ τ, q, by rw [List.getElem?_map, hτ]; rfl, ?_⟩
      rw [takeEntry, if_neg (by simp [hentry]), hentry]
  | @endSweep k₀ c₀ hc₀ hpc hnone =>
      rcases getElem?_set_cases hc with ⟨rfl, rfl⟩ | ⟨_, hc⟩
      · rw [hnone] at ht
        cases ht
      · exact ih k c t hc ht
  | @closer k₀ c₀ g' c' hc₀ hcstep =>
      rcases getElem?_set_cases hc with ⟨rfl, rfl⟩ | ⟨_, hc⟩
      · exact ih _ c₀ t hc₀ ((closerStep_current hcstep).1.symm.trans ht)
      · exact ih k c t hc ht

/-- The activity goes on with the step, whatever the runtime does. -/
structure Goes (s : ServiceState) (o : Actor) (a : Action) : Prop where
  actor : BlockingActivities.actor s a = o
  begins : BlockingActivities.begins s a = false
  driven : BlockingRanks.driven s a

theorem step_of_closer_ready (h : (service taskCapacity).Reachable s) {k : Nat} {c : Closer}
    (hc : s.closers[k]? = some c) (hover : c.pc ≠ .returned)
    (hfree : ∀ l, CloserPc.waitsFor c.pc l = true → s.shared.locks l = none)
    (hsweep : ∀ t τ q, c.current = some t → s.tasks[t]? = some τ → τ.entry = .sweeping k q →
      ∀ l, SweepPc.waitsFor q l = true → s.shared.locks l = none) :
    ∃ a s', Goes s (.closer k) a ∧ (service taskCapacity).step a s = some s' := by
  by_cases htake : c.pc = .take
  · exact ⟨.closer k, _, ⟨rfl, rfl, rfl⟩, by simp [service, step, stepCloser, hc, htake]; rfl⟩
  by_cases hpc : c.pc = .sweep
  · cases ht : c.current with
    | none =>
        by_cases hleft : ∃ τ ∈ s.tasks, τ.entry = .taken k
        · obtain ⟨τ, hτ, hentry⟩ := hleft
          obtain ⟨t, ht'⟩ := List.mem_iff_getElem?.mp hτ
          exact ⟨.sweepNext k t, _, ⟨rfl, rfl, rfl⟩, by
            simp [service, step, stepSweepNext, hc, ht', hpc, ht, hentry]; rfl⟩
        · have hleft : ∀ τ ∈ s.tasks, τ.entry ≠ .taken k := fun τ hτ hentry =>
            hleft ⟨τ, hτ, hentry⟩
          exact ⟨.closer k, _, ⟨rfl, rfl, rfl⟩, by
            simp only [service, step, stepCloser, hc, hpc]; exact if_pos ⟨ht, hleft⟩⟩
    | some t =>
        obtain ⟨τ, q, hτ, hentry⟩ := sweepsCurrent_of_reachable h k c t hc ht
        by_cases hlast : ∃ counted, q = .next counted
        · obtain ⟨counted, rfl⟩ := hlast
          exact ⟨.sweep k, _, ⟨rfl, rfl, rfl⟩, by
            simp [service, step, stepSweep, hc, ht, hτ, hentry]; rfl⟩
        · have hlast : ∀ counted, q ≠ .next counted := fun counted hq => hlast ⟨counted, hq⟩
          obtain ⟨y, hy⟩ := sweepStep_of_ready (k := k) (τ := τ) (hsweep t τ q ht hτ hentry) hlast
          refine ⟨.sweep k, ?_⟩
          cases q with
          | next counted => exact absurd rfl (hlast counted)
          | _ => exact ⟨_, ⟨rfl, rfl, rfl⟩, by
              simp [service, step, stepSweep, hc, ht, hτ, hentry, hy]; rfl⟩
  · obtain ⟨y, hy⟩ := closerStep_of_ready (k := k) hfree htake hpc hover
    refine ⟨.closer k, ?_⟩
    cases hc' : c.pc with
    | take | sweep => contradiction
    | _ => exact ⟨_, ⟨rfl, rfl, rfl⟩, by simp [service, step, stepCloser, hc, hc', hy]; rfl⟩

/-- An activity that has not ended waits for a lock, for its payload or for a
notification, or it takes a step. -/
theorem exists_step_of_position (h : (service taskCapacity).Reachable s)
    (hp : position s o = some p) (hover : Position.isOver p = false)
    (hfree : ∀ l, Position.waitsFor p l = true → s.shared.locks l = none)
    (hrecv : ∀ t τ, p = .worker .recv → o = .worker t → s.tasks[t]? = some τ → τ.channel = .full)
    (hparked : ∀ since, p ≠ .waiter (.parked since)) :
    ∃ a s', Goes s o a ∧ (service taskCapacity).step a s = some s' := by
  have hi := taskInvariant_of_reachable h
  cases o with
  | submitter t =>
      simp only [position, Option.map_eq_some_iff] at hp
      obtain ⟨τ, hτ, rfl⟩ := hp
      have hsend : τ.submitter = .send → τ.channel ≠ .full := by
        intro hs
        have hplaced := (hi τ (mem_of_getElem? hτ)).placed
        rw [Placed, hs] at hplaced
        rcases hplaced with ⟨_, hchannel⟩ | ⟨_, hchannel⟩ <;> simp [hchannel]
      obtain ⟨⟨g', τ'⟩, hstep⟩ := submitterStep_of_ready (t := t) hfree hover hsend
      exact ⟨.submitter t false, _, ⟨rfl, rfl, rfl⟩,
        onTask_eq_some.mpr ⟨τ, g', τ', hτ, hstep, rfl⟩⟩
  | worker t =>
      simp only [position, Option.bind_eq_some_iff] at hp
      obtain ⟨τ, hτ, hp⟩ := hp
      have hpos : WorkerPc.position τ.worker = some (.worker τ.worker) := by
        cases hw : τ.worker <;> rw [hw] at hp <;> first | rfl | cases hp
      obtain rfl := Option.some.inj (hpos.symm.trans hp)
      obtain ⟨⟨g', τ'⟩, hstep⟩ := workerStep_of_ready (t := t) .ok hfree (by simp [hpos])
        fun hw => hrecv t τ (by rw [hw]) rfl hτ
      exact ⟨.worker t .ok, _, ⟨rfl, rfl, rfl⟩, onTask_eq_some.mpr ⟨τ, g', τ', hτ, hstep, rfl⟩⟩
  | canceller t j =>
      simp only [position, Option.bind_eq_some_iff, Option.map_eq_some_iff] at hp
      obtain ⟨τ, hτ, c, hc, rfl⟩ := hp
      obtain ⟨⟨g', τ', c'⟩, hstep⟩ :=
        cancelStep_of_ready (b := .canceller t j) (τ := τ) hfree hover
      have hcancel : cancellerStep t j s.shared τ =
          some (g', { τ' with cancels := τ'.cancels.set j c' }) := by
        simp [cancellerStep, hc, hstep]
      exact ⟨.canceller t j, _, ⟨rfl, rfl, rfl⟩,
        onTask_eq_some.mpr ⟨τ, g', _, hτ, hcancel, rfl⟩⟩
  | closer k =>
      simp only [position, Option.map_eq_some_iff] at hp
      obtain ⟨c, hc, rfl⟩ := hp
      refine step_of_closer_ready h hc ?_ (fun l hl => hfree l (by simp [Position.waitsFor, hl])) ?_
      · intro hreturned
        rw [hreturned] at hover
        cases hover
      · intro t τ q ht hτ hentry l hl
        refine hfree l ?_
        simp [Position.waitsFor, ht, hτ, hentry, EntryPc.sweepPc, hl]
  | waiter w =>
      simp only [position, Option.map_eq_some_iff] at hp
      obtain ⟨x, hx, rfl⟩ := hp
      obtain ⟨⟨g', x'⟩, hstep⟩ := waiterStep_of_ready (w := w) hfree hover fun since hsince =>
        hparked since (by rw [hsince])
      have hbegins : begins s (.waiter w) = false := by
        simp only [begins, hx, Option.any_some]
        cases x with
        | suspended => cases hover
        | _ => rfl
      exact ⟨.waiter w, _, ⟨rfl, hbegins, rfl⟩, by
        simp [service, step, stepWaiter, hx, hstep]; rfl⟩

/-- The submission lock is taken before the two others, which are never held
together. -/
def level : Lock → Nat
  | .submission => 0
  | .abortHandles | .taskCounts => 1

theorem level_lt_of_guard {d : GuardPc} {l l' : Lock} (hholds : GuardPc.holds d l = true)
    (hwaits : GuardPc.waitsFor d l' = true) : level l < level l' := by
  cases d with
  | remove r =>
      cases r <;> cases l' <;> cases hwaits
      cases l <;> cases hholds
  | swap => cases hwaits
  | finish _ f =>
      cases f <;> cases l' <;> cases hwaits
      cases l <;> cases hholds

theorem level_lt_of_position {l l' : Lock} (hwell : Position.WellFormed p)
    (hholds : Position.holds p l = true) (hwaits : Position.waitsFor p l' = true) :
    level l < level l' := by
  cases p with
  | submitter pc =>
      cases pc with
      | dropGuard d => exact level_lt_of_guard hholds hwaits
      | _ => cases l' <;> cases hwaits <;> cases l <;> first | decide | cases hholds
  | worker pc =>
      cases pc with
      | ranGuard d | refusedGuard d | destroyGuard d => exact level_lt_of_guard hholds hwaits
      | _ => cases l' <;> cases hwaits <;> cases l <;> cases hholds
  | canceller pc =>
      cases pc with
      | remove r => exact level_lt_of_guard (d := .remove r) hholds hwaits
      | finish f => exact level_lt_of_guard (d := .finish false f) hholds hwaits
      | _ => cases hwaits
  | closer pc sweep =>
      by_cases hpc : pc = .sweep
      · subst pc
        cases sweep with
        | none => cases hholds
        | some q =>
            cases q with
            | finish f => exact level_lt_of_guard (d := .finish false f) hholds hwaits
            | _ => cases hholds
      · obtain rfl := hwell hpc
        cases pc <;> cases l' <;> cases hwaits <;> cases l <;> first | decide | cases hholds
  | waiter x => cases x <;> cases l' <;> cases hwaits <;> cases l <;> cases hholds

theorem not_over_of_holds {l : Lock} (hwell : Position.WellFormed p)
    (hholds : Position.holds p l = true) : Position.isOver p = false := by
  cases p with
  | closer pc sweep =>
      cases pc with
      | returned =>
          obtain rfl := hwell (by decide)
          cases hholds
      | _ => rfl
  | submitter pc => cases pc <;> first | rfl | cases hholds
  | canceller pc => cases pc <;> first | rfl | cases hholds
  | waiter x => cases x <;> first | rfl | cases hholds
  | worker pc => rfl

theorem level_lt_of_owner (h : (service taskCapacity).Reachable s) {l l' : Lock}
    (howner : s.shared.locks l = some o) (hp : position s o = some p)
    (hwaits : Position.waitsFor p l' = true) : level l < level l' := by
  obtain ⟨p', hp', hholds⟩ := holds_iff_position.mp ((agrees_of_reachable h o l).mp howner)
  obtain rfl := Option.some.inj (hp'.symm.trans hp)
  exact level_lt_of_position (wellFormed_of_reachable h hp) hholds hwaits

/-- No lock is taken where every owner that waits for free locks only goes on. -/
theorem locks_free_of_stuck (h : (service taskCapacity).Reachable s)
    (hstuck : ∀ o p l, position s o = some p → Position.isOver p = false →
      Position.holds p l = true → ∀ a, Goes s o a → (service taskCapacity).step a s = none)
    (l : Lock) : s.shared.locks l = none := by
  have hordered : ∀ o l l', s.shared.locks l = some o →
      (∃ p, position s o = some p ∧ Position.waitsFor p l' = true) → level l < level l' := by
    rintro o l l' howner ⟨p, hp, hwaits⟩
    exact level_lt_of_owner h howner hp hwaits
  refine locks_eq_none ⟨1, fun l => by cases l <;> decide⟩ hordered ?_ l
  intro o hfree l howner
  obtain ⟨p, hp, hholds⟩ := holds_iff_position.mp ((agrees_of_reachable h o l).mp howner)
  have hover := not_over_of_holds (wellFormed_of_reachable h hp) hholds
  obtain ⟨a, s', hgoes, hnext⟩ := exists_step_of_position h hp hover
    (fun l hl => hfree l ⟨p, hp, hl⟩) (by rintro t τ rfl; cases hholds)
    (by rintro since rfl; cases hholds)
  rw [hstuck o p l hp hover hholds a hgoes] at hnext
  cases hnext

theorem locks_free_of_atRest (h : (service taskCapacity).Reachable s)
    (hrest : AtRest (service taskCapacity) driven s) (l : Lock) : s.shared.locks l = none :=
  locks_free_of_stuck h (fun _ _ _ _ _ _ a hgoes => hrest a hgoes.driven) l

theorem over_of_atRest (h : (service taskCapacity).Reachable s)
    (hrest : AtRest (service taskCapacity) driven s) (hp : position s o = some p)
    (hrecv : p ≠ .worker .recv) (hparked : ∀ since, p ≠ .waiter (.parked since)) :
    Position.isOver p = true := by
  by_contra hover
  obtain ⟨a, s', hgoes, hnext⟩ := exists_step_of_position h hp (by simpa using hover)
    (fun l _ => locks_free_of_atRest h hrest l) (fun _ _ hp _ => absurd hp hrecv) hparked
  rw [hrest a hgoes.driven] at hnext
  cases hnext

/-- A task at rest has been rejected, or its payload is gone. -/
theorem task_of_atRest (h : (service taskCapacity).Reachable s)
    (hrest : AtRest (service taskCapacity) driven s) (hτ : s.tasks[t]? = some τ) :
    (∃ reason, τ.submitter = .rejected reason) ∧ τ.worker = .absent ∨
      τ.submitter = .returned ∧ τ.worker = .finished := by
  have hplaced := (taskInvariant_of_reachable h τ (mem_of_getElem? hτ)).placed
  have hsubmitter : Position.isOver (.submitter τ.submitter) = true :=
    over_of_atRest (o := .submitter t) h hrest (by simp [position, hτ]) (by simp) (by simp)
  rw [Placed] at hplaced
  cases hs : τ.submitter <;> rw [hs] at hsubmitter hplaced <;> try cases hsubmitter
  case rejected reason => exact .inl ⟨⟨reason, rfl⟩, worker_of_absent hplaced.1⟩
  refine .inr ⟨rfl, ?_⟩
  have hqueued : τ.worker ≠ .queued := by
    intro hw
    have hnext : (service taskCapacity).step (.pickUp t) s ≠ none := by
      simp [service, step, ServiceState.onTask, hτ, pickUpStep, hw]
    exact hnext (hrest _ rfl)
  have hrecv : τ.worker ≠ .recv := by
    intro hw
    have hfull : τ.channel = .full := by
      rcases hplaced with ⟨_, hchannel⟩ | ⟨_, hwaiting, _⟩
      · exact hchannel
      · simp [hw, workerPhase] at hwaiting
    have hnext : (service taskCapacity).step (.worker t .ok) s ≠ none := by
      simp [service, step, ServiceState.onTask, hτ, workerStep, hw, hfull]
    exact hnext (hrest _ rfl)
  have habsent : τ.worker ≠ .absent := by
    intro hw
    simp [hw, workerPhase, consistent, submitterPhase] at hplaced
  cases hpos : WorkerPc.position τ.worker with
  | none => cases hw : τ.worker <;> simp_all [WorkerPc.position]
  | some p =>
      have hp : position s (.worker t) = some p := by simp [position, hτ, hpos]
      have hne : ∀ pc, p = .worker pc → pc = τ.worker := by
        rintro pc rfl
        cases hw : τ.worker <;> rw [hw] at hpos <;> cases hpos <;> rfl
      have hover := over_of_atRest h hrest hp (fun hp' => hrecv (hne _ hp').symm)
        (by rintro since rfl; cases hw : τ.worker <;> rw [hw] at hpos <;> cases hpos)
      cases hw : τ.worker <;> rw [hw] at hpos <;> cases hpos <;> cases hover

theorem closer_of_atRest (h : (service taskCapacity).Reachable s)
    (hrest : AtRest (service taskCapacity) driven s) {c : Closer} (hc : c ∈ s.closers) :
    c.pc = .returned := by
  obtain ⟨k, hk⟩ := List.mem_iff_getElem?.mp hc
  have hp : ∃ sweep, position s (.closer k) = some (.closer c.pc sweep) :=
    ⟨_, by simp only [position, hk, Option.map_some]; rfl⟩
  obtain ⟨sweep, hp⟩ := hp
  have hover := over_of_atRest h hrest hp (by simp) (by simp)
  cases hpc : c.pc <;> rw [hpc] at hover <;> first | rfl | cases hover

theorem undisturbed_of_atRest (h : (service taskCapacity).Reachable s)
    (hrest : AtRest (service taskCapacity) driven s) (hτ : s.tasks[t]? = some τ) :
    isUndisturbed τ := by
  have howned := (sweeping_of_reachable h).owned t τ hτ
  refine ⟨fun k => ?_, fun c hc => ?_⟩
  · cases hentry : τ.entry with
    | taken k' =>
        rw [hentry] at howned
        obtain ⟨c, hk, hpc⟩ := howned
        simp [closer_of_atRest h hrest (mem_of_getElem? hk)] at hpc
    | sweeping k' p =>
        rw [hentry] at howned
        obtain ⟨c, hk, hpc, _⟩ := howned
        simp [closer_of_atRest h hrest (mem_of_getElem? hk)] at hpc
    | _ => rfl
  · obtain ⟨j, hj⟩ := List.mem_iff_getElem?.mp hc
    have hover : Position.isOver (.canceller c) = true :=
      over_of_atRest (o := .canceller t j) h hrest (by simp [position, hτ, hj]) (by simp) (by simp)
    cases c with
    | returned won => exact ⟨won, rfl⟩
    | _ => cases hover

/-- What is left of a task at rest. -/
structure RestedTask (τ : Task) : Prop where
  submitted : (∃ reason, τ.submitter = .rejected reason) ∧ τ.worker = .absent ∨
    τ.submitter = .returned ∧ τ.worker = .finished
  cancelled : ∀ c ∈ τ.cancels, ∃ won, c = .returned won
  unregistered : τ.entry = .absent ∨ τ.entry = .gone
  finished : τ.submitter = .returned → τ.finishes.length = 1
  resolved : τ.submitter = .returned → τ.hasSlot = true → τ.status.isTerminal = true

theorem restedTask_of_atRest (h : (service taskCapacity).Reachable s)
    (hrest : AtRest (service taskCapacity) driven s) (hτ : s.tasks[t]? = some τ) :
    RestedTask τ := by
  have hi := taskInvariant_of_reachable h τ (mem_of_getElem? hτ)
  have hundisturbed := undisturbed_of_atRest h hrest hτ
  have hdestroyed : τ.submitter = .returned → isPayloadDestroyed τ := by
    intro hreturned
    rcases task_of_atRest h hrest hτ with ⟨⟨reason, hs⟩, _⟩ | ⟨hs, hw⟩
    · simp [hs] at hreturned
    · exact ⟨hs, by rw [hw]; rfl⟩
  refine ⟨task_of_atRest h hrest hτ, hundisturbed.2, ?_,
    fun hs => finishes_of_destroyed hi (hdestroyed hs) hundisturbed,
    fun hs hslot => status_of_destroyed hi hslot (hdestroyed hs) hundisturbed⟩
  rcases task_of_atRest h hrest hτ with ⟨⟨reason, hs⟩, _⟩ | ⟨hs, _⟩
  · exact .inl (hi.registry.absent.mpr (by rw [hs]; rfl))
  · exact .inr (entry_of_destroyed hi (hdestroyed hs) hundisturbed)

theorem RestedTask.isUnfinished (h : RestedTask τ) : isUnfinished τ = false := by
  rcases h.submitted with ⟨⟨reason, hs⟩, _⟩ | ⟨hs, _⟩
  · simp [BlockingAccounting.isUnfinished, hs, isAccepted]
  · have hne : τ.finishes ≠ [] := by
      intro hnil
      have hone := h.finished hs
      simp [hnil] at hone
    simp [BlockingAccounting.isUnfinished, hne]

theorem RestedTask.finishAt (h : RestedTask τ) (site : Site) : finishAt τ site = none := by
  by_contra hne
  obtain ⟨⟨started, f⟩, hat⟩ := Option.ne_none_iff_exists'.mp hne
  rcases finishAt_cases hat with ⟨_, hstage⟩ | ⟨_, _, k, hentry⟩ | ⟨j, _, _, hj⟩
  · rcases h.submitted with ⟨⟨reason, hs⟩, _⟩ | ⟨hs, hw⟩
    · simp [guardStage, hs, submitterPhase, guardStageOf] at hstage
    · simp [guardStage_of_destroyed ⟨hs, by rw [hw]; rfl⟩] at hstage
  · rcases h.unregistered with hgone | hgone <;> simp [hgone] at hentry
  · obtain ⟨won, hwon⟩ := h.cancelled _ (mem_of_getElem? hj)
    cases hwon

theorem waiter_of_atRest (h : (service taskCapacity).Reachable s)
    (hrest : AtRest (service taskCapacity) driven s) (hclosed : ∀ c ∈ s.closers, c.pc = .returned)
    (hfinish : ∀ τ ∈ s.tasks, ∀ site, finishAt τ site = none)
    (hidle : s.shared.taskCounts.queued + s.shared.taskCounts.running = 0) {x : Waiter}
    (hx : x ∈ s.waiters) :
    x = .waited ∨ x = .awaited ∨
      load s.shared.lifecycle = .running ∧ ∃ since, x = .parked since ∨ x = .suspended since := by
  obtain ⟨w, hw⟩ := List.mem_iff_getElem?.mp hx
  have hawaits := awaits_of_reachable h x hx
  have hstep : (service taskCapacity).step (.waiter w) s = none := hrest _ rfl
  have hrunning : ∀ (async : Bool) (since : Nat), NotMissed async since s →
      ¬ since < (terminationSignal async).generation s.shared →
        load s.shared.lifecycle = .running := by
    intro async since hmissed hunnotified
    by_contra hne
    have howed := owed_of_waiting hmissed (isTerminated_iff.mpr ⟨hne, hidle⟩) hunnotified
    exact Signal.not_owed_of_completed (by cases async <;> rfl) hclosed hfinish howed
  by_cases hparked : ∃ since, x = .parked since
  · obtain ⟨since, rfl⟩ := hparked
    have hunnotified : ¬ since < s.shared.notifyAllCalls := by
      intro hlt
      simp [service, step, stepWaiter, hw, waiterStep, hlt] at hstep
    exact .inr (.inr ⟨hrunning false since hawaits hunnotified, since, .inl rfl⟩)
  · have hover : Position.isOver (.waiter x) = true :=
      over_of_atRest (o := .waiter w) h hrest (by simp [position, hw]) (by simp) fun since hp =>
        hparked ⟨since, Position.waiter.inj hp⟩
    cases x with
    | suspended since =>
        have hunnotified : ¬ since < s.shared.notifyWaitersCalls := by
          intro hlt
          simp [service, step, stepWaiter, hw, waiterStep, hlt] at hstep
        exact .inr (.inr ⟨hrunning true since hawaits hunnotified, since, .inr rfl⟩)
    | waited => exact .inl rfl
    | awaited => exact .inr (.inl rfl)
    | _ => cases hover

/-- All that has been asked of the service is done. -/
structure Rested (s : ServiceState) : Prop where
  unlocked : ∀ l, s.shared.locks l = none
  tasks : ∀ τ ∈ s.tasks, RestedTask τ
  closed : ∀ c ∈ s.closers, c.pc = .returned
  idle : s.shared.taskCounts = {}
  waited : ∀ x ∈ s.waiters, x = .waited ∨ x = .awaited ∨
    load s.shared.lifecycle = .running ∧ ∃ since, x = .parked since ∨ x = .suspended since

theorem rested_of_atRest (h : (service taskCapacity).Reachable s)
    (hrest : AtRest (service taskCapacity) driven s) : Rested s := by
  have htasks : ∀ τ ∈ s.tasks, RestedTask τ := by
    intro τ hτ
    obtain ⟨t, ht⟩ := List.mem_iff_getElem?.mp hτ
    exact restedTask_of_atRest h hrest ht
  have hclosed : ∀ c ∈ s.closers, c.pc = .returned := fun c hc => closer_of_atRest h hrest hc
  have hidle : s.shared.taskCounts.queued + s.shared.taskCounts.running = 0 := by
    rw [(conserved_of_reachable h).sum, countP_eq_zero_iff]
    exact fun τ hτ => (htasks τ hτ).isUnfinished
  refine ⟨locks_free_of_atRest h hrest, htasks, hclosed, ?_, fun x hx => ?_⟩
  · cases hcounts : s.shared.taskCounts
    simp only [hcounts] at hidle
    simp only [TokioExecutorTaskCounts.mk.injEq]
    omega
  · exact waiter_of_atRest h hrest hclosed (fun τ hτ => (htasks τ hτ).finishAt) hidle hx

end

end TokioExecutorProofs.BlockingRest
