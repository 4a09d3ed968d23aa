import TokioExecutorProofs.BlockingRest
import TokioExecutorProofs.RestingThreads

/-!
The threads of the blocking service at rest. A waker that runs under a lock must
not call the service, and a callback must not block until its own service has
terminated. Otherwise the service comes to rest with all that was asked of it done,
whichever activities share a thread.
-/

namespace TokioExecutorProofs.BlockingThreads

open ServiceBasics
open BlockingServiceState
open BlockingServiceState.TokioExecutorServiceState
open BlockingTask
open BlockingService
open BlockingTaskPlacement
open BlockingTaskInvariants
open BlockingSweeps
open BlockingActivities
open BlockingLocks
open BlockingCallbacks
open BlockingRanks
open BlockingRest
open CallStacks
open MutexTables
open ProcessFamilies
open RestingSystems
open RestingThreads
open TransitionSystems

/-- The service with its activities on threads. -/
abbrev threads (taskCapacity : NonZeroUsize) :
    TransitionSystem (ThreadedState ServiceState Actor) (ThreadAction Action) :=
  activities.threaded (service taskCapacity)

/-! ### Where an activity begins and goes on -/

section

variable {s s' : ServiceState} {a : Action} {g g' : TokioExecutorServiceState} {t : TaskId}
  {τ τ' : Task} {taskCapacity : NonZeroUsize}

theorem all_isOver_of_taskStep (hτ : s.tasks[t]? = some τ) (hs : (service taskCapacity).Reachable s)
    (hnext : ∀ k, a ≠ .sweepNext k t)
    (hcurrent : ∀ k, a = .sweep k → ∃ c, s.closers[k]? = some c ∧ c.current = some t)
    (h : TaskStep t g τ a g' τ') :
    (position s (actor s a)).all Position.isOver = begins s a := by
  cases h with
  | submitter h =>
      simp only [actor, position, hτ, Option.map_some, Option.all_some, begins]
      cases hpc : τ.submitter with
      | rejected | returned => simp [submitterStep, hpc] at h
      | _ => rfl
  | worker h =>
      simp only [actor, position, hτ, Option.bind_some, begins]
      cases hpc : τ.worker with
      | absent | queued | finished => simp [workerStep, hpc] at h
      | _ => rfl
  | pickUp h | destroy h =>
      first | unfold pickUpStep at h | unfold destroyStep at h
      split at h
      · rename_i hqueued
        simp [actor, position, hτ, hqueued, WorkerPc.position, begins]
      · cases h
  | callCancel h => simp [actor, position, hτ, begins]
  | canceller h =>
      obtain ⟨c, _, _, hc, hstep, _⟩ := cancellerStep_cases h
      simp only [actor, position, hτ, hc, Option.bind_some, Option.map_some, Option.all_some,
        begins]
      cases c with
      | returned => cases hstep
      | _ => rfl
  | @sweepNext k _ => exact absurd rfl (hnext k)
  | @sweep k | @finishSweep k =>
      obtain ⟨c, hc, hcurrent⟩ := hcurrent k rfl
      have hpc : c.pc = .sweep := by
        by_contra hne
        rw [(sweeping_of_reachable hs).idle c (mem_of_getElem? hc) hne] at hcurrent
        cases hcurrent
      simp only [actor, position, hc, hpc, Option.map_some, Option.all_some, begins]
      rfl

theorem standing (taskCapacity : NonZeroUsize) : Standing (service taskCapacity) activities := by
  intro s a s' hs hnext
  show (position s (actor s a)).all Position.isOver = begins s a
  cases effect_of_step hnext with
  | newTask | newCloser | newWaiter => simp [actor, position, begins]
  | task hτ hτstep hother _ hcurrent =>
      exact all_isOver_of_taskStep hτ hs hother hcurrent hτstep
  | sweepNext hc hpc | take hc hpc | endSweep hc hpc =>
      simp only [actor, position, hc, hpc, Option.map_some, Option.all_some, begins]
      rfl
  | @finishSweep k c _ _ _ hc hcurrent =>
      have hpc : c.pc = .sweep := by
        by_contra hne
        rw [(sweeping_of_reachable hs).idle c (mem_of_getElem? hc) hne] at hcurrent
        cases hcurrent
      simp only [actor, position, hc, hpc, Option.map_some, Option.all_some, begins]
      rfl
  | @closer k c _ _ hc h =>
      simp only [actor, position, hc, Option.map_some, Option.all_some, begins]
      cases hpc : c.pc with
      | returned => simp [closerStep, hpc] at h
      | _ => rfl
  | @waiter w x _ _ hx h =>
      simp only [actor, position, hx, Option.map_some, Option.all_some, Option.any_some, begins]
      cases x with
      | waited | awaited => cases h
      | _ => rfl

end

/-! ### Callbacks that the service can wait for -/

/-- The activity whose callback makes a call on the thread. -/
def caller (x : ThreadedState ServiceState Actor) (i : Nat) : Option Actor :=
  (x.threads[i]?).bind List.head?

/-- A callback blocks until its own service has terminated. -/
def waitsInside (x : ThreadedState ServiceState Actor) : ThreadAction Action → Bool
  | .call i a => a == .callWait false && (caller x i).isSome
  | .newThread | .run _ _ | .back _ => false

/-- A waker that runs under a lock calls the service. -/
def callsLocked (x : ThreadedState ServiceState Actor) : ThreadAction Action → Bool
  | .call i _ => (caller x i).any fun o => (position x.state o).any Position.wakesLocked
  | .newThread | .run _ _ | .back _ => false

/-- The callbacks return as far as it is up to the service. -/
def calm (x : ThreadedState ServiceState Actor) (b : ThreadAction Action) : Prop :=
  waitsInside x b = false ∧ callsLocked x b = false

instance (x : ThreadedState ServiceState Actor) (b : ThreadAction Action) : Decidable (calm x b) :=
  inferInstanceAs (Decidable (_ ∧ _))

section

variable {taskCapacity : NonZeroUsize} {x x' : ThreadedState ServiceState Actor}
  {b : ThreadAction Action}

theorem calm_of_idle {i : Nat} {a : Action} (hi : x.threads[i]? = some []) :
    calm x (.call i a) := by
  simp [calm, waitsInside, callsLocked, caller, hi]

theorem calm_of_byThreads (h : byThreads driven x b) : calm x b := by
  cases b with
  | call i a => exact calm_of_idle h.1
  | newThread | run i a | back i => exact ⟨rfl, rfl⟩

/-- Where no entry is the last to know an unresolved slot, no waker runs under a
lock. -/
theorem calm_of_removesResolved
    (h : (threads taskCapacity).ReachableUnder
      (fun x b => onSteps (fun s a => removesResolved s a = true) x b ∧ waitsInside x b = false)
      x) :
    (threads taskCapacity).ReachableUnder calm x := by
  refine ReachableUnder.invariant (P := (threads taskCapacity).ReachableUnder calm) h
    (runUnder_refl _) ?_
  intro x b x' hx ih hallowed hnext
  refine RunUnder.tail ih ?_ hnext
  have hquiet := quiet_of_reachable
    (reachable_of_threaded (RunUnder.mono (fun _ _ h => h.1) hx))
  have hcalls : callsLocked x b = false := by
    cases b with
    | call i a =>
        by_contra hlocked
        obtain ⟨o, -, hlocked⟩ := (Option.any_eq_true _ _).mp (eq_true_of_ne_false hlocked)
        obtain ⟨p, hp, hlocked⟩ := (Option.any_eq_true _ _).mp hlocked
        rw [wakesLocked_of_position hquiet hp] at hlocked
        cases hlocked
    | newThread | run i a | back i => rfl
  exact ⟨hallowed.2, hcalls⟩

end

/-! ### Activities that share a thread -/

section

variable {taskCapacity : NonZeroUsize} {s s' : ServiceState} {a : Action}
  {x : ThreadedState ServiceState Actor} {i : Nat} {o o' : Actor} {stack : List Actor}

/-- The future of `await_termination`, which never blocks its thread. -/
def Waiter.isAsync : Waiter → Bool
  | .enable | .asyncLoad _ | .asyncReadCounts _ _ | .suspended _ | .awaited => true
  | .lock | .load | .readCounts _ | .unlock | .parked _ | .waited => false

/-- The activity does not block until the service has terminated. -/
def EndsEarly (s : ServiceState) : Actor → Prop
  | .waiter w => ∃ y, s.waiters[w]? = some y ∧ Waiter.isAsync y = true
  | .submitter _ | .worker _ | .canceller _ _ | .closer _ => True

theorem isAsync_of_waiterStep {w : Nat} {g g' : TokioExecutorServiceState} {y y' : Waiter}
    (h : waiterStep w g y = some (g', y')) : Waiter.isAsync y' = Waiter.isAsync y := by
  cases y <;> simp only [waiterStep] at h
  case lock =>
    simp only [map_acquire_eq_some, Prod.mk.injEq] at h
    obtain ⟨_, _, rfl⟩ := h
    rfl
  case waited | awaited => cases h
  case asyncReadCounts =>
    split at h
    · split at h <;> cases h <;> rfl
    · cases h
  case readCounts | parked | suspended => split at h <;> cases h <;> rfl
  all_goals
    cases h
    rfl

theorem endsEarly_of_step (h : EndsEarly s o) (hnext : (service taskCapacity).step a s = some s') :
    EndsEarly s' o := by
  cases o with
  | submitter | worker | canceller | closer => trivial
  | waiter w =>
      obtain ⟨y, hy, hasync⟩ := h
      cases effect_of_step hnext with
      | newTask | newCloser | task | sweepNext | finishSweep | take | endSweep | closer =>
          exact ⟨y, hy, hasync⟩
      | newWaiter => exact ⟨y, getElem?_append_of_some hy, hasync⟩
      | @waiter w' y₁ _ y' hy₁ hwstep =>
          by_cases hw : w = w'
          · subst w'
            obtain rfl := Option.some.inj (hy.symm.trans hy₁)
            exact ⟨y', getElem?_set_self_of_some hy, (isAsync_of_waiterStep hwstep).trans hasync⟩
          · exact ⟨y, (getElem?_set_of_ne hw).trans hy, hasync⟩

theorem endsEarly_of_call (hcalm : calm x (.call i a))
    (hi : x.threads[i]? = some (o :: stack)) (hbegins : begins x.state a = true)
    (hnext : (service taskCapacity).step a x.state = some s') :
    EndsEarly s' (actor x.state a) := by
  have hcaller : caller x i = some o := by rw [caller, hi]; rfl
  cases effect_of_step hnext with
  | newTask | newCloser | sweepNext | finishSweep | take | endSweep | closer => trivial
  | newWaiter async =>
      have hasync : async = true := by
        cases async with
        | true => rfl
        | false => simp [calm, waitsInside, hcaller] at hcalm
      subst hasync
      exact ⟨.enable, by simp, rfl⟩
  | task _ hτstep => cases hτstep <;> trivial
  | @waiter w y _ y' hy hwstep =>
      have hasync : Waiter.isAsync y = true := by
        simp only [begins, hy, Option.any_some] at hbegins
        cases y with
        | suspended => rfl
        | _ => cases hbegins
      exact ⟨y', getElem?_set_self_of_some hy, (isAsync_of_waiterStep hwstep).trans hasync⟩

theorem endsEarly_of_above
    (h : (threads taskCapacity).ReachableUnder calm x)
    (hi : x.threads[i]? = some stack) (ho : o ∈ stack.dropLast) : EndsEarly x.state o :=
  above_of_reachable (R := EndsEarly) (fun _ _ _ _ _ hends => endsEarly_of_step hends)
    (fun _ _ _ _ _ _ hcalm hi => endsEarly_of_call hcalm hi) h stack (mem_of_getElem? hi) o ho

/-- The callback of an activity below another one runs under no lock. -/
theorem position_of_below
    (h : (threads taskCapacity).ReachableUnder calm x)
    (hi : x.threads[i]? = some (o :: stack)) (ho' : o' ∈ stack) :
    ∃ p, position x.state o' = some p ∧ Position.runsUserCode p = true ∧
      Position.wakesLocked p = false := by
  have hbelow : (position x.state o').any
      (fun p => Position.runsUserCode p && !Position.wakesLocked p) = true := by
    refine below_of_reachable activities (framed taskCapacity) ?_ h hi o' ho'
    intro x i a o stack hcalm hi huser
    obtain ⟨p, hp, hcode⟩ := (Option.any_eq_true _ _).mp huser
    have hp : position x.state o = some p := hp
    have hcaller : caller x i = some o := by rw [caller, hi]; rfl
    have hquiet : Position.wakesLocked p = false := by
      simpa [callsLocked, hcaller, hp] using hcalm.2
    have hcode : Position.runsUserCode p = true := hcode
    show (position x.state o).any _ = true
    rw [hp, Option.any_some, hcode, hquiet]
    rfl
  obtain ⟨p, hp, hquiet⟩ := (Option.any_eq_true _ _).mp hbelow
  obtain ⟨hcode, hquiet⟩ := Bool.and_eq_true_iff.mp hquiet
  exact ⟨p, hp, hcode, by simpa using hquiet⟩

end

/-! ### Where the threads cannot go on -/

section

variable {taskCapacity : NonZeroUsize} {x x' : ThreadedState ServiceState Actor} {a : Action}
  {i : Nat} {o : Actor} {stack : List Actor} {p : Position} {t : TaskId} {τ : Task}

theorem carried_of_threaded (h : (threads taskCapacity).Reachable x) :
    Carried activities x := by
  refine carried_of_reachable (framed taskCapacity) (fun o p hp => ?_) h
  cases o <;> simp [activities, position, service] at hp

theorem innermost_of_position
    (h : (threads taskCapacity).ReachableUnder calm x)
    (hp : position x.state o = some p) (hover : Position.isOver p = false)
    (hcode : Position.runsUserCode p = true → Position.wakesLocked p = true) :
    ∃ (i : Nat) (stack : List Actor), x.threads[i]? = some (o :: stack) := by
  obtain ⟨stack, hmem, ho⟩ := carried_of_threaded (ReachableUnder.reachable h) o p hp hover
  obtain ⟨i, hi⟩ := List.mem_iff_getElem?.mp hmem
  cases stack with
  | nil => cases ho
  | cons o₁ stack =>
      rcases List.mem_cons.mp ho with rfl | ho
      · exact ⟨i, stack, hi⟩
      · obtain ⟨p', hp', huser, hquiet⟩ := position_of_below h hi ho
        obtain rfl := Option.some.inj (hp.symm.trans hp')
        rw [hcode huser] at hquiet
        cases hquiet

theorem step_eq_none_of_innermost
    (hrest : AtRest (threads taskCapacity) (byThreads driven) x)
    (hi : x.threads[i]? = some (o :: stack)) (hgoes : Goes x.state o a) :
    (service taskCapacity).step a x.state = none := by
  obtain ⟨rfl, hbegins, hdriven⟩ := hgoes
  exact run_eq_none activities hrest hi hdriven hbegins

theorem unlocked_of_atRest
    (h : (threads taskCapacity).ReachableUnder calm x)
    (hrest : AtRest (threads taskCapacity) (byThreads driven) x) (l : Lock) :
    x.state.shared.locks l = none := by
  have hs := state_of_threaded (ReachableUnder.reachable h)
  refine locks_free_of_stuck hs (fun o p l hp hover hholds a hgoes => ?_) l
  have hcode : Position.runsUserCode p = true → Position.wakesLocked p = true := by
    intro huser
    by_contra hquiet
    rw [not_holds_of_position (wellFormed_of_reachable hs hp) (.inl huser)
      (by simpa using hquiet)] at hholds
    cases hholds
  obtain ⟨i, stack, hi⟩ := innermost_of_position h hp hover hcode
  exact step_eq_none_of_innermost hrest hi hgoes

/-- The submission that still has the payload is not in a callback, so it goes on. -/
theorem full_of_atRest
    (h : (threads taskCapacity).ReachableUnder calm x)
    (hrest : AtRest (threads taskCapacity) (byThreads driven) x)
    (hτ : x.state.tasks[t]? = some τ) (hw : τ.worker = .recv) : τ.channel = .full := by
  have hs := state_of_threaded (ReachableUnder.reachable h)
  have hplaced := (taskInvariant_of_reachable hs τ (mem_of_getElem? hτ)).placed
  rw [Placed, hw] at hplaced
  by_contra hfull
  have hphase : submitterPhase τ.submitter = .undecided ∨
      submitterPhase τ.submitter = .decided := by
    cases hphase : submitterPhase τ.submitter <;> rw [hphase] at hplaced <;>
      simp_all [consistent, workerPhase]
  have hp : position x.state (.submitter t) = some (.submitter τ.submitter) := by
    simp [position, hτ]
  have hover : Position.isOver (.submitter τ.submitter) = false := by
    cases hs : τ.submitter <;> simp_all [submitterPhase, Position.isOver]
  have hcode : Position.runsUserCode (.submitter τ.submitter) = true →
      Position.wakesLocked (.submitter τ.submitter) = true := by
    cases hs : τ.submitter <;> simp_all [submitterPhase, Position.runsUserCode,
      SubmitterPc.runsUserCode, Position.wakesLocked, SubmitterPc.wakesLocked]
  obtain ⟨i, stack, hi⟩ := innermost_of_position h hp hover hcode
  obtain ⟨a, s', hgoes, hnext⟩ := exists_step_of_position hs hp hover
    (fun l _ => unlocked_of_atRest h hrest l) (by simp) (by simp)
  rw [step_eq_none_of_innermost hrest hi hgoes] at hnext
  cases hnext

theorem waiter_of_position {y : Waiter} (hp : position x.state o = some (.waiter y)) :
    ∃ w, o = .waiter w ∧ x.state.waiters[w]? = some y := by
  cases o with
  | submitter t | closer k => simp [position] at hp
  | canceller t j => simp [position, Option.bind_eq_some_iff] at hp
  | worker t =>
      simp only [position, Option.bind_eq_some_iff] at hp
      obtain ⟨τ, -, hp⟩ := hp
      cases hw : τ.worker <;> rw [hw] at hp <;> cases hp
  | waiter w => exact ⟨w, rfl, by simpa [position] using hp⟩

theorem parked_of_innermost
    (h : (threads taskCapacity).ReachableUnder calm x)
    (hrest : AtRest (threads taskCapacity) (byThreads driven) x)
    (hi : x.threads[i]? = some (o :: stack)) :
    ∃ w since, o = .waiter w ∧ x.state.waiters[w]? = some (.parked since) := by
  have hs := state_of_threaded (ReachableUnder.reachable h)
  obtain ⟨p, hp, hover⟩ := not_over_of_atRest hrest hi
  have hp : position x.state o = some p := hp
  by_contra hparked
  obtain ⟨a, s', hgoes, hnext⟩ := exists_step_of_position hs hp hover
    (fun l _ => unlocked_of_atRest h hrest l)
    (by
      rintro t τ rfl rfl hτ
      refine full_of_atRest h hrest hτ ?_
      cases hw : τ.worker <;> simp [position, hτ, hw, WorkerPc.position] at hp
      rfl)
    (by
      rintro since rfl
      obtain ⟨w, rfl, hw⟩ := waiter_of_position hp
      exact hparked ⟨w, since, rfl, hw⟩)
  rw [step_eq_none_of_innermost hrest hi hgoes] at hnext
  cases hnext

/-- Who waits for the termination has nobody below it to hold up. -/
theorem alone_of_atRest
    (h : (threads taskCapacity).ReachableUnder calm x)
    (hrest : AtRest (threads taskCapacity) (byThreads driven) x)
    (hi : x.threads[i]? = some (o :: stack)) : stack = [] := by
  obtain ⟨w, since, rfl, hw⟩ := parked_of_innermost h hrest hi
  cases stack with
  | nil => rfl
  | cons o₁ stack =>
      obtain ⟨y, hy, hasync⟩ := endsEarly_of_above h hi (o := .waiter w)
        (by rw [List.dropLast_cons_cons]; exact List.mem_cons_self)
      obtain rfl := Option.some.inj (hy.symm.trans hw)
      cases hasync

theorem atRest_of_threaded
    (h : (threads taskCapacity).ReachableUnder calm x)
    (hrest : AtRest (threads taskCapacity) (byThreads driven) x) :
    AtRest (service taskCapacity) driven x.state := by
  have hx := ReachableUnder.reachable h
  exact atRest_of_threads (standing taskCapacity) (state_of_threaded hx) (carried_of_threaded hx)
    hrest fun i o stack hi => alone_of_atRest h hrest hi

theorem lowers_threads (taskCapacity : NonZeroUsize) :
    Lowers (threads taskCapacity) (onThreads noCall) (threadRank rank) :=
  Lowers.threaded (lowers taskCapacity)

theorem exists_atRest (hx : (threads taskCapacity).Reachable x) :
    ∃ x', (threads taskCapacity).RunUnder (byThreads driven) x x' ∧
      AtRest (threads taskCapacity) (byThreads driven) x' := by
  have hlowers : Lowers (threads taskCapacity) (byThreads driven) (threadRank rank) :=
    (lowers_threads taskCapacity).mono (onThreads_of_byThreads fun _ _ => noCall_of_driven)
  exact hlowers.exists_atRest hx

/-- From every reachable state the calls that have been made keep the threads busy
for a bounded number of steps, in any order of them; and wherever no thread can go
on, everything that was asked of the service is done. -/
theorem service_comes_to_rest (h : (threads taskCapacity).ReachableUnder calm x) :
    (∀ n x', StepsUnder (threads taskCapacity) (onThreads noCall) n x x' →
      n ≤ threadRank rank x) ∧
    (∃ x', (threads taskCapacity).RunUnder (byThreads driven) x x' ∧
      AtRest (threads taskCapacity) (byThreads driven) x') ∧
    ∀ x', (threads taskCapacity).RunUnder calm x x' →
      AtRest (threads taskCapacity) (byThreads driven) x' →
        Rested x'.state ∧ ∀ stack ∈ x'.threads, stack = [] ∨
          ∃ w since, stack = [.waiter w] ∧ x'.state.waiters[w]? = some (.parked since) := by
  have hx := ReachableUnder.reachable h
  refine ⟨fun n x' hrun => ?_, exists_atRest hx,
    fun x' hrun hrest => ⟨?_, fun stack hmem => ?_⟩⟩
  · have := (lowers_threads taskCapacity).length_add_le hx hrun
    omega
  · have h' := RunUnder.trans h hrun
    exact rested_of_atRest (state_of_threaded (ReachableUnder.reachable h'))
      (atRest_of_threaded h' hrest)
  · have h' := RunUnder.trans h hrun
    obtain ⟨i, hi⟩ := List.mem_iff_getElem?.mp hmem
    cases stack with
    | nil => exact .inl rfl
    | cons o stack =>
        obtain ⟨w, since, rfl, hw⟩ := parked_of_innermost h' hrest hi
        obtain rfl := alone_of_atRest h' hrest hi
        exact .inr ⟨w, since, rfl, hw⟩

end

/-- A callable stops its own service while somebody waits for the termination. -/
theorem service_comes_to_rest_stop : ∃ x x',
    (threads oneSlot).executeUnder calm
      (List.flatten [[.newThread, .newThread, .call 0 (.callSubmit .callable)],
        List.replicate 12 (.run 0 (.submitter 0 false)), [.back 0, .call 0 (.callWait false)],
        List.replicate 3 (.run 0 (.waiter 0)), [.call 1 (.pickUp 0)],
        List.replicate 8 (.run 1 (.worker 0 .ok)), [.call 1 (.callClose .stop)]])
      (threads oneSlot).start = some x ∧
    x.threads = [[.waiter 0], [.closer 0, .worker 0]] ∧ x.state.waiters = [.parked 0] ∧
    (threads oneSlot).RunUnder (byThreads driven) x x' ∧ Rested x'.state := by
  have hexecute : ((threads oneSlot).executeUnder calm
      (List.flatten [[.newThread, .newThread, .call 0 (.callSubmit .callable)],
        List.replicate 12 (.run 0 (.submitter 0 false)), [.back 0, .call 0 (.callWait false)],
        List.replicate 3 (.run 0 (.waiter 0)), [.call 1 (.pickUp 0)],
        List.replicate 8 (.run 1 (.worker 0 .ok)), [.call 1 (.callClose .stop)]])
      (threads oneSlot).start).map (fun x => (x.threads, x.state.waiters)) =
        some ([[.waiter 0], [.closer 0, .worker 0]], [.parked 0]) := rfl
  obtain ⟨x, hx, hview⟩ := Option.map_eq_some_iff.mp hexecute
  obtain ⟨hthreads, hparked⟩ := Prod.mk.inj hview
  obtain ⟨-, ⟨x', hrun, hrest⟩, hrested⟩ := service_comes_to_rest (runUnder_of_executeUnder hx)
  have hcalm : (threads oneSlot).RunUnder calm x x' :=
    RunUnder.mono (fun _ _ => calm_of_byThreads) hrun
  exact ⟨x, x', hx, hthreads, hparked, hrun, (hrested x' hcalm hrest).1⟩

end TokioExecutorProofs.BlockingThreads
