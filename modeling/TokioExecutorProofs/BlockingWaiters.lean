import TokioExecutorProofs.BlockingSignals
import TokioExecutorProofs.BlockingTermination

/-!
Waiting for the termination of the blocking service. A waiter that has found
the service not terminated is woken by whoever terminates it.
-/

namespace TokioExecutorProofs.BlockingWaiters

open ServiceBasics
open BlockingServiceState
open BlockingServiceState.TokioExecutorServiceState
open ExecutorServiceLifecycleBits
open BlockingTask
open BlockingService
open BlockingTaskInvariants
open BlockingTaskEffects
open BlockingAccounting
open BlockingLocks
open BlockingTermination
open BlockingSignals
open MutexTables
open ProcessFamilies
open TransitionSystems
open SignalledConditions

/-- The waiter has missed no notification of the monitor, or no notification of
the asynchronous notifier. -/
abbrev NotMissed (async : Bool) (since : Nat) (s : ServiceState) : Prop :=
  Covered (fun s => (terminationSignal async).condition s.shared) (terminationSignal async).owed
    (fun s => (terminationSignal async).generation s.shared) since s

/-- What a waiter knows at its position. -/
def Awaits (s : ServiceState) : Waiter → Prop
  | .readCounts false => load s.shared.lifecycle ≠ .running →
      ∃ c ∈ s.closers, CloserPc.isUnchecked c.pc = true
  | .parked since => NotMissed false since s
  | .asyncLoad since => since ≤ s.shared.notifyWaitersCalls
  | .asyncReadCounts since loaded => since ≤ s.shared.notifyWaitersCalls ∧
      (loaded = .running → NotMissed true since s)
  | .suspended since => NotMissed true since s
  | .lock | .load | .readCounts true | .unlock | .waited | .enable | .awaited => True

section

variable {taskCapacity : NonZeroUsize} {s s' : ServiceState} {a : Action}

theorem not_terminated_of_running {g : TokioExecutorServiceState}
    (h : load g.lifecycle = .running) : ¬ g.isTerminated = true := by
  rw [isTerminated_iff]
  exact fun hterminated => hterminated.1 h

theorem owed_of_isUnchecked {async : Bool} {c : Closer} (hc : c ∈ s.closers)
    (h : CloserPc.isUnchecked c.pc = true) : (terminationSignal async).owed s := by
  refine .inr ⟨c, hc, ?_⟩
  cases hpc : c.pc <;> rw [hpc] at h <;> cases h
  all_goals cases async <;> rfl

/-- A closing call that has not checked yet stays so as long as the monitor is
held by somebody else. -/
theorem isUnchecked_of_closerStep {k : Nat} {g g' : TokioExecutorServiceState} {c c' : Closer}
    (h : closerStep k g c = some (g', c')) (hheld : g.locks .taskCounts ≠ none)
    (hbefore : c.pc = .store ∨ CloserPc.isUnchecked c.pc = true) :
    CloserPc.isUnchecked c'.pc = true := by
  cases hpc : c.pc <;> simp only [closerStep, hpc] at h
  case store | unlockSubmission =>
    cases hkind : c.kind <;> simp only [hkind, Option.some.injEq, Prod.mk.injEq] at h <;>
      rw [← h.2] <;> rfl
  case readLock =>
    simp only [map_acquire_eq_some] at h
    exact absurd h.1 hheld
  case snapshotLock | takeLock =>
    simp only [map_acquire_eq_some, Prod.mk.injEq] at h
    rw [← h.2.2]
    rfl
  case take | sweep | returned => cases h
  case snapshot | snapshotUnlock | takeUnlock | notifyCapacity | wakeCapacity =>
    simp only [Option.some.injEq, Prod.mk.injEq] at h
    rw [← h.2]
    rfl
  all_goals simp [hpc, CloserPc.isUnchecked] at hbefore

theorem unchecked_of_step (hs : (service taskCapacity).Reachable s)
    (hstep : (service taskCapacity).step a s = some s') (hheld : s.shared.locks .taskCounts ≠ none)
    (ih : load s.shared.lifecycle ≠ .running →
      ∃ c ∈ s.closers, CloserPc.isUnchecked c.pc = true)
    (hclosed : load s'.shared.lifecycle ≠ .running) :
    ∃ c ∈ s'.closers, CloserPc.isUnchecked c.pc = true := by
  have hi := taskInvariant_of_reachable hs
  have hset : ∀ {k : Nat} {c c' : Closer}, s.closers[k]? = some c →
      load s.shared.lifecycle ≠ .running →
      (CloserPc.isUnchecked c.pc = true → CloserPc.isUnchecked c'.pc = true) →
      ∃ c ∈ s.closers.set k c', CloserPc.isUnchecked c.pc = true := by
    intro k c c' hc hbefore hmove
    exact exists_mem_set_of_ne (P := fun c => CloserPc.isUnchecked c.pc = true) hc
      (ih hbefore) hmove
  cases effect_of_step hstep with
  | newTask | newWaiter => exact ih hclosed
  | task hτ hτstep =>
      have hlifecycle := sharedMove_lifecycle
        (sharedMove_of_taskStep (hi _ (mem_of_getElem? hτ)) hτstep)
      exact ih (hlifecycle ▸ hclosed)
  | waiter _ hwstep =>
      obtain ⟨_, rfl⟩ := waiterStep_locks hwstep
      exact ih hclosed
  | newCloser kind =>
      obtain ⟨c, hc, hunchecked⟩ := ih hclosed
      exact ⟨c, List.mem_append_left _ hc, hunchecked⟩
  | sweepNext hc | finishSweep hc => exact hset hc hclosed id
  | take hc | endSweep hc => exact hset hc hclosed fun _ => rfl
  | @closer k c g' c' hc hcstep =>
      rcases closerStep_lifecycle hcstep with heq | ⟨hpc, _⟩
      · exact hset hc (heq ▸ hclosed) fun h =>
          isUnchecked_of_closerStep hcstep hheld (.inr h)
      · exact ⟨c', mem_set_of_getElem? hc,
          isUnchecked_of_closerStep hcstep hheld (.inl hpc)⟩

theorem Awaits.step {w : Nat} {x : Waiter} (h : Awaits s x) (hx : s.waiters[w]? = some x)
    (hs : (service taskCapacity).Reachable s)
    (hstep : (service taskCapacity).step a s = some s') : Awaits s' x := by
  have hsync := (terminationSignal false).signalled taskCapacity
  have hasync := (terminationSignal true).signalled taskCapacity
  have hmono : s.shared.notifyWaitersCalls ≤ s'.shared.notifyWaitersCalls :=
    hasync.mono hs hstep
  cases x with
  | readCounts notRunning =>
      cases notRunning with
      | true => trivial
      | false =>
          have hlocked := respects_of_reachable hs (.waiter w) .taskCounts ⟨_, hx, rfl⟩
          exact unchecked_of_step hs hstep (by simp [hlocked]) h
  | parked since => exact Covered.step h hsync hs hstep
  | asyncLoad since => exact le_trans h hmono
  | asyncReadCounts since loaded =>
      exact ⟨le_trans h.1 hmono, fun hloaded => (h.2 hloaded).step hasync hs hstep⟩
  | suspended since => exact Covered.step h hasync hs hstep
  | _ => trivial

theorem awaits_of_waiterStep {w : Nat} {x x' : Waiter} {g' : TokioExecutorServiceState}
    (h : Awaits s x) (hstep : waiterStep w s.shared x = some (g', x')) :
    Awaits { s with shared := g', waiters := s.waiters.set w x' } x' := by
  cases x with
  | lock =>
      simp only [waiterStep, map_acquire_eq_some, Prod.mk.injEq] at hstep
      obtain ⟨_, rfl, rfl⟩ := hstep
      trivial
  | load =>
      simp only [waiterStep, Option.some.injEq, Prod.mk.injEq] at hstep
      obtain ⟨rfl, rfl⟩ := hstep
      cases hloaded : s.shared.isNotRunning with
      | true => trivial
      | false => exact fun hclosed => absurd (by simpa [isNotRunning] using hloaded) hclosed
  | readCounts notRunning =>
      simp only [waiterStep] at hstep
      split at hstep <;> simp only [Option.some.injEq, Prod.mk.injEq] at hstep <;>
        obtain ⟨rfl, rfl⟩ := hstep
      · trivial
      · rename_i hpark
        refine ⟨le_rfl, fun _ hterminated => ?_⟩
        have hterminated := isTerminated_iff.mp hterminated
        cases notRunning with
        | true =>
            rw [Bool.true_and, TokioExecutorTaskCounts.isEmpty_iff] at hpark
            exact absurd hterminated.2 hpark
        | false =>
            obtain ⟨c, hc, hunchecked⟩ := h hterminated.1
            exact owed_of_isUnchecked hc hunchecked
  | unlock | enable =>
      simp only [waiterStep, Option.some.injEq, Prod.mk.injEq] at hstep
      obtain ⟨rfl, rfl⟩ := hstep
      first | trivial | exact le_rfl
  | parked since | suspended since =>
      simp only [waiterStep] at hstep
      split at hstep <;> cases hstep
      trivial
  | waited | awaited => cases hstep
  | asyncLoad since =>
      simp only [waiterStep, Option.some.injEq, Prod.mk.injEq] at hstep
      obtain ⟨rfl, rfl⟩ := hstep
      refine ⟨h, fun hrunning => covered_of_not h ?_⟩
      exact not_terminated_of_running hrunning
  | asyncReadCounts since loaded =>
      simp only [waiterStep] at hstep
      split at hstep
      · split at hstep <;> simp only [Option.some.injEq, Prod.mk.injEq] at hstep <;>
          obtain ⟨rfl, rfl⟩ := hstep
        · trivial
        · rename_i hresult
          by_cases hloaded : loaded = .running
          · exact ⟨(h.2 hloaded).le, (h.2 hloaded).owed⟩
          · refine covered_of_not h.1 fun hterminated => hresult ?_
            have hempty := (isTerminated_iff.mp hterminated).2
            rw [← TokioExecutorTaskCounts.isEmpty_iff] at hempty
            simp [lifecycleOf, hloaded, hempty]
      · cases hstep

theorem awaits_of_reachable (h : (service taskCapacity).Reachable s) :
    ∀ x ∈ s.waiters, Awaits s x := by
  refine Reachable.invariant (P := fun s => ∀ x ∈ s.waiters, Awaits s x) h (by simp [service]) ?_
  intro s a s' hs ih hstep
  have hkeep : ∀ x ∈ s.waiters, Awaits s' x := by
    intro x hx
    obtain ⟨w, hw⟩ := List.mem_iff_getElem?.mp hx
    exact (ih x hx).step hw hs hstep
  cases effect_of_step hstep with
  | newWaiter async =>
      refine forall_mem_append hkeep ?_
      cases async <;> trivial
  | waiter hx hwstep =>
      exact forall_mem_set hkeep (awaits_of_waiterStep (ih _ (mem_of_getElem? hx)) hwstep)
  | _ => exact hkeep

theorem owed_of_waiting {async : Bool} {since : Nat} (h : NotMissed async since s)
    (hterminated : s.shared.isTerminated = true)
    (hunnotified : ¬ since < (terminationSignal async).generation s.shared) :
    (terminationSignal async).owed s := by
  have hle := h.le
  exact h.owed (by omega) hterminated

theorem termination_not_lost (h : (service taskCapacity).Reachable s)
    (hclosed : load s.shared.lifecycle ≠ .running)
    (hempty : s.shared.taskCounts.queued = 0 ∧ s.shared.taskCounts.running = 0) :
    (∀ since, .parked since ∈ s.waiters → ¬ since < s.shared.notifyAllCalls →
        (terminationSignal false).owed s) ∧
      (∀ since, .suspended since ∈ s.waiters → ¬ since < s.shared.notifyWaitersCalls →
        (terminationSignal true).owed s) ∧
      ((∀ c ∈ s.closers, c.pc = .returned) →
        (∀ τ ∈ s.tasks, ∀ site, finishAt τ site = none) →
        (∀ since, .parked since ∈ s.waiters → since < s.shared.notifyAllCalls) ∧
          ∀ since, .suspended since ∈ s.waiters → since < s.shared.notifyWaitersCalls) := by
  have hterminated : s.shared.isTerminated = true :=
    isTerminated_iff.mpr ⟨hclosed, by rw [hempty.1, hempty.2]⟩
  have hawaits := awaits_of_reachable h
  have hsync : ∀ since, .parked since ∈ s.waiters → ¬ since < s.shared.notifyAllCalls →
      (terminationSignal false).owed s := fun since hx hunnotified =>
    owed_of_waiting (hawaits _ hx) hterminated hunnotified
  have hasync : ∀ since, .suspended since ∈ s.waiters →
      ¬ since < s.shared.notifyWaitersCalls → (terminationSignal true).owed s :=
    fun since hx hunnotified => owed_of_waiting (hawaits _ hx) hterminated hunnotified
  refine ⟨hsync, hasync, fun hclosers hfinish => ⟨fun since hx => ?_, fun since hx => ?_⟩⟩
  · by_contra hunnotified
    exact Signal.not_owed_of_completed rfl hclosers hfinish (hsync since hx hunnotified)
  · by_contra hunnotified
    exact Signal.not_owed_of_completed rfl hclosers hfinish (hasync since hx hunnotified)

end

/-- A waiter parks on an idle service. After the store of a shutdown the
notification is on its way. -/
theorem termination_not_lost_shutdown :
    ∃ s, (service oneSlot).execute ([.callWait false] ++ List.replicate 3 (.waiter 0) ++
        [.callClose .shutdown, .closer 0, .closer 0]) (service oneSlot).start = some s ∧
      s.waiters = [.parked 0] ∧ (terminationSignal false).owed s := by
  have hexecute : ((service oneSlot).execute ([.callWait false] ++
      List.replicate 3 (.waiter 0) ++ [.callClose .shutdown, .closer 0, .closer 0])
        (service oneSlot).start).map (fun s =>
          (s.waiters, load s.shared.lifecycle, s.shared.taskCounts, s.shared.notifyAllCalls)) =
      some ([.parked 0], .shuttingDown, {}, 0) := by decide
  obtain ⟨s, hs, hvalues⟩ := Option.map_eq_some_iff.mp hexecute
  simp only [Prod.mk.injEq] at hvalues
  obtain ⟨hwaiters, hload, hcounts, hcalls⟩ := hvalues
  refine ⟨s, hs, hwaiters, ?_⟩
  refine (termination_not_lost (Reachable.of_execute hs) ?_ ?_).1 0 ?_ ?_
  · simp [hload]
  · simp [hcounts]
  · simp [hwaiters]
  · simp [hcalls]

end TokioExecutorProofs.BlockingWaiters
