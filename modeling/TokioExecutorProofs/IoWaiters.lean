import TokioExecutorProofs.IoSignals

/-!
Waiting for the termination of the IO service. A waiter that has found the service
not terminated is woken by whoever terminates it.
-/

namespace TokioExecutorProofs.IoWaiters

open ServiceBasics
open IoServiceState
open IoServiceState.TokioIoExecutorServiceState
open ExecutorServiceLifecycleBits
open ExecutorServiceLifecycleBits.ExecutorServiceLifecycle
open IoTask
open IoService
open IoTaskInvariants
open IoTermination
open IoSignals
open ProcessFamilies
open TransitionSystems
open SignalledConditions

/-- The waiter has missed no notification. -/
abbrev NotMissed (since : Nat) (s : ServiceState) : Prop :=
  Covered (fun s => terminationSignal.condition s.shared) terminationSignal.owed
    (fun s => terminationSignal.generation s.shared) since s

/-- What a waiter knows at its position. -/
def Awaits (s : ServiceState) : Waiter → Prop
  | .enable => True
  | .load since => since ≤ s.shared.notifyWaitersCalls
  | .getActive since loaded => since ≤ s.shared.notifyWaitersCalls ∧ loaded ≠ terminated ∧
      (loaded = running → NotMissed since s) ∧
      (loaded ≠ running → load s.shared.lifecycle ≠ running)
  | .suspended since => NotMissed since s
  | .awaited => s.shared.isTerminated = true

section

variable {taskCapacity : NonZeroUsize} {s s' : ServiceState} {a : Action}

theorem not_terminated_of_running {g : TokioIoExecutorServiceState}
    (h : load g.lifecycle = running) : ¬ g.isTerminated = true := by
  rw [isTerminated_iff]
  exact fun hterminated => hterminated.1 h

theorem lifecycleOf_eq_terminated {loaded : ExecutorServiceLifecycle} {activeTasks : Nat}
    (hne : loaded ≠ terminated) :
    lifecycleOf loaded activeTasks = terminated ↔ loaded ≠ running ∧ activeTasks = 0 := by
  unfold lifecycleOf
  split <;> simp_all

theorem Awaits.step {x : Waiter} (h : Awaits s x) (hs : (service taskCapacity).Reachable s)
    (hstep : (service taskCapacity).step a s = some s') : Awaits s' x := by
  have hsignalled := terminationSignal.signalled taskCapacity
  have hmono : s.shared.notifyWaitersCalls ≤ s'.shared.notifyWaitersCalls :=
    hsignalled.mono hs hstep
  have hone : (service taskCapacity).Run s s' := RunUnder.tail (runUnder_refl s) trivial hstep
  cases x with
  | enable => trivial
  | load since => exact le_trans h hmono
  | getActive since loaded =>
      obtain ⟨hle, hne, hrunning, hclosed⟩ := h
      exact ⟨hle.trans hmono, hne, fun hloaded => (hrunning hloaded).step hsignalled hs hstep,
        fun hloaded => (lifecycleView taskCapacity).not_running_of_run hs hone (hclosed hloaded)⟩
  | suspended since => exact Covered.step h hsignalled hs hstep
  | awaited => exact isTerminated_of_run hs h hone

theorem awaits_of_waiterStep {w : Nat} {x x' : Waiter} (hs : (service taskCapacity).Reachable s)
    (h : Awaits s x) (hstep : waiterStep s.shared x = some x') :
    Awaits { s with waiters := s.waiters.set w x' } x' := by
  cases x with
  | enable =>
      obtain rfl := Option.some.inj hstep
      exact le_rfl
  | load since =>
      obtain rfl := Option.some.inj hstep
      exact ⟨h, (lifecycleView taskCapacity).load_ne_terminated hs, fun hrunning =>
        covered_of_not h (not_terminated_of_running hrunning), id⟩
  | getActive since loaded =>
      obtain ⟨hle, hne, hrunning, hclosed⟩ := h
      simp only [waiterStep, lifecycleOf_eq_terminated hne] at hstep
      split at hstep
      · rename_i hresult
        obtain rfl := Option.some.inj hstep
        exact isTerminated_iff.mpr ⟨hclosed hresult.1, hresult.2⟩
      · rename_i hresult
        obtain rfl := Option.some.inj hstep
        by_cases hloaded : loaded = running
        · exact ⟨(hrunning hloaded).le, (hrunning hloaded).owed⟩
        · exact covered_of_not hle fun hterminated =>
            hresult ⟨hloaded, (isTerminated_iff.mp hterminated).2⟩
  | suspended since =>
      simp only [waiterStep] at hstep
      split at hstep <;> cases hstep
      trivial
  | awaited => cases hstep

theorem awaits_of_reachable (h : (service taskCapacity).Reachable s) :
    ∀ x ∈ s.waiters, Awaits s x := by
  refine Reachable.invariant (P := fun s => ∀ x ∈ s.waiters, Awaits s x) h (by simp [service]) ?_
  intro s a s' hs ih hnext
  have hkeep : ∀ x ∈ s.waiters, Awaits s' x := fun x hx => (ih x hx).step hs hnext
  cases effect_of_step hnext with
  | newWaiter => exact forall_mem_append hkeep trivial
  | waiter hx hstep =>
      exact forall_mem_set hkeep (awaits_of_waiterStep hs (ih _ (mem_of_getElem? hx)) hstep)
  | _ => exact hkeep

theorem await_termination_not_lost (h : (service taskCapacity).Reachable s) :
    (load s.shared.lifecycle ≠ running → s.shared.activeTasks = 0 →
      (∀ since, .suspended since ∈ s.waiters → ¬ since < s.shared.notifyWaitersCalls →
        terminationSignal.owed s) ∧
      ((∀ c ∈ s.closers, c.pc = .returned) → (∀ τ ∈ s.tasks, ∀ d, stage τ ≠ .droppingGuard d) →
        ∀ since, .suspended since ∈ s.waiters → since < s.shared.notifyWaitersCalls)) ∧
    (.awaited ∈ s.waiters → s.shared.isTerminated = true) := by
  have hawaits := awaits_of_reachable h
  refine ⟨fun hclosed hzero => ?_, fun hx => hawaits _ hx⟩
  have hterminated : s.shared.isTerminated = true := isTerminated_iff.mpr ⟨hclosed, hzero⟩
  have howed : ∀ since, .suspended since ∈ s.waiters → ¬ since < s.shared.notifyWaitersCalls →
      terminationSignal.owed s := by
    intro since hx hunnotified
    have hmissed : NotMissed since s := hawaits _ hx
    have hle : since ≤ s.shared.notifyWaitersCalls := hmissed.le
    refine hmissed.owed ?_ hterminated
    exact Nat.le_antisymm (Nat.not_lt.mp hunnotified) hle
  refine ⟨howed, fun hclosers hguards since hx => ?_⟩
  by_contra hunnotified
  exact Signal.not_owed_of_completed rfl hclosers hguards
    (howed since hx hunnotified)

end

/-- A waiter is suspended on an idle service. After the store of a stop the
notification is on its way. -/
theorem await_termination_not_lost_stop :
    ∃ s, (service oneSlot).execute ([.callWait] ++ List.replicate 3 (.waiter 0) ++
        [.callClose .stop, .closer 0, .closer 0]) (service oneSlot).start = some s ∧
      s.waiters = [.suspended 0] ∧ terminationSignal.owed s := by
  have hexecute : ((service oneSlot).execute ([.callWait] ++ List.replicate 3 (.waiter 0) ++
      [.callClose .stop, .closer 0, .closer 0]) (service oneSlot).start).map (fun s =>
        (s.waiters, load s.shared.lifecycle, s.shared.activeTasks,
          s.shared.notifyWaitersCalls)) =
      some ([.suspended 0], .stopping, 0, 0) := by decide
  obtain ⟨s, hs, hvalues⟩ := Option.map_eq_some_iff.mp hexecute
  simp only [Prod.mk.injEq] at hvalues
  obtain ⟨hwaiters, hload, hcount, hcalls⟩ := hvalues
  refine ⟨s, hs, hwaiters, ?_⟩
  refine ((await_termination_not_lost (Reachable.of_execute hs)).1 ?_ hcount).1 0 ?_ ?_
  · simp [hload]
  · simp [hwaiters]
  · simp [hcalls]

end TokioExecutorProofs.IoWaiters
