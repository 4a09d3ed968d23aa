import TokioExecutorProofs.IoLocks

/-!
Code of the user runs under no lock of the IO service, whichever activities its
thread has interrupted: no call from a waker or from the destructor of a future
waits for a lock of its own thread.
-/

namespace TokioExecutorProofs.IoCallbacks

open ServiceBasics
open IoServiceState
open IoServiceState.TokioIoExecutorServiceState
open IoTask
open IoService
open IoActivities
open IoLocks
open MutexTables
open CallStacks
open ProcessFamilies
open TransitionSystems

/-! ### Positions that wait for a lock -/

def GuardPc.waitsFor : GuardPc → Lock → Bool
  | .lock, .abortHandles => true
  | _, _ => false

def SubmitterPc.waitsFor : SubmitterPc → Lock → Bool
  | .lockSubmission, .submission | .registerLock, .abortHandles => true
  | .dropGuard d, l | .abandonGuard d, l => GuardPc.waitsFor d l
  | _, _ => false

def Position.waitsFor : Position → Lock → Bool
  | .submitter pc, l => SubmitterPc.waitsFor pc l
  | .worker (.dropGuard d), l => GuardPc.waitsFor d l
  | .closer .lockSubmission, .submission | .closer .takeLock, .abortHandles => true
  | _, _ => false

section

variable {g : TokioIoExecutorServiceState} {τ : Task} {p : Position} {l : Lock}

theorem not_holds_of_runsUserCode (h : Position.runsUserCode p = true) :
    Position.holds p l = false := by
  have hguard : ∀ d, GuardPc.runsUserCode d = true → GuardPc.holds d l = false := by
    intro d hd
    cases d <;> first | rfl | cases hd
  cases p with
  | submitter pc =>
      cases pc with
      | dropGuard d | abandonGuard d => exact hguard d h
      | _ => first | rfl | cases h
  | worker pc =>
      cases pc with
      | dropGuard d => exact hguard d h
      | _ => rfl
  | closer pc => cases pc <;> first | rfl | cases h
  | canceller | waiter => rfl

theorem not_holds_of_waitsFor (h : Position.waitsFor p l = true) :
    Position.holds p l = false := by
  have hguard : ∀ d, GuardPc.waitsFor d l = true → GuardPc.holds d l = false := by
    intro d hd
    cases d <;> first | rfl | cases hd
  cases p with
  | submitter pc =>
      cases pc with
      | dropGuard d | abandonGuard d => exact hguard d h
      | _ => cases l <;> first | rfl | cases h
  | worker pc =>
      cases pc with
      | dropGuard d => exact hguard d h
      | _ => rfl
  | closer pc => cases pc <;> cases l <;> first | rfl | cases h
  | canceller | waiter => rfl

theorem acquire_of_free {a : Actor} (hfree : g.locks l = none) :
    ∃ g', g.acquire l a = some g' :=
  ⟨_, Option.map_eq_some_iff.mpr ⟨_, acquire_eq_some.mpr ⟨hfree, rfl⟩, rfl⟩⟩

theorem guardStep_of_free {a : Actor} {d : GuardPc} (hd : GuardPc.waitsFor d l = true)
    (hfree : g.locks l = none) : ∃ r, guardStep a g τ d = some r := by
  cases d <;> cases l <;> cases hd
  obtain ⟨g', hg⟩ := acquire_of_free (a := a) hfree
  exact ⟨_, by rw [guardStep, hg]; rfl⟩

end

section

variable {taskCapacity : NonZeroUsize} {s : ServiceState} {o : Actor} {l : Lock}

theorem step_of_waitsFor {p : Position} (hp : position s o = some p)
    (hwaits : Position.waitsFor p l = true) (hfree : s.shared.locks l = none) :
    ∃ a s', actor s a = o ∧ (service taskCapacity).step a s = some s' := by
  have hacquire := fun a => acquire_of_free (a := a) hfree
  cases o with
  | submitter t =>
      simp only [position, Option.map_eq_some_iff] at hp
      obtain ⟨τ, hτ, rfl⟩ := hp
      suffices hstep : ∃ r, submitterStep t false s.shared τ = some r by
        obtain ⟨⟨g', τ'⟩, hstep⟩ := hstep
        exact ⟨.submitter t false, _, rfl, onTask_eq_some.mpr ⟨τ, g', τ', hτ, hstep, rfl⟩⟩
      obtain ⟨g', hg⟩ := hacquire (.submitter t)
      have hguard := fun d hd => guardStep_of_free (a := .submitter t) (τ := τ) (d := d) hd hfree
      cases hs : τ.submitter with
      | dropGuard d | abandonGuard d =>
          rw [hs] at hwaits
          obtain ⟨r, hr⟩ := hguard d hwaits
          simp [submitterStep, hs, hr]
      | _ =>
          rw [hs] at hwaits
          cases l <;> simp_all [Position.waitsFor, SubmitterPc.waitsFor, submitterStep]
  | worker t =>
      simp only [position, Option.bind_eq_some_iff] at hp
      obtain ⟨τ, hτ, hp⟩ := hp
      suffices hstep : ∃ r, workerStep t .pending s.shared τ = some r by
        obtain ⟨⟨g', τ'⟩, hstep⟩ := hstep
        exact ⟨.worker t .pending, _, rfl, onTask_eq_some.mpr ⟨τ, g', τ', hτ, hstep, rfl⟩⟩
      cases hw : τ.worker with
      | absent | idle | finished => simp [hw, WorkerPc.position] at hp
      | recv | polling | dropReceiver | dropFuture | complete =>
          rw [hw] at hp
          obtain rfl := Option.some.inj hp
          cases hwaits
      | dropGuard d =>
          rw [hw] at hp
          obtain rfl := Option.some.inj hp
          obtain ⟨r, hr⟩ := guardStep_of_free (a := .worker t) (τ := τ) hwaits hfree
          simp [workerStep, hw, hr]
  | closer k =>
      simp only [position, Option.map_eq_some_iff] at hp
      obtain ⟨c, hc, rfl⟩ := hp
      obtain ⟨g', hg⟩ := hacquire (.closer k)
      refine ⟨.closer k, ?_⟩
      cases hpc : c.pc <;> rw [hpc] at hwaits <;> cases l <;> cases hwaits
      · exact ⟨_, rfl, by simp [service, step, stepCloser, closerStep, hc, hpc, hg]; rfl⟩
      · exact ⟨_, rfl, by simp [service, step, stepCloser, closerStep, hc, hpc, hg]; rfl⟩
  | canceller t j =>
      simp only [position, Option.bind_eq_some_iff, Option.map_eq_some_iff] at hp
      obtain ⟨_, _, _, _, rfl⟩ := hp
      cases hwaits
  | waiter w =>
      simp only [position, Option.map_eq_some_iff] at hp
      obtain ⟨_, _, rfl⟩ := hp
      cases hwaits

theorem not_owner_of_position {p : Position} (h : (service taskCapacity).Reachable s)
    (hp : position s o = some p) (hfree : Position.holds p l = false) :
    s.shared.locks l ≠ some o := by
  rw [ne_eq, agrees_of_reachable h o l, holds_iff_position, hp]
  rintro ⟨_, heq, hholds⟩
  rw [← Option.some.inj heq, hfree] at hholds
  cases hholds

theorem not_owner_of_inUserCode (h : (service taskCapacity).Reachable s)
    (huser : activities.inUserCode s o = true) (l : Lock) : s.shared.locks l ≠ some o := by
  obtain ⟨p, hp, hcode⟩ := (Option.any_eq_true _ _).mp huser
  exact not_owner_of_position h hp (not_holds_of_runsUserCode hcode)

/-- A thread that runs code of the user holds no lock, and a call on such a
thread never waits for a lock of its own thread. -/
theorem io_callbacks_hold_no_lock {x : ThreadedState ServiceState Actor}
    (h : (activities.threaded (service taskCapacity)).Reachable x) {i : Nat} {o : Actor}
    {stack : List Actor} (hi : x.threads[i]? = some (o :: stack)) :
    (activities.inUserCode x.state o = true →
      ∀ o' ∈ o :: stack, ∀ l, x.state.shared.locks l ≠ some o') ∧
    ∀ (p : Position) (l : Lock), position x.state o = some p → Position.waitsFor p l = true →
      (∃ a s', actor x.state a = o ∧ (service taskCapacity).step a x.state = some s') ∨
        ∃ o', x.state.shared.locks l = some o' ∧ o' ∉ o :: stack := by
  have hsteps := onSteps_of_reachable h
  have hreachable := reachable_of_threaded hsteps
  have hnested := nested_of_reachable (framed taskCapacity) hsteps
  have hfree := fun o ho => not_owner_of_inUserCode (o := o) hreachable ho
  refine ⟨fun htop => hnested.forall_of_inUserCode hi htop hfree, fun p l hp hwaits => ?_⟩
  cases hl : x.state.shared.locks l with
  | none => exact .inl (step_of_waitsFor hp hwaits hl)
  | some o' =>
      refine .inr ⟨o', rfl, fun hmem => ?_⟩
      rcases List.mem_cons.mp hmem with rfl | hmem
      · exact not_owner_of_position hreachable hp (not_holds_of_waitsFor hwaits) hl
      · exact hfree o' (hnested.below i o stack hi o' hmem) l hl

end

/-- A capacity waker runs inside `shutdown()`. -/
theorem io_callbacks_hold_no_lock_shutdown : ∃ x,
    (activities.threaded (service oneSlot)).execute
      (.newThread :: .call 0 (.callClose .shutdown) :: List.replicate 4 (.run 0 (.closer 0)))
      (activities.threaded (service oneSlot)).start = some x ∧
    x.threads[0]? = some [.closer 0] ∧ ∀ l, x.state.shared.locks l ≠ some (.closer 0) := by
  have hexecute : ((activities.threaded (service oneSlot)).execute
      (.newThread :: .call 0 (.callClose .shutdown) :: List.replicate 4 (.run 0 (.closer 0)))
      (activities.threaded (service oneSlot)).start).map
        (fun x => (x.threads, activities.inUserCode x.state (.closer 0))) =
      some ([[.closer 0]], true) := rfl
  obtain ⟨x, hx, hview⟩ := Option.map_eq_some_iff.mp hexecute
  simp only [Prod.mk.injEq] at hview
  have hi : x.threads[0]? = some [.closer 0] := by rw [hview.1]; rfl
  have hfree := (io_callbacks_hold_no_lock (Reachable.of_execute hx) hi).1 hview.2
  exact ⟨x, hx, hi, hfree _ List.mem_cons_self⟩

end TokioExecutorProofs.IoCallbacks
