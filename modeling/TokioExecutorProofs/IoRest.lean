import TokioExecutorProofs.IoCallbacks
import TokioExecutorProofs.IoRanks
import TokioExecutorProofs.IoWaiters

/-!
The IO service at rest. Once no more calls are made and no future stays pending,
the service goes on for a bounded number of steps, and where it cannot go on,
every accepted future has been dropped and nothing is left in the registry, in the
count or under a lock.
-/

namespace TokioExecutorProofs.IoRest

open ServiceBasics
open IoServiceState
open IoServiceState.TokioIoExecutorServiceState
open ExecutorServiceLifecycleBits
open ExecutorServiceLifecycleBits.ExecutorServiceLifecycle
open IoTask
open IoService
open IoTaskInvariants
open IoActivities
open IoLocks
open IoAccounting
open IoSweeps
open IoCallbacks
open IoSignals
open IoWaiters
open IoRanks
open MutexTables
open ProcessFamilies
open RestingSystems
open TransitionSystems

/-! ### An activity that waits for nothing takes a step -/

section

variable {g : TokioIoExecutorServiceState} {τ : Task} {b : Actor} {t : TaskId}

theorem guardStep_of_ready {d : GuardPc}
    (hfree : ∀ l, GuardPc.waitsFor d l = true → g.locks l = none) :
    ∃ y, guardStep b g τ d = some y := by
  cases d with
  | lock => exact guardStep_of_free rfl (hfree .abortHandles rfl)
  | _ => exact ⟨_, rfl⟩

theorem submitterStep_of_ready
    (hfree : ∀ l, SubmitterPc.waitsFor τ.submitter l = true → g.locks l = none)
    (hover : Position.isOver (.submitter τ.submitter) = false)
    (hsend : τ.submitter = .send → τ.channel ≠ .full) :
    ∃ y, submitterStep t false g τ = some y := by
  cases hpc : τ.submitter <;> rw [hpc] at hfree hover
  case lockSubmission =>
    obtain ⟨g', hg⟩ := acquire_of_free (a := .submitter t) (hfree .submission rfl)
    exact ⟨_, by simp only [submitterStep, hpc, hg, Option.map_some]; rfl⟩
  case registerLock =>
    obtain ⟨g', hg⟩ := acquire_of_free (a := .submitter t) (hfree .abortHandles rfl)
    exact ⟨_, by simp only [submitterStep, hpc, hg, Option.map_some]; rfl⟩
  case rejected | returned | abandoned => cases hover
  case send =>
    have hne := hsend hpc
    cases hchannel : τ.channel <;> simp_all [submitterStep]
  case dropGuard d | abandonGuard d =>
    obtain ⟨y, hy⟩ := guardStep_of_ready (b := .submitter t) (τ := τ) hfree
    exact ⟨_, by simp only [submitterStep, hpc, hy, Option.map_some]; rfl⟩
  all_goals exact ⟨_, by simp only [submitterStep, hpc]; rfl⟩

theorem workerStep_of_ready
    (hfree : ∀ d, τ.worker = .dropGuard d → ∀ l, GuardPc.waitsFor d l = true → g.locks l = none)
    (hposition : WorkerPc.position τ.worker ≠ none) : ∃ y, workerStep t .ok g τ = some y := by
  cases hpc : τ.worker <;> rw [hpc] at hposition
  case absent | idle | finished => exact absurd rfl hposition
  case recv =>
    simp only [workerStep, hpc]
    split <;> exact ⟨_, rfl⟩
  case dropGuard d =>
    obtain ⟨y, hy⟩ := guardStep_of_ready (b := .worker t) (τ := τ) (hfree d hpc)
    exact ⟨_, by simp only [workerStep, hpc, hy, Option.map_some]; rfl⟩
  all_goals exact ⟨_, by simp only [workerStep, hpc]; rfl⟩

theorem closerStep_of_ready {k : Nat} {c : Closer}
    (hfree : ∀ l, Position.waitsFor (.closer c.pc) l = true → g.locks l = none)
    (htake : c.pc ≠ .take) (hsweep : c.pc ≠ .sweep) (hover : c.pc ≠ .returned) :
    ∃ y, closerStep k g c = some y := by
  cases hpc : c.pc <;> rw [hpc] at hfree htake hsweep hover
  case take | sweep | returned => contradiction
  case lockSubmission =>
    obtain ⟨g', hg⟩ := acquire_of_free (a := .closer k) (hfree .submission rfl)
    exact ⟨_, by simp only [closerStep, hpc, hg, Option.map_some]; rfl⟩
  case takeLock =>
    obtain ⟨g', hg⟩ := acquire_of_free (a := .closer k) (hfree .abortHandles rfl)
    exact ⟨_, by simp only [closerStep, hpc, hg, Option.map_some]; rfl⟩
  case store =>
    simp only [closerStep, hpc]
    split <;> exact ⟨_, rfl⟩
  all_goals
    simp only [closerStep, hpc]
    exact ⟨_, rfl⟩

end

/-! ### Where the service cannot go on -/

section

variable {taskCapacity : NonZeroUsize} {s s' : ServiceState} {a : Action} {o : Actor}
  {p : Position} {t : TaskId} {τ τ' : Task}

/-- A stop call that is about to abort a task has its entry. -/
def SweepsCurrent (s : ServiceState) : Prop :=
  ∀ (k : Nat) (c : Closer) (t : TaskId), s.closers[k]? = some c → c.current = some t →
    ∃ τ : Task, s.tasks[t]? = some τ ∧ τ.entry = .aborting k

theorem sweepsCurrent_of_reachable (h : (service taskCapacity).Reachable s) :
    SweepsCurrent s := by
  refine Reachable.invariant h (fun k c t hc => by simp [service] at hc) ?_
  intro s a s' hs ih hnext k c t hc ht
  have hi := marked_of_reachable hs
  cases effect_of_step hnext with
  | newTask =>
      obtain ⟨τ, hτ, hentry⟩ := ih k c t hc ht
      exact ⟨τ, getElem?_append_of_some hτ, hentry⟩
  | newCloser kind =>
      rcases getElem?_append_cases hc with hc | ⟨_, rfl⟩
      · exact ih k c t hc ht
      · cases ht
  | newWaiter | waiter => exact ih k c t hc ht
  | @task t₀ τ₀ _ _ τ' hτ₀ hτstep hnone habort =>
      obtain ⟨τ, hτ, hentry⟩ := ih k c t hc ht
      by_cases htt : t = t₀
      · subst t₀
        obtain rfl := Option.some.inj (hτ.symm.trans hτ₀)
        obtain ⟨hinv, hmarked⟩ := hi τ (mem_of_getElem? hτ)
        refine ⟨τ', getElem?_set_self_of_some hτ, ?_⟩
        cases entryMove_of_taskStep hinv hmarked hτstep with
        | keep hsame => exact hsame.trans hentry
        | register hs _ | refuse hs _ _ =>
            have habsent := hinv.absent.mpr (by rw [hs]; rfl)
            simp [hentry] at habsent
        | remove hbefore => simp [hentry] at hbefore
        | sweepNext => cases hτstep; exact absurd rfl (hnone _)
        | sweepAbort => exact absurd rfl (habort _)
      · exact ⟨τ, (getElem?_set_of_ne htt).trans hτ, hentry⟩
  | @sweepNext k₀ c₀ t₀ τ₀ hc₀ _ _ hτ₀ htaken =>
      rcases getElem?_set_cases hc with ⟨rfl, rfl⟩ | ⟨_, hc⟩
      · dsimp only at ht
        split at ht
        · cases ht
        · rename_i hw
          obtain rfl := Option.some.inj ht
          exact ⟨_, getElem?_set_self_of_some hτ₀, if_neg hw⟩
      · obtain ⟨τ, hτ, hentry⟩ := ih k c t hc ht
        have htt : t ≠ t₀ := by
          rintro rfl
          obtain rfl := Option.some.inj (hτ.symm.trans hτ₀)
          simp [hentry] at htaken
        exact ⟨τ, (getElem?_set_of_ne htt).trans hτ, hentry⟩
  | @sweepAbort k₀ c₀ t₀ τ₀ hc₀ _ hτ₀ haborting =>
      rcases getElem?_set_cases hc with ⟨rfl, rfl⟩ | ⟨hk, hc⟩
      · cases ht
      · obtain ⟨τ, hτ, hentry⟩ := ih k c t hc ht
        have htt : t ≠ t₀ := by
          rintro rfl
          obtain rfl := Option.some.inj (hτ.symm.trans hτ₀)
          exact hk (EntryPc.aborting.inj (hentry.symm.trans haborting))
        exact ⟨τ, (getElem?_set_of_ne htt).trans hτ, hentry⟩
  | @take k₀ c₀ hc₀ hpc =>
      have hold : ∃ c₁ : Closer, s.closers[k]? = some c₁ ∧ c₁.current = some t := by
        rcases getElem?_set_cases hc with ⟨rfl, rfl⟩ | ⟨_, hc⟩
        · exact ⟨c₀, hc₀, ht⟩
        · exact ⟨c, hc, ht⟩
      obtain ⟨c₁, hc₁, ht₁⟩ := hold
      obtain ⟨τ, hτ, hentry⟩ := ih k c₁ t hc₁ ht₁
      refine ⟨takeEntry k₀ τ, by rw [List.getElem?_map, hτ]; rfl, ?_⟩
      rw [takeEntry, if_neg (by simp [hentry]), hentry]
  | @endSweep k₀ c₀ hc₀ hpc hnone =>
      rcases getElem?_set_cases hc with ⟨rfl, rfl⟩ | ⟨_, hc⟩
      · rw [hnone] at ht
        cases ht
      · exact ih k c t hc ht
  | @closer k₀ c₀ g' c' hc₀ hcstep =>
      rcases getElem?_set_cases hc with ⟨rfl, rfl⟩ | ⟨_, hc⟩
      · exact ih _ c₀ t hc₀ ((closerStep_current hcstep).1.symm.trans ht)
      · exact ih k c t hc ht

theorem step_of_closer_ready (h : (service taskCapacity).Reachable s) {k : Nat} {c : Closer}
    (hc : s.closers[k]? = some c) (hover : c.pc ≠ .returned)
    (hfree : ∀ l, Position.waitsFor (.closer c.pc) l = true → s.shared.locks l = none) :
    ∃ a s', driven s a ∧ (service taskCapacity).step a s = some s' := by
  by_cases htake : c.pc = .take
  · exact ⟨.closer k, _, rfl, by simp [service, step, stepCloser, hc, htake]; rfl⟩
  by_cases hpc : c.pc = .sweep
  · cases ht : c.current with
    | none =>
        by_cases hleft : ∃ τ ∈ s.tasks, τ.entry = .taken k
        · obtain ⟨τ, hτ, hentry⟩ := hleft
          obtain ⟨t, ht'⟩ := List.mem_iff_getElem?.mp hτ
          exact ⟨.sweepNext k t, _, rfl, by
            simp [service, step, stepSweepNext, hc, ht', hpc, ht, hentry]; rfl⟩
        · have hleft : ∀ τ ∈ s.tasks, τ.entry ≠ .taken k := fun τ hτ hentry =>
            hleft ⟨τ, hτ, hentry⟩
          exact ⟨.closer k, _, rfl, by
            simp only [service, step, stepCloser, hc, hpc]; exact if_pos ⟨ht, hleft⟩⟩
    | some t =>
        obtain ⟨τ, hτ, hentry⟩ := sweepsCurrent_of_reachable h k c t hc ht
        exact ⟨.sweepAbort k, _, rfl, by
          simp [service, step, stepSweepAbort, hc, ht, hτ, hentry]; rfl⟩
  · obtain ⟨y, hy⟩ := closerStep_of_ready (k := k) hfree htake hpc hover
    refine ⟨.closer k, ?_⟩
    cases hc' : c.pc with
    | take | sweep => contradiction
    | _ => exact ⟨_, rfl, by simp [service, step, stepCloser, hc, hc', hy]; rfl⟩

theorem exists_step_of_position (h : (service taskCapacity).Reachable s)
    (hp : position s o = some p) (hover : Position.isOver p = false)
    (hfree : ∀ l, Position.waitsFor p l = true → s.shared.locks l = none) :
    ∃ a s', driven s a ∧ (service taskCapacity).step a s = some s' := by
  have hi := taskInvariant_of_reachable h
  cases o with
  | submitter t =>
      simp only [position, Option.map_eq_some_iff] at hp
      obtain ⟨τ, hτ, rfl⟩ := hp
      have hsend : τ.submitter = .send → τ.channel ≠ .full := by
        intro hs
        have hplaced := (hi τ (mem_of_getElem? hτ)).placed
        rw [hs] at hplaced
        rcases hplaced with ⟨_, hchannel⟩ | ⟨_, hchannel⟩ <;> simp [hchannel]
      obtain ⟨⟨g', τ'⟩, hstep⟩ := submitterStep_of_ready (t := t) hfree hover hsend
      exact ⟨.submitter t false, _, rfl, onTask_eq_some.mpr ⟨τ, g', τ', hτ, hstep, rfl⟩⟩
  | worker t =>
      simp only [position, Option.bind_eq_some_iff] at hp
      obtain ⟨τ, hτ, hp⟩ := hp
      have hpos : WorkerPc.position τ.worker = some (.worker τ.worker) := by
        cases hw : τ.worker <;> rw [hw] at hp <;> first | rfl | cases hp
      obtain rfl := Option.some.inj (hpos.symm.trans hp)
      have hguard : ∀ d, τ.worker = .dropGuard d → ∀ l, GuardPc.waitsFor d l = true →
          s.shared.locks l = none := fun d hw l hl => hfree l (by rw [hw]; exact hl)
      obtain ⟨⟨g', τ'⟩, hstep⟩ := workerStep_of_ready (t := t) hguard (by simp [hpos])
      exact ⟨.worker t .ok, _, rfl, onTask_eq_some.mpr ⟨τ, g', τ', hτ, hstep, rfl⟩⟩
  | canceller t j =>
      simp only [position, Option.bind_eq_some_iff, Option.map_eq_some_iff] at hp
      obtain ⟨τ, hτ, c, hc, rfl⟩ := hp
      obtain ⟨τ', hcancel⟩ : ∃ τ', cancellerStep j τ = some τ' := by
        cases c with
        | returned => cases hover
        | isFinished | abort => exact ⟨_, by simp only [cancellerStep, hc, cancelStep]; rfl⟩
      exact ⟨.canceller t j, _, rfl, by
        simp [service, step, ServiceState.onTask, hτ, hcancel]; rfl⟩
  | closer k =>
      simp only [position, Option.map_eq_some_iff] at hp
      obtain ⟨c, hc, rfl⟩ := hp
      refine step_of_closer_ready h hc ?_ hfree
      intro hreturned
      rw [hreturned] at hover
      cases hover
  | waiter w =>
      simp only [position, Option.map_eq_some_iff] at hp
      obtain ⟨x, hx, rfl⟩ := hp
      obtain ⟨x', hstep⟩ : ∃ x', waiterStep s.shared x = some x' := by
        cases x with
        | enable | load => exact ⟨_, rfl⟩
        | getActive =>
            simp only [waiterStep]
            split <;> exact ⟨_, rfl⟩
        | suspended | awaited => cases hover
      exact ⟨.waiter w, _, rfl, by simp [service, step, stepWaiter, hx, hstep]; rfl⟩

/-- The submission lock is taken before the registry lock. -/
def level : Lock → Nat
  | .submission => 0
  | .abortHandles => 1

theorem level_lt_of_guard {d : GuardPc} {l l' : Lock} (hholds : GuardPc.holds d l = true)
    (hwaits : GuardPc.waitsFor d l' = true) : level l < level l' := by
  cases d <;> cases l' <;> cases hwaits
  cases l <;> cases hholds

theorem level_lt_of_position {l l' : Lock} (hholds : Position.holds p l = true)
    (hwaits : Position.waitsFor p l' = true) : level l < level l' := by
  cases p with
  | submitter pc =>
      cases pc with
      | dropGuard d | abandonGuard d => exact level_lt_of_guard hholds hwaits
      | _ => cases l' <;> cases hwaits <;> cases l <;> first | decide | cases hholds
  | worker pc =>
      cases pc with
      | dropGuard d => exact level_lt_of_guard hholds hwaits
      | _ => cases hwaits
  | closer pc => cases pc <;> cases l' <;> cases hwaits <;> cases l <;> cases hholds
  | canceller | waiter => cases hwaits

theorem not_over_of_holds {l : Lock} (hholds : Position.holds p l = true) :
    Position.isOver p = false := by
  cases p with
  | submitter pc => cases pc <;> first | rfl | cases hholds
  | closer pc => cases pc <;> first | rfl | cases hholds
  | worker pc => rfl
  | canceller | waiter => cases hholds

theorem locks_free_of_atRest (h : (service taskCapacity).Reachable s)
    (hrest : AtRest (service taskCapacity) driven s) (l : Lock) : s.shared.locks l = none := by
  have hagrees := agrees_of_reachable h
  have hordered : ∀ o l l', s.shared.locks l = some o →
      (∃ p, position s o = some p ∧ Position.waitsFor p l' = true) → level l < level l' := by
    rintro o l l' howner ⟨p, hp, hwaits⟩
    obtain ⟨p', hp', hholds⟩ := holds_iff_position.mp ((hagrees o l).mp howner)
    obtain rfl := Option.some.inj (hp'.symm.trans hp)
    exact level_lt_of_position hholds hwaits
  refine locks_eq_none ⟨1, fun l => by cases l <;> decide⟩ hordered ?_ l
  intro o hfree l howner
  obtain ⟨p, hp, hholds⟩ := holds_iff_position.mp ((hagrees o l).mp howner)
  obtain ⟨a, s', hdriven, hnext⟩ := exists_step_of_position h hp (not_over_of_holds hholds)
    fun l hl => hfree l ⟨p, hp, hl⟩
  rw [hrest a hdriven] at hnext
  cases hnext

theorem over_of_atRest (h : (service taskCapacity).Reachable s)
    (hrest : AtRest (service taskCapacity) driven s) (hp : position s o = some p) :
    Position.isOver p = true := by
  by_contra hover
  obtain ⟨a, s', hdriven, hnext⟩ := exists_step_of_position h hp (by simpa using hover)
    fun l _ => locks_free_of_atRest h hrest l
  rw [hrest a hdriven] at hnext
  cases hnext

theorem task_of_atRest (h : (service taskCapacity).Reachable s)
    (hrest : AtRest (service taskCapacity) driven s) (hτ : s.tasks[t]? = some τ) :
    (∃ reason, τ.submitter = .rejected reason) ∧ τ.worker = .absent ∨
      (τ.submitter = .returned ∨ τ.submitter = .abandoned) ∧ τ.worker = .finished := by
  have hplaced := (taskInvariant_of_reachable h τ (mem_of_getElem? hτ)).placed
  have hsubmitter : Position.isOver (.submitter τ.submitter) = true :=
    over_of_atRest (o := .submitter t) h hrest (by simp [position, hτ])
  -- Tokio polls a task whose payload has been sent, or whose channel is closed.
  have hidle : ∀ received, (received = false → τ.channel ≠ .empty) →
      τ.worker ≠ .idle received := by
    intro received hchannel hw
    have hnews : hasNews τ = true := by
      cases received with
      | true => simp [hasNews, hw]
      | false => simp [hasNews, hchannel rfl]
    have hdriven : driven s (.pickUp t) := by simp [driven, isDriven, advances, hτ, hnews]
    have hnext := hrest _ hdriven
    simp [service, step, ServiceState.onTask, hτ, pickUpStep, hw] at hnext
  have hposition : WorkerPc.position τ.worker = none := by
    by_contra hne
    obtain ⟨p, hp⟩ := Option.ne_none_iff_exists'.mp hne
    have hover : Position.isOver p = true :=
      over_of_atRest (o := .worker t) h hrest (by simp [position, hτ, hp])
    cases hw : τ.worker <;> rw [hw] at hp <;> cases hp <;> cases hover
  have hchannel : submitterPhase τ.submitter ≠ .early → τ.channel ≠ .empty := by
    intro hphase hempty
    rw [hempty] at hplaced
    cases hs : τ.submitter <;> rw [hs] at hsubmitter hplaced hphase <;> try cases hsubmitter
    case rejected => exact hphase rfl
    case returned => rcases hplaced with ⟨_, heq⟩ | ⟨_, _, heq⟩ <;> cases heq
    case abandoned => cases hplaced.2
  have hfinished : submitterPhase τ.submitter ≠ .early → τ.worker = .finished := by
    intro hphase
    cases hw : τ.worker with
    | finished => rfl
    | idle received => exact absurd hw (hidle received fun _ => hchannel hphase)
    | absent =>
        rw [hw] at hplaced
        cases hs : submitterPhase τ.submitter <;> simp_all [consistent, workerPhase]
    | _ => simp [hw, WorkerPc.position] at hposition
  cases hs : τ.submitter <;> rw [hs] at hsubmitter hplaced hfinished <;> try cases hsubmitter
  case rejected reason => exact .inl ⟨⟨reason, rfl⟩, worker_of_absent hplaced.1⟩
  case returned => exact .inr ⟨.inl rfl, hfinished (by decide)⟩
  case abandoned => exact .inr ⟨.inr rfl, hfinished (by decide)⟩

theorem closer_of_atRest (h : (service taskCapacity).Reachable s)
    (hrest : AtRest (service taskCapacity) driven s) {c : Closer} (hc : c ∈ s.closers) :
    c.pc = .returned := by
  obtain ⟨k, hk⟩ := List.mem_iff_getElem?.mp hc
  have hover : Position.isOver (.closer c.pc) = true :=
    over_of_atRest (o := .closer k) h hrest (by simp [position, hk])
  cases hpc : c.pc <;> rw [hpc] at hover <;> first | rfl | cases hover

/-- What is left of a task at rest. -/
structure RestedTask (τ : Task) : Prop where
  submitted : (∃ reason, τ.submitter = .rejected reason) ∧ τ.worker = .absent ∨
    (τ.submitter = .returned ∨ τ.submitter = .abandoned) ∧ τ.worker = .finished
  cancelled : ∀ c ∈ τ.cancels, ∃ won, c = .returned won
  unregistered : τ.entry = .absent ∨ τ.entry = .gone
  released : isAccepted τ.submitter = true → τ.futureDropped = true ∧ τ.decrements = 1

theorem stage_of_submitted (h : (τ.submitter = .returned ∨ τ.submitter = .abandoned) ∧
    τ.worker = .finished) : stage τ = .destroyed := by
  obtain ⟨hs | hs, hw⟩ := h <;>
    simp [stage, hs, hw, submitterPhase, workerPhase, stageOf, workerStage]

theorem restedTask_of_atRest (h : (service taskCapacity).Reachable s)
    (hrest : AtRest (service taskCapacity) driven s) (hτ : s.tasks[t]? = some τ) :
    RestedTask τ := by
  have hi := taskInvariant_of_reachable h τ (mem_of_getElem? hτ)
  refine ⟨task_of_atRest h hrest hτ, fun c hc => ?_, ?_, fun hacc => ?_⟩
  · obtain ⟨j, hj⟩ := List.mem_iff_getElem?.mp hc
    have hover : Position.isOver (.canceller c) = true :=
      over_of_atRest (o := .canceller t j) h hrest (by simp [position, hτ, hj])
    cases c with
    | returned won => exact ⟨won, rfl⟩
    | isFinished | abort => cases hover
  · have howned := owned_of_reachable h t τ hτ
    cases hentry : τ.entry with
    | absent => exact .inl rfl
    | gone => exact .inr rfl
    | registered =>
        have hpast := hi.registered hentry
        rcases task_of_atRest h hrest hτ with ⟨⟨reason, hs⟩, _⟩ | hgone
        · have habsent := hi.absent.mpr (by rw [hs]; rfl)
          simp [hentry] at habsent
        · rw [stage_of_submitted hgone] at hpast
          cases hpast
    | taken k =>
        rw [hentry] at howned
        obtain ⟨c, hk, hpc⟩ := howned
        simp [closer_of_atRest h hrest (mem_of_getElem? hk)] at hpc
    | aborting k =>
        rw [hentry] at howned
        obtain ⟨c, hk, hpc, _⟩ := howned
        simp [closer_of_atRest h hrest (mem_of_getElem? hk)] at hpc
  · rcases task_of_atRest h hrest hτ with ⟨⟨reason, hs⟩, _⟩ | hgone
    · simp [hs, isAccepted] at hacc
    · have hfuture := hi.future
      have hdecrements := hi.decrements
      rw [stage_of_submitted hgone] at hfuture hdecrements
      exact ⟨hfuture, hdecrements⟩

theorem RestedTask.stage_ne (h : RestedTask τ) (d : GuardPc) : stage τ ≠ .droppingGuard d := by
  rcases h.submitted with ⟨⟨reason, hs⟩, _⟩ | hgone
  · simp [stage, hs, submitterPhase, stageOf]
  · simp [stage_of_submitted hgone]

theorem waiter_of_atRest (h : (service taskCapacity).Reachable s)
    (hrest : AtRest (service taskCapacity) driven s) (hclosed : ∀ c ∈ s.closers, c.pc = .returned)
    (htasks : ∀ τ ∈ s.tasks, RestedTask τ) (hidle : s.shared.activeTasks = 0) {x : Waiter}
    (hx : x ∈ s.waiters) :
    x = .awaited ∨ load s.shared.lifecycle = running ∧ ∃ since, x = .suspended since := by
  obtain ⟨w, hw⟩ := List.mem_iff_getElem?.mp hx
  have hover : Position.isOver (.waiter x) = true :=
    over_of_atRest (o := .waiter w) h hrest (by simp [position, hw])
  have hguards : ∀ τ ∈ s.tasks, ∀ d, stage τ ≠ .droppingGuard d :=
    fun τ hτ => (htasks τ hτ).stage_ne
  cases x with
  | awaited => exact .inl rfl
  | suspended since =>
      refine .inr ⟨?_, since, rfl⟩
      by_contra hne
      have hmissed : NotMissed since s := awaits_of_reachable h _ hx
      have hunnotified : ¬ since < s.shared.notifyWaitersCalls := by
        intro hlt
        have hstep : (service taskCapacity).step (.waiter w) s = none := hrest _ rfl
        simp [service, step, stepWaiter, hw, waiterStep, hlt] at hstep
      have hle : since ≤ s.shared.notifyWaitersCalls := hmissed.le
      have howed := hmissed.owed (Nat.le_antisymm (Nat.not_lt.mp hunnotified) hle)
        (isTerminated_iff.mpr ⟨hne, hidle⟩)
      exact Signal.not_owed_of_completed rfl hclosed hguards howed
  | enable | load | getActive => cases hover

/-- All that has been asked of the service is done. -/
structure Rested (s : ServiceState) : Prop where
  unlocked : ∀ l, s.shared.locks l = none
  tasks : ∀ τ ∈ s.tasks, RestedTask τ
  closed : ∀ c ∈ s.closers, c.pc = .returned
  idle : s.shared.activeTasks = 0
  waited : ∀ x ∈ s.waiters, x = .awaited ∨
    load s.shared.lifecycle = running ∧ ∃ since, x = .suspended since

theorem rested_of_atRest (h : (service taskCapacity).Reachable s)
    (hrest : AtRest (service taskCapacity) driven s) : Rested s := by
  have htasks : ∀ τ ∈ s.tasks, RestedTask τ := by
    intro τ hτ
    obtain ⟨t, ht⟩ := List.mem_iff_getElem?.mp hτ
    exact restedTask_of_atRest h hrest ht
  have hclosed : ∀ c ∈ s.closers, c.pc = .returned := fun c hc => closer_of_atRest h hrest hc
  have hidle : s.shared.activeTasks = 0 := by
    rw [(conserved_of_reachable h).active, countP_eq_zero_iff]
    intro τ hτ
    cases hacc : isAccepted τ.submitter with
    | false => simp [isActive, hacc]
    | true => simp [isActive, ((htasks τ hτ).released hacc).2]
  exact ⟨locks_free_of_atRest h hrest, htasks, hclosed, hidle,
    fun x hx => waiter_of_atRest h hrest hclosed htasks hidle hx⟩

theorem lowers_driven (taskCapacity : NonZeroUsize) :
    Lowers (service taskCapacity) driven rank :=
  (lowers taskCapacity).mono fun _ _ => advancing_of_driven

/-- From every reachable state the service takes a bounded number of steps, in any
order, as long as nobody calls it and no future stays pending; and wherever it
cannot go on, everything that was asked of it is done. -/
theorem io_service_comes_to_rest (h : (service taskCapacity).Reachable s) :
    (∀ n s', StepsUnder (service taskCapacity) advancing n s s' → n ≤ rank s) ∧
      (∃ s', (service taskCapacity).RunUnder driven s s' ∧
        AtRest (service taskCapacity) driven s') ∧
      ∀ s', (service taskCapacity).Run s s' →
        AtRest (service taskCapacity) driven s' → Rested s' := by
  refine ⟨fun n s' hrun => ?_, (lowers_driven taskCapacity).exists_atRest h,
    fun s' hrun hrest => ?_⟩
  · have := (lowers taskCapacity).length_add_le h hrun
    omega
  · exact rested_of_atRest (Reachable.run h hrun) hrest

end

/-- A stop is called while a delivered future has not been polled and a waiter is
suspended. -/
theorem io_service_comes_to_rest_stop : ∃ s s',
    (service oneSlot).execute ([.callWait] ++ List.replicate 3 (.waiter 0) ++
      .callSpawn :: submission 0 ++ [.callClose .stop]) (service oneSlot).start = some s ∧
    (service oneSlot).RunUnder driven s s' ∧ Rested s' := by
  have hexecute : ((service oneSlot).execute ([.callWait] ++ List.replicate 3 (.waiter 0) ++
      .callSpawn :: submission 0 ++ [.callClose .stop]) (service oneSlot).start).isSome =
        true := rfl
  obtain ⟨s, hs⟩ := Option.isSome_iff_exists.mp hexecute
  obtain ⟨_, ⟨s', hrun, hrest⟩, hrested⟩ := io_service_comes_to_rest (Reachable.of_execute hs)
  exact ⟨s, s', hs, hrun, hrested s' (RunUnder.run hrun) hrest⟩

end TokioExecutorProofs.IoRest
