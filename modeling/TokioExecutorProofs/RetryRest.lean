import TokioExecutorProofs.BlockingRetry
import TokioExecutorProofs.BlockingThreads
import TokioExecutorProofs.IoRetry
import TokioExecutorProofs.RetryThreads

/-!
The retry loop of the user guide ends on both services. Producers may compete for
the slots in any order; as long as the tasks that are in go on, each of them gets
in, or finds the service closed.
-/

namespace TokioExecutorProofs.RetryRest

open ServiceBasics
open BlockingActivities (activities)
open BlockingThreads (threads calm)
open BoundedAdmission
open CallStacks
open CapacityRetry
open RestingSystems
open RestingThreads
open RetryBudgets
open RetryProtocols
open RetryProtocols.RefusingService
open RetryThreads
open TransitionSystems

theorem closed_of_shutdown {State Action : Type*} {sys : TransitionSystem State Action}
    {view : AdmissionView State Action} {s : State} (hview : view.Implements sys)
    (h : sys.Reachable s) {t : TaskId} :
    view.answer t s = some (.rejected .shutdown) → (view.admission s).closed = true := by
  refine Reachable.invariant (P := fun s => view.answer t s = some (.rejected .shutdown) →
    (view.admission s).closed = true) h ?_ ?_
  · rw [hview.noAnswer]
    simp
  intro s a s' hs ih hstep
  cases hview.move hs hstep with
  | silent hsame _ hadmission =>
      rw [hsame, hadmission]
      exact ih
  | @submit t₁ _ _ hafter hsame _ hadmission =>
      have hclosed : (view.admission s').closed = (view.admission s).closed := by
        rw [hadmission, Admission.submit]
        split <;> rfl
      rw [hclosed]
      by_cases ht : t = t₁
      · subst t₁
        rw [hafter]
        intro hshutdown
        by_contra hopen
        simp [Admission.answer, hopen] at hshutdown
        split at hshutdown <;> cases hshutdown
      · rw [hsame t ht]
        exact ih
  | close _ _ _ _ _ hadmission =>
      intro _
      rw [hadmission]
      rfl
  | release _ _ hsame _ hadmission =>
      rw [hsame, hadmission]
      exact ih

section

variable {taskCapacity : NonZeroUsize}

/-- The blocking service on threads as seen by its producers. -/
def threadedProducers (taskCapacity : NonZeroUsize) : RefusingService (threads taskCapacity) :=
  RetryThreads.threaded (blockingProducers taskCapacity) activities

def threadedBudget (taskCapacity : NonZeroUsize) :
    Budget (threadedProducers taskCapacity) (onThreads BlockingRanks.noCall) :=
  RetryThreads.Budget.threaded (BlockingRetry.blockingBudget taskCapacity)

theorem threadedSettling (taskCapacity : NonZeroUsize) :
    Settling (threadedProducers taskCapacity) ((threads taskCapacity).ReachableUnder calm)
      (byThreads BlockingRanks.driven) onIdle := by
  refine RetryThreads.Settling.threaded (BlockingRetry.settling taskCapacity)
    (BlockingThreads.standing taskCapacity) (fun s a hsubmit => ?_) (fun x hx => ?_)
    fun x hx hrest i o stack hi => BlockingThreads.alone_of_atRest hx hrest hi
  · cases a <;> first | rfl | cases hsubmit
  · have hreachable := ReachableUnder.reachable hx
    exact ⟨hreachable, BlockingThreads.carried_of_threaded hreachable⟩

/-- Where the producers of the blocking service cannot go on. -/
structure BlockingSettled
    (s : RetryState (ThreadedState BlockingService.ServiceState ServiceBasics.Actor)) : Prop where
  rested : BlockingRest.Rested s.service.state
  answered : ∀ x ∈ s.producers, ∃ seen t τ, x = .attempting seen t ∧
    s.service.state.tasks[t]? = some τ ∧ (τ.submitter = .returned ∨
      τ.submitter = .rejected .shutdown ∧ s.service.state.shared.isNotRunning = true)

theorem blockingSettled_of_atRest
    {s : RetryState (ThreadedState BlockingService.ServiceState ServiceBasics.Actor)}
    (h : (threads taskCapacity).ReachableUnder calm s.service)
    (hrest : AtRest (threads taskCapacity) (byThreads BlockingRanks.driven) s.service)
    (hproducers : ∀ x ∈ s.producers, ∃ seen n, x = .attempting seen n ∧
      n < (threadedProducers taskCapacity).submissions s.service ∧
        ¬ (threadedProducers taskCapacity).refused n s.service) :
    BlockingSettled s := by
  have hs := state_of_threaded (ReachableUnder.reachable h)
  have hrested := BlockingRest.rested_of_atRest hs (BlockingThreads.atRest_of_threaded h hrest)
  refine ⟨hrested, fun x hx => ?_⟩
  obtain ⟨seen, t, rfl, hlt, hrefused⟩ := hproducers x hx
  have hτ := List.getElem?_eq_getElem hlt
  have hrefused : ¬ (blockingProducers taskCapacity).refused t s.service.state := hrefused
  refine ⟨seen, t, _, rfl, hτ, ?_⟩
  rw [BlockingRetry.refused_iff] at hrefused
  rcases (hrested.tasks _ (List.getElem_mem hlt)).submitted with ⟨⟨reason, hs'⟩, _⟩ | ⟨hs', _⟩
  · cases reason with
    | saturated =>
        refine absurd ⟨_, hτ, ?_⟩ hrefused
        rw [BlockingRetry.IsRefused, hs']
        rfl
    | shutdown =>
        have hanswer : (BlockingAdmission.admissionView taskCapacity).answer t s.service.state =
            some (.rejected .shutdown) := by
          simp [BlockingAdmission.admissionView, hτ, hs', BlockingAdmission.answer]
        exact .inr ⟨hs', closed_of_shutdown (BlockingAdmission.implements taskCapacity) hs hanswer⟩
  · exact .inl hs'

/-- The same for the IO service, where a hand-off may be abandoned. -/
structure IoSettled (s : RetryState IoService.ServiceState) : Prop where
  rested : IoRest.Rested s.service
  answered : ∀ x ∈ s.producers, ∃ seen t τ, x = .attempting seen t ∧
    s.service.tasks[t]? = some τ ∧ (τ.submitter = .returned ∨ τ.submitter = .abandoned ∨
      τ.submitter = .rejected .shutdown ∧ s.service.shared.isNotRunning = true)

theorem ioSettled_of_atRest {s : RetryState IoService.ServiceState}
    (h : (IoService.service taskCapacity).Reachable s.service)
    (hrest : AtRest (IoService.service taskCapacity) IoRanks.driven s.service)
    (hproducers : ∀ x ∈ s.producers, ∃ seen n, x = .attempting seen n ∧
      n < s.service.tasks.length ∧ ¬ (ioProducers taskCapacity).refused n s.service) :
    IoSettled s := by
  have hrested := IoRest.rested_of_atRest h hrest
  refine ⟨hrested, fun x hx => ?_⟩
  obtain ⟨seen, t, rfl, hlt, hrefused⟩ := hproducers x hx
  have hτ := List.getElem?_eq_getElem hlt
  refine ⟨seen, t, _, rfl, hτ, ?_⟩
  rw [IoRetry.refused_iff] at hrefused
  rcases (hrested.tasks _ (List.getElem_mem hlt)).submitted with ⟨⟨reason, hs⟩, _⟩ | ⟨hs | hs, _⟩
  · cases reason with
    | saturated =>
        refine absurd ⟨_, hτ, ?_⟩ hrefused
        rw [IoRetry.IsRefused, hs]
        rfl
    | shutdown =>
        have hanswer : (IoAdmission.admissionView taskCapacity).answer t s.service =
            some (.rejected .shutdown) := by
          simp [IoAdmission.admissionView, hτ, hs, IoAdmission.answer]
        exact .inr (.inr ⟨hs, closed_of_shutdown (IoAdmission.implements taskCapacity) h hanswer⟩)
  · exact .inl hs
  · exact .inr (.inl hs)

/-- Retrying producers never keep each other busy for ever, whatever the order of
their steps: they come to rest, and there each of them has been accepted or has
been told of the shutdown of a service that is closed. -/
theorem retrying_producers_settle (taskCapacity : NonZeroUsize) :
    (∀ s, (threadedProducers taskCapacity).retrying.ReachableUnder (onService calm) s →
      (∀ n s', StepsUnder (threadedProducers taskCapacity).retrying
          (retries (onThreads BlockingRanks.noCall) fun _ _ => True) n s s' →
        n ≤ (threadedBudget taskCapacity).retryRank s) ∧
      (∃ s', (threadedProducers taskCapacity).retrying.RunUnder
          (retries (byThreads BlockingRanks.driven) onIdle) s s' ∧
        AtRest (threadedProducers taskCapacity).retrying
          (retries (byThreads BlockingRanks.driven) onIdle) s') ∧
      ∀ s', (threadedProducers taskCapacity).retrying.RunUnder (onService calm) s s' →
        AtRest (threadedProducers taskCapacity).retrying
            (retries (byThreads BlockingRanks.driven) onIdle) s' →
          BlockingSettled s') ∧
    (∀ s, (ioProducers taskCapacity).retrying.Reachable s →
      (∀ n s', StepsUnder (ioProducers taskCapacity).retrying
          (retries IoRanks.advancing fun _ _ => True) n s s' →
        n ≤ (IoRetry.ioBudget taskCapacity).retryRank s) ∧
      (∃ s', (ioProducers taskCapacity).retrying.RunUnder
          (retries IoRanks.driven fun _ _ => True) s s' ∧
        AtRest (ioProducers taskCapacity).retrying
          (retries IoRanks.driven fun _ _ => True) s') ∧
      ∀ s', (ioProducers taskCapacity).retrying.Run s s' →
        AtRest (ioProducers taskCapacity).retrying
            (retries IoRanks.driven fun _ _ => True) s' →
          IoSettled s') := by
  constructor
  · intro s h
    have hnoCall : ∀ (s : BlockingService.ServiceState) a, BlockingRanks.driven s a →
        BlockingRanks.noCall s a := fun _ _ => BlockingRanks.noCall_of_driven
    obtain ⟨hbounded, hexists, hrest⟩ := (threadedBudget taskCapacity).settles
      (threadedSettling taskCapacity) (onThreads_of_byThreads hnoCall) (ReachableUnder.reachable h)
    refine ⟨hbounded, hexists, fun s' hrun hrest' => ?_⟩
    have hs' : (threads taskCapacity).ReachableUnder calm s'.service :=
      run_service (RunUnder.trans h hrun)
    obtain ⟨hservice, hproducers⟩ := hrest s' (RunUnder.run hrun) hs' hrest'
    exact blockingSettled_of_atRest hs' hservice hproducers
  · intro s h
    obtain ⟨hbounded, hexists, hrest⟩ := (IoRetry.ioBudget taskCapacity).settles
      (IoRetry.settling taskCapacity) (fun _ _ => IoRanks.advancing_of_driven) h
    refine ⟨hbounded, hexists, fun s' hrun hrest' => ?_⟩
    have hs' := reachable_service (Reachable.run h hrun)
    obtain ⟨hservice, hproducers⟩ := hrest s' hrun hs' hrest'
    exact ioSettled_of_atRest hs' hservice hproducers

end

/-- Two producers wait for the only slot of a service while the callable that has it
is executed. -/
theorem retrying_producers_settle_waiting : ∃ s s',
    (threadedProducers oneSlot).retrying.ReachableUnder (onService calm) s ∧
    s.producers = [.waiting 0, .waiting 0] ∧
    (threadedProducers oneSlot).retrying.RunUnder
      (retries (byThreads BlockingRanks.driven) onIdle) s s' ∧
    BlockingSettled s' := by
  have hexecute : ((threadedProducers oneSlot).retrying.executeUnder (onService calm)
      (List.flatten [[.service .newThread, .service .newThread,
          .service (.call 0 (.callSubmit .callable))],
        List.replicate 12 (.service (.run 0 (.submitter 0 false))), [.service (.back 0)],
        (.call 1 (.pickUp 0) :: List.replicate 8 (.run 1 (.worker 0 .ok))).map .service,
        [.newProducer, .newProducer, .subscribe 0, .attempt 0 (.call 0 (.callSubmit .callable))],
        List.replicate 6 (.service (.run 0 (.submitter 1 false))),
        [.refusal 0, .service (.back 0), .subscribe 1,
          .attempt 1 (.call 0 (.callSubmit .runnable))],
        List.replicate 6 (.service (.run 0 (.submitter 2 false))), [.refusal 1]])
      (threadedProducers oneSlot).retrying.start).map
        (fun s => (s.producers, s.service.state.tasks.map (·.worker))) =
      some ([.waiting 0, .waiting 0], [.executing, .absent, .absent]) := by decide
  obtain ⟨s, hs, hview⟩ := Option.map_eq_some_iff.mp hexecute
  have hreachable : (threadedProducers oneSlot).retrying.ReachableUnder (onService calm) s :=
    runUnder_of_executeUnder hs
  obtain ⟨_, ⟨s', hrun, hrest⟩, hsettled⟩ := (retrying_producers_settle oneSlot).1 s hreachable
  refine ⟨s, s', hreachable, (Prod.mk.inj hview).1, hrun, hsettled s' ?_ hrest⟩
  refine RunUnder.mono (fun s b hb => ?_) hrun
  cases b with
  | service b => exact BlockingThreads.calm_of_byThreads hb
  | attempt p b =>
      cases b with
      | call i a => exact BlockingThreads.calm_of_idle hb
      | newThread | run | back => exact hb.elim
  | newProducer | subscribe | refusal | changed => trivial

end TokioExecutorProofs.RetryRest
