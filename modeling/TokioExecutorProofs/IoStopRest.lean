import TokioExecutorProofs.IoRest
import TokioExecutorProofs.IoResults

/-!
The IO service after a stop. No future has to become ready any more: what the stop
call has aborted is dropped even if every poll stays pending, so the service
terminates and every handle is resolved.
-/

namespace TokioExecutorProofs.IoStopRest

open ServiceBasics
open IoServiceState
open IoServiceState.TokioIoExecutorServiceState
open ExecutorServiceLifecycleBits
open ExecutorServiceLifecycleBits.ExecutorServiceLifecycle
open IoTask
open IoService
open IoTaskInvariants
open IoTermination
open IoStop
open IoRanks
open IoRest
open IoResults
open ProcessFamilies
open RestingSystems
open TransitionSystems

/-- No new call and no poll for nothing; a future that is polled may stay pending. -/
def continues (s : ServiceState) : Action → Bool
  | .worker _ _ => true
  | a => advances s a

def continuing (s : ServiceState) (a : Action) : Prop := continues s a = true

/-- The runtime and the wakers go on, but no future ever becomes ready. -/
def isStubborn (s : ServiceState) : Action → Bool
  | .worker _ outcome => outcome == .pending
  | a => isDriven s a

def stubborn (s : ServiceState) (a : Action) : Prop := isStubborn s a = true

/-- A poll that stays pending sends its task back by one position. -/
def quelledWork (s : ServiceState) : Nat := work s + 2 * total pollsLeft s.tasks

def quelledRank (s : ServiceState) : Nat :=
  (s.waiters.length * 6 + 1) * quelledWork s + total (waiterRank s.shared) s.waiters

section

variable {t : TaskId} {g : TokioIoExecutorServiceState} {τ : Task} {outcome : PollOutcome}

theorem workerStep_of_ne (hpolling : τ.worker ≠ .polling) (hdropping : τ.worker ≠ .dropFuture)
    (outcome' : PollOutcome) : workerStep t outcome g τ = workerStep t outcome' g τ := by
  cases hw : τ.worker <;> simp only [workerStep, hw]
  · exact absurd hw hpolling
  · exact absurd hw hdropping

theorem workerStep_ok_eq (hpolling : τ.worker ≠ .polling) :
    workerStep t .ok g τ = workerStep t .pending g τ := by
  by_cases hdropping : τ.worker = .dropFuture
  · simp [workerStep, hdropping]
  · exact workerStep_of_ne hpolling hdropping .pending

theorem workerStep_pending_of_some {y : TokioIoExecutorServiceState × Task}
    (h : workerStep t outcome g τ = some y) : ∃ y', workerStep t .pending g τ = some y' := by
  by_cases hpolling : τ.worker = .polling
  · exact ⟨(g, { τ with worker := .idle true }), by simp [workerStep, hpolling]⟩
  by_cases hdropping : τ.worker = .dropFuture
  · exact ⟨_, by rw [workerStep, hdropping]⟩
  · exact ⟨y, (workerStep_of_ne hpolling hdropping .pending).symm.trans h⟩

/-- The last poll a quelled future has left is used up by staying pending. -/
theorem pending_of_polling (hquelled : IsQuelled τ) (hpolling : τ.worker = .polling)
    {g' : TokioIoExecutorServiceState} {τ' : Task}
    (hstep : workerStep t .pending g τ = some (g', τ')) :
    pollsLeft τ' < pollsLeft τ ∧ taskRank τ' = taskRank τ + 1 := by
  have hle := (quelled_of_workerStep hquelled hstep).2
  simp only [workerStep, hpolling, Option.some.injEq, Prod.mk.injEq] at hstep
  obtain ⟨rfl, rfl⟩ := hstep
  have hone : pollsLeft τ = 1 := by simp [pollsLeft, hpolling]
  constructor
  · have hpolled : polls (taskEvents τ (.worker t .pending)) = [.pending] := by
      simp [taskEvents, hpolling, polls, FutureEvent.polled]
    rw [hpolled, hone, List.length_singleton] at hle
    omega
  · simp only [taskRank, WorkerPc.rank, hpolling, if_true]
    omega

end

section

variable {taskCapacity : NonZeroUsize} {s s' : ServiceState} {a : Action}

theorem continuing_of_stubborn (h : stubborn s a) : continuing s a := by
  cases a with
  | worker => rfl
  | submitter => rfl
  | abandon | destroy => cases h
  | _ => exact h

theorem pollsLeft_le_of_step (hs : (service taskCapacity).Reachable s) (hq : ∀ t, Quelled t s)
    (hnext : (service taskCapacity).step a s = some s') :
    total pollsLeft s'.tasks ≤ total pollsLeft s.tasks := by
  refine total_le_of_getElem? fun t => ?_
  exact (Nat.le_add_left _ _).trans (quelled_of_step hs (hq t) hnext).2

theorem quelledWork_of_advances (hs : (service taskCapacity).Reachable s) (hq : ∀ t, Quelled t s)
    (hadvances : advances s a = true) (hnext : (service taskCapacity).step a s = some s') :
    s'.waiters.length = s.waiters.length ∧
      (quelledWork s' < quelledWork s ∨ quelledWork s' = quelledWork s ∧
        total (waiterRank s'.shared) s'.waiters < total (waiterRank s.shared) s.waiters) := by
  obtain ⟨hlength, hwork⟩ := work_of_step hs hadvances hnext
  have hpolls := pollsLeft_le_of_step hs hq hnext
  refine ⟨hlength, ?_⟩
  unfold quelledWork
  rcases hwork with hlt | ⟨heq, hlt⟩
  · exact .inl (by omega)
  · rcases Nat.lt_or_eq_of_le hpolls with hfewer | hsame
    · exact .inl (by omega)
    · exact .inr ⟨by omega, hlt⟩

theorem quelled_of_polling (hs : (service taskCapacity).Reachable s) (hq : ∀ t, Quelled t s)
    {t : TaskId} {τ : Task} (hτ : s.tasks[t]? = some τ) (hpolling : τ.worker = .polling) :
    IsQuelled τ := by
  rcases hq t with ⟨τ₁, hτ₁, hquelled⟩ | ⟨_, hnot⟩
  · obtain rfl := Option.some.inj (hτ.symm.trans hτ₁)
    exact hquelled
  · have hi := taskInvariant_of_reachable hs τ (mem_of_getElem? hτ)
    rw [worker_of_not_accepted hi (hnot τ hτ)] at hpolling
    cases hpolling

/-- Even a poll that stays pending brings a service nearer to its end in which all
futures are quelled. -/
theorem quelledWork_of_step (hs : (service taskCapacity).Reachable s) (hq : ∀ t, Quelled t s)
    (hcontinues : continues s a = true) (hnext : (service taskCapacity).step a s = some s') :
    s'.waiters.length = s.waiters.length ∧
      (quelledWork s' < quelledWork s ∨ quelledWork s' = quelledWork s ∧
        total (waiterRank s'.shared) s'.waiters < total (waiterRank s.shared) s.waiters) := by
  by_cases hadvances : advances s a = true
  · exact quelledWork_of_advances hs hq hadvances hnext
  obtain ⟨t, rfl⟩ : ∃ t, a = .worker t .pending := by
    cases a with
    | worker t outcome =>
        cases outcome with
        | pending => exact ⟨t, rfl⟩
        | ok | failed | panicked => exact absurd rfl hadvances
    | _ => exact absurd hcontinues hadvances
  simp only [service, step] at hnext
  obtain ⟨τ, g', τ', hτ, hstep, rfl⟩ := onTask_eq_some.mp hnext
  by_cases hpolling : τ.worker = .polling
  · have hquelled := quelled_of_polling hs hq hτ hpolling
    obtain ⟨hfewer, hup⟩ := pending_of_polling hquelled hpolling hstep
    simp only [workerStep, hpolling, Option.some.injEq, Prod.mk.injEq] at hstep
    obtain ⟨rfl, rfl⟩ := hstep
    have hrank : total taskRank (s.tasks.set t { τ with worker := .idle true }) + taskRank τ =
      total taskRank s.tasks + taskRank { τ with worker := .idle true } := total_set_add hτ
    have hpolls : total pollsLeft (s.tasks.set t { τ with worker := .idle true }) + pollsLeft τ =
      total pollsLeft s.tasks + pollsLeft { τ with worker := .idle true } := total_set_add hτ
    refine ⟨rfl, .inl ?_⟩
    unfold quelledWork work
    dsimp only at hrank hpolls ⊢
    omega
  · have hok : workerStep t .ok s.shared τ = some (g', τ') :=
      (workerStep_ok_eq hpolling).trans hstep
    have hnext' : (service taskCapacity).step (.worker t .ok) s =
        some { s with shared := g', tasks := s.tasks.set t τ' } :=
      onTask_eq_some.mpr ⟨τ, g', τ', hτ, hok, rfl⟩
    exact quelledWork_of_advances hs hq rfl hnext'

theorem quelledRank_lowers (taskCapacity : NonZeroUsize) :
    Lowers (service taskCapacity) (fun s a => (∀ t, Quelled t s) ∧ continuing s a) quelledRank := by
  intro s a s' hs ha hnext
  obtain ⟨hlength, hwork⟩ := quelledWork_of_step hs ha.1 ha.2 hnext
  unfold quelledRank
  rw [hlength]
  refine weighted_lt (hwork.imp_left fun hlt => ⟨hlt, ?_⟩)
  exact hlength ▸ total_le_mul (waiterRank_le s'.shared) s'.waiters

theorem atRest_of_stubborn (hrest : AtRest (service taskCapacity) stubborn s) :
    AtRest (service taskCapacity) driven s := by
  intro a ha
  cases a with
  | worker t outcome =>
      by_contra hne
      obtain ⟨s', hnext⟩ := Option.ne_none_iff_exists'.mp hne
      simp only [service, step] at hnext
      obtain ⟨τ, _, _, hτ, hstep, rfl⟩ := onTask_eq_some.mp hnext
      obtain ⟨⟨g', τ'⟩, hpending⟩ := workerStep_pending_of_some hstep
      have hnone := hrest (.worker t .pending) rfl
      simp only [service, step] at hnone
      rw [onTask_eq_some.mpr ⟨τ, g', τ', hτ, hpending, rfl⟩] at hnone
      cases hnone
  | _ => exact hrest _ ha

/-- After a stop the service terminates in a bounded number of steps, in any order,
even if no future ever becomes ready: every future is dropped, every handle is
resolved and every waiter returns. -/
theorem io_stop_terminates (h : (service taskCapacity).Reachable s)
    (hreturned : ∃ c ∈ s.closers, c.kind = .stop ∧ c.pc = .returned)
    (hidle : ∀ c ∈ s.closers, c.kind = .stop → c.pc = .returned) :
    (∀ n s', StepsUnder (service taskCapacity) continuing n s s' → n ≤ quelledRank s) ∧
      (∃ s', (service taskCapacity).RunUnder stubborn s s' ∧
        AtRest (service taskCapacity) stubborn s') ∧
      ∀ s', (service taskCapacity).Run s s' → AtRest (service taskCapacity) stubborn s' →
        Rested s' ∧ s'.shared.isTerminated = true ∧
          (∀ τ ∈ s'.tasks, τ.submitter = .returned → ∃ result, pollHandle τ = some result) ∧
          ∀ x ∈ s'.waiters, x = .awaited := by
  have hq : ∀ t, Quelled t s := quelled_of_stopped h hreturned hidle
  have hstable : ∀ s a s', (service taskCapacity).Reachable s → (∀ t, Quelled t s) →
      (service taskCapacity).step a s = some s' → ∀ t, Quelled t s' :=
    fun _ _ _ hs hq hnext t => (quelled_of_step hs (hq t) hnext).1
  refine ⟨fun n s' hsteps => ?_, ?_, fun s' hrun hrest => ?_⟩
  · have hquelled := (hsteps.and_of_stable h hq hstable).1
    have := (quelledRank_lowers taskCapacity).length_add_le h hquelled
    omega
  · have hlowers : Lowers (service taskCapacity)
        (fun s a => (∀ t, Quelled t s) ∧ stubborn s a) quelledRank :=
      (quelledRank_lowers taskCapacity).mono fun _ _ ha => ⟨ha.1, continuing_of_stubborn ha.2⟩
    obtain ⟨s', hrun, hrest⟩ := hlowers.exists_atRest h
    have hq' : ∀ t, Quelled t s' := Run.stable (P := fun s => ∀ t, Quelled t s) h
      (RunUnder.run hrun) hq hstable
    exact ⟨s', RunUnder.mono (fun _ _ ha => ha.2) hrun, fun a ha => hrest a ⟨hq', ha⟩⟩
  · have hrested := rested_of_atRest (Reachable.run h hrun) (atRest_of_stubborn hrest)
    have hclosed : load s'.shared.lifecycle ≠ running := by
      obtain ⟨c, hc, _, hpc⟩ := hreturned
      refine (lifecycleView taskCapacity).not_running_of_run h hrun ?_
      exact (closingView taskCapacity).not_running_of_hasStored h c hc
        (congrArg IoAdmission.hasStored hpc)
    refine ⟨hrested, isTerminated_iff.mpr ⟨hclosed, hrested.idle⟩, fun τ hτ hs => ?_,
      fun x hx => (hrested.waited x hx).resolve_right fun hwaits => hclosed hwaits.1⟩
    rcases (hrested.tasks τ hτ).submitted with ⟨⟨reason, hrejected⟩, _⟩ | ⟨_, hfinished⟩
    · rw [hs] at hrejected
      cases hrejected
    · exact ⟨τ.output, if_pos hfinished⟩

end

/-- A future stays pending in every poll, the one that goes on during the stop
included. -/
theorem io_stop_terminates_pending : ∃ s s',
    (service oneSlot).execute (.callSpawn :: submission 0 ++ .pickUp 0 ::
      List.replicate 2 (.worker 0 .pending) ++ .pickUp 0 :: stopping 0 0 ++ [.callWait])
      (service oneSlot).start = some s ∧
    s.tasks.map (·.worker) = [.polling] ∧ (service oneSlot).RunUnder stubborn s s' ∧
    s'.shared.isTerminated = true ∧ ∀ x ∈ s'.waiters, x = .awaited := by
  have hexecute : ((service oneSlot).execute (.callSpawn :: submission 0 ++ .pickUp 0 ::
      List.replicate 2 (.worker 0 .pending) ++ .pickUp 0 :: stopping 0 0 ++ [.callWait])
      (service oneSlot).start).map (fun s =>
        (s.tasks.map (·.worker), s.closers.map fun c => (c.kind, c.pc))) =
      some ([.polling], [(.stop, .returned)]) := by decide
  obtain ⟨s, hs, hview⟩ := Option.map_eq_some_iff.mp hexecute
  obtain ⟨hworkers, hclosers⟩ := Prod.mk.inj hview
  obtain ⟨c, hsingle, hc⟩ := List.map_eq_singleton_iff.mp hclosers
  obtain ⟨hkind, hpc⟩ := Prod.mk.inj hc
  obtain ⟨_, ⟨s', hrun, hrest⟩, hend⟩ := io_stop_terminates (Reachable.of_execute hs)
    ⟨c, by rw [hsingle]; exact List.mem_cons_self, hkind, hpc⟩ (by rw [hsingle]; simp [hpc])
  obtain ⟨_, hterminated, _, hwaiters⟩ := hend s' (RunUnder.run hrun) hrest
  exact ⟨s, s', hs, hworkers, hrun, hterminated, hwaiters⟩

end TokioExecutorProofs.IoStopRest
