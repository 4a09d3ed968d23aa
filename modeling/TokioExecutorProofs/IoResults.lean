import TokioExecutorProofs.IoAdmission
import TokioExecutorProofs.IoHandles
import TokioExecutorProofs.IoStop
import TokioExecutorProofs.ProcessLogs

/-!
What the handle of an IO task resolves to. The polls of every user future are
kept in a log; the result agrees with the last of them, and a stop call leaves
at most the poll that is already going on.
-/

namespace TokioExecutorProofs.IoResults

open ServiceBasics
open IoServiceState
open IoServiceState.TokioIoExecutorServiceState
open IoTask
open IoService
open IoTaskInvariants
open IoAccounting
open IoActivities
open IoSweeps
open IoTermination
open IoAdmission
open IoStop
open IoHandles
open ProcessFamilies
open ProcessLogs
open TraceRefinements
open TransitionSystems
open TransitionSystem

/-! ### The history of a future -/

inductive FutureEvent where
  | poll (outcome : PollOutcome)
  /-- The destructor of the user future panics in Tokio's task. -/
  | dropPanicked
  /-- The runtime drops Tokio's task. -/
  | discard
  deriving DecidableEq, Repr

def FutureEvent.polled : FutureEvent → Option PollOutcome
  | .poll outcome => some outcome
  | .dropPanicked | .discard => none

/-- The event runs code of the user, which the result depends on. -/
def FutureEvent.isDecisive : FutureEvent → Bool
  | .poll _ | .dropPanicked => true
  | .discard => false

/-- The task whose history a step may extend. -/
def target : Action → Option TaskId
  | .worker t _ | .destroy t | .submitter t _ => some t
  | _ => none

def taskEvents (τ : Task) : Action → List FutureEvent
  | .worker _ outcome =>
      if τ.worker = .polling then [.poll outcome]
      else if τ.worker = .dropFuture ∧ outcome = .panicked then [.dropPanicked] else []
  | .destroy _ => [.discard]
  | .submitter _ runtimeClosed =>
      if runtimeClosed = true ∧ τ.submitter = .spawn then [.discard] else []
  | _ => []

def futureEvents : Emission ServiceState Action (TaskId × FutureEvent) := fun s a _ =>
  match target a with
  | none => []
  | some t =>
      match s.tasks[t]? with
      | none => []
      | some τ => (taskEvents τ a).map (t, ·)

/-- The outcomes of the polls in a history. -/
def polls (events : List FutureEvent) : List PollOutcome := events.filterMap FutureEvent.polled

@[simp] theorem polls_append {events events' : List FutureEvent} :
    polls (events ++ events') = polls events ++ polls events' :=
  List.filterMap_append

def decisive (events : List FutureEvent) : List FutureEvent :=
  events.filter FutureEvent.isDecisive

@[simp] theorem decisive_append {events events' : List FutureEvent} :
    decisive (events ++ events') = decisive events ++ decisive events' :=
  List.filter_append ..

/-- The result of a future that has been polled with these outcomes. -/
def resultOfPolls : List PollOutcome → TaskResult
  | [] => .cancelled
  | .pending :: outcomes => resultOfPolls outcomes
  | .ok :: _ => .ok
  | .failed :: _ => .failed
  | .panicked :: _ => .panicked

/-- `TokioGuardedIoFuture::poll` and `join_error_to_task_error`: the result of a
future with this history. -/
def resultOf (events : List FutureEvent) : TaskResult :=
  if .dropPanicked ∈ events then .panicked else resultOfPolls (polls events)

section

variable {outcomes outcomes' : List PollOutcome} {events events' : List FutureEvent}

theorem resultOfPolls_append (h : ∀ o ∈ outcomes, o = .pending) :
    resultOfPolls (outcomes ++ outcomes') = resultOfPolls outcomes' := by
  induction outcomes with
  | nil => rfl
  | cons o outcomes ih =>
      obtain rfl : o = .pending := h o List.mem_cons_self
      exact ih fun o' ho' => h o' (List.mem_cons_of_mem _ ho')

theorem resultOfPolls_eq_cancelled :
    resultOfPolls outcomes = .cancelled ↔ ∀ o ∈ outcomes, o = .pending := by
  induction outcomes with
  | nil => simp [resultOfPolls]
  | cons o outcomes ih =>
      cases o with
      | pending => simpa [resultOfPolls] using ih
      | ok | failed | panicked => simp [resultOfPolls]

theorem resultOf_eq_cancelled :
    resultOf events = .cancelled ↔
      .dropPanicked ∉ events ∧ ∀ o ∈ polls events, o = .pending := by
  unfold resultOf
  split
  · rename_i hpanicked
    simp [hpanicked]
  · rename_i hquiet
    simp [hquiet, resultOfPolls_eq_cancelled]

theorem polls_decisive : polls (decisive events) = polls events := by
  induction events with
  | nil => rfl
  | cons e events ih =>
      cases e with
      | poll outcome => exact congrArg (outcome :: ·) ih
      | dropPanicked | discard => exact ih

theorem polls_of_quiet (h : decisive events = []) : polls events = [] := by
  rw [← polls_decisive, h]
  rfl

theorem polls_of_decisive (h : decisive events = decisive events') :
    polls events = polls events' := by
  rw [← polls_decisive, h, polls_decisive]

theorem resultOf_of_decisive (h : decisive events = decisive events') :
    resultOf events = resultOf events' := by
  have hmem : ∀ events : List FutureEvent,
      .dropPanicked ∈ decisive events ↔ .dropPanicked ∈ events := by
    simp [decisive, FutureEvent.isDecisive]
  simp only [resultOf, polls_of_decisive h, ← hmem events, h]
  simp only [hmem]

end

/-! ### Steps and histories -/

section

variable {s s' : ServiceState} {a : Action} {t : TaskId} {τ τ' : Task}
  {g g' : TokioIoExecutorServiceState}

theorem target_of_taskStep (h : TaskStep t g τ a g' τ') :
    target a = some t ∨ target a = none ∧ taskEvents τ a = [] := by
  cases h with
  | submitter | destroy | worker => exact .inl rfl
  | abandon | pickUp | callCancel | canceller | sweepNext | sweepAbort => exact .inr ⟨rfl, rfl⟩

theorem eventsOf_taskStep {t₀ : TaskId} (hτ : s.tasks[t₀]? = some τ)
    (h : TaskStep t₀ g τ a g' τ') :
    eventsOf t (futureEvents s a s') = if t = t₀ then taskEvents τ a else [] := by
  unfold futureEvents
  rcases target_of_taskStep h with htarget | ⟨htarget, hnone⟩
  · rw [htarget]
    simp only [hτ]
    split
    · rename_i heq
      rw [heq, eventsOf_map_self]
    · rename_i hne
      exact eventsOf_map_of_ne fun heq => hne heq.symm
  · rw [htarget, hnone]
    simp

theorem eventsOf_of_target (h : target a = none) : eventsOf t (futureEvents s a s') = [] := by
  simp [futureEvents, h]

/-- What a step does to the task `t` and to its history. -/
inductive Logged (t : TaskId) (s : ServiceState) (a : Action) (s' : ServiceState)
    (events : List FutureEvent) : Prop
  | same (htask : s'.tasks[t]? = s.tasks[t]?) (hevents : events = []) : Logged t s a s' events
  | new (hbefore : s.tasks[t]? = none) (hafter : s'.tasks[t]? = some {})
      (hevents : events = []) : Logged t s a s' events
  | take {k : Nat} {τ : Task} (hbefore : s.tasks[t]? = some τ)
      (hafter : s'.tasks[t]? = some (takeEntry k τ)) (hevents : events = []) :
      Logged t s a s' events
  | task {τ τ' : Task} (hbefore : s.tasks[t]? = some τ) (hafter : s'.tasks[t]? = some τ')
      (h : TaskStep t s.shared τ a s'.shared τ') (hevents : events = taskEvents τ a) :
      Logged t s a s' events

theorem logged_of_taskStep {t₀ : TaskId} (hτ : s.tasks[t₀]? = some τ)
    (h : TaskStep t₀ s.shared τ a s'.shared τ') (htasks : s'.tasks = s.tasks.set t₀ τ') :
    Logged t s a s' (eventsOf t (futureEvents s a s')) := by
  by_cases ht : t = t₀
  · subst t₀
    exact .task hτ (by rw [htasks]; exact getElem?_set_self_of_some hτ) h
      (by rw [eventsOf_taskStep hτ h, if_pos rfl])
  · exact .same (by rw [htasks, getElem?_set_of_ne ht])
      (by rw [eventsOf_taskStep hτ h, if_neg ht])

theorem logged_of_step (hnext : step a s = some s') :
    Logged t s a s' (eventsOf t (futureEvents s a s')) := by
  cases effect_of_step hnext with
  | newTask =>
      have hevents : eventsOf t (futureEvents s Action.callSpawn
        { s with tasks := s.tasks ++ [{}] }) = [] := eventsOf_of_target rfl
      by_cases ht : t = s.tasks.length
      · subst t
        exact .new (List.getElem?_eq_none (Nat.le_refl _)) (by simp) hevents
      · exact .same (getElem?_append_of_ne ht) hevents
  | task hτ h => exact logged_of_taskStep hτ h rfl
  | sweepNext _ _ _ hτ h => exact logged_of_taskStep hτ (.sweepNext h) rfl
  | sweepAbort _ _ hτ h => exact logged_of_taskStep hτ (.sweepAbort h) rfl
  | @take k c hc hpc =>
      have hevents : eventsOf t (futureEvents s (.closer k)
        { s with tasks := s.tasks.map (takeEntry k)
                 closers := s.closers.set k { c with pc := .takeUnlock } }) = [] :=
        eventsOf_of_target rfl
      cases hτ : s.tasks[t]? with
      | none => exact .same (by rw [hτ]; simp [hτ]) hevents
      | some τ => exact .take (k := k) hτ (by simp [hτ]) hevents
  | newCloser | newWaiter | endSweep | closer | waiter => exact .same rfl (eventsOf_of_target rfl)

/-! ### The stored output is the one of the last poll -/

/-- Tokio's task does not poll any more. -/
def isOver : WorkerPc → Bool
  | .absent | .idle _ | .recv | .polling => false
  | .dropReceiver | .dropFuture | .dropGuard _ | .complete | .finished => true

/-- The hand-off has been given up after the registration. -/
def isAbandoned : SubmitterPc → Bool
  | .abandonFuture | .abandonSender | .abandonGuard _ | .abandoned => true
  | .lockSubmission | .checkRunning | .getActive | .inc | .rejectUnlock _ | .rejected _
  | .spawn | .registerLock | .register | .registerUnlock | .unlockSubmission | .send
  | .dropFuture | .dropGuard _ | .returned => false

/-- How a task and its history fit together. -/
structure Agrees (τ : Task) (events : List FutureEvent) : Prop where
  output : τ.output = resultOf events
  pending : ∀ o ∈ (polls events).dropLast, o = .pending
  unreceived : workerPhase τ.worker = .absent ∨ workerPhase τ.worker = .waiting →
    polls events = []
  unfinished : isOver τ.worker = false → τ.output = .cancelled
  signalled : isOver τ.worker = true → τ.output = .cancelled →
    τ.aborted = true ∨ .discard ∈ events ∨ isAbandoned τ.submitter = true

variable {events events' : List FutureEvent}

theorem Agrees.pending_of_unfinished (h : Agrees τ events) (hover : isOver τ.worker = false) :
    .dropPanicked ∉ events ∧ ∀ o ∈ polls events, o = .pending := by
  apply resultOf_eq_cancelled.mp
  rw [← h.output]
  exact h.unfinished hover

theorem Agrees.move (h : Agrees τ events) (hquiet : decisive events' = [])
    (houtput : τ'.output = τ.output) (haborted : τ.aborted = true → τ'.aborted = true)
    (habandoned : isAbandoned τ.submitter = true → isAbandoned τ'.submitter = true)
    (hphase : workerPhase τ'.worker = .absent ∨ workerPhase τ'.worker = .waiting →
      workerPhase τ.worker = .absent ∨ workerPhase τ.worker = .waiting)
    (hover : isOver τ.worker = true → isOver τ'.worker = true)
    (hsignal : isOver τ.worker = false → isOver τ'.worker = true →
      τ'.aborted = true ∨ .discard ∈ events' ∨ isAbandoned τ'.submitter = true) :
    Agrees τ' (events ++ events') where
  output := by
    rw [houtput, h.output]
    exact resultOf_of_decisive (by rw [decisive_append, hquiet, List.append_nil])
  pending := by
    rw [polls_append, polls_of_quiet hquiet, List.append_nil]
    exact h.pending
  unreceived := by
    rw [polls_append, polls_of_quiet hquiet, List.append_nil]
    exact fun hwaiting => h.unreceived (hphase hwaiting)
  unfinished := by
    intro hbusy
    rw [houtput]
    apply h.unfinished
    by_contra hne
    rw [hover (by simpa using hne)] at hbusy
    cases hbusy
  signalled := by
    intro hafter hcancelled
    cases hbefore : isOver τ.worker with
    | false =>
        rcases hsignal hbefore hafter with hsig | hdiscard | hgiven
        · exact .inl hsig
        · exact .inr (.inl (List.mem_append_right _ hdiscard))
        · exact .inr (.inr hgiven)
    | true =>
        rw [houtput] at hcancelled
        rcases h.signalled hbefore hcancelled with hsig | hdiscard | hgiven
        · exact .inl (haborted hsig)
        · exact .inr (.inl (List.mem_append_left _ hdiscard))
        · exact .inr (.inr (habandoned hgiven))

theorem Agrees.keep (h : Agrees τ events) (hquiet : decisive events' = [])
    (houtput : τ'.output = τ.output) (hworker : τ'.worker = τ.worker)
    (haborted : τ.aborted = true → τ'.aborted = true)
    (habandoned : isAbandoned τ.submitter = true → isAbandoned τ'.submitter = true) :
    Agrees τ' (events ++ events') := by
  apply h.move hquiet houtput haborted habandoned <;> rw [hworker]
  · exact id
  · exact id
  · intro hbefore hafter
    rw [hbefore] at hafter
    cases hafter

theorem Agrees.poll {outcome : PollOutcome} (h : Agrees τ events) (hpolling : τ.worker = .polling)
    (houtput : τ'.output = resultOfPolls [outcome]) (hphase : workerPhase τ'.worker = .holding)
    (hover : isOver τ'.worker = true ↔ outcome ≠ .pending) :
    Agrees τ' (events ++ [.poll outcome]) := by
  obtain ⟨hquiet, hpending⟩ := h.pending_of_unfinished (by rw [hpolling]; rfl)
  have hpolls : polls [FutureEvent.poll outcome] = [outcome] := rfl
  refine ⟨?_, ?_, ?_, ?_, ?_⟩
  · rw [resultOf, if_neg (by simpa using hquiet), polls_append, hpolls,
      resultOfPolls_append hpending, houtput]
  · rw [polls_append, hpolls, List.dropLast_concat]
    exact hpending
  · rw [hphase]
    rintro (hwaiting | hwaiting) <;> cases hwaiting
  · intro hbusy
    have heq : outcome = .pending := by
      by_contra hne
      rw [hover.mpr hne] at hbusy
      cases hbusy
    rw [houtput, heq]
    rfl
  · intro hafter hcancelled
    rw [houtput] at hcancelled
    exact absurd (resultOfPolls_eq_cancelled.mp hcancelled outcome List.mem_cons_self)
      (hover.mp hafter)

theorem Agrees.dropPanicked (h : Agrees τ events) (houtput : τ'.output = .panicked)
    (hworker : τ'.worker = .dropGuard .finishMarker) :
    Agrees τ' (events ++ [.dropPanicked]) where
  output := by
    rw [resultOf, if_pos (by simp)]
    exact houtput
  pending := by
    rw [polls_append, show polls [FutureEvent.dropPanicked] = [] from rfl, List.append_nil]
    exact h.pending
  unreceived := by
    rw [hworker]
    rintro (hwaiting | hwaiting) <;> cases hwaiting
  unfinished hbusy := by
    rw [hworker] at hbusy
    cases hbusy
  signalled _ hcancelled := by
    rw [houtput] at hcancelled
    cases hcancelled

theorem submitterStep_output {runtimeClosed : Bool}
    (h : submitterStep t runtimeClosed g τ = some (g', τ')) :
    τ'.output = τ.output ∧ (isAbandoned τ.submitter = true → isAbandoned τ'.submitter = true) ∧
      (τ.channel = .closed → τ'.channel = .closed) ∧
      (τ.submitter = .spawn → runtimeClosed = false → τ'.worker = .idle false) := by
  cases hs : τ.submitter <;> simp only [submitterStep, hs] at h
  case rejected | returned | abandoned => cases h
  case dropGuard d | abandonGuard d =>
    simp only [Option.map_eq_some_iff, Prod.mk.injEq, Prod.exists] at h
    obtain ⟨_, τ₁, next, hstep, rfl, rfl⟩ := h
    obtain ⟨_, _, _, rfl, _⟩ := guardMove_of_step hstep
    cases next <;> simp [isAbandoned]
  case lockSubmission | registerLock =>
    simp only [map_acquire_eq_some, Prod.mk.injEq] at h
    obtain ⟨_, rfl, rfl⟩ := h
    simp [isAbandoned]
  case spawn | send =>
    split at h <;> simp only [Option.some.injEq, Prod.mk.injEq, reduceCtorEq] at h <;>
      obtain ⟨rfl, rfl⟩ := h <;> simp_all [isAbandoned]
  all_goals
    simp only [Option.some.injEq, Prod.mk.injEq] at h
    obtain ⟨rfl, rfl⟩ := h
    simp [isAbandoned]

theorem decisive_submitter {runtimeClosed : Bool} :
    decisive (taskEvents τ (.submitter t runtimeClosed)) = [] := by
  simp only [taskEvents]
  split <;> rfl

theorem worker_of_spawn (hi : TaskInvariant τ) (hs : τ.submitter = .spawn) :
    τ.worker = .absent := by
  have hplaced := hi.placed
  rw [hs] at hplaced
  exact worker_of_absent hplaced.1

theorem Agrees.submitter {runtimeClosed : Bool} (hi : TaskInvariant τ) (ha : Agrees τ events)
    (h : submitterStep t runtimeClosed g τ = some (g', τ')) :
    Agrees τ' (events ++ taskEvents τ (.submitter t runtimeClosed)) := by
  obtain ⟨hworker, _, haborted, _, _⟩ := submitterStep_frame h
  obtain ⟨houtput, habandoned, _, hspawned⟩ := submitterStep_output h
  have hmono : τ.aborted = true → τ'.aborted = true := fun hsig => by rw [haborted, hsig]
  rcases hworker with hsame | ⟨hs, hfinished | hidle⟩
  · exact ha.keep decisive_submitter houtput hsame hmono habandoned
  · -- The runtime has been shut down, and `spawn` drops the task at once.
    have habsent := worker_of_spawn hi hs
    have hclosed : runtimeClosed = true := by
      by_contra hopen
      rw [hspawned hs (by simpa using hopen)] at hfinished
      cases hfinished
    apply ha.move decisive_submitter houtput hmono habandoned
    · rw [habsent]
      exact fun _ => .inl rfl
    · rw [habsent]
      exact fun hover => by cases hover
    · exact fun _ _ => .inr (.inl (by simp [taskEvents, hclosed, hs]))
  · have habsent := worker_of_spawn hi hs
    apply ha.move decisive_submitter houtput hmono habandoned
    · rw [habsent]
      exact fun _ => .inl rfl
    · rw [habsent]
      exact fun hover => by cases hover
    · rw [hidle]
      exact fun _ hover => by cases hover

theorem Agrees.worker {outcome : PollOutcome} (hi : TaskInvariant τ) (ha : Agrees τ events)
    (h : workerStep t outcome g τ = some (g', τ')) :
    Agrees τ' (events ++ taskEvents τ (.worker t outcome)) := by
  have hnone : τ.worker ≠ .polling → τ.worker ≠ .dropFuture →
      decisive (taskEvents τ (.worker t outcome)) = [] := by
    intro hne hne'
    simp [taskEvents, hne, hne', decisive]
  have hplaced := hi.placed
  cases hw : τ.worker <;> simp only [workerStep, hw] at h hplaced
  case absent | idle | finished => cases h
  case recv =>
    have hquiet := hnone (by simp [hw]) (by simp [hw])
    split at h <;> simp only [Option.some.injEq, Prod.mk.injEq] at h <;> obtain ⟨rfl, rfl⟩ := h
    case h_1 => apply ha.move hquiet <;> simp [hw, workerPhase, isOver]
    case h_2 => apply ha.move hquiet <;> simp [hw, workerPhase, isOver]
    case h_3 hchannel =>
      -- Only an abandoned hand-off closes the channel of a task that waits.
      have hgiven : isAbandoned τ.submitter = true := by
        rw [hchannel] at hplaced
        cases hs : τ.submitter <;> simp [hs, consistent, submitterPhase, workerPhase] at hplaced <;>
          rfl
      apply ha.move hquiet <;> simp [hw, workerPhase, isOver, hgiven]
  case polling =>
    have hevents : taskEvents τ (.worker t outcome) = [.poll outcome] := by simp [taskEvents, hw]
    rw [hevents]
    split at h <;> simp only [Option.some.injEq, Prod.mk.injEq] at h <;> obtain ⟨rfl, rfl⟩ := h
    case h_1 =>
      have hunfinished := ha.unfinished (by rw [hw]; rfl)
      apply ha.poll hw <;> simp [hunfinished, resultOfPolls, workerPhase, isOver]
    all_goals apply ha.poll hw <;> simp [resultOfPolls, workerPhase, isOver]
  case dropGuard d =>
    simp only [Option.map_eq_some_iff, Prod.mk.injEq, Prod.exists] at h
    obtain ⟨_, τ₁, next, hstep, rfl, rfl⟩ := h
    obtain ⟨_, _, _, rfl, _⟩ := guardMove_of_step hstep
    cases next <;> apply ha.move (hnone (by simp [hw]) (by simp [hw])) <;>
      simp [hw, workerPhase, isOver]
  case dropReceiver =>
    simp only [Option.some.injEq, Prod.mk.injEq] at h
    obtain ⟨rfl, rfl⟩ := h
    apply ha.move (hnone (by simp [hw]) (by simp [hw])) <;> simp [hw, workerPhase] <;> split <;>
      simp [isOver]
  case dropFuture =>
    simp only [Option.some.injEq, Prod.mk.injEq] at h
    obtain ⟨rfl, rfl⟩ := h
    by_cases hpanicked : outcome = .panicked
    · have hevents : taskEvents τ (.worker t outcome) = [.dropPanicked] := by
        simp [taskEvents, hw, hpanicked]
      rw [hevents]
      exact ha.dropPanicked (if_pos hpanicked) rfl
    · have hevents : taskEvents τ (.worker t outcome) = [] := by
        simp [taskEvents, hw, hpanicked]
      rw [hevents]
      apply ha.move rfl <;> simp [hw, hpanicked, workerPhase, isOver]
  case complete =>
    simp only [Option.some.injEq, Prod.mk.injEq] at h
    obtain ⟨rfl, rfl⟩ := h
    apply ha.move (hnone (by simp [hw]) (by simp [hw])) <;> simp [hw, workerPhase, isOver]

theorem agrees_of_taskStep (hi : TaskInvariant τ) (ha : Agrees τ events)
    (h : TaskStep t g τ a g' τ') : Agrees τ' (events ++ taskEvents τ a) := by
  cases h with
  | submitter h => exact ha.submitter hi h
  | worker h => exact ha.worker hi h
  | abandon h => exact ha.keep rfl rfl rfl id fun _ => rfl
  | @pickUp received h =>
      cases received <;> cases haborted : τ.aborted <;> apply ha.move rfl <;>
        simp [h, haborted, workerPhase, isOver, WorkerPc.cancelled]
  | @destroy received h =>
      cases received <;> apply ha.move rfl <;>
        simp [h, taskEvents, workerPhase, isOver, WorkerPc.cancelled]
  | callCancel | sweepNext => exact ha.keep rfl rfl rfl id id
  | canceller h => exact ha.keep rfl rfl rfl (fun hsig => h.elim (·.trans hsig) id) id
  | sweepAbort => exact ha.keep rfl rfl rfl (fun _ => rfl) id

theorem agrees_new : Agrees {} [] := by
  refine ⟨by rfl, ?_, fun _ => rfl, fun _ => rfl, fun hover => by cases hover⟩
  exact fun o ho => by cases ho

theorem agrees_takeEntry {k : Nat} (ha : Agrees τ events) : Agrees (takeEntry k τ) events := by
  unfold takeEntry
  split
  · exact ⟨ha.output, ha.pending, ha.unreceived, ha.unfinished, ha.signalled⟩
  · exact ha

end

section

variable {taskCapacity : NonZeroUsize} {p p' : ServiceState × List (TaskId × FutureEvent)}
  {t : TaskId} {τ τ' : Task} {result : TaskResult} {a : Action}
  {g g' : TokioIoExecutorServiceState}

theorem agrees_of_logging (h : (logging (service taskCapacity) futureEvents).Reachable p)
    (hτ : p.1.tasks[t]? = some τ) : Agrees τ (eventsOf t p.2) := by
  have hall := eventsOf_invariant (i := t) (P := fun s events =>
    (s.tasks[t]? = none → events = []) ∧ ∀ τ, s.tasks[t]? = some τ → Agrees τ events) h
    ⟨fun _ => rfl, fun τ hτ => by simp [service] at hτ⟩ ?_
  · exact hall.2 τ hτ
  intro s a s' events hs ih hnext
  obtain ⟨hnone, hsome⟩ := ih
  cases logged_of_step (t := t) hnext with
  | same htask hevents =>
      rw [htask, hevents, List.append_nil]
      exact ⟨hnone, hsome⟩
  | new hbefore hafter hevents =>
      rw [hafter, hevents, hnone hbefore]
      refine ⟨fun h => (by cases h), fun τ hτ => ?_⟩
      exact Option.some.inj hτ ▸ agrees_new
  | take hbefore hafter hevents =>
      rw [hafter, hevents, List.append_nil]
      refine ⟨fun h => (by cases h), fun τ hτ => ?_⟩
      exact Option.some.inj hτ ▸ agrees_takeEntry (hsome _ hbefore)
  | task hbefore hafter hstep hevents =>
      rw [hafter, hevents]
      refine ⟨fun h => (by cases h), fun τ hτ => ?_⟩
      have hi := taskInvariant_of_reachable hs _ (mem_of_getElem? hbefore)
      exact Option.some.inj hτ ▸ agrees_of_taskStep hi (hsome _ hbefore) hstep

theorem pollHandle_eq_some :
    pollHandle τ = some result ↔ τ.worker = .finished ∧ τ.output = result := by
  unfold pollHandle
  split
  · rename_i hfinished
    simp [hfinished]
  · rename_i hbusy
    simp [hbusy]

/-! ### Nothing is decided after the future has been dropped -/

theorem quiet_of_dropped (hi : TaskInvariant τ) (hdropped : τ.futureDropped = true)
    (h : TaskStep t g τ a g' τ') : decisive (taskEvents τ a) = [] := by
  have hstage : (stage τ).isWhole = false := by simpa [hdropped] using hi.future
  cases h with
  | submitter => exact decisive_submitter
  | worker h =>
      have hholding : workerPhase τ.worker ≠ .holding := by
        intro hholding
        have hplaced := hi.placed
        rw [hholding] at hplaced
        unfold stage at hstage
        rw [hholding] at hstage
        generalize submitterPhase τ.submitter = phase at hplaced hstage
        cases phase <;> simp_all [consistent, stageOf, workerStage, PayloadStage.isWhole]
      have hpolling : τ.worker ≠ .polling := fun hw => hholding (by rw [hw]; rfl)
      have hdropping : τ.worker ≠ .dropFuture := fun hw => hholding (by rw [hw]; rfl)
      simp [taskEvents, hpolling, hdropping, decisive]
  | destroy | abandon | pickUp | callCancel | canceller | sweepNext | sweepAbort => rfl

/-- What has been decided when the task gives its place back stays so. -/
theorem decisive_of_run (h : (logging (service taskCapacity) futureEvents).Reachable p)
    (hτ : p.1.tasks[t]? = some τ) (hdecrements : τ.decrements ≠ 0)
    (hrun : (logging (service taskCapacity) futureEvents).Run p p') :
    decisive (eventsOf t p'.2) = decisive (eventsOf t p.2) := by
  have hboth : (∃ τ, p'.1.tasks[t]? = some τ ∧ τ.decrements ≠ 0) ∧
      decisive (eventsOf t p'.2) = decisive (eventsOf t p.2) := by
    refine Run.stable (P := fun p' => (∃ τ, p'.1.tasks[t]? = some τ ∧ τ.decrements ≠ 0) ∧
      decisive (eventsOf t p'.2) = decisive (eventsOf t p.2)) h hrun ⟨⟨τ, hτ, hdecrements⟩, rfl⟩ ?_
    rintro q a q' hq ⟨⟨τ, hτ, hdecrements⟩, hsame⟩ hnext
    obtain ⟨hsys, hlog⟩ := logging_step hnext
    have hi := taskInvariant_of_reachable (reachable_of_logging hq) τ (mem_of_getElem? hτ)
    rw [hlog, eventsOf_append, decisive_append, hsame]
    cases logged_of_step (t := t) hsys with
    | same htask hevents =>
        rw [htask, hevents]
        exact ⟨⟨τ, hτ, hdecrements⟩, List.append_nil _⟩
    | new hbefore =>
        rw [hτ] at hbefore
        cases hbefore
    | @take k τ₀ hbefore hafter hevents =>
        obtain rfl := Option.some.inj (hτ.symm.trans hbefore)
        rw [hevents]
        exact ⟨⟨_, hafter, by rwa [(takeEntry_frame k τ).2.2.1]⟩, List.append_nil _⟩
    | @task τ₀ τ₁ hbefore hafter hstep hevents =>
        obtain rfl := Option.some.inj (hτ.symm.trans hbefore)
        rw [hevents, quiet_of_dropped hi (futureDropped_of_decrements hi hdecrements).2 hstep]
        refine ⟨⟨τ₁, hafter, ?_⟩, List.append_nil _⟩
        rcases decrements_of_taskStep hstep with heq | ⟨_, heq⟩ <;> rw [heq]
        · exact hdecrements
        · exact Nat.succ_ne_zero _
  exact hboth.2

/-! ### What may still be polled -/

/-- The polls that a task still makes although it is aborted. -/
def pollsLeft (τ : Task) : Nat :=
  match τ.worker with
  | .polling => 1
  | .recv => if τ.channel = .closed then 0 else 1
  | _ => 0

/-- The task is not polled again, once it is not being polled. -/
def IsQuelled (τ : Task) : Prop :=
  τ.aborted = true ∨ isOver τ.worker = true ∨
    workerPhase τ.worker = .waiting ∧ τ.channel = .closed

theorem pollsLeft_of_over (h : isOver τ.worker = true) : pollsLeft τ = 0 := by
  unfold pollsLeft
  cases hw : τ.worker <;> simp [hw, isOver] at h ⊢

theorem pollsLeft_of_idle {received : Bool} (h : τ.worker = .idle received) : pollsLeft τ = 0 := by
  simp [pollsLeft, h]

theorem pollsLeft_le (hworker : τ'.worker = τ.worker)
    (hchannel : τ.channel = .closed → τ'.channel = .closed) : pollsLeft τ' ≤ pollsLeft τ := by
  unfold pollsLeft
  rw [hworker]
  cases τ.worker <;> simp only [Nat.le_refl]
  by_cases hclosed : τ.channel = .closed
  · rw [hchannel hclosed]
    simp
  · rw [if_neg hclosed]
    split <;> omega

theorem quelled_of_submitterStep {runtimeClosed : Bool} (hi : TaskInvariant τ) (hq : IsQuelled τ)
    (h : submitterStep t runtimeClosed g τ = some (g', τ')) :
    IsQuelled τ' ∧ pollsLeft τ' ≤ pollsLeft τ := by
  obtain ⟨hworker, _, haborted, _, _⟩ := submitterStep_frame h
  obtain ⟨_, _, hchannel, _⟩ := submitterStep_output h
  rcases hworker with hsame | ⟨hs, hspawned⟩
  · refine ⟨?_, pollsLeft_le hsame hchannel⟩
    rcases hq with hsig | hover | ⟨hphase, hclosed⟩
    · exact .inl (haborted.trans hsig)
    · exact .inr (.inl (hsame ▸ hover))
    · exact .inr (.inr ⟨hsame ▸ hphase, hchannel hclosed⟩)
  · have hleft : pollsLeft τ' = 0 := by
      rcases hspawned with hw | hw <;> simp [pollsLeft, hw]
    refine ⟨?_, by omega⟩
    have habsent := worker_of_spawn hi hs
    rcases hq with hsig | hover | ⟨hphase, _⟩
    · exact .inl (haborted.trans hsig)
    · rw [habsent] at hover
      cases hover
    · rw [habsent] at hphase
      cases hphase

theorem quelled_of_workerStep {outcome : PollOutcome} (hq : IsQuelled τ)
    (h : workerStep t outcome g τ = some (g', τ')) :
    IsQuelled τ' ∧
      (polls (taskEvents τ (.worker t outcome))).length + pollsLeft τ' ≤ pollsLeft τ := by
  obtain ⟨_, _, haborted, _, _⟩ := workerStep_frame h
  have hquiet : τ.worker ≠ .polling →
      (polls (taskEvents τ (.worker t outcome))).length = 0 := by
    intro hne
    simp only [taskEvents, if_neg hne]
    split <;> rfl
  cases hw : τ.worker <;> simp only [workerStep, hw] at h
  case absent | idle | finished => cases h
  case recv =>
    have hnone := hquiet (by simp [hw])
    rw [hnone]
    split at h <;> rename_i hchannel <;> simp only [Option.some.injEq, Prod.mk.injEq] at h <;>
      obtain ⟨rfl, rfl⟩ := h
    · rcases hq with hsig | hover | ⟨_, hclosed⟩
      · exact ⟨.inl hsig, by simp [pollsLeft, hw, hchannel]⟩
      · rw [hw] at hover
        cases hover
      · rw [hchannel] at hclosed
        cases hclosed
    · rcases hq with hsig | hover | ⟨_, hclosed⟩
      · exact ⟨.inl hsig, by simp [pollsLeft]⟩
      · rw [hw] at hover
        cases hover
      · rw [hchannel] at hclosed
        cases hclosed
    · exact ⟨.inr (.inl rfl), by simp [pollsLeft]⟩
  case polling =>
    have hone : pollsLeft τ = 1 := by simp [pollsLeft, hw]
    have hevents : taskEvents τ (.worker t outcome) = [.poll outcome] := by simp [taskEvents, hw]
    rw [hone, hevents]
    split at h <;> simp only [Option.some.injEq, Prod.mk.injEq] at h <;> obtain ⟨rfl, rfl⟩ := h
    case h_1 =>
      rcases hq with hsig | hover | ⟨hphase, _⟩
      · exact ⟨.inl hsig, by simp [pollsLeft, polls, FutureEvent.polled]⟩
      · rw [hw] at hover
        cases hover
      · rw [hw] at hphase
        cases hphase
    all_goals exact ⟨.inr (.inl rfl), by simp [pollsLeft, polls, FutureEvent.polled]⟩
  case dropGuard d =>
    have hnone := hquiet (by simp [hw])
    simp only [Option.map_eq_some_iff, Prod.mk.injEq, Prod.exists] at h
    obtain ⟨_, τ₁, next, hstep, rfl, rfl⟩ := h
    cases next <;> exact ⟨.inr (.inl rfl), by rw [hnone]; simp [pollsLeft]⟩
  case dropReceiver =>
    have hnone := hquiet (by simp [hw])
    simp only [Option.some.injEq, Prod.mk.injEq] at h
    obtain ⟨rfl, rfl⟩ := h
    have hover : isOver (if τ.channel = .full then WorkerPc.dropFuture else .complete) = true := by
      split <;> rfl
    exact ⟨.inr (.inl hover), by rw [hnone, pollsLeft_of_over hover]; omega⟩
  case dropFuture | complete =>
    have hnone := hquiet (by simp [hw])
    simp only [Option.some.injEq, Prod.mk.injEq] at h
    obtain ⟨rfl, rfl⟩ := h
    exact ⟨.inr (.inl rfl), by rw [hnone]; simp [pollsLeft]⟩

/-- What is left to a quelled task only shrinks, with each poll by one. -/
theorem quelled_of_taskStep (hi : TaskInvariant τ) (hq : IsQuelled τ)
    (h : TaskStep t g τ a g' τ') :
    IsQuelled τ' ∧ (polls (taskEvents τ a)).length + pollsLeft τ' ≤ pollsLeft τ := by
  cases h with
  | submitter h =>
      rw [(polls_of_quiet decisive_submitter), List.length_nil, Nat.zero_add]
      exact quelled_of_submitterStep hi hq h
  | worker h => exact quelled_of_workerStep hq h
  | @pickUp received h =>
      have hnone : polls (taskEvents τ (.pickUp t)) = [] := rfl
      rw [hnone, pollsLeft_of_idle h]
      rcases hq with hsig | hover | ⟨hphase, hclosed⟩
      · have hgone : isOver (WorkerPc.cancelled received) = true := by cases received <;> rfl
        refine ⟨.inl hsig, ?_⟩
        rw [pollsLeft_of_over (by rw [hsig, if_pos rfl, hgone])]
        exact Nat.le_refl _
      · rw [h] at hover
        cases hover
      · -- The receiver waits for a payload that nobody will send.
        cases received with
        | true =>
            rw [h] at hphase
            cases hphase
        | false =>
            cases haborted : τ.aborted
            · exact ⟨.inr (.inr ⟨rfl, hclosed⟩), by simp [pollsLeft, hclosed]⟩
            · exact ⟨.inr (.inl rfl), by simp [pollsLeft, WorkerPc.cancelled]⟩
  | @destroy received h =>
      have hgone : isOver (WorkerPc.cancelled received) = true := by cases received <;> rfl
      refine ⟨.inr (.inl hgone), ?_⟩
      rw [pollsLeft_of_over hgone]
      exact Nat.zero_le _
  | abandon | callCancel | sweepNext =>
      exact ⟨hq, (Nat.zero_add _).trans_le (pollsLeft_le rfl id)⟩
  | canceller h =>
      refine ⟨hq.imp_left fun hsig => h.elim (·.trans hsig) id, ?_⟩
      exact (Nat.zero_add _).trans_le (pollsLeft_le rfl id)
  | sweepAbort => exact ⟨.inl rfl, (Nat.zero_add _).trans_le (pollsLeft_le rfl id)⟩

/-- The polls that the task `t` can still make. -/
def pollsLeftOf (t : TaskId) (s : ServiceState) : Nat := (s.tasks[t]?).elim 0 pollsLeft

/-- The task `t` is quelled, or will never be accepted. -/
def Quelled (t : TaskId) (s : ServiceState) : Prop :=
  (∃ τ, s.tasks[t]? = some τ ∧ IsQuelled τ) ∨
    s.shared.isNotRunning = true ∧ ∀ τ, s.tasks[t]? = some τ → isAccepted τ.submitter = false

theorem worker_of_not_accepted (hi : TaskInvariant τ) (h : isAccepted τ.submitter = false) :
    τ.worker = .absent := by
  have hplaced := hi.placed
  have hearly : submitterPhase τ.submitter = .early := by
    cases hs : τ.submitter <;> simp [hs, isAccepted] at h <;> rfl
  rw [hearly] at hplaced
  exact worker_of_absent hplaced.1

theorem polls_of_absent (hworker : τ.worker = .absent) (h : TaskStep t g τ a g' τ') :
    polls (taskEvents τ a) = [] := by
  cases h with
  | submitter => exact (polls_of_quiet decisive_submitter)
  | worker h => simp [workerStep, hworker] at h
  | pickUp h | destroy h =>
      rw [hworker] at h
      cases h
  | abandon | callCancel | canceller | sweepNext | sweepAbort => rfl

theorem quelled_of_step {s s' : ServiceState} (h : (service taskCapacity).Reachable s)
    (hq : Quelled t s) (hnext : (service taskCapacity).step a s = some s') :
    Quelled t s' ∧
      (polls (eventsOf t (futureEvents s a s'))).length + pollsLeftOf t s' ≤ pollsLeftOf t s := by
  have hclosed : s.shared.isNotRunning = true → s'.shared.isNotRunning = true := fun hclosed =>
    isNotRunning_iff.mpr ((lifecycleView taskCapacity).not_running_of_step h hnext
      (isNotRunning_iff.mp hclosed))
  unfold Quelled pollsLeftOf
  cases logged_of_step (t := t) hnext with
  | same htask hevents =>
      rw [htask, hevents]
      exact ⟨hq.imp_right (And.imp_left hclosed), (Nat.zero_add _).le⟩
  | new hbefore hafter hevents =>
      rw [hbefore, hafter, hevents]
      rcases hq with ⟨τ, hτ, _⟩ | ⟨hstopped, _⟩
      · rw [hbefore] at hτ
        cases hτ
      · exact ⟨.inr ⟨hclosed hstopped, fun τ hτ => by obtain rfl := Option.some.inj hτ; rfl⟩,
          Nat.le_refl _⟩
  | @take k τ hbefore hafter hevents =>
      rw [hbefore, hafter, hevents]
      have hleft : pollsLeft (takeEntry k τ) = pollsLeft τ := by
        unfold takeEntry
        split <;> rfl
      refine ⟨?_, by simp [polls, hleft]⟩
      rcases hq with ⟨τ₀, hτ₀, hquelled⟩ | ⟨hstopped, hnot⟩
      · obtain rfl := Option.some.inj (hbefore.symm.trans hτ₀)
        refine .inl ⟨_, rfl, ?_⟩
        unfold takeEntry
        split <;> exact hquelled
      · refine .inr ⟨hclosed hstopped, fun τ' hτ' => ?_⟩
        obtain rfl := Option.some.inj hτ'
        rw [(takeEntry_frame k τ).1]
        exact hnot τ hbefore
  | @task τ τ' hbefore hafter hstep hevents =>
      rw [hbefore, hafter, hevents]
      have hi := taskInvariant_of_reachable h τ (mem_of_getElem? hbefore)
      rcases hq with ⟨τ₀, hτ₀, hquelled⟩ | ⟨hstopped, hnot⟩
      · obtain rfl := Option.some.inj (hbefore.symm.trans hτ₀)
        obtain ⟨hquelled', hle⟩ := quelled_of_taskStep hi hquelled hstep
        exact ⟨.inl ⟨τ', rfl, hquelled'⟩, hle⟩
      · have hrejected := hnot τ hbefore
        have hne : τ.submitter ≠ .inc := by
          intro hinc
          have hrunning := (admissionGate taskCapacity).running_of_isAdmitted h τ
            (mem_of_getElem? hbefore) (congrArg SubmitterPc.isAdmitted hinc)
          exact isNotRunning_iff.mp hstopped hrunning
        have hrejected' : isAccepted τ'.submitter = false :=
          ((isAccepted_of_taskStep hstep).resolve_right hne).trans hrejected
        have hworker := worker_of_not_accepted hi hrejected
        have hworker' := worker_of_not_accepted (taskInvariant_of_taskStep hi hstep) hrejected'
        refine ⟨.inr ⟨hclosed hstopped, fun τ₁ hτ₁ => ?_⟩, ?_⟩
        · exact Option.some.inj hτ₁ ▸ hrejected'
        · rw [polls_of_absent hworker hstep]
          simp [pollsLeft, hworker']

theorem isOver_of_isMarked {w : WorkerPc}
    (h : PayloadStage.isMarked (workerStage (workerPhase w)) = true) :
    isOver w = true := by
  cases w with
  | idle received => cases received <;> cases h
  | absent | recv | polling => cases h
  | dropReceiver | dropFuture | dropGuard | complete | finished => rfl

/-- Whoever drops the guard of a task, its future is not polled any more. -/
theorem quelled_of_markerFinished {s : ServiceState} (h : (service taskCapacity).Reachable s)
    (hτ : τ ∈ s.tasks) (hmarked : τ.markerFinished = true) : IsQuelled τ := by
  obtain ⟨hi, hm⟩ := marked_of_reachable h τ hτ
  have hplaced := hi.placed
  have hstage : PayloadStage.isMarked (stage τ) = true := hm.symm.trans hmarked
  have hended : workerPhase τ.worker = .ended → IsQuelled τ := fun hw =>
    .inr (.inl (isOver_of_isMarked (by rw [hw]; rfl)))
  unfold stage at hstage
  generalize submitterPhase τ.submitter = phase at hplaced hstage
  cases phase with
  | early | holding | futureDropped | failing => cases hstage
  | droppingGuard d => exact hended hplaced.1
  | returned => exact .inr (.inl (isOver_of_isMarked hstage))
  | abandoning | abandoned =>
      obtain ⟨hwaiting | hw, hclosed⟩ := hplaced
      · exact .inr (.inr ⟨hwaiting, hclosed⟩)
      · exact hended hw

/-- A handle resolves to the outcome of the last poll of its future, or to
`Panicked` if the destructor of the future has panicked, for good; and it answers
`Cancelled` only for a future that no poll has completed and whose task has been
aborted or dropped by the runtime. -/
theorem io_result_agrees (h : (logging (service taskCapacity) futureEvents).Reachable p)
    (hτ : p.1.tasks[t]? = some τ) (hreturned : τ.submitter = .returned)
    (hresult : pollHandle τ = some result) :
    result = resultOf (eventsOf t p.2) ∧
      (∀ o ∈ (polls (eventsOf t p.2)).dropLast, o = .pending) ∧
      (result = .cancelled → (∀ o ∈ polls (eventsOf t p.2), o = .pending) ∧
        (τ.aborted = true ∨ .discard ∈ eventsOf t p.2)) ∧
      ∀ p', (logging (service taskCapacity) futureEvents).Run p p' →
        decisive (eventsOf t p'.2) = decisive (eventsOf t p.2) ∧
          ∃ τ', p'.1.tasks[t]? = some τ' ∧ pollHandle τ' = some result := by
  obtain ⟨hworker, rfl⟩ := pollHandle_eq_some.mp hresult
  have ha := agrees_of_logging h hτ
  refine ⟨ha.output, ha.pending, fun hcancelled => ⟨?_, ?_⟩, fun p' hrun => ?_⟩
  · exact (resultOf_eq_cancelled.mp (ha.output ▸ hcancelled)).2
  · rcases ha.signalled (by rw [hworker]; rfl) hcancelled with haborted | hdiscard | hgiven
    · exact .inl haborted
    · exact .inr hdiscard
    · rw [hreturned] at hgiven
      cases hgiven
  · have hs := reachable_of_logging h
    have hdecrements : τ.decrements ≠ 0 := by
      rw [(taskInvariant_of_reachable hs τ (mem_of_getElem? hτ)).decrements, stage, hworker,
        hreturned]
      exact Nat.one_ne_zero
    have hsame := decisive_of_run h hτ hdecrements hrun
    obtain ⟨τ', hτ', hfinished⟩ : ∃ τ', p'.1.tasks[t]? = some τ' ∧ τ'.worker = .finished := by
      refine Run.stable (P := fun s => ∃ τ', s.tasks[t]? = some τ' ∧ τ'.worker = .finished)
        hs (run_of_logging hrun) ⟨τ, hτ, hworker⟩ ?_
      intro s a s' hs hbefore hnext
      obtain ⟨τ₁, hτ₁, hw₁⟩ := hbefore
      have hi := taskInvariant_of_reachable hs τ₁ (mem_of_getElem? hτ₁)
      exact exists_task_of_step hnext hτ₁ hw₁ (fun _ hstep => finished_of_taskStep hi hstep hw₁)
        fun k => (takeEntry_frame k τ₁).2.1.trans hw₁
    refine ⟨hsame, τ', hτ', pollHandle_eq_some.mpr ⟨hfinished, ?_⟩⟩
    rw [(agrees_of_logging (Reachable.run h hrun) hτ').output, ha.output]
    exact resultOf_of_decisive hsame

theorem quelled_of_stopped {s : ServiceState} (h : (service taskCapacity).Reachable s)
    (hreturned : ∃ c ∈ s.closers, c.kind = .stop ∧ c.pc = .returned)
    (hidle : ∀ c ∈ s.closers, c.kind = .stop → c.pc = .returned) (t : TaskId) : Quelled t s := by
  have hclosed : s.shared.isNotRunning = true := by
    obtain ⟨c, hc, _, hpc⟩ := hreturned
    exact isNotRunning_iff.mpr ((closingView taskCapacity).not_running_of_hasStored h c hc
      (congrArg hasStored hpc))
  cases hτ : s.tasks[t]? with
  | none =>
      refine .inr ⟨hclosed, fun τ h => ?_⟩
      rw [hτ] at h
      cases h
  | some τ =>
      have hmem := mem_of_getElem? hτ
      cases hacc : isAccepted τ.submitter with
      | false => exact .inr ⟨hclosed, fun τ' hτ' => Option.some.inj (hτ.symm.trans hτ') ▸ hacc⟩
      | true =>
          have ha := accounted_of_reachable h τ hmem
          refine .inl ⟨τ, hτ, ?_⟩
          rcases ha.gone (gone_of_stopped h hreturned hidle hmem hacc) with
            hmarked | hfinished | hcounted
          · exact quelled_of_markerFinished h hmem hmarked
          · exact .inr (.inl (by rw [hfinished]; rfl))
          · exact .inl (ha.once hcounted).2.2

end

/-- A future that is pending once and then fails. -/
theorem io_result_agrees_failed : ∃ p,
    (logging (service oneSlot) futureEvents).execute
      (.callSpawn :: submission 0 ++ .pickUp 0 :: List.replicate 2 (.worker 0 .pending) ++
        .pickUp 0 :: List.replicate 12 (.worker 0 .failed)) ((service oneSlot).start, []) = some p ∧
    ∀ p', (logging (service oneSlot) futureEvents).Run p p' →
      decisive (eventsOf 0 p'.2) = [.poll .pending, .poll .failed] ∧
        ∃ τ', p'.1.tasks[0]? = some τ' ∧ pollHandle τ' = some .failed := by
  have hexecute : ((logging (service oneSlot) futureEvents).execute
      (.callSpawn :: submission 0 ++ .pickUp 0 :: List.replicate 2 (.worker 0 .pending) ++
        .pickUp 0 :: List.replicate 12 (.worker 0 .failed)) ((service oneSlot).start, [])).map
        (fun p => (p.1.tasks.map fun τ => (τ.submitter, pollHandle τ), p.2)) =
      some ([(.returned, some .failed)], [(0, .poll .pending), (0, .poll .failed)]) := by decide
  obtain ⟨p, hp, hview⟩ := Option.map_eq_some_iff.mp hexecute
  obtain ⟨htasks, hlog⟩ := Prod.mk.inj hview
  obtain ⟨τ, hsingle, hτ⟩ := List.map_eq_singleton_iff.mp htasks
  obtain ⟨hreturned, hresult⟩ := Prod.mk.inj hτ
  have hget : p.1.tasks[0]? = some τ := by rw [hsingle]; rfl
  have hafter := (io_result_agrees (Reachable.of_execute hp) hget hreturned hresult).2.2.2
  refine ⟨p, hp, fun p' hrun => ?_⟩
  obtain ⟨hdecided, hsame⟩ := hafter p' hrun
  rw [hlog] at hdecided
  exact ⟨hdecided, hsame⟩

/-- The destructor of a future panics that has returned. -/
example : ((logging (service oneSlot) futureEvents).execute
    (.callSpawn :: submission 0 ++ .pickUp 0 :: List.replicate 2 (.worker 0 .ok) ++
      List.replicate 11 (.worker 0 .panicked)) ((service oneSlot).start, [])).map
      (fun p => (p.1.tasks.map pollHandle, p.2)) =
    some ([some .panicked], [(0, .poll .ok), (0, .dropPanicked)]) := by decide

end TokioExecutorProofs.IoResults
