import TokioExecutorProofs.BlockingTermination
import TokioExecutorProofs.Durations
import TokioExecutorProofs.TraceRefinements

/-!
A `wait_termination_timeout` call beside the blocking service and a clock. The
monitor promises that a wait is ready only if it has seen the predicate under the
lock, and not ready only after its budget; it may also fail.
-/

namespace TokioExecutorProofs.BlockingTimedWait

open ServiceBasics
open BlockingServiceState
open BlockingServiceState.TokioExecutorServiceState
open BlockingService
open BlockingTermination
open Durations
open TransitionSystems
open TraceRefinements

/-! ### The call -/

/-- What `wait_until_ready_with_total_timeout` returns. -/
inductive WaitOutcome where
  | ready
  | notReady
  | failed
  deriving DecidableEq, Repr

inductive TimedWaitPc where
  | start
  | loadLifecycle
  | readCounts
  | elapsed
  /-- Inside the monitor since the reading `since` of the clock. -/
  | waiting (since : Nat) (budget : Duration)
  | reloadLifecycle
  | rereadCounts
  | returned (terminated : Bool)
  deriving DecidableEq, Repr

structure TimedWait where
  timeout : Duration
  pc : TimedWaitPc := .start
  started : Nat := 0
  deriving Repr

/-- `Duration::from_secs(3600)`. -/
def slice : Duration := ⟨3600000000000, by decide⟩

/-- One step of the call, at the reading `now` of the clock. -/
def timedWaitStep (outcome : WaitOutcome) (now : Nat) (g : TokioExecutorServiceState)
    (w : TimedWait) : Option TimedWait :=
  match w.pc with
  | .start => some { w with pc := .loadLifecycle, started := now }
  | .loadLifecycle =>
      if g.isNotRunning then some { w with pc := .readCounts } else some { w with pc := .elapsed }
  | .readCounts =>
      if g.locks .taskCounts = none then
        some { w with pc := if g.taskCounts.isEmpty then .returned true else .elapsed }
      else none
  | .elapsed =>
      let remaining := w.timeout.saturatingSub (.ofNanos (now - w.started))
      if remaining.isZero then some { w with pc := .returned false }
      else some { w with pc := .waiting now (min remaining slice) }
  | .waiting since budget =>
      match outcome with
      | .ready =>
          -- The monitor evaluates the predicate while it has the lock.
          if g.locks .taskCounts = none ∧ g.isTerminated = true then
            some { w with pc := .returned true }
          else none
      | .notReady =>
          if since + budget.nanos ≤ now then some { w with pc := .loadLifecycle } else none
      | .failed => some { w with pc := .reloadLifecycle }
  | .reloadLifecycle =>
      if g.isNotRunning then some { w with pc := .rereadCounts }
      else some { w with pc := .returned false }
  | .rereadCounts =>
      if g.locks .taskCounts = none then some { w with pc := .returned g.taskCounts.isEmpty }
      else none
  | .returned _ => none

/-! ### The call beside the service -/

structure TimedState where
  service : ServiceState
  /-- The monotone clock, in nanoseconds. -/
  now : Nat := 0
  call : TimedWait

inductive TimedAction where
  | service (a : Action)
  | tick (nanos : Nat)
  | call (outcome : WaitOutcome)
  deriving DecidableEq, Repr

def timedStep : TimedAction → TimedState → Option TimedState
  | .service a, x => (step a x.service).map fun s => { x with service := s }
  | .tick nanos, x => some { x with now := x.now + nanos }
  | .call outcome, x =>
      (timedWaitStep outcome x.now x.service.shared x.call).map fun w => { x with call := w }

def timedService (taskCapacity : NonZeroUsize) (timeout : Duration) :
    TransitionSystem TimedState TimedAction where
  start := { service := (service taskCapacity).start, call := { timeout := timeout } }
  step := timedStep

/-! ### What a call has done -/

inductive CallEvent where
  /-- The call begins at a reading of the clock, on a service that has terminated
  or not. -/
  | began (now : Nat) (terminated : Bool)
  /-- The predicate has a value, and the service has terminated or not. -/
  | checked (terminated : Bool)
  | waits (budget : Duration)
  | waitFailed
  | returned (now : Nat) (answer : Bool)
  deriving DecidableEq, Repr

/-- What the call does in one step, in a state of the service and of the clock. -/
def stepEvents (outcome : WaitOutcome) (now : Nat) (g : TokioExecutorServiceState)
    (w w' : TimedWait) : List CallEvent :=
  (match w.pc with
    | .start => [.began now g.isTerminated]
    | .loadLifecycle | .reloadLifecycle =>
        -- A running service decides the predicate, no matter what the counts are.
        if g.isNotRunning then [] else [.checked g.isTerminated]
    | .readCounts | .rereadCounts => [.checked g.isTerminated]
    | .waiting _ _ =>
        match outcome with
        | .ready => [.checked g.isTerminated]
        | .notReady => []
        | .failed => [.waitFailed]
    | .elapsed | .returned _ => []) ++
  match w'.pc with
  | .waiting _ budget => [.waits budget]
  | .returned answer => [.returned now answer]
  | _ => []

def callEvents : Emission TimedState TimedAction CallEvent
  | x, .call outcome, x' => stepEvents outcome x.now x.service.shared x.call x'.call
  | _, .service _, _ => []
  | _, .tick _, _ => []

def waitsOf (events : List CallEvent) : Nat :=
  events.countP fun
    | .waits _ => true
    | _ => false

/-- What the last check of the predicate saw. -/
def lastCheck (events : List CallEvent) : Option Bool :=
  (events.filterMap fun
    | .checked terminated => some terminated
    | _ => none).getLast?

section

variable {events : List CallEvent}

@[simp] theorem waitsOf_nil : waitsOf [] = 0 := rfl

@[simp] theorem waitsOf_cons {e : CallEvent} : waitsOf (e :: events) = waitsOf events +
    match e with
    | .waits _ => 1
    | _ => 0 := by
  rw [waitsOf, List.countP_cons]
  cases e <;> rfl

@[simp] theorem waitsOf_append {events' : List CallEvent} :
    waitsOf (events ++ events') = waitsOf events + waitsOf events' :=
  List.countP_append

@[simp] theorem lastCheck_nil : lastCheck [] = none := rfl

@[simp] theorem lastCheck_append {events' : List CallEvent} :
    lastCheck (events ++ events') = (lastCheck events').or (lastCheck events) := by
  rw [lastCheck, List.filterMap_append, List.getLast?_append]
  rfl

@[simp] theorem lastCheck_cons {e : CallEvent} :
    lastCheck (e :: events) = (lastCheck events).or
      (match e with
        | .checked terminated => some terminated
        | _ => none) := by
  have happend : lastCheck ([e] ++ events) = (lastCheck events).or (lastCheck [e]) :=
    lastCheck_append
  cases e <;> exact happend

end

/-! ### What holds of a call -/

/-- The waits that the timeout has room for. -/
def maxWaits (timeout : Duration) : Nat := timeout.nanos ⌈/⌉ slice.nanos

/-- The slices that the call has waited for have elapsed since its start. -/
def TimedWait.Slept (now : Nat) (events : List CallEvent) (w : TimedWait) : Prop :=
  w.started ≤ now ∧ Sliced w.timeout.nanos slice.nanos (waitsOf events) (now - w.started)

/-- What a position of the call knows, where `early` tells whether the service had
terminated when the call began. -/
def TimedWait.Knows (now : Nat) (g : TokioExecutorServiceState) (early : Bool)
    (events : List CallEvent) (w : TimedWait) : Prop :=
  match w.pc with
  | .start => False
  | .loadLifecycle => w.Slept now events ∧ (early = true → waitsOf events = 0)
  | .readCounts =>
      w.Slept now events ∧ (early = true → waitsOf events = 0) ∧ g.isNotRunning = true
  | .elapsed => w.Slept now events ∧ early = false ∧ lastCheck events = some false
  | .waiting since budget =>
      w.started ≤ since ∧ since ≤ now ∧ early = false ∧
        budget.nanos = min (w.timeout.nanos - (since - w.started)) slice.nanos ∧
        ∃ n, waitsOf events = n + 1 ∧ Sliced w.timeout.nanos slice.nanos n (since - w.started)
  | .reloadLifecycle => .waitFailed ∈ events ∧ early = false
  | .rereadCounts => .waitFailed ∈ events ∧ early = false ∧ g.isNotRunning = true
  | .returned true =>
      g.isTerminated = true ∧ (early = true → waitsOf events = 0) ∧ lastCheck events = some true
  | .returned false =>
      early = false ∧ lastCheck events = some false ∧
        ((∃ m, .returned m false ∈ events ∧ w.timeout.nanos ≤ m - w.started) ∨
          .waitFailed ∈ events)

/-- What holds of a call that has begun. -/
structure TimedWait.Sound (now : Nat) (g : TokioExecutorServiceState) (early : Bool)
    (events : List CallEvent) (w : TimedWait) : Prop where
  bounded : waitsOf events ≤ maxWaits w.timeout
  absorbing : early = true → g.isTerminated = true
  knows : w.Knows now g early events

section

variable {now now' : Nat} {g g' : TokioExecutorServiceState} {w w' : TimedWait}
  {outcome : WaitOutcome} {early : Bool} {events : List CallEvent}

theorem TimedWait.Sound.mono (h : w.Sound now g early events) (hle : now ≤ now')
    (hclosed : g.isNotRunning = true → g'.isNotRunning = true)
    (hterminated : g.isTerminated = true → g'.isTerminated = true) :
    w.Sound now' g' early events := by
  have hslept : w.Slept now events → w.Slept now' events := fun hslept =>
    ⟨hslept.1.trans hle, hslept.2.mono (Nat.sub_le_sub_right hle _)⟩
  obtain ⟨hbounded, hearly, hknows⟩ := h
  refine ⟨hbounded, fun hstart => hterminated (hearly hstart), ?_⟩
  unfold TimedWait.Knows at *
  split at hknows
  · exact hknows
  · exact ⟨hslept hknows.1, hknows.2⟩
  · exact ⟨hslept hknows.1, hknows.2.1, hclosed hknows.2.2⟩
  · exact ⟨hslept hknows.1, hknows.2⟩
  · exact ⟨hknows.1, hknows.2.1.trans hle, hknows.2.2⟩
  · exact hknows
  · exact ⟨hknows.1, hknows.2.1, hclosed hknows.2.2⟩
  · exact ⟨hterminated hknows.1, hknows.2⟩
  · exact hknows

theorem isTerminated_of_checks (hclosed : g.isNotRunning = true)
    (hempty : g.taskCounts.isEmpty = true) : g.isTerminated = true := by
  rw [isTerminated, hclosed, hempty]
  rfl

/-- A check that misses the termination shows that the call did not begin after
it. -/
theorem TimedWait.Sound.not_early (h : w.Sound now g early events)
    (hmissed : g.isTerminated = false) : early = false := by
  by_contra hstart
  rw [h.absorbing (by simpa using hstart)] at hmissed
  cases hmissed

theorem TimedWait.Sound.start (hpc : w.pc = .start)
    (hstep : timedWaitStep outcome now g w = some w') :
    stepEvents outcome now g w w' = [.began w'.started g.isTerminated] ∧
      w'.Sound now g g.isTerminated [] := by
  simp only [timedWaitStep, hpc] at hstep
  obtain rfl := Option.some.inj hstep
  refine ⟨by simp [stepEvents, hpc], Nat.zero_le _, id, ⟨le_rfl, sliced_zero⟩, fun _ => rfl⟩

theorem TimedWait.Sound.loadLifecycle (h : w.Sound now g early events)
    (hpc : w.pc = .loadLifecycle) (hstep : timedWaitStep outcome now g w = some w') :
    w'.Sound now g early (events ++ stepEvents outcome now g w w') := by
  have hknows := h.knows
  simp only [TimedWait.Knows, hpc] at hknows
  simp only [timedWaitStep, hpc] at hstep
  cases hclosed : g.isNotRunning with
  | true =>
      rw [if_pos hclosed] at hstep
      obtain rfl := Option.some.inj hstep
      have hevents : stepEvents outcome now g w { w with pc := .readCounts } = [] := by
        simp [stepEvents, hpc, hclosed]
      rw [hevents, List.append_nil]
      exact ⟨h.bounded, h.absorbing, ⟨hknows.1, hknows.2, hclosed⟩⟩
  | false =>
      rw [if_neg (by simp [hclosed])] at hstep
      obtain rfl := Option.some.inj hstep
      have hmissed : g.isTerminated = false := by simp [isTerminated, hclosed]
      have hevents : stepEvents outcome now g w { w with pc := .elapsed } =
          [.checked false] := by
        simp [stepEvents, hpc, hclosed, hmissed]
      rw [hevents]
      refine ⟨by simpa using h.bounded, h.absorbing, ⟨?_, h.not_early hmissed, by simp⟩⟩
      simpa [TimedWait.Slept] using hknows.1

theorem TimedWait.Sound.readCounts (h : w.Sound now g early events) (hpc : w.pc = .readCounts)
    (hstep : timedWaitStep outcome now g w = some w') :
    w'.Sound now g early (events ++ stepEvents outcome now g w w') := by
  have hknows := h.knows
  simp only [TimedWait.Knows, hpc] at hknows
  obtain ⟨hslept, hearly, hclosed⟩ := hknows
  simp only [timedWaitStep, hpc] at hstep
  split at hstep
  · obtain rfl := Option.some.inj hstep
    cases hempty : g.taskCounts.isEmpty with
    | true =>
        have hseen := isTerminated_of_checks hclosed hempty
        have hevents : stepEvents outcome now g w { w with pc := .returned true } =
            [.checked true, .returned now true] := by
          simp [stepEvents, hpc, hseen]
        rw [if_pos rfl, hevents]
        exact ⟨by simpa using h.bounded, h.absorbing, hseen, by simpa using hearly, by simp⟩
    | false =>
        have hmissed : g.isTerminated = false := by simp [isTerminated, hempty]
        have hevents : stepEvents outcome now g w { w with pc := .elapsed } =
            [.checked false] := by
          simp [stepEvents, hpc, hmissed]
        rw [if_neg (by simp), hevents]
        refine ⟨by simpa using h.bounded, h.absorbing, ⟨?_, h.not_early hmissed, by simp⟩⟩
        simpa [TimedWait.Slept] using hslept
  · cases hstep

theorem TimedWait.Sound.elapsed (h : w.Sound now g early events) (hpc : w.pc = .elapsed)
    (hstep : timedWaitStep outcome now g w = some w') :
    w'.Sound now g early (events ++ stepEvents outcome now g w w') := by
  have hknows := h.knows
  simp only [TimedWait.Knows, hpc] at hknows
  obtain ⟨⟨hle, hsliced⟩, hnot, hcheck⟩ := hknows
  simp only [timedWaitStep, hpc] at hstep
  split at hstep <;> obtain rfl := Option.some.inj hstep
  · rename_i hzero
    rw [Duration.isZero_saturatingSub_ofNanos] at hzero
    have hevents : stepEvents outcome now g w { w with pc := .returned false } =
        [.returned now false] := by
      simp [stepEvents, hpc]
    rw [hevents]
    exact ⟨by simpa using h.bounded, h.absorbing, hnot, by simpa using hcheck,
      .inl ⟨now, by simp, hzero⟩⟩
  · rename_i hleft
    rw [Duration.isZero_saturatingSub_ofNanos] at hleft
    have hroom := hsliced.lt_ceilDiv (by decide) (Nat.lt_of_not_le hleft)
    have hevents : ∀ budget, stepEvents outcome now g w { w with pc := .waiting now budget } =
        [.waits budget] := by
      simp [stepEvents, hpc]
    rw [hevents]
    refine ⟨by simpa [maxWaits, Nat.succ_le_iff] using hroom, h.absorbing,
      ⟨hle, le_rfl, hnot, ?_, waitsOf events, by simp, hsliced⟩⟩
    exact Duration.nanos_min_saturatingSub _ _ _

theorem TimedWait.Sound.waiting (h : w.Sound now g early events) {since : Nat}
    {budget : Duration} (hpc : w.pc = .waiting since budget)
    (hstep : timedWaitStep outcome now g w = some w') :
    w'.Sound now g early (events ++ stepEvents outcome now g w w') := by
  have hknows := h.knows
  simp only [TimedWait.Knows, hpc] at hknows
  obtain ⟨hstarted, hsince, hnot, hbudget, n, hn, hsliced⟩ := hknows
  simp only [timedWaitStep, hpc] at hstep
  cases outcome with
  | ready =>
      dsimp only at hstep
      split at hstep
      · rename_i hseen
        obtain rfl := Option.some.inj hstep
        have hevents : stepEvents .ready now g w { w with pc := .returned true } =
            [.checked true, .returned now true] := by
          simp [stepEvents, hpc, hseen.2]
        rw [hevents]
        exact ⟨by simpa using h.bounded, h.absorbing, hseen.2, by simp [hnot], by simp⟩
      · cases hstep
  | notReady =>
      dsimp only at hstep
      split at hstep
      · rename_i hover
        obtain rfl := Option.some.inj hstep
        have hevents : stepEvents .notReady now g w { w with pc := .loadLifecycle } = [] := by
          simp [stepEvents, hpc]
        rw [hevents, List.append_nil]
        refine ⟨h.bounded, h.absorbing, ⟨⟨hstarted.trans hsince, ?_⟩, by simp [hnot]⟩⟩
        show Sliced w.timeout.nanos slice.nanos (waitsOf events) (now - w.started)
        rw [hn]
        exact hsliced.wait (by omega)
      · cases hstep
  | failed =>
      obtain rfl := Option.some.inj hstep
      have hevents : stepEvents .failed now g w { w with pc := .reloadLifecycle } =
          [.waitFailed] := by
        simp [stepEvents, hpc]
      rw [hevents]
      exact ⟨by simpa using h.bounded, h.absorbing, ⟨by simp, hnot⟩⟩

theorem TimedWait.Sound.reloadLifecycle (h : w.Sound now g early events)
    (hpc : w.pc = .reloadLifecycle) (hstep : timedWaitStep outcome now g w = some w') :
    w'.Sound now g early (events ++ stepEvents outcome now g w w') := by
  have hknows := h.knows
  simp only [TimedWait.Knows, hpc] at hknows
  obtain ⟨hfailed, hnot⟩ := hknows
  simp only [timedWaitStep, hpc] at hstep
  cases hclosed : g.isNotRunning with
  | true =>
      rw [if_pos hclosed] at hstep
      obtain rfl := Option.some.inj hstep
      have hevents : stepEvents outcome now g w { w with pc := .rereadCounts } = [] := by
        simp [stepEvents, hpc, hclosed]
      rw [hevents, List.append_nil]
      exact ⟨h.bounded, h.absorbing, ⟨hfailed, hnot, hclosed⟩⟩
  | false =>
      rw [if_neg (by simp [hclosed])] at hstep
      obtain rfl := Option.some.inj hstep
      have hevents : stepEvents outcome now g w { w with pc := .returned false } =
          [.checked false, .returned now false] := by
        simp [stepEvents, hpc, hclosed, isTerminated]
      rw [hevents]
      exact ⟨by simpa using h.bounded, h.absorbing, hnot, by simp,
        .inr (List.mem_append_left _ hfailed)⟩

theorem TimedWait.Sound.rereadCounts (h : w.Sound now g early events)
    (hpc : w.pc = .rereadCounts) (hstep : timedWaitStep outcome now g w = some w') :
    w'.Sound now g early (events ++ stepEvents outcome now g w w') := by
  have hknows := h.knows
  simp only [TimedWait.Knows, hpc] at hknows
  obtain ⟨hfailed, hnot, hclosed⟩ := hknows
  simp only [timedWaitStep, hpc] at hstep
  split at hstep
  · obtain rfl := Option.some.inj hstep
    have hseen : g.isTerminated = g.taskCounts.isEmpty := by simp [isTerminated, hclosed]
    have hevents : stepEvents outcome now g w { w with pc := .returned g.taskCounts.isEmpty } =
        [.checked g.isTerminated, .returned now g.isTerminated] := by
      simp [stepEvents, hpc, hseen]
    rw [hevents, ← hseen]
    refine ⟨by simpa using h.bounded, h.absorbing, ?_⟩
    cases hterminated : g.isTerminated with
    | true => exact ⟨hterminated, by simp [hnot], by simp⟩
    | false => exact ⟨hnot, by simp, .inr (List.mem_append_left _ hfailed)⟩
  · cases hstep

theorem TimedWait.Sound.step (h : w.Sound now g early events)
    (hstep : timedWaitStep outcome now g w = some w') :
    w'.Sound now g early (events ++ stepEvents outcome now g w w') := by
  cases hpc : w.pc with
  | start => exact absurd h.knows (by simp [TimedWait.Knows, hpc])
  | loadLifecycle => exact h.loadLifecycle hpc hstep
  | readCounts => exact h.readCounts hpc hstep
  | elapsed => exact h.elapsed hpc hstep
  | waiting => exact h.waiting hpc hstep
  | reloadLifecycle => exact h.reloadLifecycle hpc hstep
  | rereadCounts => exact h.rereadCounts hpc hstep
  | returned => simp [timedWaitStep, hpc] at hstep

end

/-! ### The call returns -/

def TimedWaitPc.rank : TimedWaitPc → Nat
  | .start | .waiting _ _ => 4
  | .loadLifecycle => 3
  | .readCounts | .reloadLifecycle => 2
  | .elapsed | .rereadCounts => 1
  | .returned _ => 0

/-- A bound on the steps that the call still takes. -/
def stepsLeft (events : List CallEvent) (w : TimedWait) : Nat :=
  4 * (maxWaits w.timeout - waitsOf events) + w.pc.rank

section

variable {now : Nat} {g : TokioExecutorServiceState} {w w' : TimedWait} {outcome : WaitOutcome}
  {early : Bool} {events : List CallEvent}

/-- A step begins a wait or comes closer to the next one. -/
theorem waits_or_descends (hstep : timedWaitStep outcome now g w = some w') :
    (waitsOf (stepEvents outcome now g w w') = 1 ∧ w.pc.rank = 1 ∧ w'.pc.rank = 4) ∨
      (waitsOf (stepEvents outcome now g w w') = 0 ∧ w'.pc.rank < w.pc.rank) := by
  cases hpc : w.pc with
  | start =>
      simp only [timedWaitStep, hpc] at hstep
      obtain rfl := Option.some.inj hstep
      simp [stepEvents, hpc, TimedWaitPc.rank]
  | loadLifecycle | reloadLifecycle =>
      simp only [timedWaitStep, hpc] at hstep
      cases hclosed : g.isNotRunning with
      | true =>
          rw [if_pos hclosed] at hstep
          obtain rfl := Option.some.inj hstep
          simp [stepEvents, hpc, hclosed, TimedWaitPc.rank]
      | false =>
          rw [if_neg (by simp [hclosed])] at hstep
          obtain rfl := Option.some.inj hstep
          simp [stepEvents, hpc, hclosed, TimedWaitPc.rank]
  | readCounts | rereadCounts =>
      simp only [timedWaitStep, hpc] at hstep
      split at hstep
      · obtain rfl := Option.some.inj hstep
        cases hempty : g.taskCounts.isEmpty <;> simp [stepEvents, hpc, TimedWaitPc.rank]
      · cases hstep
  | elapsed =>
      simp only [timedWaitStep, hpc] at hstep
      split at hstep <;> obtain rfl := Option.some.inj hstep <;>
        simp [stepEvents, hpc, TimedWaitPc.rank]
  | waiting since budget =>
      simp only [timedWaitStep, hpc] at hstep
      cases outcome with
      | ready | notReady =>
          dsimp only at hstep
          split at hstep
          · obtain rfl := Option.some.inj hstep
            simp [stepEvents, hpc, TimedWaitPc.rank]
          · cases hstep
      | failed =>
          obtain rfl := Option.some.inj hstep
          simp [stepEvents, hpc, TimedWaitPc.rank]
  | returned => simp [timedWaitStep, hpc] at hstep

theorem timeout_of_step (hstep : timedWaitStep outcome now g w = some w') :
    w'.timeout = w.timeout := by
  grind -linarith [timedWaitStep]

theorem started_of_step (hbegan : w.pc ≠ .start)
    (hstep : timedWaitStep outcome now g w = some w') : w'.started = w.started := by
  grind -linarith [timedWaitStep]

theorem stepsLeft_of_step
    (hbounded : waitsOf (events ++ stepEvents outcome now g w w') ≤ maxWaits w'.timeout)
    (hstep : timedWaitStep outcome now g w = some w') :
    stepsLeft (events ++ stepEvents outcome now g w w') w' < stepsLeft events w := by
  rw [timeout_of_step hstep, waitsOf_append] at hbounded
  rw [stepsLeft, stepsLeft, timeout_of_step hstep, waitsOf_append]
  have hmoves := waits_or_descends hstep
  omega

/-- With the monitor free the call is not stuck: its wait ends in time. -/
theorem step_of_free (hfree : g.locks .taskCounts = none) (hpc : ∀ b, w.pc ≠ .returned b) :
    ∃ nanos w', timedWaitStep .notReady (now + nanos) g w = some w' := by
  cases hw : w.pc with
  | start => exact ⟨0, _, by rw [timedWaitStep, hw]⟩
  | waiting since budget =>
      refine ⟨since + budget.nanos, { w with pc := .loadLifecycle }, ?_⟩
      simp only [timedWaitStep, hw]
      exact if_pos (Nat.le_add_left _ _)
  | elapsed | loadLifecycle | reloadLifecycle =>
      refine ⟨0, ?_⟩
      simp only [timedWaitStep, hw]
      split <;> exact ⟨_, rfl⟩
  | readCounts | rereadCounts =>
      refine ⟨0, ?_⟩
      simp only [timedWaitStep, hw, hfree]
      exact ⟨_, rfl⟩
  | returned b => exact absurd hw (hpc b)

end

/-! ### Over whole runs -/

section

variable {taskCapacity : NonZeroUsize} {timeout : Duration}
  {x x' : TimedState} {p p' : TimedState × List CallEvent}

/-- What holds of a call together with all that it has done. -/
def Recorded (p : TimedState × List CallEvent) : Prop :=
  (p.1.call.pc = .start ∧ p.2 = []) ∨
  (p.1.call.pc ≠ .start ∧ ∃ early events, p.2 = .began p.1.call.started early :: events ∧
    p.1.call.Sound p.1.now p.1.service.shared early events)

theorem Recorded.call {outcome : WaitOutcome} {w : TimedWait} (h : Recorded p)
    (hw : timedWaitStep outcome p.1.now p.1.service.shared p.1.call = some w) :
    Recorded ({ p.1 with call := w },
      p.2 ++ stepEvents outcome p.1.now p.1.service.shared p.1.call w) := by
  rcases h with ⟨hpc, hlog⟩ | ⟨hpc, early, events, hlog, hsound⟩
  · obtain ⟨hevents, hsound⟩ := TimedWait.Sound.start hpc hw
    refine .inr ⟨fun hstart => ?_, _, [], by rw [hlog, hevents]; rfl, hsound⟩
    have := hsound.knows
    simp only at hstart
    simp [TimedWait.Knows, hstart] at this
  · have hsound' := hsound.step hw
    refine .inr ⟨fun hstart => ?_, early, _, ?_, hsound'⟩
    · have := hsound'.knows
      simp only at hstart
      simp [TimedWait.Knows, hstart] at this
    · rw [hlog, List.cons_append]
      simp only [started_of_step hpc hw]

theorem service_of_step (hservice : (service taskCapacity).Reachable x.service) {a : TimedAction}
    (ha : ∀ outcome, a ≠ .call outcome)
    (hstep : (timedService taskCapacity timeout).step a x = some x') :
    (service taskCapacity).Reachable x'.service ∧ x'.call = x.call ∧ x.now ≤ x'.now ∧
      (x.service.shared.isNotRunning = true → x'.service.shared.isNotRunning = true) ∧
      (x.service.shared.isTerminated = true → x'.service.shared.isTerminated = true) := by
  cases a with
  | service a =>
      obtain ⟨s, hs, rfl⟩ := Option.map_eq_some_iff.mp hstep
      have hrun : (service taskCapacity).Run x.service s :=
        RunUnder.tail (runUnder_refl _) trivial hs
      refine ⟨Reachable.run hservice hrun, rfl, le_rfl, fun hclosed => ?_, fun hterminated => ?_⟩
      · exact isNotRunning_iff.mpr
          ((lifecycleView taskCapacity).not_running_of_run hservice hrun
            (isNotRunning_iff.mp hclosed))
      · exact isTerminated_of_run hservice hterminated hrun
  | tick nanos =>
      obtain rfl := Option.some.inj hstep
      exact ⟨hservice, rfl, Nat.le_add_right _ _, id, id⟩
  | call outcome => exact absurd rfl (ha outcome)

theorem recorded_of_reachable
    (h : (logging (timedService taskCapacity timeout) callEvents).Reachable p) :
    (service taskCapacity).Reachable p.1.service ∧ p.1.call.timeout = timeout ∧ Recorded p := by
  refine Reachable.invariant (P := fun p => (service taskCapacity).Reachable p.1.service ∧
    p.1.call.timeout = timeout ∧ Recorded p) h ?_ ?_
  · exact ⟨runUnder_refl _, rfl, .inl ⟨rfl, rfl⟩⟩
  rintro p a p' - ⟨hservice, htimeout, hrecorded⟩ hnext
  obtain ⟨x', hstep, rfl⟩ := Option.map_eq_some_iff.mp hnext
  cases a with
  | service a | tick nanos =>
      obtain ⟨hservice', hcall, hle, hclosed, hterminated⟩ :=
        service_of_step hservice (by simp) hstep
      refine ⟨hservice', by rw [hcall, htimeout], ?_⟩
      rw [callEvents, List.append_nil, Recorded, hcall]
      exact hrecorded.imp_right fun ⟨hpc, early, events, hlog, hsound⟩ =>
        ⟨hpc, early, events, hlog, hsound.mono hle hclosed hterminated⟩
  | call outcome =>
      obtain ⟨w, hw, rfl⟩ := Option.map_eq_some_iff.mp hstep
      exact ⟨hservice, (timeout_of_step hw).trans htimeout, hrecorded.call hw⟩

theorem Recorded.bounded (h : Recorded p) : waitsOf p.2 ≤ maxWaits p.1.call.timeout := by
  rcases h with ⟨_, hlog⟩ | ⟨_, early, events, hlog, hsound⟩
  · rw [hlog]
    exact Nat.zero_le _
  · rw [hlog]
    simpa using hsound.bounded

theorem stepsLeft_of_call {outcome : WaitOutcome}
    (h : (logging (timedService taskCapacity timeout) callEvents).Reachable p)
    (hnext : (logging (timedService taskCapacity timeout) callEvents).step (.call outcome) p =
      some p') : stepsLeft p'.2 p'.1.call < stepsLeft p.2 p.1.call := by
  have hbounded := (recorded_of_reachable (RunUnder.tail h trivial hnext)).2.2.bounded
  obtain ⟨hstep, hlog⟩ := logging_step hnext
  obtain ⟨w, hw, hcall⟩ := Option.map_eq_some_iff.mp hstep
  rw [hlog, ← hcall] at hbounded ⊢
  exact stepsLeft_of_step hbounded hw

theorem returns_of_free
    (h : (logging (timedService taskCapacity timeout) callEvents).Reachable p)
    (hfree : p.1.service.shared.locks .taskCounts = none) :
    ∃ p' b, (logging (timedService taskCapacity timeout) callEvents).RunUnder
      (fun _ a => ∀ b, a ≠ .service b) p p' ∧ p'.1.call.pc = .returned b := by
  induction hn : stepsLeft p.2 p.1.call using Nat.strong_induction_on generalizing p with
  | _ n ih =>
      by_cases hpc : ∃ b, p.1.call.pc = .returned b
      · obtain ⟨b, hb⟩ := hpc
        exact ⟨p, b, runUnder_refl p, hb⟩
      · obtain ⟨nanos, w, hw⟩ : ∃ nanos w, timedWaitStep .notReady (p.1.now + nanos)
            p.1.service.shared p.1.call = some w := step_of_free hfree (not_exists.mp hpc)
        have htick : (logging (timedService taskCapacity timeout) callEvents).step (.tick nanos) p =
            some ({ p.1 with now := p.1.now + nanos }, p.2) := by
          simp [logging, timedService, timedStep, callEvents]
        have hcall : (logging (timedService taskCapacity timeout) callEvents).step
            (.call .notReady) ({ p.1 with now := p.1.now + nanos }, p.2) =
              some ({ p.1 with now := p.1.now + nanos, call := w }, p.2 ++
                stepEvents .notReady (p.1.now + nanos) p.1.service.shared p.1.call w) := by
          simp [logging, timedService, timedStep, callEvents, hw]
        have hlater := RunUnder.tail h trivial htick
        have hless := stepsLeft_of_call hlater hcall
        obtain ⟨p', b, hrun, hb⟩ := ih _ (hn ▸ hless) (RunUnder.tail hlater trivial hcall) hfree rfl
        refine ⟨p', b, RunUnder.trans ?_ hrun, hb⟩
        exact RunUnder.tail (RunUnder.tail (runUnder_refl p) (by simp) htick) (by simp) hcall

theorem not_refused_of_terminated (h : (service taskCapacity).Reachable x.service)
    (hpc : x.call.pc = .start) (hterminated : x.service.shared.isTerminated = true)
    (hrun : (timedService taskCapacity timeout).Run x x') : x'.call.pc ≠ .returned false := by
  have hearly : (service taskCapacity).Reachable x'.service ∧
      x'.service.shared.isTerminated = true ∧ (x'.call.pc = .start ∨
        ∃ events, x'.call.Sound x'.now x'.service.shared true events) := by
    refine RunUnder.preserves (P := fun x' => (service taskCapacity).Reachable x'.service ∧
      x'.service.shared.isTerminated = true ∧ (x'.call.pc = .start ∨
        ∃ events, x'.call.Sound x'.now x'.service.shared true events))
      hrun ⟨h, hterminated, .inl hpc⟩ ?_
    rintro y a y' ⟨hservice, hseen, hcall⟩ - hstep
    cases a with
    | service a | tick nanos =>
        obtain ⟨hservice', hsame, hle, hclosed, hlater⟩ :=
          service_of_step hservice (by simp) hstep
        refine ⟨hservice', hlater hseen, ?_⟩
        rw [hsame]
        exact hcall.imp_right fun ⟨events, hsound⟩ => ⟨events, hsound.mono hle hclosed hlater⟩
    | call outcome =>
        obtain ⟨w, hw, rfl⟩ := Option.map_eq_some_iff.mp hstep
        refine ⟨hservice, hseen, .inr ?_⟩
        rcases hcall with hstart | ⟨events, hsound⟩
        · exact ⟨[], hseen ▸ (TimedWait.Sound.start hstart hw).2⟩
        · exact ⟨_, hsound.step hw⟩
  obtain ⟨_, _, hstart | ⟨events, hsound⟩⟩ := hearly
  · simp [hstart]
  · intro hrefused
    have hknows := hsound.knows
    simp [TimedWait.Knows, hrefused] at hknows

/-- In one-hour slices the call answers as one wait for the whole timeout would. It
returns after boundedly many steps of its own. -/
theorem sliced_wait_sound
    (h : (logging (timedService taskCapacity timeout) callEvents).Reachable p) :
    (p.1.call.pc = .start ∧ p.2 = [] ∨
      ∃ began early events, p.2 = .began began early :: events ∧
        (p.1.call.pc = .returned true →
          lastCheck events = some true ∧ p.1.service.shared.isTerminated = true) ∧
        (early = true → p.1.call.pc ≠ .returned false ∧ waitsOf events = 0) ∧
        (p.1.call.pc = .returned false → lastCheck events = some false ∧
          ((∃ now, .returned now false ∈ events ∧ timeout.nanos ≤ now - began) ∨
            .waitFailed ∈ events)) ∧
        waitsOf events ≤ timeout.nanos ⌈/⌉ slice.nanos) ∧
    (p.1.call.pc = .start → p.1.service.shared.isTerminated = true →
      ∀ x', (timedService taskCapacity timeout).Run p.1 x' → x'.call.pc ≠ .returned false) ∧
    (∀ outcome p', (logging (timedService taskCapacity timeout) callEvents).step (.call outcome) p =
      some p' → stepsLeft p'.2 p'.1.call < stepsLeft p.2 p.1.call) ∧
    (p.1.service.shared.locks .taskCounts = none →
      ∃ p' b, (logging (timedService taskCapacity timeout) callEvents).RunUnder
        (fun _ a => ∀ b, a ≠ .service b) p p' ∧ p'.1.call.pc = .returned b) := by
  obtain ⟨hservice, htimeout, hrecorded⟩ := recorded_of_reachable h
  refine ⟨hrecorded.imp_right fun ⟨_, early, events, hlog, hsound⟩ => ?_,
    fun hpc hterminated _ => not_refused_of_terminated hservice hpc hterminated,
    fun outcome p' => stepsLeft_of_call h, returns_of_free h⟩
  have hknows := hsound.knows
  refine ⟨_, early, events, hlog, fun hpc => ?_, fun hearly => ?_, fun hpc => ?_, ?_⟩
  · simp only [TimedWait.Knows, hpc] at hknows
    exact ⟨hknows.2.2, hknows.1⟩
  · unfold TimedWait.Knows at hknows
    split at hknows <;> simp_all
  · simp only [TimedWait.Knows, hpc] at hknows
    exact htimeout ▸ hknows.2
  · exact htimeout ▸ hsound.bounded

end

def twoHours : Duration := ⟨7200000000000, by decide⟩

/-- The service keeps running, so two slices pass before the call gives up. -/
theorem sliced_wait_sound_two_slices :
    ∃ p, (logging (timedService oneSlot twoHours) callEvents).execute
      (.call .ready :: .call .ready :: .call .ready ::
        .tick 3600000000000 :: .call .notReady :: .call .ready :: .call .ready ::
        .tick 3600000000000 :: .call .notReady :: .call .ready :: .call .ready :: [])
        (logging (timedService oneSlot twoHours) callEvents).start = some p ∧
    p.1.call.pc = .returned false ∧ ∃ events, p.2 = .began 0 false :: events ∧
      lastCheck events = some false ∧
      ((∃ now, .returned now false ∈ events ∧ twoHours.nanos ≤ now - 0) ∨
        .waitFailed ∈ events) ∧
      waitsOf events = 2 ∧ waitsOf events ≤ twoHours.nanos ⌈/⌉ slice.nanos := by
  have hexecute : ((logging (timedService oneSlot twoHours) callEvents).execute
      (.call .ready :: .call .ready :: .call .ready ::
        .tick 3600000000000 :: .call .notReady :: .call .ready :: .call .ready ::
        .tick 3600000000000 :: .call .notReady :: .call .ready :: .call .ready :: [])
        (logging (timedService oneSlot twoHours) callEvents).start).map
          (fun p => (p.1.call.pc, p.2.head?, waitsOf p.2.tail)) =
      some (.returned false, some (.began 0 false), 2) := by decide
  obtain ⟨p, hp, hview⟩ := Option.map_eq_some_iff.mp hexecute
  simp only [Prod.mk.injEq] at hview
  obtain ⟨hpc, hbegan, hwaits⟩ := hview
  obtain ⟨⟨hstart, _⟩ | ⟨began, early, events, hlog, _, _, hrefused, hbounded⟩, _⟩ :=
    sliced_wait_sound (Reachable.of_execute hp)
  · simp [hpc] at hstart
  · rw [hlog] at hbegan hwaits
    obtain ⟨rfl, rfl⟩ : began = 0 ∧ early = false := by simpa using hbegan
    obtain ⟨hcheck, hreason⟩ := hrefused hpc
    exact ⟨p, hp, hpc, events, hlog, hcheck, hreason, hwaits, hbounded⟩

end TokioExecutorProofs.BlockingTimedWait
