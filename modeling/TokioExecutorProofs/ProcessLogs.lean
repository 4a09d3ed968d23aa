import TokioExecutorProofs.TraceRefinements

/-!
Logs of many processes. Every event carries the process that it belongs to, so
that the log of a run holds the history of each process; what happens later can
be bounded by what the state still allows.
-/

namespace TokioExecutorProofs.ProcessLogs

open TransitionSystems
open TransitionSystem
open TraceRefinements

universe u v w x

variable {State : Type u} {Action : Type v} {Process : Type w} {Event : Type x}
  [DecidableEq Process]

/-- The history of process `i`. -/
def eventsOf (i : Process) (log : List (Process × Event)) : List Event :=
  log.filterMap fun e => if e.1 = i then some e.2 else none

variable {i j : Process} {log log' : List (Process × Event)} {events : List Event}

@[simp] theorem eventsOf_nil : eventsOf i ([] : List (Process × Event)) = [] := rfl

@[simp] theorem eventsOf_append :
    eventsOf i (log ++ log') = eventsOf i log ++ eventsOf i log' :=
  List.filterMap_append

theorem eventsOf_map_self : eventsOf i (events.map (i, ·)) = events := by
  induction events with
  | nil => rfl
  | cons e events ih =>
      show eventsOf i ([(i, e)] ++ events.map (i, ·)) = e :: events
      rw [eventsOf_append, ih]
      simp [eventsOf]

theorem eventsOf_map_of_ne (h : j ≠ i) : eventsOf i (events.map (j, ·)) = [] := by
  induction events with
  | nil => rfl
  | cons e events ih =>
      show eventsOf i ([(j, e)] ++ events.map (j, ·)) = []
      rw [eventsOf_append, ih]
      simp [eventsOf, h]

variable {sys : TransitionSystem State Action} {emit : Emission State Action (Process × Event)}
  {p p' : State × List (Process × Event)}

/-- The invariant rule for a state together with the history of a process. -/
theorem eventsOf_invariant {P : State → List Event → Prop} (h : (logging sys emit).Reachable p)
    (hstart : P sys.start [])
    (hstep : ∀ s a s' events, sys.Reachable s → P s events → sys.step a s = some s' →
      P s' (events ++ eventsOf i (emit s a s'))) : P p.1 (eventsOf i p.2) := by
  apply Reachable.invariant (P := fun p => P p.1 (eventsOf i p.2)) h hstart
  intro p a p' hp ih hnext
  obtain ⟨hsys, hlog⟩ := logging_step hnext
  rw [hlog, eventsOf_append]
  exact hstep _ a _ _ (reachable_of_logging hp) ih hsys

end TokioExecutorProofs.ProcessLogs
