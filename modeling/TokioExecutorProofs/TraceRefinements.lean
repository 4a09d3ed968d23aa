import TokioExecutorProofs.TransitionSystems

/-!
Runs that keep a log. Every step emits the events that take effect in it; if each
of them is a step of a specification, the whole log is a run of the specification.
-/

namespace TokioExecutorProofs.TraceRefinements

open TransitionSystems
open TransitionSystem

universe u v w x

variable {State : Type u} {Action : Type v} {Spec : Type w} {Event : Type x}

/-- The events of a step between two states. -/
abbrev Emission (State : Type u) (Action : Type v) (Event : Type x) :=
  State → Action → State → List Event

/-- The system that appends the events of every step to a log. -/
def logging (sys : TransitionSystem State Action) (emit : Emission State Action Event) :
    TransitionSystem (State × List Event) Action where
  start := (sys.start, [])
  step a p := (sys.step a p.1).map fun s' => (s', p.2 ++ emit p.1 a s')

variable {sys : TransitionSystem State Action} {emit : Emission State Action Event}
  {spec : TransitionSystem Spec Event} {p p' : State × List Event}

theorem logging_step {a : Action} (h : (logging sys emit).step a p = some p') :
    sys.step a p.1 = some p'.1 ∧ p'.2 = p.2 ++ emit p.1 a p'.1 := by
  obtain ⟨s', hstep, rfl⟩ := Option.map_eq_some_iff.mp h
  exact ⟨hstep, rfl⟩

theorem reachable_of_logging (h : (logging sys emit).Reachable p) : sys.Reachable p.1 := by
  refine Reachable.invariant (P := fun p => sys.Reachable p.1) h ?_ ?_
  · exact runUnder_refl sys.start
  · intro p a p' _ ih hstep
    exact RunUnder.tail ih trivial (logging_step hstep).1

theorem run_of_logging (h : (logging sys emit).Run p p') : sys.Run p.1 p'.1 := by
  refine RunUnder.preserves (P := fun p' => sys.Run p.1 p'.1) h (runUnder_refl p.1) ?_
  intro q a q' ih _ hstep
  exact RunUnder.tail ih trivial (logging_step hstep).1

theorem prefix_of_run (h : (logging sys emit).Run p p') : p.2 <+: p'.2 := by
  refine RunUnder.preserves (P := fun p' => p.2 <+: p'.2) h (List.prefix_rfl) ?_
  intro q a q' ih _ hstep
  rw [(logging_step hstep).2]
  exact ih.trans (List.prefix_append _ _)

theorem execute_cons_eq_some {e : Event} {events : List Event} {s s'' : Spec} :
    spec.execute (e :: events) s = some s'' ↔
      ∃ s', spec.step e s = some s' ∧ spec.execute events s' = some s'' := by
  simp only [execute, executeUnder, if_true]
  cases spec.step e s with
  | none => simp
  | some s' => simp

theorem execute_append {events events' : List Event} {s : Spec} :
    spec.execute (events ++ events') s = (spec.execute events s).bind (spec.execute events') := by
  induction events generalizing s with
  | nil => rfl
  | cons e events ih =>
      simp only [List.cons_append, execute, executeUnder, if_true]
      cases spec.step e s with
      | none => rfl
      | some s' => exact ih

/-- Every step of the system is matched by its events, seen through `abs`. -/
structure Refines (sys : TransitionSystem State Action) (emit : Emission State Action Event)
    (spec : TransitionSystem Spec Event) (abs : State → Spec) : Prop where
  start : abs sys.start = spec.start
  step : ∀ {s : State} {a : Action} {s' : State}, sys.Reachable s → sys.step a s = some s' →
    spec.execute (emit s a s') (abs s) = some (abs s')

theorem Refines.execute {abs : State → Spec} (href : Refines sys emit spec abs)
    (h : (logging sys emit).Reachable p) : spec.execute p.2 spec.start = some (abs p.1) := by
  refine Reachable.invariant (P := fun p => spec.execute p.2 spec.start = some (abs p.1)) h ?_ ?_
  · rw [← href.start]
    rfl
  · intro p a p' hp ih hstep
    obtain ⟨hsys, hlog⟩ := logging_step hstep
    rw [hlog, execute_append, ih]
    exact href.step (reachable_of_logging hp) hsys

/-- The log holds exactly the events that have occurred, which a state remembers,
each of them once. -/
structure Records (sys : TransitionSystem State Action) (emit : Emission State Action Event)
    (isRecorded : Event → Bool) (occurred : Event → State → Prop) : Prop where
  start : ∀ e, ¬ occurred e sys.start
  step : ∀ {s : State} {a : Action} {s' : State}, sys.Reachable s → sys.step a s = some s' →
    ∀ e, isRecorded e = true → (occurred e s' ↔ occurred e s ∨ e ∈ emit s a s')
  fresh : ∀ {s : State} {a : Action} {s' : State}, sys.Reachable s → sys.step a s = some s' →
    ∀ e, isRecorded e = true → occurred e s → e ∉ emit s a s'
  nodup : ∀ {s : State} {a : Action} {s' : State}, sys.Reachable s → sys.step a s = some s' →
    (emit s a s').Nodup

variable {isRecorded : Event → Bool} {occurred : Event → State → Prop}

theorem Records.mem_iff (hrec : Records sys emit isRecorded occurred)
    (h : (logging sys emit).Reachable p) {e : Event} (he : isRecorded e = true) :
    e ∈ p.2 ↔ occurred e p.1 := by
  refine Reachable.invariant (P := fun p => e ∈ p.2 ↔ occurred e p.1) h ?_ ?_
  · exact ⟨fun hmem => absurd hmem List.not_mem_nil, fun hocc => absurd hocc (hrec.start e)⟩
  · intro p a p' hp ih hstep
    obtain ⟨hsys, hlog⟩ := logging_step hstep
    rw [hlog, List.mem_append, ih, hrec.step (reachable_of_logging hp) hsys e he]

theorem Records.filter_nodup (hrec : Records sys emit isRecorded occurred)
    (h : (logging sys emit).Reachable p) : (p.2.filter isRecorded).Nodup := by
  refine Reachable.invariant (P := fun p => (p.2.filter isRecorded).Nodup) h List.nodup_nil ?_
  intro p a p' hp ih hstep
  obtain ⟨hsys, hlog⟩ := logging_step hstep
  have hs := reachable_of_logging hp
  rw [hlog, List.filter_append]
  refine List.nodup_append.mpr ⟨ih, (hrec.nodup hs hsys).filter _, ?_⟩
  rintro e hbefore _ hemitted rfl
  obtain ⟨hmem, he⟩ := List.mem_filter.mp hbefore
  exact hrec.fresh hs hsys e he ((hrec.mem_iff hp he).mp hmem) (List.mem_filter.mp hemitted).1

end TokioExecutorProofs.TraceRefinements
