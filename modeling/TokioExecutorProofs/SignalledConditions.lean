import TokioExecutorProofs.TransitionSystems

/-!
Conditions with a generation counter. Whoever makes the condition true owes an
advance of the generation, and an observer that has found the condition false
waits until the generation moves past the one that it has seen.
-/

namespace TokioExecutorProofs.SignalledConditions

open TransitionSystems

universe u v

variable {State : Type u} {Action : Type v}

/-- No step makes the condition true, or discharges the debt of doing so, without
leaving somebody in debt or advancing the generation. -/
structure Signalled (sys : TransitionSystem State Action) (condition owed : State → Prop)
    (generation : State → Nat) : Prop where
  mono : ∀ {s : State} {a : Action} {s' : State}, sys.Reachable s →
    sys.step a s = some s' → generation s ≤ generation s'
  signal : ∀ {s : State} {a : Action} {s' : State}, sys.Reachable s →
    sys.step a s = some s' → condition s' → (condition s → owed s) →
    generation s' = generation s → owed s'

/-- An observer that has seen the generation `seen` misses nothing: as long as no
later generation is there, the condition is false or its advance is on the way. -/
structure Covered (condition owed : State → Prop) (generation : State → Nat) (seen : Nat)
    (s : State) : Prop where
  le : seen ≤ generation s
  owed : generation s = seen → condition s → owed s

variable {sys : TransitionSystem State Action} {condition owed : State → Prop}
  {generation : State → Nat} {seen : Nat} {s s' : State} {a : Action}

theorem covered_of_not (hle : seen ≤ generation s) (h : ¬ condition s) :
    Covered condition owed generation seen s :=
  ⟨hle, fun _ hc => absurd hc h⟩

theorem Covered.step (h : Covered condition owed generation seen s)
    (hsys : Signalled sys condition owed generation) (hs : sys.Reachable s)
    (hstep : sys.step a s = some s') : Covered condition owed generation seen s' := by
  have hmono := hsys.mono hs hstep
  refine ⟨Nat.le_trans h.le hmono, fun heq hcondition => ?_⟩
  have hle := h.le
  have hsame : generation s = seen := by omega
  exact hsys.signal hs hstep hcondition (h.owed hsame) (heq.trans hsame.symm)

end TokioExecutorProofs.SignalledConditions
