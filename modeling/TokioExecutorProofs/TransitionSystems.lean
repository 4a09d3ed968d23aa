import Mathlib.Logic.Relation

namespace TokioExecutorProofs.TransitionSystems

universe u v

/-- A transition system with labelled actions. An action that is blocked or
disabled in a state has no successor there. -/
structure TransitionSystem (State : Type u) (Action : Type v) where
  start : State
  step : Action → State → Option State

variable {State : Type u} {Action : Type v}

namespace TransitionSystem

variable (sys : TransitionSystem State Action)

/-- One step whose action the assumption `allowed` permits in the state that
the step leaves. -/
def StepUnder (allowed : State → Action → Prop) (s s' : State) : Prop :=
  ∃ a, allowed s a ∧ sys.step a s = some s'

/-- A run of any length, all of whose steps meet the assumption. -/
def RunUnder (allowed : State → Action → Prop) : State → State → Prop :=
  Relation.ReflTransGen (sys.StepUnder allowed)

/-- A run of any length, without any assumption on its steps. -/
abbrev Run : State → State → Prop := sys.RunUnder fun _ _ => True

def ReachableUnder (allowed : State → Action → Prop) (s : State) : Prop :=
  sys.RunUnder allowed sys.start s

abbrev Reachable (s : State) : Prop := sys.ReachableUnder (fun _ _ => True) s

/-- The state after a finite list of actions, if each of them is enabled and
meets the assumption in its turn. -/
def executeUnder (allowed : State → Action → Prop)
    [∀ s a, Decidable (allowed s a)] : List Action → State → Option State
  | [], s => some s
  | a :: actions, s =>
      if allowed s a then
        match sys.step a s with
        | some s' => executeUnder allowed actions s'
        | none => none
      else none

/-- The state after a finite list of enabled actions. -/
abbrev execute : List Action → State → Option State := sys.executeUnder fun _ _ => True

end TransitionSystem

variable {sys : TransitionSystem State Action}
variable {allowed allowed' : State → Action → Prop}

open TransitionSystem

theorem runUnder_refl (s : State) : sys.RunUnder allowed s s :=
  Relation.ReflTransGen.refl

theorem RunUnder.trans {s₁ s₂ s₃ : State} (h₁ : sys.RunUnder allowed s₁ s₂)
    (h₂ : sys.RunUnder allowed s₂ s₃) : sys.RunUnder allowed s₁ s₃ :=
  Relation.ReflTransGen.trans h₁ h₂

theorem RunUnder.tail {s₁ s₂ s₃ : State} {a : Action}
    (h : sys.RunUnder allowed s₁ s₂) (ha : allowed s₂ a)
    (hstep : sys.step a s₂ = some s₃) : sys.RunUnder allowed s₁ s₃ :=
  Relation.ReflTransGen.tail h ⟨a, ha, hstep⟩

theorem RunUnder.mono (hle : ∀ s a, allowed s a → allowed' s a) {s s' : State}
    (h : sys.RunUnder allowed s s') : sys.RunUnder allowed' s s' := by
  induction h with
  | refl => exact runUnder_refl s
  | tail _ hlast ih =>
      obtain ⟨a, ha, hstep⟩ := hlast
      exact RunUnder.tail ih (hle _ a ha) hstep

theorem RunUnder.run {s s' : State} (h : sys.RunUnder allowed s s') :
    sys.Run s s' :=
  RunUnder.mono (fun _ _ _ => trivial) h

theorem ReachableUnder.reachable {s : State}
    (h : sys.ReachableUnder allowed s) : sys.Reachable s :=
  RunUnder.run h

theorem Reachable.run {s s' : State} (h : sys.Reachable s)
    (hrun : sys.Run s s') : sys.Reachable s' :=
  RunUnder.trans h hrun

theorem RunUnder.preserves {P : State → Prop} {s s' : State}
    (h : sys.RunUnder allowed s s') (hs : P s)
    (hstep : ∀ s a s', P s → allowed s a → sys.step a s = some s' → P s') :
    P s' := by
  induction h with
  | refl => exact hs
  | tail _ hlast ih =>
      obtain ⟨a, ha, hnext⟩ := hlast
      exact hstep _ a _ ih ha hnext

/-- The invariant rule. A step may use that the state it leaves is reachable
under the same assumption, so that invariants build on earlier ones. -/
theorem ReachableUnder.invariant {P : State → Prop} {s : State}
    (h : sys.ReachableUnder allowed s) (hstart : P sys.start)
    (hstep : ∀ s a s', sys.ReachableUnder allowed s → P s → allowed s a →
      sys.step a s = some s' → P s') : P s := by
  induction h with
  | refl => exact hstart
  | tail hprefix hlast ih =>
      obtain ⟨a, ha, hnext⟩ := hlast
      exact hstep _ a _ hprefix ih ha hnext

theorem Reachable.invariant {P : State → Prop} {s : State}
    (h : sys.Reachable s) (hstart : P sys.start)
    (hstep : ∀ s a s', sys.Reachable s → P s → sys.step a s = some s' → P s') :
    P s :=
  ReachableUnder.invariant h hstart fun s a s' hs hP _ => hstep s a s' hs hP

/-- A property of reachable states that every step preserves is stable: once
it holds, it holds in every later state. -/
theorem Run.stable {P : State → Prop} {s s' : State} (hs : sys.Reachable s)
    (h : sys.Run s s') (hP : P s)
    (hstep : ∀ s a s', sys.Reachable s → P s → sys.step a s = some s' → P s') :
    P s' := by
  have hboth : sys.Reachable s' ∧ P s' :=
    RunUnder.preserves (P := fun s => sys.Reachable s ∧ P s) h ⟨hs, hP⟩
      fun t a t' ht _ hnext =>
        ⟨RunUnder.tail ht.1 trivial hnext, hstep t a t' ht.1 ht.2 hnext⟩
  exact hboth.2

theorem runUnder_of_executeUnder [∀ s a, Decidable (allowed s a)]
    {actions : List Action} {s s' : State}
    (h : sys.executeUnder allowed actions s = some s') :
    sys.RunUnder allowed s s' := by
  induction actions generalizing s with
  | nil =>
      have hs : s = s' := by simpa [executeUnder] using h
      subst s'
      exact runUnder_refl s
  | cons a actions ih =>
      simp only [executeUnder] at h
      split at h
      · rename_i ha
        split at h
        · rename_i next hnext
          exact Relation.ReflTransGen.head ⟨a, ha, hnext⟩ (ih h)
        · simp at h
      · simp at h

theorem execute_of_executeUnder [∀ s a, Decidable (allowed s a)]
    {actions : List Action} {s s' : State}
    (h : sys.executeUnder allowed actions s = some s') : sys.execute actions s = some s' := by
  induction actions generalizing s with
  | nil => exact h
  | cons a actions ih =>
      simp only [executeUnder] at h
      split at h
      · simp only [executeUnder, if_true]
        split at h
        · exact ih h
        · cases h
      · cases h

theorem Reachable.of_execute {actions : List Action} {s : State}
    (h : sys.execute actions sys.start = some s) : sys.Reachable s :=
  runUnder_of_executeUnder h

end TokioExecutorProofs.TransitionSystems
