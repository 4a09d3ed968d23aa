import TokioExecutorProofs.ProcessFamilies
import TokioExecutorProofs.SignalledConditions

/-!
Producers that retry refused submissions. A producer subscribes to the generation
of a condition before its first attempt; after a refusal it waits until the
generation has moved past the one that it has seen.
-/

namespace TokioExecutorProofs.RetryProtocols

open ProcessFamilies
open TransitionSystems
open SignalledConditions

universe u v

variable {State : Type u} {Action : Type v}

/-- A service whose submissions are refused only while a signalled condition is
false. Submissions are numbered in the order of their calls. -/
structure RefusingService (sys : TransitionSystem State Action) where
  condition : State → Prop
  owed : State → Prop
  generation : State → Nat
  signalled : Signalled sys condition owed generation
  isSubmit : Action → Bool
  submissions : State → Nat
  /-- The submission has failed the check of the condition. -/
  refused : Nat → State → Prop
  /-- The submission has returned the refusal. -/
  answered : Nat → State → Bool
  refused_of_answered : ∀ {n s}, answered n s = true → refused n s
  not_refused_of_submit : ∀ {a s s'}, isSubmit a = true → sys.step a s = some s' →
    ¬ refused (submissions s) s'
  not_condition_of_refused : ∀ {a s s' n}, sys.Reachable s → sys.step a s = some s' →
    refused n s' → refused n s ∨ ¬ condition s'

/-- `seen` is the generation that the producer has marked as seen last. -/
inductive Producer where
  | start
  | ready (seen : Nat)
  | attempting (seen : Nat) (n : Nat)
  | waiting (seen : Nat)
  deriving DecidableEq, Repr

structure RetryState (State : Type u) where
  service : State
  producers : List Producer := []

inductive RetryAction (Action : Type v) where
  | service (a : Action)
  | newProducer
  | subscribe (p : Nat)
  | attempt (p : Nat) (a : Action)
  | refusal (p : Nat)
  | changed (p : Nat)

namespace RefusingService

variable {sys : TransitionSystem State Action} (r : RefusingService sys)

/-- The step of one producer that does not touch the service. -/
def producerStep (s : State) : RetryAction Action → Producer → Option Producer
  | .subscribe _, .start => some (.ready (r.generation s))
  | .refusal _, .attempting seen n => if r.answered n s then some (.waiting seen) else none
  | .changed _, .waiting seen =>
      if r.generation s = seen then none else some (.ready (r.generation s))
  | _, _ => none

def onProducer (s : RetryState State) (b : RetryAction Action) (p : Nat) :
    Option (RetryState State) :=
  match s.producers[p]? with
  | none => none
  | some x => (r.producerStep s.service b x).map fun x' =>
      { s with producers := s.producers.set p x' }

/-- A producer that has seen some generation calls the submission `a`. -/
def attempt (s : RetryState State) (p : Nat) (a : Action) : Option (RetryState State) :=
  match s.producers[p]? with
  | some (.ready seen) =>
      if r.isSubmit a then
        (sys.step a s.service).map fun service' =>
          { service := service'
            producers := s.producers.set p (.attempting seen (r.submissions s.service)) }
      else none
  | _ => none

def retryStep : RetryAction Action → RetryState State → Option (RetryState State)
  | .service a, s => (sys.step a s.service).map fun service' => { s with service := service' }
  | .newProducer, s => some { s with producers := s.producers ++ [.start] }
  | .attempt p a, s => r.attempt s p a
  | .subscribe p, s => r.onProducer s (.subscribe p) p
  | .refusal p, s => r.onProducer s (.refusal p) p
  | .changed p, s => r.onProducer s (.changed p) p

/-- The service together with any number of retrying producers. All other calls of
the service come and go as before. -/
def retrying : TransitionSystem (RetryState State) (RetryAction Action) where
  start := { service := sys.start }
  step := r.retryStep

/-- What a producer knows at its position. -/
def Knows (s : State) : Producer → Prop
  | .start => True
  | .ready seen => seen ≤ r.generation s
  | .attempting seen n => seen ≤ r.generation s ∧
      (r.refused n s → Covered r.condition r.owed r.generation seen s)
  | .waiting seen => Covered r.condition r.owed r.generation seen s

variable {r} {s s' : RetryState State} {b : RetryAction Action}

theorem Knows.step {a : Action} {t t' : State} {x : Producer} (h : r.Knows t x)
    (ht : sys.Reachable t) (hstep : sys.step a t = some t') : r.Knows t' x := by
  have hmono := r.signalled.mono ht hstep
  cases x with
  | start => trivial
  | ready seen => exact Nat.le_trans h hmono
  | attempting seen n =>
      refine ⟨Nat.le_trans h.1 hmono, fun hrefused => ?_⟩
      rcases r.not_condition_of_refused ht hstep hrefused with hbefore | hcondition
      · exact (h.2 hbefore).step r.signalled ht hstep
      · exact covered_of_not (Nat.le_trans h.1 hmono) hcondition
  | waiting seen => exact Covered.step h r.signalled ht hstep

theorem knows_of_producerStep {t : State} {x x' : Producer} (h : r.Knows t x)
    (hstep : r.producerStep t b x = some x') : r.Knows t x' := by
  unfold producerStep at hstep
  split at hstep
  · obtain rfl := Option.some.inj hstep
    exact Nat.le_refl _
  · split at hstep
    · rename_i hanswered
      obtain rfl := Option.some.inj hstep
      exact h.2 (r.refused_of_answered hanswered)
    · cases hstep
  · split at hstep
    · cases hstep
    · obtain rfl := Option.some.inj hstep
      exact Nat.le_refl _
  · cases hstep

/-- Everything that a step can do. -/
inductive Effect (r : RefusingService sys) (s : RetryState State) :
    RetryAction Action → RetryState State → Prop
  | service {a : Action} {t : State} (h : sys.step a s.service = some t) :
      Effect r s (.service a) { s with service := t }
  | newProducer : Effect r s .newProducer { s with producers := s.producers ++ [.start] }
  | producer {p : Nat} {b : RetryAction Action} {x x' : Producer} (hx : s.producers[p]? = some x)
      (h : r.producerStep s.service b x = some x') :
      Effect r s b { s with producers := s.producers.set p x' }
  | attempt {p : Nat} {a : Action} {seen : Nat} {t : State}
      (hx : s.producers[p]? = some (.ready seen)) (hsubmit : r.isSubmit a = true)
      (h : sys.step a s.service = some t) :
      Effect r s (.attempt p a)
        { service := t
          producers := s.producers.set p (.attempting seen (r.submissions s.service)) }

theorem effect_of_onProducer {p : Nat} (h : r.onProducer s b p = some s') : Effect r s b s' := by
  unfold onProducer at h
  cases hx : s.producers[p]? with
  | none => simp [hx] at h
  | some x =>
      simp only [hx, Option.map_eq_some_iff] at h
      obtain ⟨x', hstep, rfl⟩ := h
      exact .producer hx hstep

theorem effect_of_retryStep (h : r.retryStep b s = some s') : Effect r s b s' := by
  cases b <;> simp only [retryStep] at h
  case service a =>
    obtain ⟨t, hstep, rfl⟩ := Option.map_eq_some_iff.mp h
    exact .service hstep
  case newProducer => exact Option.some.inj h ▸ .newProducer
  case attempt p a =>
    unfold RefusingService.attempt at h
    split at h
    · rename_i seen hx
      split at h
      · rename_i hsubmit
        obtain ⟨t, hstep, rfl⟩ := Option.map_eq_some_iff.mp h
        exact .attempt hx hsubmit hstep
      · cases h
    · cases h
  all_goals exact effect_of_onProducer h

/-- An assumption on the steps of the service, the calls of the producers included. -/
def onService (allowed : State → Action → Prop) (s : RetryState State) :
    RetryAction Action → Prop
  | .service a | .attempt _ a => allowed s.service a
  | .newProducer | .subscribe _ | .refusal _ | .changed _ => True

instance (allowed : State → Action → Prop) [∀ s a, Decidable (allowed s a)]
    (s : RetryState State) (b : RetryAction Action) : Decidable (onService allowed s b) :=
  match b with
  | .service a | .attempt _ a => inferInstanceAs (Decidable (allowed s.service a))
  | .newProducer | .subscribe _ | .refusal _ | .changed _ => inferInstanceAs (Decidable True)

theorem run_service {allowed : State → Action → Prop}
    (h : r.retrying.RunUnder (onService allowed) s s') :
    sys.RunUnder allowed s.service s'.service := by
  refine RunUnder.preserves (P := fun s' => sys.RunUnder allowed s.service s'.service) h
    (runUnder_refl s.service) ?_
  intro s₁ b s₂ ih hallowed hnext
  cases effect_of_retryStep hnext with
  | service hstep | attempt _ _ hstep => exact RunUnder.tail ih hallowed hstep
  | newProducer | producer => exact ih

theorem reachable_service (h : r.retrying.Reachable s) : sys.Reachable s.service :=
  run_service (RunUnder.mono (fun _ b _ => by cases b <;> trivial) h)

theorem knows_of_reachable (h : r.retrying.Reachable s) :
    ∀ x ∈ s.producers, r.Knows s.service x := by
  refine Reachable.invariant (P := fun s => ∀ x ∈ s.producers, r.Knows s.service x) h
    (by simp [retrying]) ?_
  intro s b s' hs ih hnext
  have hservice := reachable_service hs
  cases effect_of_retryStep hnext with
  | service hstep => exact fun x hx => (ih x hx).step hservice hstep
  | newProducer => exact forall_mem_append ih trivial
  | producer hx hstep =>
      exact forall_mem_set ih (knows_of_producerStep (ih _ (mem_of_getElem? hx)) hstep)
  | attempt hx hsubmit hstep =>
      refine forall_mem_set (fun x hx => (ih x hx).step hservice hstep) ?_
      have hready : r.Knows s.service (.ready _) := ih _ (mem_of_getElem? hx)
      exact ⟨Nat.le_trans hready (r.signalled.mono hservice hstep),
        fun hrefused => absurd hrefused (r.not_refused_of_submit hsubmit hstep)⟩

/-- A producer without an unseen generation waits in vain for nobody: if the
condition is true, its announcement is on the way. -/
theorem owed_of_waiting (h : r.retrying.Reachable s) {seen : Nat}
    (hx : .waiting seen ∈ s.producers) (hseen : r.generation s.service = seen)
    (hcondition : r.condition s.service) : r.owed s.service := by
  have hcovered : Covered r.condition r.owed r.generation seen s.service :=
    knows_of_reachable h _ hx
  exact hcovered.owed hseen hcondition

end RefusingService

end TokioExecutorProofs.RetryProtocols
