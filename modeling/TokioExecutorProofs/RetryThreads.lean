import TokioExecutorProofs.RestingThreads
import TokioExecutorProofs.RetryBudgets

/-!
Retrying producers of a service whose activities are on threads. The producers see
what they see of the service itself, and a submission begins on some thread.
-/

namespace TokioExecutorProofs.RetryThreads

open CallStacks
open ProcessFamilies
open RestingSystems
open RestingThreads
open RetryBudgets
open RetryProtocols
open SignalledConditions
open TransitionSystems

universe u v

variable {State : Type u} {Action : Type v} {Actor Position : Type*} [DecidableEq Actor]
  {sys : TransitionSystem State Action}

/-- A submission begins with the call on its thread. -/
def isSubmit (r : RefusingService sys) : ThreadAction Action → Bool
  | .call _ a => r.isSubmit a
  | .newThread | .run _ _ | .back _ => false

section

variable (r : RefusingService sys) (acts : Activities State Action Actor Position)

theorem signalled_of_threads :
    Signalled (acts.threaded sys) (fun x => r.condition x.state) (fun x => r.owed x.state)
      (fun x => r.generation x.state) where
  mono := by
    intro x b x' hx hnext
    have hs := state_of_threaded hx
    cases effect_of_step hnext with
    | newThread | back => exact Nat.le_refl _
    | call _ _ _ hstep | run _ hstep => exact r.signalled.mono hs hstep
  signal := by
    intro x b x' hx hnext hcondition howed hsame
    have hs := state_of_threaded hx
    cases effect_of_step hnext with
    | newThread | back => exact howed hcondition
    | call _ _ _ hstep | run _ hstep => exact r.signalled.signal hs hstep hcondition howed hsame

/-- The service on threads as seen by its producers. -/
def threaded : RefusingService (acts.threaded sys) where
  condition x := r.condition x.state
  owed x := r.owed x.state
  generation x := r.generation x.state
  signalled := signalled_of_threads r acts
  isSubmit := isSubmit r
  submissions x := r.submissions x.state
  refused n x := r.refused n x.state
  answered n x := r.answered n x.state
  refused_of_answered := r.refused_of_answered
  not_refused_of_submit := by
    intro b x x' hsubmit hnext
    cases effect_of_step hnext with
    | call _ _ _ hstep => exact r.not_refused_of_submit hsubmit hstep
    | newThread | run | back => cases hsubmit
  not_condition_of_refused := by
    intro b x x' n hx hnext hrefused
    have hs := state_of_threaded hx
    cases effect_of_step hnext with
    | newThread | back => exact .inl hrefused
    | call _ _ _ hstep | run _ hstep => exact r.not_condition_of_refused hs hstep hrefused

end

section

variable {r : RefusingService sys} {acts : Activities State Action Actor Position}
  {allowed driven : State → Action → Prop}

/-- A submission also pays for its call and its return. -/
def Budget.threaded (d : Budget r allowed) :
    Budget (RetryThreads.threaded r acts) (onThreads allowed) where
  rank := threadRank d.rank
  lowers := Lowers.threaded d.lowers
  cost x := 4 * d.cost x.state + 3
  budget x := d.budget x.state
  share := d.share
  submissions_le := by
    intro x b x' hnext
    cases effect_of_step hnext with
    | newThread | back => exact Nat.le_refl _
    | call _ _ _ hstep | run _ hstep => exact d.submissions_le hstep
  cost_step := by
    intro x b x' hx hb hnext
    have hs := state_of_threaded hx
    cases effect_of_step hnext with
    | newThread | back => rfl
    | call _ _ _ hstep | run _ hstep => rw [d.cost_step hs hb hstep]
  spends := by
    intro x b x' hx hb hnext
    have hs := state_of_threaded hx
    cases effect_of_step hnext with
    | newThread | back => exact .inl ⟨Nat.le_refl _, fun _ => id⟩
    | call _ _ _ hstep | run _ hstep => exact d.spends hs hb hstep
  submit := by
    intro x b x' hsubmit hnext
    cases effect_of_step hnext with
    | newThread | run | back => cases hsubmit
    | @call i a stack s' hi _ _ hstep _ =>
        obtain ⟨hlt, hcost, hrank, hbudget, hrefused⟩ := d.submit hsubmit hstep
        exact ⟨hlt, by rw [hcost], threadRank_call_le hi hrank, hbudget, hrefused⟩

/-- The call is made outside all callbacks. -/
def onIdle (x : ThreadedState State Actor) : ThreadAction Action → Prop
  | .call i _ => x.threads[i]? = some []
  | .newThread | .run _ _ | .back _ => False

/-- Where the threads come to rest as the service does, there is an idle one for the
next submission. -/
theorem Settling.threaded {reached : ThreadedState State Actor → Prop}
    (hsettling : Settling r sys.Reachable driven fun _ _ => True) (hstanding : Standing sys acts)
    (hbegins : ∀ s a, r.isSubmit a = true → acts.begins s a = true)
    (hreached : ∀ x, reached x → (acts.threaded sys).Reachable x ∧ Carried acts x)
    (halone : ∀ x, reached x → AtRest (acts.threaded sys) (byThreads driven) x → Alone x) :
    Settling (RetryThreads.threaded r acts) reached (byThreads driven) onIdle := by
  have hatRest : ∀ {x}, reached x → AtRest (acts.threaded sys) (byThreads driven) x →
      sys.Reachable x.state ∧ AtRest sys driven x.state := by
    intro x hx hrest
    obtain ⟨hreachable, hcarried⟩ := hreached x hx
    have hs := state_of_threaded hreachable
    exact ⟨hs, atRest_of_threads hstanding hs hcarried hrest (halone x hx hrest)⟩
  refine ⟨fun {x} hx hrest => ?_, fun {x n} hx hrest hrefused => ?_, fun {x} hx hrest => ?_⟩
  · obtain ⟨hs, hrest'⟩ := hatRest hx hrest
    obtain ⟨a, s', -, hsubmit, hstep⟩ := hsettling.submit hs hrest'
    obtain ⟨i, hi⟩ := exists_idle_of_atRest hrest
    have hfresh := fresh_of_atRest hstanding hs hrest (halone x hx hrest)
      (hbegins x.state a hsubmit) hstep
    have hnext := call_of_fresh sys hi (hbegins x.state a hsubmit) hfresh
    rw [hstep, Option.map_some] at hnext
    exact ⟨.call i a, _, hi, hsubmit, hnext⟩
  · obtain ⟨hs, hrest'⟩ := hatRest hx hrest
    exact hsettling.answered hs hrest' hrefused
  · obtain ⟨hs, hrest'⟩ := hatRest hx hrest
    exact hsettling.condition hs hrest'

end

end TokioExecutorProofs.RetryThreads
