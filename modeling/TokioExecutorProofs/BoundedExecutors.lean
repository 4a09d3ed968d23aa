import TokioExecutorProofs.BoundedAdmission
import TokioExecutorProofs.ProcessFamilies

/-!
What an executor of bounded size is for. A task that it accepts is queued, and then
withdrawn, or started and finished; its callable is executed at most once, after
the start and before the finish.
-/

namespace TokioExecutorProofs.BoundedExecutors

open ServiceBasics
open BoundedAdmission
open ProcessFamilies
open TraceRefinements
open TransitionSystems
open TransitionSystem

inductive Phase where
  | submitted
  | refused (reason : SubmissionError)
  | queued
  | withdrawn
  | started
  | executing
  | executed
  | finished (ran : Bool)
  deriving DecidableEq, Repr

namespace Phase

def ofAnswer : Answer → Phase
  | .accepted => .queued
  | .rejected reason => .refused reason

/-- The phases that may follow once the submission has been answered. -/
def next : Phase → Phase → Bool
  | .queued, p' => p' = .withdrawn || p' = .started
  | .started, p' => p' = .executing || p' = .finished false
  | .executing, p' => p' = .executed
  | .executed, p' => p' = .finished true
  | .submitted, _ | .refused _, _ | .withdrawn, _ | .finished _, _ => false

def isUnfinished : Phase → Bool
  | .queued | .started | .executing | .executed => true
  | .submitted | .refused _ | .withdrawn | .finished _ => false

def isRunning : Phase → Bool
  | .started | .executing | .executed => true
  | .submitted | .refused _ | .queued | .withdrawn | .finished _ => false

def isInvoked : Phase → Bool
  | .executing | .executed => true
  | .finished ran => ran
  | .submitted | .refused _ | .queued | .withdrawn | .started => false

def isFinal : Phase → Bool
  | .refused _ | .withdrawn | .finished _ => true
  | .submitted | .queued | .started | .executing | .executed => false

end Phase

structure Executor where
  closed : Bool := false
  phases : List Phase := []

inductive Event where
  | call
  | close
  | enter (t : TaskId) (p : Phase)
  deriving DecidableEq, Repr

namespace Executor

def unfinished (x : Executor) : Nat := x.phases.countP Phase.isUnfinished

/-- The only answer that a submission can get. -/
def answer (capacity : Nat) (x : Executor) : Answer :=
  if x.closed then .rejected .shutdown
  else if capacity ≤ x.unfinished then .rejected .saturated
  else .accepted

def mayEnter (capacity : Nat) (x : Executor) (p p' : Phase) : Bool :=
  if p = .submitted then p' = Phase.ofAnswer (x.answer capacity) else p.next p'

end Executor

def boundedExecutor (capacity : Nat) : TransitionSystem Executor Event where
  start := {}
  step
    | .call, x => some { x with phases := x.phases ++ [.submitted] }
    | .close, x => some { x with closed := true }
    | .enter t p', x =>
        if (x.phases[t]?).any fun p => x.mayEnter capacity p p' then
          some { x with phases := x.phases.set t p' }
        else none

section

variable {capacity : Nat} {x x' : Executor} {e : Event} {events : List Event} {t : TaskId}
  {p p' : Phase}

theorem enter_eq_some (h : (boundedExecutor capacity).step (.enter t p') x = some x') :
    ∃ p, x.phases[t]? = some p ∧ x.mayEnter capacity p p' = true ∧
      x' = { x with phases := x.phases.set t p' } := by
  simp only [boundedExecutor] at h
  split at h
  · rename_i hmay
    obtain ⟨p, hp, hmay⟩ := (Option.any_eq_true _ _).mp hmay
    exact ⟨p, hp, hmay, (Option.some.inj h).symm⟩
  · cases h

theorem step_enter (hp : x.phases[t]? = some p) (hmay : x.mayEnter capacity p p' = true) :
    (boundedExecutor capacity).step (.enter t p') x =
      some { x with phases := x.phases.set t p' } := by
  simp [boundedExecutor, hp, hmay]

theorem mayEnter_cases (h : x.mayEnter capacity p p' = true) :
    p = .submitted ∧ p' = Phase.ofAnswer (x.answer capacity) ∨ p.next p' = true := by
  unfold Executor.mayEnter at h
  split at h
  · rename_i hsubmitted
    exact .inl ⟨hsubmitted, of_decide_eq_true h⟩
  · exact .inr h

theorem mayEnter_of_next (h : p.next p' = true) : x.mayEnter capacity p p' = true := by
  unfold Executor.mayEnter
  split
  · rename_i hsubmitted
    rw [hsubmitted] at h
    cases h
  · exact h

theorem mayEnter_submitted :
    x.mayEnter capacity .submitted (Phase.ofAnswer (x.answer capacity)) = true := by
  simp [Executor.mayEnter]

theorem isUnfinished_of_next (h : p.next p' = true) : p.isUnfinished = true := by
  cases p <;> first | rfl | cases h

theorem isFinal_of_next (h : p.next p' = true) : p.isFinal = false := by
  cases p <;> first | rfl | cases h

theorem isInvoked_of_next (h : p.next p' = true) :
    weight Phase.isInvoked p' =
      weight Phase.isInvoked p + if p' = .executing then 1 else 0 := by
  cases p <;> simp only [Phase.next, Bool.or_eq_true, decide_eq_true_eq, reduceCtorEq] at h
  case queued | started =>
    rcases h with rfl | rfl <;> rfl
  all_goals
    subst h
    rfl

/-! ### The size -/

theorem answer_of_closed (h : x.closed = true) : x.answer capacity = .rejected .shutdown := by
  simp [Executor.answer, h]

theorem answer_of_full (h : x.closed = false) (hfull : capacity ≤ x.unfinished) :
    x.answer capacity = .rejected .saturated := by
  simp [Executor.answer, h, hfull]

theorem answer_of_free (h : x.closed = false) (hfree : x.unfinished < capacity) :
    x.answer capacity = .accepted := by
  simp [Executor.answer, h, hfree]

theorem answer_eq_accepted (h : x.answer capacity = .accepted) :
    x.closed = false ∧ x.unfinished < capacity := by
  unfold Executor.answer at h
  split at h
  · cases h
  · rename_i hopen
    split at h
    · cases h
    · rename_i hfree
      exact ⟨by simpa using hopen, Nat.not_le.mp hfree⟩

theorem unfinished_enter (hp : x.phases[t]? = some p) :
    ({ x with phases := x.phases.set t p' } : Executor).unfinished + weight Phase.isUnfinished p =
      x.unfinished + weight Phase.isUnfinished p' :=
  countP_set_add Phase.isUnfinished hp

theorem unfinished_le (h : (boundedExecutor capacity).Reachable x) : x.unfinished ≤ capacity := by
  refine Reachable.invariant (P := fun x => x.unfinished ≤ capacity) h (Nat.zero_le _) ?_
  intro x e x' _ ih hstep
  cases e with
  | call =>
      obtain rfl := Option.some.inj hstep
      unfold Executor.unfinished at ih ⊢
      rw [countP_append_singleton]
      exact ih
  | close =>
      obtain rfl := Option.some.inj hstep
      exact ih
  | enter t p' =>
      obtain ⟨p, hp, hmay, rfl⟩ := enter_eq_some hstep
      have hcount : _ = x.unfinished + weight Phase.isUnfinished p' := unfinished_enter hp
      rcases mayEnter_cases hmay with ⟨rfl, rfl⟩ | hnext
      · cases hanswer : x.answer capacity with
        | accepted =>
            have hfree := (answer_eq_accepted hanswer).2
            have hone := weight_le_one Phase.isUnfinished (Phase.ofAnswer .accepted)
            rw [hanswer, weight_of_false rfl] at hcount
            omega
        | rejected reason =>
            rw [hanswer, weight_of_false rfl, weight_of_false rfl] at hcount
            omega
      · exact (countP_set_le hp fun _ => isUnfinished_of_next hnext).trans ih

/-- At most `capacity` callables are executed at once. -/
theorem executing_le (h : (boundedExecutor capacity).Reachable x) :
    x.phases.count .executing ≤ x.phases.countP Phase.isRunning ∧
      x.phases.countP Phase.isRunning ≤ capacity := by
  constructor
  · refine List.countP_mono_left fun p _ hp => ?_
    rw [eq_of_beq hp]
    rfl
  · refine le_trans (List.countP_mono_left fun p _ hp => ?_) (unfinished_le h)
    cases p <;> first | rfl | cases hp

/-! ### Histories of one task -/

def Event.isAbout (t : TaskId) : Event → Bool
  | .call | .close => false
  | .enter t' _ => t' = t

def invoked (t : TaskId) (x : Executor) : Nat := (x.phases[t]?).elim 0 (weight Phase.isInvoked)

theorem invoked_step (h : (boundedExecutor capacity).step e x = some x') :
    invoked t x' = invoked t x + if e = .enter t .executing then 1 else 0 := by
  unfold invoked
  cases e with
  | call =>
      obtain rfl := Option.some.inj h
      exact apply_getElem?_append (fun p : Option Phase => p.elim 0 (weight Phase.isInvoked)) rfl t
  | close =>
      obtain rfl := Option.some.inj h
      rfl
  | enter t' p' =>
      obtain ⟨p, hp, hmay, rfl⟩ := enter_eq_some h
      by_cases ht : t = t'
      · subst t'
        rw [getElem?_set_self_of_some hp, hp]
        rcases mayEnter_cases hmay with ⟨rfl, rfl⟩ | hnext
        · cases x.answer capacity <;> simp [Phase.ofAnswer, weight, Phase.isInvoked]
        · simpa using isInvoked_of_next hnext
      · rw [getElem?_set_of_ne ht, if_neg (by simpa [eq_comm] using fun h => absurd h ht)]
        rfl

theorem invoked_execute (h : (boundedExecutor capacity).execute events x = some x') :
    invoked t x' = invoked t x + events.count (.enter t .executing) := by
  induction events generalizing x with
  | nil =>
      obtain rfl : x = x' := Option.some.inj h
      rfl
  | cons e events ih =>
      obtain ⟨x₁, hstep, hrest⟩ := execute_cons_eq_some.mp h
      rw [ih hrest, invoked_step hstep, List.count_cons, Nat.add_assoc, Nat.add_comm (ite _ _ _)]
      simp

theorem final_step (h : (boundedExecutor capacity).step e x = some x')
    (hp : x.phases[t]? = some p) (hfinal : p.isFinal = true) :
    x'.phases[t]? = some p ∧ e.isAbout t = false := by
  cases e with
  | call =>
      obtain rfl := Option.some.inj h
      exact ⟨getElem?_append_of_some hp, rfl⟩
  | close =>
      obtain rfl := Option.some.inj h
      exact ⟨hp, rfl⟩
  | enter t' p' =>
      obtain ⟨p₁, hp₁, hmay, rfl⟩ := enter_eq_some h
      have ht : t ≠ t' := by
        rintro rfl
        obtain rfl := Option.some.inj (hp.symm.trans hp₁)
        rcases mayEnter_cases hmay with ⟨rfl, _⟩ | hnext
        · cases hfinal
        · rw [isFinal_of_next hnext] at hfinal
          cases hfinal
      exact ⟨(getElem?_set_of_ne ht).trans hp, decide_eq_false fun heq => ht heq.symm⟩

theorem final_execute (h : (boundedExecutor capacity).execute events x = some x')
    (hp : x.phases[t]? = some p) (hfinal : p.isFinal = true) :
    x'.phases[t]? = some p ∧ ∀ e ∈ events, e.isAbout t = false := by
  induction events generalizing x with
  | nil =>
      obtain rfl : x = x' := Option.some.inj h
      exact ⟨hp, by simp⟩
  | cons e events ih =>
      obtain ⟨x₁, hstep, hrest⟩ := execute_cons_eq_some.mp h
      obtain ⟨hp₁, habout⟩ := final_step hstep hp hfinal
      obtain ⟨hp', hall⟩ := ih hrest hp₁
      exact ⟨hp', List.forall_mem_cons.mpr ⟨habout, hall⟩⟩

end

end TokioExecutorProofs.BoundedExecutors
