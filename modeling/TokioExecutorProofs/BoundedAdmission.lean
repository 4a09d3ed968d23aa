import Mathlib.Data.Finset.Card
import TokioExecutorProofs.ServiceBasics
import TokioExecutorProofs.TraceRefinements

/-!
What the admission of a service is for: a bounded set of accepted tasks that can be
closed. Submissions, closes and releases happen one at a time here; a service
that matches every step with at most one of them is linearizable.
-/

namespace TokioExecutorProofs.BoundedAdmission

open ServiceBasics
open TransitionSystems
open TraceRefinements

universe u v

inductive Answer where
  | accepted
  | rejected (reason : SubmissionError)
  deriving DecidableEq, Repr

inductive Event where
  | submit (t : TaskId) (answer : Answer)
  | close (k : Nat)
  | release (t : TaskId)
  deriving DecidableEq, Repr

/-- `active` are the tasks that have been accepted and not released. -/
structure Admission where
  closed : Bool := false
  active : Finset TaskId := ∅

namespace Admission

/-- The only answer that a submission can get. -/
def answer (capacity : Nat) (s : Admission) : Answer :=
  if s.closed then .rejected .shutdown
  else if capacity ≤ s.active.card then .rejected .saturated
  else .accepted

def submit (capacity : Nat) (t : TaskId) (s : Admission) : Admission :=
  if s.answer capacity = .accepted then { s with active := insert t s.active } else s

def close (s : Admission) : Admission := { s with closed := true }

def release (t : TaskId) (s : Admission) : Admission := { s with active := s.active.erase t }

variable {capacity : Nat} {t : TaskId} {s : Admission}

theorem answer_of_closed (h : s.closed = true) : s.answer capacity = .rejected .shutdown := by
  simp [answer, h]

theorem answer_of_full (h : s.closed = false) (hfull : capacity ≤ s.active.card) :
    s.answer capacity = .rejected .saturated := by
  simp [answer, h, hfull]

theorem answer_of_free (h : s.closed = false) (hfree : s.active.card < capacity) :
    s.answer capacity = .accepted := by
  simp [answer, h, hfree]

theorem full_of_answer (h : s.answer capacity = .rejected .saturated) :
    s.closed = false ∧ capacity ≤ s.active.card := by
  unfold answer at h
  split at h
  · cases h
  · rename_i hopen
    split at h
    · rename_i hfull
      exact ⟨by simpa using hopen, hfull⟩
    · cases h

theorem submit_of_rejected {reason : SubmissionError}
    (h : s.answer capacity = .rejected reason) : s.submit capacity t = s := by
  simp [submit, h]

end Admission

/-- The sequential specification. -/
def boundedAdmission (capacity : Nat) : TransitionSystem Admission Event where
  start := {}
  step
    | .submit t answer, s =>
        if answer = s.answer capacity then some (s.submit capacity t) else none
    | .close _, s => some s.close
    | .release t, s => if t ∈ s.active then some (s.release t) else none

theorem card_submit_le {capacity : Nat} {t : TaskId} {s : Admission}
    (h : s.active.card ≤ capacity) : (s.submit capacity t).active.card ≤ capacity := by
  unfold Admission.submit
  split
  · rename_i haccepted
    have hfree : s.active.card < capacity := by
      by_contra hfull
      unfold Admission.answer at haccepted
      split at haccepted
      · cases haccepted
      · rw [if_pos (Nat.not_lt.mp hfull)] at haccepted
        cases haccepted
    exact (Finset.card_insert_le t s.active).trans hfree
  · exact h

/-! ### Services that implement it -/

/-- How the admission of a service is read off its states, and which activity a
step belongs to. -/
structure AdmissionView (State : Type u) (Action : Type v) where
  capacity : Nat
  admission : State → Admission
  /-- The answer to a submission, from the step on that decides it. -/
  answer : TaskId → State → Option Answer
  hasClosed : Nat → State → Bool
  task : State → Action → Option TaskId
  closer : Action → Option Nat

variable {State : Type u} {Action : Type v}

namespace AdmissionView

variable (view : AdmissionView State Action)

def taskEvents (s s' : State) (t : TaskId) : List Event :=
  (match view.answer t s, view.answer t s' with
    | none, some answer => [.submit t answer]
    | _, _ => []) ++
  (if t ∈ (view.admission s).active ∧ t ∉ (view.admission s').active then [.release t] else [])

def closeEvents (s s' : State) (k : Nat) : List Event :=
  if view.hasClosed k s = false ∧ view.hasClosed k s' = true then [.close k] else []

/-- The events that take effect in a step. -/
def emit : Emission State Action Event := fun s a s' =>
  (match view.task s a with | some t => view.taskEvents s s' t | none => []) ++
  (match view.closer a with | some k => view.closeEvents s s' k | none => [])

/-- The step of the specification that a step of the service takes. -/
inductive Move (s : State) (a : Action) (s' : State) : Prop
  | silent (hanswer : ∀ t, view.answer t s' = view.answer t s)
      (hclosed : ∀ k, view.hasClosed k s' = view.hasClosed k s)
      (hadmission : view.admission s' = view.admission s) : Move s a s'
  | submit {t : TaskId} (htask : view.task s a = some t) (hbefore : view.answer t s = none)
      (hafter : view.answer t s' = some ((view.admission s).answer view.capacity))
      (hanswer : ∀ t', t' ≠ t → view.answer t' s' = view.answer t' s)
      (hclosed : ∀ k, view.hasClosed k s' = view.hasClosed k s)
      (hadmission : view.admission s' = (view.admission s).submit view.capacity t) : Move s a s'
  | close {k : Nat} (hcloser : view.closer a = some k) (hbefore : view.hasClosed k s = false)
      (hafter : view.hasClosed k s' = true)
      (hclosed : ∀ k', k' ≠ k → view.hasClosed k' s' = view.hasClosed k' s)
      (hanswer : ∀ t, view.answer t s' = view.answer t s)
      (hadmission : view.admission s' = (view.admission s).close) : Move s a s'
  | release {t : TaskId} (htask : view.task s a = some t) (hmem : t ∈ (view.admission s).active)
      (hanswer : ∀ t', view.answer t' s' = view.answer t' s)
      (hclosed : ∀ k, view.hasClosed k s' = view.hasClosed k s)
      (hadmission : view.admission s' = (view.admission s).release t) : Move s a s'

/-- The service implements the specification step by step. -/
structure Implements (sys : TransitionSystem State Action) : Prop where
  start : view.admission sys.start = {}
  noAnswer : ∀ t, view.answer t sys.start = none
  notClosed : ∀ k, view.hasClosed k sys.start = false
  move : ∀ {s : State} {a : Action} {s' : State}, sys.Reachable s → sys.step a s = some s' →
    view.Move s a s'

variable {view} {s s' : State} {a : Action}

theorem taskEvents_of_same {t : TaskId} (hanswer : view.answer t s' = view.answer t s)
    (hactive : t ∈ (view.admission s).active → t ∈ (view.admission s').active) :
    view.taskEvents s s' t = [] := by
  unfold taskEvents
  rw [hanswer, if_neg fun h => h.2 (hactive h.1)]
  cases view.answer t s <;> rfl

theorem closeEvents_of_same {k : Nat} (hclosed : view.hasClosed k s' = view.hasClosed k s) :
    view.closeEvents s s' k = [] := by
  unfold closeEvents
  rw [hclosed]
  cases view.hasClosed k s <;> rfl

theorem emit_of_move (h : view.Move s a s') :
    ((∀ t, view.answer t s' = view.answer t s) ∧
      (∀ k, view.hasClosed k s' = view.hasClosed k s) ∧
      view.admission s' = view.admission s ∧ view.emit s a s' = []) ∨
    (∃ t answer, answer = (view.admission s).answer view.capacity ∧ view.answer t s = none ∧
      view.answer t s' = some answer ∧ (∀ t', t' ≠ t → view.answer t' s' = view.answer t' s) ∧
      (∀ k, view.hasClosed k s' = view.hasClosed k s) ∧
      view.admission s' = (view.admission s).submit view.capacity t ∧
      view.emit s a s' = [.submit t answer]) ∨
    (∃ k, view.hasClosed k s = false ∧ view.hasClosed k s' = true ∧
      (∀ k', k' ≠ k → view.hasClosed k' s' = view.hasClosed k' s) ∧
      (∀ t, view.answer t s' = view.answer t s) ∧
      view.admission s' = (view.admission s).close ∧ view.emit s a s' = [.close k]) ∨
    (∃ t, t ∈ (view.admission s).active ∧ (∀ t', view.answer t' s' = view.answer t' s) ∧
      (∀ k, view.hasClosed k s' = view.hasClosed k s) ∧
      view.admission s' = (view.admission s).release t ∧ view.emit s a s' = [.release t]) := by
  have hquiet : (∀ k, view.hasClosed k s' = view.hasClosed k s) →
      (match view.closer a with | some k => view.closeEvents s s' k | none => []) = [] := by
    intro hclosed
    cases view.closer a with
    | none => rfl
    | some k => exact closeEvents_of_same (hclosed k)
  have hidle : (∀ t, view.answer t s' = view.answer t s) →
      (view.admission s').active = (view.admission s).active →
      (match view.task s a with | some t => view.taskEvents s s' t | none => []) = [] := by
    intro hanswer hactive
    cases view.task s a with
    | none => rfl
    | some t => exact taskEvents_of_same (hanswer t) fun hmem => hactive ▸ hmem
  cases h with
  | silent hanswer hclosed hadmission =>
      refine .inl ⟨hanswer, hclosed, hadmission, ?_⟩
      rw [emit, hquiet hclosed, hidle hanswer (by rw [hadmission]), List.append_nil]
  | @submit t htask hbefore hafter hanswer hclosed hadmission =>
      refine .inr (.inl ⟨t, _, rfl, hbefore, hafter, hanswer, hclosed, hadmission, ?_⟩)
      rw [emit, hquiet hclosed, htask, List.append_nil]
      change view.taskEvents s s' t = _
      unfold taskEvents
      rw [hbefore, hafter, if_neg]
      · rfl
      · rintro ⟨hmem, hnot⟩
        rw [hadmission, Admission.submit] at hnot
        split at hnot
        · exact hnot (Finset.mem_insert_of_mem hmem)
        · exact hnot hmem
  | @close k hcloser hbefore hafter hclosed hanswer hadmission =>
      refine .inr (.inr (.inl ⟨k, hbefore, hafter, hclosed, hanswer, hadmission, ?_⟩))
      rw [emit, hidle hanswer (by rw [hadmission]; rfl), hcloser, List.nil_append]
      change view.closeEvents s s' k = _
      unfold closeEvents
      rw [if_pos ⟨hbefore, hafter⟩]
  | @release t htask hmem hanswer hclosed hadmission =>
      refine .inr (.inr (.inr ⟨t, hmem, hanswer, hclosed, hadmission, ?_⟩))
      rw [emit, hquiet hclosed, htask, List.append_nil]
      change view.taskEvents s s' t = _
      unfold taskEvents
      rw [hanswer t, if_pos]
      · cases view.answer t s <;> rfl
      · refine ⟨hmem, ?_⟩
        rw [hadmission]
        exact Finset.notMem_erase t _

variable {sys : TransitionSystem State Action}

theorem Implements.refines (h : view.Implements sys) :
    Refines sys view.emit (boundedAdmission view.capacity) view.admission where
  start := h.start
  step := by
    intro s a s' hs hstep
    rcases emit_of_move (h.move hs hstep) with
      ⟨-, -, hadmission, hemit⟩ | ⟨t, answer, rfl, -, -, -, -, hadmission, hemit⟩ |
      ⟨k, -, -, -, -, hadmission, hemit⟩ | ⟨t, hmem, -, -, hadmission, hemit⟩
    · rw [hemit, hadmission]
      rfl
    · rw [hemit, hadmission]
      simp [TransitionSystem.executeUnder, boundedAdmission]
    · rw [hemit, hadmission]
      rfl
    · rw [hemit, hadmission]
      simp [TransitionSystem.executeUnder, boundedAdmission, hmem]

/-- Submissions and closes; a release belongs to no call of a user. -/
def isCall : Event → Bool
  | .submit _ _ | .close _ => true
  | .release _ => false

variable (view) in
/-- The submission has this answer, or the closing call has taken effect. -/
def Occurred (e : Event) (s : State) : Prop :=
  match e with
  | .submit t answer => view.answer t s = some answer
  | .close k => view.hasClosed k s = true
  | .release _ => False

theorem Implements.records (h : view.Implements sys) :
    Records sys view.emit isCall view.Occurred where
  start := by
    rintro (⟨t, answer⟩ | k | t) hocc
    · simp [Occurred, h.noAnswer t] at hocc
    · simp [Occurred, h.notClosed k] at hocc
    · exact hocc
  step := by
    intro s a s' hs hstep e he
    rcases emit_of_move (h.move hs hstep) with
      ⟨hanswer, hclosed, -, hemit⟩ | ⟨t, answer, -, hbefore, hafter, hanswer, hclosed, -, hemit⟩ |
      ⟨k, hbefore, hafter, hclosed, hanswer, -, hemit⟩ | ⟨t, -, hanswer, hclosed, -, hemit⟩ <;>
      rw [hemit] <;> rcases e with ⟨t₁, answer₁⟩ | k₁ | t₁ <;>
      simp only [Occurred, isCall, List.mem_singleton, List.not_mem_nil, reduceCtorEq,
        or_false, Event.submit.injEq, Event.close.injEq] at he ⊢ <;> grind -linarith
  fresh := by
    intro s a s' hs hstep e he hocc
    rcases emit_of_move (h.move hs hstep) with
      ⟨-, -, -, hemit⟩ | ⟨t, answer, -, hbefore, -, -, -, -, hemit⟩ |
      ⟨k, hbefore, -, -, -, -, hemit⟩ | ⟨t, -, -, -, -, hemit⟩ <;>
      rw [hemit] <;> rcases e with ⟨t₁, answer₁⟩ | k₁ | t₁ <;>
      simp only [Occurred, isCall, List.mem_singleton, List.not_mem_nil, reduceCtorEq,
        not_false_eq_true, Event.submit.injEq, Event.close.injEq] at he hocc ⊢ <;> grind -linarith
  nodup := by
    intro s a s' hs hstep
    rcases emit_of_move (h.move hs hstep) with
      ⟨-, -, -, hemit⟩ | ⟨t, answer, -, -, -, -, -, -, hemit⟩ |
      ⟨k, -, -, -, -, -, hemit⟩ | ⟨t, -, -, -, -, hemit⟩ <;> rw [hemit] <;> simp

/-! ### Over whole runs -/

theorem Implements.bounded (h : view.Implements sys) (hs : sys.Reachable s) :
    (view.admission s).active.card ≤ view.capacity := by
  refine Reachable.invariant
    (P := fun s => (view.admission s).active.card ≤ view.capacity) hs ?_ ?_
  · rw [h.start]
    exact Nat.zero_le _
  · intro s a s' hs ih hstep
    cases h.move hs hstep with
    | silent _ _ hadmission => rwa [hadmission]
    | submit _ _ _ _ _ hadmission => rw [hadmission]; exact card_submit_le ih
    | close _ _ _ _ _ hadmission => rw [hadmission]; exact ih
    | release _ _ _ _ hadmission =>
        rw [hadmission]
        exact (Finset.card_erase_le).trans ih

theorem Implements.hasClosed_of_run (h : view.Implements sys) (hs : sys.Reachable s)
    (hrun : sys.Run s s') {k : Nat} (hclosed : view.hasClosed k s = true) :
    view.hasClosed k s' = true := by
  refine Run.stable (P := fun s' => view.hasClosed k s' = true) hs hrun hclosed ?_
  intro s a s' hs ih hstep
  cases h.move hs hstep with
  | silent _ hsame | submit _ _ _ _ hsame | release _ _ _ hsame => rw [hsame, ih]
  | @close k₁ _ _ hafter hother =>
      by_cases hk : k = k₁
      · rw [hk, hafter]
      · rw [hother k hk, ih]

theorem Implements.closed_of_hasClosed (h : view.Implements sys) (hs : sys.Reachable s) {k : Nat}
    (hclosed : view.hasClosed k s = true) : (view.admission s).closed = true := by
  refine Reachable.invariant
    (P := fun s => view.hasClosed k s = true → (view.admission s).closed = true) hs ?_ ?_ hclosed
  · intro hstart
    rw [h.notClosed k] at hstart
    cases hstart
  · intro s a s' hs ih hstep hclosed
    cases h.move hs hstep with
    | silent _ hsame hadmission =>
        rw [hadmission]
        exact ih (hsame k ▸ hclosed)
    | @submit t _ _ _ _ hsame hadmission =>
        have := ih (hsame k ▸ hclosed)
        rw [hadmission, Admission.submit]
        split <;> exact this
    | close _ _ _ _ _ hadmission =>
        rw [hadmission]
        rfl
    | release _ _ _ hsame hadmission =>
        rw [hadmission]
        exact ih (hsame k ▸ hclosed)

/-- After a close, nobody gets any other answer than the one for a closed service. -/
theorem Implements.frozen (h : view.Implements sys) (hs : sys.Reachable s) (hrun : sys.Run s s')
    {k : Nat} (hclosed : view.hasClosed k s = true) (t : TaskId) :
    view.answer t s' = view.answer t s ∨
      view.answer t s = none ∧ view.answer t s' = some (.rejected .shutdown) := by
  have hboth : view.hasClosed k s' = true ∧ (view.answer t s' = view.answer t s ∨
      view.answer t s = none ∧ view.answer t s' = some (.rejected .shutdown)) := by
    refine Run.stable (P := fun s' => view.hasClosed k s' = true ∧
      (view.answer t s' = view.answer t s ∨
        view.answer t s = none ∧ view.answer t s' = some (.rejected .shutdown)))
      hs hrun ⟨hclosed, .inl rfl⟩ ?_
    rintro s₁ a s₂ hs₁ ⟨hclosed₁, ih⟩ hstep
    have hone : sys.Run s₁ s₂ := RunUnder.tail (runUnder_refl s₁) trivial hstep
    refine ⟨h.hasClosed_of_run hs₁ hone hclosed₁, ?_⟩
    cases h.move hs₁ hstep with
    | silent hsame | close _ _ _ _ hsame | release _ _ hsame => rw [hsame]; exact ih
    | @submit t₁ _ hbefore hafter hsame =>
        by_cases ht : t = t₁
        · subst t₁
          rw [hbefore] at ih
          rw [hafter, Admission.answer, if_pos (h.closed_of_hasClosed hs₁ hclosed₁)]
          rcases ih with ih | ⟨_, ih⟩
          · exact .inr ⟨ih.symm, rfl⟩
          · cases ih
        · rw [hsame t ht]
          exact ih
  exact hboth.2

/-- The submissions and closes of a service have a sequential order: the log of a
run. -/
structure Linearizable (view : AdmissionView State Action) (sys : TransitionSystem State Action) :
    Prop where
  /-- Every answer is the one of the specification at its place in the log. -/
  legal : ∀ {p : State × List Event}, (logging sys view.emit).Reachable p →
    (boundedAdmission view.capacity).execute p.2 {} = some (view.admission p.1)
  once : ∀ {p : State × List Event}, (logging sys view.emit).Reachable p →
    (p.2.filter isCall).Nodup
  submitted : ∀ {p : State × List Event}, (logging sys view.emit).Reachable p →
    ∀ t answer, .submit t answer ∈ p.2 ↔ view.answer t p.1 = some answer
  closed : ∀ {p : State × List Event}, (logging sys view.emit).Reachable p →
    ∀ k, .close k ∈ p.2 ↔ view.hasClosed k p.1 = true
  /-- What has taken effect before comes before what takes effect later. -/
  order : ∀ {p p' : State × List Event}, (logging sys view.emit).Reachable p →
    (logging sys view.emit).Run p p' → p.2 <+: p'.2
  bounded : ∀ {s : State}, sys.Reachable s → (view.admission s).active.card ≤ view.capacity
  frozen : ∀ {s s' : State}, sys.Reachable s → sys.Run s s' →
    ∀ k, view.hasClosed k s = true → ∀ t, view.answer t s' = view.answer t s ∨
      view.answer t s = none ∧ view.answer t s' = some (.rejected .shutdown)

theorem Implements.linearizable (h : view.Implements sys) : Linearizable view sys where
  legal hp := h.refines.execute hp
  once hp := h.records.filter_nodup hp
  submitted hp _ _ := h.records.mem_iff hp rfl
  closed hp _ := h.records.mem_iff hp rfl
  order _ hrun := prefix_of_run hrun
  bounded hs := h.bounded hs
  frozen hs hrun _ hclosed t := h.frozen hs hrun hclosed t

end AdmissionView

end TokioExecutorProofs.BoundedAdmission
