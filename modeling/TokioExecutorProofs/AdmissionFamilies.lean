import TokioExecutorProofs.BoundedAdmission
import TokioExecutorProofs.ProcessFamilies

/-!
Services that keep their submissions and their closing calls in lists. What one step
does to one submission or to one closing call decides which step of the
specification the service takes.
-/

namespace TokioExecutorProofs.AdmissionFamilies

open BoundedAdmission
open ProcessFamilies

universe u v w x

structure FamilyView (State : Type u) (Action : Type v) (Task : Type w) (Closer : Type x) where
  capacity : Nat
  isClosed : State → Bool
  tasks : State → List Task
  closers : State → List Closer
  answer : Task → Option Answer
  isActive : Task → Bool
  hasStored : Closer → Bool
  task : State → Action → Option Nat
  closer : Action → Option Nat

namespace FamilyView

variable {State : Type u} {Action : Type v} {Task : Type w} {Closer : Type x}

def view (family : FamilyView State Action Task Closer) : AdmissionView State Action where
  capacity := family.capacity
  admission s :=
    { closed := family.isClosed s, active := indices family.isActive (family.tasks s) }
  answer t s := (family.tasks s)[t]?.bind family.answer
  hasClosed k s := (family.closers s)[k]?.any family.hasStored
  task := family.task
  closer := family.closer

variable (family : FamilyView State Action Task Closer)

/-- What a step does to the submission that it belongs to, where `spec` is the only
answer that a submission can get. -/
inductive SubmissionMove (spec : Answer) (τ τ' : Task) : Prop
  | keep (hanswer : family.answer τ' = family.answer τ)
      (hactive : family.isActive τ' = family.isActive τ)
  | submit (hbefore : family.answer τ = none) (hinactive : family.isActive τ = false)
      (hafter : family.answer τ' = some spec)
      (hactive : family.isActive τ' = true ↔ spec = .accepted)
  | release (hanswer : family.answer τ' = family.answer τ)
      (hbefore : family.isActive τ = true) (hafter : family.isActive τ' = false)

/-- A step that decides no submission, releases nobody and stores nothing. -/
structure Silent (s s' : State) : Prop where
  tasks : FamilyMove (fun τ => family.answer τ = none ∧ family.isActive τ = false)
    (fun τ τ' => family.answer τ' = family.answer τ ∧ family.isActive τ' = family.isActive τ)
    (family.tasks s) (family.tasks s')
  closers : FamilyMove (fun c => family.hasStored c = false)
    (fun c c' => family.hasStored c' = family.hasStored c) (family.closers s) (family.closers s')
  isClosed : family.isClosed s' = family.isClosed s

variable {family} {s s' : State} {a : Action} {t k : Nat} {τ τ' : Task} {c c' : Closer}

theorem hasClosed_of_closers (h : FamilyMove (fun c => family.hasStored c = false)
      (fun c c' => family.hasStored c' = family.hasStored c) (family.closers s) (family.closers s'))
    (k : Nat) : family.view.hasClosed k s' = family.view.hasClosed k s :=
  h.apply_getElem? (fun c => c.any family.hasStored) (fun _ hc => hc) (fun _ _ hc => hc) k

variable (family) in
theorem silent_move (h : family.Silent s s') : family.view.Move s a s' := by
  have hactive : indices family.isActive (family.tasks s') =
      indices family.isActive (family.tasks s) := by
    refine indices_congr fun t => ?_
    exact h.tasks.apply_getElem? (fun τ => τ.any family.isActive) (fun _ hτ => hτ.2)
      (fun _ _ hτ => hτ.2) t
  refine .silent (fun t => ?_) (hasClosed_of_closers h.closers) ?_
  · exact h.tasks.apply_getElem? (fun τ => τ.bind family.answer) (fun _ hτ => hτ.1)
      (fun _ _ hτ => hτ.1) t
  · simp only [view, hactive, h.isClosed]

variable (family) in
theorem silent_of_closers (htasks : family.tasks s' = family.tasks s)
    (hisClosed : family.isClosed s' = family.isClosed s)
    (hclosers : FamilyMove (fun c => family.hasStored c = false)
      (fun c c' => family.hasStored c' = family.hasStored c) (family.closers s)
      (family.closers s')) : family.view.Move s a s' := by
  refine family.silent_move ⟨?_, hclosers, hisClosed⟩
  rw [htasks]
  exact .keep

/-- A step of one submission is at most one step of the specification. -/
theorem SubmissionMove.move
    (h : family.SubmissionMove ((family.view.admission s).answer family.capacity) τ τ')
    (hτ : (family.tasks s)[t]? = some τ) (htasks : family.tasks s' = (family.tasks s).set t τ')
    (htask : family.task s a = some t) (hisClosed : family.isClosed s' = family.isClosed s)
    (hclosed : ∀ k, family.view.hasClosed k s' = family.view.hasClosed k s) :
    family.view.Move s a s' := by
  have hbefore : family.view.answer t s = family.answer τ := by simp [view, hτ]
  have hafter : family.view.answer t s' = family.answer τ' := by
    simp [view, htasks, getElem?_set_self_of_some hτ]
  have hother : ∀ t', t' ≠ t → family.view.answer t' s' = family.view.answer t' s := by
    intro t' ht
    simp [view, htasks, getElem?_set_of_ne ht]
  have hsame : family.answer τ' = family.answer τ →
      ∀ t', family.view.answer t' s' = family.view.answer t' s := by
    intro hanswer t'
    by_cases ht : t' = t
    · rw [ht, hbefore, hafter, hanswer]
    · exact hother t' ht
  have hadmission : family.view.admission s' =
      { closed := family.isClosed s,
        active := indices family.isActive ((family.tasks s).set t τ') } := by
    simp only [view, htasks, hisClosed]
  cases h with
  | keep hanswer hactive =>
      refine .silent (hsame hanswer) hclosed ?_
      rw [hadmission, indices_set_of_eq hτ hactive]
      rfl
  | release hanswer hτactive hτ'inactive =>
      refine .release htask (mem_indices.mpr ⟨τ, hτ, hτactive⟩) (hsame hanswer) hclosed ?_
      rw [hadmission, indices_set family.isActive hτ, if_neg (by simp [hτ'inactive])]
      rfl
  | submit hnone hinactive hdecided hactive =>
      refine .submit htask (hbefore.trans hnone) (hafter.trans hdecided) hother hclosed ?_
      rw [hadmission]
      change _ = (family.view.admission s).submit family.capacity t
      unfold Admission.submit
      split
      · rename_i haccepted
        rw [indices_set family.isActive hτ, if_pos (hactive.mpr haccepted)]
        rfl
      · rename_i hrejected
        have hτ'inactive := Bool.eq_false_iff.mpr fun h => hrejected (hactive.mp h)
        rw [indices_set_of_eq hτ (hτ'inactive.trans hinactive.symm)]
        rfl

variable (family) in
theorem close_move (hc : (family.closers s)[k]? = some c) (hcloser : family.closer a = some k)
    (hbefore : family.hasStored c = false) (hafter : family.hasStored c' = true)
    (hclosers : family.closers s' = (family.closers s).set k c')
    (htasks : family.tasks s' = family.tasks s) (hclosed : family.isClosed s' = true) :
    family.view.Move s a s' := by
  refine .close hcloser ?_ ?_ (fun k' hk => ?_) (fun t => ?_) ?_
  · simp [view, hc, hbefore]
  · simp [view, hclosers, getElem?_set_self_of_some hc, hafter]
  · simp [view, hclosers, getElem?_set_of_ne hk]
  · simp only [view, htasks]
  · simp only [view, htasks, hclosed, Admission.close]

end FamilyView

end TokioExecutorProofs.AdmissionFamilies
