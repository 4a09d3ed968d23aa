import Mathlib.Algebra.Order.BigOperators.Group.List
import Mathlib.Algebra.Order.Ring.Nat
import TokioExecutorProofs.MutexTables
import TokioExecutorProofs.ProcessFamilies
import TokioExecutorProofs.TransitionSystems

/-!
Systems that come to rest. A rank that every permitted step lowers bounds the
length of every permitted run. Locks that are taken in a fixed order never leave
their owners waiting for one another, so a state in which the owners cannot go on
has no lock taken.
-/

namespace TokioExecutorProofs.RestingSystems

open MutexTables
open ProcessFamilies
open TransitionSystems

/-! ### Runs that end -/

section

variable {State Action : Type*} {sys : TransitionSystem State Action}
  {allowed : State → Action → Prop} {s s' : State}

/-- No permitted action is enabled. -/
def AtRest (sys : TransitionSystem State Action) (allowed : State → Action → Prop)
    (s : State) : Prop :=
  ∀ a, allowed s a → sys.step a s = none

/-- A run of exactly `n` permitted steps. -/
inductive StepsUnder (sys : TransitionSystem State Action) (allowed : State → Action → Prop) :
    Nat → State → State → Prop
  | refl (s : State) : StepsUnder sys allowed 0 s s
  | tail {n : Nat} {s₁ s₂ s₃ : State} {a : Action} (h : StepsUnder sys allowed n s₁ s₂)
      (ha : allowed s₂ a) (hstep : sys.step a s₂ = some s₃) :
      StepsUnder sys allowed (n + 1) s₁ s₃

/-- Every permitted step from a reachable state lowers the rank. -/
def Lowers (sys : TransitionSystem State Action) (allowed : State → Action → Prop)
    (rank : State → Nat) : Prop :=
  ∀ s a s', sys.Reachable s → allowed s a → sys.step a s = some s' → rank s' < rank s

theorem Lowers.mono {allowed' : State → Action → Prop} {rank : State → Nat}
    (h : Lowers sys allowed rank) (hle : ∀ s a, allowed' s a → allowed s a) :
    Lowers sys allowed' rank :=
  fun s a s' hs ha hstep => h s a s' hs (hle s a ha) hstep

theorem StepsUnder.runUnder {n : Nat} (h : StepsUnder sys allowed n s s') :
    sys.RunUnder allowed s s' := by
  induction h with
  | refl s => exact runUnder_refl s
  | tail _ ha hstep ih => exact RunUnder.tail ih ha hstep

theorem StepsUnder.and_of_stable {P : State → Prop} {n : Nat} (h : StepsUnder sys allowed n s s')
    (hs : sys.Reachable s) (hP : P s)
    (hstep : ∀ s a s', sys.Reachable s → P s → sys.step a s = some s' → P s') :
    StepsUnder sys (fun s a => P s ∧ allowed s a) n s s' ∧ P s' := by
  induction h with
  | refl s => exact ⟨.refl s, hP⟩
  | tail hprefix ha hnext ih =>
      obtain ⟨hrun, hP₂⟩ := ih hs hP
      have hs₂ := Reachable.run hs (RunUnder.run hprefix.runUnder)
      exact ⟨.tail hrun ⟨hP₂, ha⟩ hnext, hstep _ _ _ hs₂ hP₂ hnext⟩

variable {rank : State → Nat}

/-- The rank pays for every step. -/
theorem Lowers.length_add_le (h : Lowers sys allowed rank) (hs : sys.Reachable s) {n : Nat}
    (hrun : StepsUnder sys allowed n s s') : n + rank s' ≤ rank s := by
  induction hrun with
  | refl => omega
  | tail hprefix ha hstep ih =>
      have hle := ih hs
      have hlt := h _ _ _ (Reachable.run hs (RunUnder.run hprefix.runUnder)) ha hstep
      omega

theorem Lowers.exists_atRest (h : Lowers sys allowed rank) (hs : sys.Reachable s) :
    ∃ s', sys.RunUnder allowed s s' ∧ AtRest sys allowed s' := by
  induction hn : rank s using Nat.strong_induction_on generalizing s with
  | _ n ih =>
      by_cases hrest : AtRest sys allowed s
      · exact ⟨s, runUnder_refl s, hrest⟩
      · simp only [AtRest, not_forall] at hrest
        obtain ⟨a, ha, hnext⟩ := hrest
        obtain ⟨s₁, hstep⟩ := Option.ne_none_iff_exists'.mp hnext
        have hlt := h s a s₁ hs ha hstep
        have hone : sys.RunUnder allowed s s₁ := RunUnder.tail (runUnder_refl s) ha hstep
        have hs₁ := Reachable.run hs (RunUnder.run hone)
        obtain ⟨s', hrun, hrest⟩ := ih (rank s₁) (hn ▸ hlt) hs₁ rfl
        exact ⟨s', RunUnder.trans hone hrun, hrest⟩

/-- Steps of two kinds: one kind lowers the work that is left, and may raise a
bounded rank that the other kind lowers. -/
theorem weighted_lt {work work' rank rank' bound : Nat}
    (h : work' < work ∧ rank' ≤ bound ∨ work' = work ∧ rank' < rank) :
    (bound + 1) * work' + rank' < (bound + 1) * work + rank := by
  rcases h with ⟨hwork, hrank⟩ | ⟨rfl, hrank⟩
  · have hmul : (bound + 1) * (work' + 1) ≤ (bound + 1) * work := Nat.mul_le_mul_left _ hwork
    rw [Nat.mul_add, Nat.mul_one] at hmul
    omega
  · omega

end

/-! ### Ranks of families -/

section

variable {α : Type*} {rank rank' : α → Nat} {family : List α} {i : Nat} {x y : α}

/-- The rank of a family of processes. -/
def total (rank : α → Nat) (family : List α) : Nat := (family.map rank).sum

theorem total_set_add (h : family[i]? = some x) :
    total rank (family.set i y) + rank x = total rank family + rank y := by
  unfold total
  induction family generalizing i with
  | nil => simp at h
  | cons z family ih =>
      cases i with
      | zero =>
          obtain rfl : z = x := by simpa using h
          simp only [List.set_cons_zero, List.map_cons, List.sum_cons]
          omega
      | succ i =>
          have hrest := ih (by simpa using h)
          simp only [List.set_cons_succ, List.map_cons, List.sum_cons]
          omega

theorem total_set_lt (h : family[i]? = some x) (hlt : rank y < rank x) :
    total rank (family.set i y) < total rank family := by
  have hadd : total rank (family.set i y) + rank x = total rank family + rank y :=
    total_set_add h
  omega

theorem total_set_le (h : family[i]? = some x) (hle : rank y ≤ rank x) :
    total rank (family.set i y) ≤ total rank family := by
  have hadd : total rank (family.set i y) + rank x = total rank family + rank y :=
    total_set_add h
  omega

theorem total_append_singleton : total rank (family ++ [y]) = total rank family + rank y := by
  simp [total]

theorem total_map_le {f : α → α} (h : ∀ z ∈ family, rank (f z) ≤ rank z) :
    total rank (family.map f) ≤ total rank family := by
  unfold total
  rw [List.map_map]
  exact List.sum_le_sum h

theorem total_le_of_getElem? {family' : List α}
    (h : ∀ i : Nat, (family'[i]?).elim 0 rank ≤ (family[i]?).elim 0 rank) :
    total rank family' ≤ total rank family := by
  induction family' generalizing family with
  | nil => exact Nat.zero_le _
  | cons y family' ih =>
      have hhead := h 0
      cases family with
      | nil =>
          have hrest : total rank family' ≤ total rank [] := ih fun i => h (i + 1)
          simp only [total, List.map_cons, List.sum_cons] at hhead hrest ⊢
          simp only [List.getElem?_cons_zero, List.getElem?_nil, Option.elim] at hhead
          omega
      | cons x family =>
          have hrest : total rank family' ≤ total rank family := ih fun i => h (i + 1)
          simp only [total, List.map_cons, List.sum_cons] at hhead hrest ⊢
          simp only [List.getElem?_cons_zero, Option.elim] at hhead
          omega

theorem total_le_mul {bound : Nat} (h : ∀ z, rank z ≤ bound) (family : List α) :
    total rank family ≤ family.length * bound := by
  have hle := List.sum_le_card_nsmul (family.map rank) bound (by simpa using fun z _ => h z)
  simpa [total] using hle

end

/-! ### Locks taken in order -/

section

variable {Lock Owner : Type*} {locks : MutexTable Lock Owner} {waits : Owner → Lock → Prop}
  {level : Lock → Nat}

/-- If every lock that an owner of a lock waits for is on a higher level, then
some owner waits for no lock that is taken. -/
theorem exists_unobstructed (hlevel : ∃ top, ∀ l, level l ≤ top)
    (hordered : ∀ o l l', locks l = some o → waits o l' → level l < level l')
    {l : Lock} {o : Owner} (h : locks l = some o) :
    ∃ l' o', locks l' = some o' ∧ ∀ l'', waits o' l'' → locks l'' = none := by
  obtain ⟨top, htop⟩ := hlevel
  induction hn : top - level l using Nat.strong_induction_on generalizing l o with
  | _ n ih =>
      by_cases hfree : ∀ l'', waits o l'' → locks l'' = none
      · exact ⟨l, o, h, hfree⟩
      · simp only [not_forall] at hfree
        obtain ⟨l'', hwaits, htaken⟩ := hfree
        obtain ⟨o'', ho''⟩ := Option.ne_none_iff_exists'.mp htaken
        have hlt := hordered o l l'' h hwaits
        have hle := htop l''
        exact ih (top - level l'') (by omega) ho'' rfl

theorem locks_eq_none (hlevel : ∃ top, ∀ l, level l ≤ top)
    (hordered : ∀ o l l', locks l = some o → waits o l' → level l < level l')
    (hstuck : ∀ o, (∀ l, waits o l → locks l = none) → ∀ l, locks l ≠ some o) (l : Lock) :
    locks l = none := by
  cases hl : locks l with
  | none => rfl
  | some o =>
      obtain ⟨l', o', ho', hfree⟩ := exists_unobstructed hlevel hordered hl
      exact absurd ho' (hstuck o' hfree l')

end

end TokioExecutorProofs.RestingSystems
