import Mathlib.Logic.Function.Basic

/-!
Non-reentrant mutual-exclusion locks by name. A program counter tells which
locks its owner should hold; `Agrees` says that the table records exactly these.
-/

namespace TokioExecutorProofs.MutexTables

variable {Lock Owner : Type*}

/-- The current owner of each lock. -/
abbrev MutexTable (Lock Owner : Type*) := Lock → Option Owner

/-- Every owner that relies on a lock is recorded in the table. -/
def Respects (locks : MutexTable Lock Owner) (holds : Owner → Lock → Prop) : Prop :=
  ∀ o l, holds o l → locks l = some o

/-- The table records exactly the owners that rely on a lock. -/
def Agrees (locks : MutexTable Lock Owner) (holds : Owner → Lock → Prop) : Prop :=
  ∀ o l, locks l = some o ↔ holds o l

variable {locks : MutexTable Lock Owner} {holds holds' : Owner → Lock → Prop}

theorem Agrees.respects (h : Agrees locks holds) : Respects locks holds :=
  fun o l => (h o l).mpr

/-- Mutual exclusion. -/
theorem Respects.unique (h : Respects locks holds) {l : Lock} {o o' : Owner}
    (ho : holds o l) (ho' : holds o' l) : o = o' :=
  Option.some.inj ((h o l ho).symm.trans (h o' l ho'))

variable [DecidableEq Lock]

/-- Taking a lock blocks while anybody holds it, the caller included. -/
def acquire (locks : MutexTable Lock Owner) (l : Lock) (o : Owner) :
    Option (MutexTable Lock Owner) :=
  match locks l with
  | none => some (Function.update locks l (some o))
  | some _ => none

def release (locks : MutexTable Lock Owner) (l : Lock) : MutexTable Lock Owner :=
  Function.update locks l none

theorem acquire_eq_some {locks' : MutexTable Lock Owner} {l : Lock} {o : Owner} :
    acquire locks l o = some locks' ↔
      locks l = none ∧ locks' = Function.update locks l (some o) := by
  unfold acquire
  cases locks l with
  | none => simp [eq_comm]
  | some owner => simp

/-- What one step of an owner can do to the table, given the locks that it
relies on before and after the step. -/
inductive LockMove (locks : MutexTable Lock Owner) (o : Owner) (before after : Lock → Prop) :
    MutexTable Lock Owner → Prop
  | keep (heq : ∀ l, after l ↔ before l) : LockMove locks o before after locks
  | acquire {l : Lock} (hfree : locks l = none) (heq : ∀ l', after l' ↔ before l' ∨ l' = l) :
      LockMove locks o before after (Function.update locks l (some o))
  | release {l : Lock} (hheld : before l) (heq : ∀ l', after l' ↔ before l' ∧ l' ≠ l) :
      LockMove locks o before after (release locks l)

theorem LockMove.congr {locks' : MutexTable Lock Owner} {o : Owner}
    {before after before' after' : Lock → Prop}
    (h : LockMove locks o before after locks') (hbefore : ∀ l, before l ↔ before' l)
    (hafter : ∀ l, after l ↔ after' l) : LockMove locks o before' after' locks' := by
  obtain rfl : before = before' := funext fun l => propext (hbefore l)
  obtain rfl : after = after' := funext fun l => propext (hafter l)
  exact h

/-- The step rule: the other owners rely on the same locks as before. -/
theorem Agrees.move {locks' : MutexTable Lock Owner} {o : Owner}
    (h : Agrees locks holds) (hmove : LockMove locks o (holds o) (holds' o) locks')
    (hother : ∀ o' l, o' ≠ o → (holds' o' l ↔ holds o' l)) : Agrees locks' holds' := by
  intro o' l'
  cases hmove with
  | keep heq =>
      rw [h o' l']
      by_cases ho : o' = o
      · subst o'
        exact (heq l').symm
      · exact (hother o' l' ho).symm
  | @acquire l hfree heq =>
      by_cases hl : l' = l
      · subst l'
        rw [Function.update_self]
        by_cases ho : o' = o
        · subst o'
          simp [heq l]
        · rw [hother o' l ho, ← h o' l, hfree, Option.some.injEq]
          exact ⟨fun heq => absurd heq.symm ho, nofun⟩
      · rw [Function.update_of_ne hl, h o' l']
        by_cases ho : o' = o
        · subst o'
          simp [heq l', hl]
        · exact (hother o' l' ho).symm
  | @release l hheld heq =>
      unfold release
      by_cases hl : l' = l
      · subst l'
        rw [Function.update_self]
        refine ⟨nofun, fun hafter => ?_⟩
        by_cases ho : o' = o
        · subst o'
          exact absurd rfl ((heq l).mp hafter).2
        · have hbefore := (hother o' l ho).mp hafter
          exact absurd (h.respects.unique hbefore hheld) ho
      · rw [Function.update_of_ne hl, h o' l']
        by_cases ho : o' = o
        · subst o'
          simp [heq l', hl]
        · exact (hother o' l' ho).symm

end TokioExecutorProofs.MutexTables
