import TokioExecutorProofs.BlockingAccounting

/-!
Which stop call works on which registry entry. A stop call takes every
registered entry at once and then works on one of them at a time, and nobody
else touches an entry that a stop call has taken.
-/

namespace TokioExecutorProofs.BlockingSweeps

open ServiceBasics
open BlockingServiceState
open BlockingTask
open BlockingService
open BlockingTaskPlacement
open BlockingTaskRegistry
open BlockingTaskInvariants
open ProcessFamilies
open TransitionSystems

/-- In the hands of the stop call `k`. -/
@[grind] def EntryPc.isTakenBy (k : Nat) : EntryPc → Bool
  | .taken k' | .sweeping k' _ => k' == k
  | .absent | .registered | .removed | .gone => false

section

variable {t : TaskId} {g g' : TokioExecutorServiceState} {τ τ' : Task} {k : Nat}

/-- Nobody but the stop call moves an entry into or out of its hands. -/
def KeepsTaken (τ τ' : Task) : Prop :=
  τ'.entry = τ.entry ∨
    ∀ k, EntryPc.isTakenBy k τ.entry = false ∧ EntryPc.isTakenBy k τ'.entry = false

theorem keepsTaken_of_removal
    (h : τ'.entry = τ.entry ∨ τ.entry = .registered ∧ τ'.entry = .removed ∨
      τ.entry = .removed ∧ τ'.entry = .gone) : KeepsTaken τ τ' := by
  rcases h with h | ⟨h, h'⟩ | ⟨h, h'⟩
  · exact .inl h
  · exact .inr fun k => by simp [h, h', EntryPc.isTakenBy]
  · exact .inr fun k => by simp [h, h', EntryPc.isTakenBy]

theorem keepsTaken_of_payloadMove {a : Actor} (hi : TaskInvariant τ)
    (h : PayloadMove a g τ g' τ') : KeepsTaken τ τ' := by
  cases h with
  | carry | accept | markStarted | markedAlready | start => exact .inl rfl
  | register hs | dropHook hs =>
      have habsent := hi.registry.absent.mpr (by rw [hs]; rfl)
      exact .inr fun k => by simp [habsent, EntryPc.isTakenBy]
  | guard hd hstep =>
      have hentry := entry_of_guardStep hi.registry hd hstep
      exact keepsTaken_of_removal hentry

theorem keepsTaken_of_taskStep {a : Action} (hi : TaskInvariant τ)
    (h : TaskStep t g τ a g' τ') (hnext : ∀ k, a ≠ .sweepNext k t) (hsweep : ∀ k, a ≠ .sweep k) :
    KeepsTaken τ τ' := by
  cases h with
  | submitter h =>
      exact keepsTaken_of_payloadMove hi (payloadMove_of_submitterStep hi.placed h)
  | worker h => exact keepsTaken_of_payloadMove hi (payloadMove_of_workerStep hi.placed h)
  | pickUp h =>
      exact keepsTaken_of_payloadMove hi (payloadMove_of_pickUpStep (g := g) (a := .worker t) h)
  | destroy h =>
      exact keepsTaken_of_payloadMove hi (payloadMove_of_destroyStep (g := g) (a := .worker t) h)
  | callCancel h =>
      unfold callCancelStep at h
      split at h
      · exact Option.some.inj h ▸ .inl rfl
      · cases h
  | canceller h =>
      obtain ⟨c, τ₁, c', hc, hstep, rfl⟩ := cancellerStep_cases h
      have hentry := entry_of_cancelStep hi.registry hc hstep
      exact keepsTaken_of_removal hentry
  | sweepNext => exact absurd rfl (hnext _)
  | sweep | finishSweep => exact absurd rfl (hsweep _)

end

/-! ### Over whole runs -/

/-- The stop call that has taken an entry of task `t` is still at work on it. -/
def EntryOwned (closers : List Closer) (t : TaskId) : EntryPc → Prop
  | .taken k => ∃ c, closers[k]? = some c ∧ (c.pc = .takeUnlock ∨ c.pc = .sweep)
  | .sweeping k _ => ∃ c, closers[k]? = some c ∧ c.pc = .sweep ∧ c.current = some t
  | .absent | .registered | .removed | .gone => True

structure Sweeping (s : ServiceState) : Prop where
  owned : ∀ t τ, s.tasks[t]? = some τ → EntryOwned s.closers t τ.entry
  idle : ∀ c ∈ s.closers, c.pc ≠ .sweep → c.current = none

section

variable {s s' : ServiceState} {taskCapacity : NonZeroUsize}

theorem closerStep_current {k : Nat} {g g' : TokioExecutorServiceState} {c c' : Closer}
    (h : closerStep k g c = some (g', c')) :
    c'.current = c.current ∧ c.pc ≠ .sweep ∧ (c.pc = .takeUnlock → c'.pc = .sweep) := by
  cases hpc : c.pc <;> simp only [closerStep, hpc] at h
  case take | sweep | returned => cases h
  case lockSubmission | snapshotLock | takeLock | readLock =>
    simp only [TokioExecutorServiceState.map_acquire_eq_some, Prod.mk.injEq] at h
    obtain ⟨_, _, rfl⟩ := h
    simp
  case store =>
    split at h <;> simp only [Option.some.injEq, Prod.mk.injEq] at h <;>
      obtain ⟨_, rfl⟩ := h <;> simp
  case unlockSubmission | readUnlock =>
    simp only [Option.some.injEq, Prod.mk.injEq] at h
    obtain ⟨_, rfl⟩ := h
    exact ⟨rfl, by simp, by simp⟩
  all_goals
    simp only [Option.some.injEq, Prod.mk.injEq] at h
    obtain ⟨_, rfl⟩ := h
    simp

theorem EntryOwned.of_keepsTaken {closers : List Closer} {t : TaskId} {τ τ' : Task}
    (h : EntryOwned closers t τ.entry) (hkeep : KeepsTaken τ τ') :
    EntryOwned closers t τ'.entry := by
  rcases hkeep with heq | hno
  · rw [heq]
    exact h
  · cases hentry : τ'.entry with
    | taken k | sweeping k p => simpa [hentry, EntryPc.isTakenBy] using (hno k).2
    | _ => trivial

theorem EntryOwned.setCloser {closers : List Closer} {t : TaskId} {e : EntryPc} {k : Nat}
    {c c' : Closer} (h : EntryOwned closers t e) (hc : closers[k]? = some c)
    (htaken : e = .taken k → c.pc = .takeUnlock ∨ c.pc = .sweep →
      c'.pc = .takeUnlock ∨ c'.pc = .sweep)
    (hsweeping : ∀ p, e = .sweeping k p → c.pc = .sweep → c.current = some t →
      c'.pc = .sweep ∧ c'.current = some t) : EntryOwned (closers.set k c') t e := by
  cases e with
  | taken k₁ =>
      obtain ⟨c₁, hc₁, hpc⟩ := h
      by_cases hk : k₁ = k
      · subst k₁
        obtain rfl := Option.some.inj (hc₁.symm.trans hc)
        exact ⟨c', getElem?_set_self_of_some hc, htaken rfl hpc⟩
      · exact ⟨c₁, (getElem?_set_of_ne hk).trans hc₁, hpc⟩
  | sweeping k₁ p =>
      obtain ⟨c₁, hc₁, hpc, ht⟩ := h
      by_cases hk : k₁ = k
      · subst k₁
        obtain rfl := Option.some.inj (hc₁.symm.trans hc)
        exact ⟨c', getElem?_set_self_of_some hc, hsweeping p rfl hpc ht⟩
      · exact ⟨c₁, (getElem?_set_of_ne hk).trans hc₁, hpc, ht⟩
  | _ => trivial

theorem EntryOwned.takeEntry {closers : List Closer} {t : TaskId} {k : Nat} {c : Closer}
    {τ : Task} (h : EntryOwned closers t τ.entry) (hc : closers[k]? = some c)
    (hpc : c.pc = .take) :
    EntryOwned (closers.set k { c with pc := .takeUnlock }) t (takeEntry k τ).entry := by
  unfold BlockingTask.takeEntry
  split
  · exact ⟨_, getElem?_set_self_of_some hc, .inl rfl⟩
  · exact h.setCloser hc (by simp [hpc]) (by simp [hpc])

theorem sweeping_of_reachable (h : (service taskCapacity).Reachable s) : Sweeping s := by
  refine Reachable.invariant h ⟨by simp [service], by simp [service]⟩ ?_
  intro s a s' hs ih hstep
  have hi := taskInvariant_of_reachable hs
  obtain ⟨howned, hidle⟩ := ih
  cases effect_of_step hstep with
  | newTask kind =>
      refine ⟨fun t τ hτ => ?_, hidle⟩
      rcases getElem?_append_cases hτ with hτ | ⟨_, rfl⟩
      · exact howned t τ hτ
      · trivial
  | newCloser kind =>
      refine ⟨fun t τ hτ => ?_, forall_mem_append hidle fun _ => rfl⟩
      have := howned t τ hτ
      cases hentry : τ.entry <;> simp only [hentry, EntryOwned] at this ⊢
      all_goals
        obtain ⟨c, hc, hpc⟩ := this
        exact ⟨c, getElem?_append_of_some hc, hpc⟩
  | newWaiter | waiter => exact ⟨howned, hidle⟩
  | @task t₀ τ₀ _ _ τ' hτ₀ hτstep hnext hlast hcurrent =>
      refine ⟨fun t τ hτ => ?_, hidle⟩
      rcases getElem?_set_cases hτ with ⟨rfl, rfl⟩ | ⟨_, hτ⟩
      · by_cases hsweep : ∃ k, a = .sweep k
        · obtain ⟨k, rfl⟩ := hsweep
          have := howned _ _ hτ₀
          cases hτstep with
          | sweep hentry => simpa only [hentry, EntryOwned] using this
          | finishSweep hentry => exact absurd hentry (hlast _ _ rfl)
        · simp only [not_exists] at hsweep
          have hkeep := keepsTaken_of_taskStep (hi _ (mem_of_getElem? hτ₀)) hτstep hnext hsweep
          exact (howned _ _ hτ₀).of_keepsTaken hkeep
      · exact howned t τ hτ
  | @sweepNext k c t₀ τ₀ hc hpc hnone hτ₀ hentry =>
      refine ⟨fun t τ hτ => ?_, forall_mem_set hidle fun hne => absurd hpc hne⟩
      rcases getElem?_set_cases hτ with ⟨rfl, rfl⟩ | ⟨_, hτ⟩
      · exact ⟨_, getElem?_set_self_of_some hc, hpc, rfl⟩
      · exact (howned t τ hτ).setCloser hc (fun _ _ => .inr hpc) (by simp [hnone])
  | @finishSweep k c t₀ τ₀ counted hc hcurrent hτ₀ hentry =>
      refine ⟨fun t τ hτ => ?_, forall_mem_set hidle fun _ => rfl⟩
      rcases getElem?_set_cases hτ with ⟨rfl, rfl⟩ | ⟨hne, hτ⟩
      · trivial
      · refine (howned t τ hτ).setCloser hc (fun _ hpc => hpc) fun p _ _ ht => ?_
        exact absurd (Option.some.inj (ht.symm.trans hcurrent)) hne
  | @take k c hc hpc =>
      refine ⟨fun t τ hτ => ?_, forall_mem_set hidle fun _ => ?_⟩
      · rw [List.getElem?_map, Option.map_eq_some_iff] at hτ
        obtain ⟨τ₀, hτ₀, rfl⟩ := hτ
        exact (howned t τ₀ hτ₀).takeEntry hc hpc
      · exact hidle c (mem_of_getElem? hc) (by simp [hpc])
  | @endSweep k c hc hpc hnone hleft =>
      refine ⟨fun t τ hτ => ?_, forall_mem_set hidle fun _ => hnone⟩
      refine (howned t τ hτ).setCloser hc (fun hk => ?_) (by simp [hnone])
      exact absurd hk (hleft τ (mem_of_getElem? hτ))
  | @closer k c g' c' hc hcstep =>
      obtain ⟨hcurrent, hsweep, hunlock⟩ := closerStep_current hcstep
      refine ⟨fun t τ hτ => ?_, forall_mem_set hidle fun _ => ?_⟩
      · refine (howned t τ hτ).setCloser hc ?_ ?_
        · rintro - (hpc | hpc)
          · exact .inr (hunlock hpc)
          · exact absurd hpc hsweep
        · intro p _ hpc
          exact absurd hpc hsweep
      · rw [hcurrent]
        exact hidle c (mem_of_getElem? hc) hsweep

end

end TokioExecutorProofs.BlockingSweeps
