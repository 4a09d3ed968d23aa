import TokioExecutorProofs.IoActivities

/-!
The registry entry of one task of the IO service: who moves it, in whose hands
it is, and why it is gone.
-/

namespace TokioExecutorProofs.IoSweeps

open ServiceBasics
open IoServiceState
open IoServiceState.TokioIoExecutorServiceState
open IoTask
open IoService
open IoTaskInvariants
open IoActivities
open ProcessFamilies
open TransitionSystems

/-! ### The marker -/

/-- The guard's drop has set the marker. -/
@[grind] def PayloadStage.isMarked : PayloadStage → Bool
  | .whole | .futureDropped | .droppingGuard .finishMarker => false
  | .droppingGuard _ | .destroyed => true

/-- The marker says how far the guard is. -/
def Marked (τ : Task) : Prop := τ.markerFinished = PayloadStage.isMarked (stage τ)

section

variable {t : TaskId} {g g' : TokioIoExecutorServiceState} {τ τ' : Task} {a : Action}

theorem marked_of_guardStep {b : Actor} {d : GuardPc} {next : Option GuardPc}
    (h : guardStep b g τ d = some (g', τ', next))
    (hmarked : τ.markerFinished = PayloadStage.isMarked (.droppingGuard d)) :
    τ'.markerFinished = PayloadStage.isMarked (PayloadStage.after next) := by
  cases d <;> simp only [guardStep] at h
  case lock =>
    simp only [map_acquire_eq_some, Prod.mk.injEq] at h
    obtain ⟨_, _, rfl, rfl⟩ := h
    exact hmarked
  all_goals
    simp only [Option.some.injEq, Prod.mk.injEq] at h
    obtain ⟨_, rfl, rfl⟩ := h
    first | exact hmarked | rfl

theorem marked_of_payloadMove {b : Actor} (hm : Marked τ) (h : PayloadMove b g τ g' τ') :
    Marked τ' := by
  cases h with
  | go _ _ hstage =>
      rw [Marked, stage, hstage]
      exact hm
  | accept hs | register hs | abandonSender hs =>
      rw [Marked, stage, hs] at hm
      exact hm
  | dropFuture _ hwhole hstage =>
      rw [Marked, hwhole] at hm
      rcases hstage with hstage | hstage <;> rw [Marked, stage, hstage] <;> exact hm
  | guard hd hstep _ hstage =>
      rw [Marked, hd] at hm
      have hmarked := marked_of_guardStep hstep hm
      rw [Marked, stage, hstage]
      exact hmarked

theorem marked_of_taskStep (hi : TaskInvariant τ) (hm : Marked τ)
    (h : TaskStep t g τ a g' τ') : Marked τ' := by
  rcases taskMove_of_taskStep hi h with ⟨_, hmove⟩ |
    ⟨_, ⟨_, _, _, rfl⟩ | ⟨_, _, _, rfl⟩ | ⟨_, _, _, rfl⟩⟩
  · exact marked_of_payloadMove hm hmove
  · exact hm
  · exact hm
  · exact hm

theorem marked_takeEntry {k : Nat} (hm : Marked τ) : Marked (takeEntry k τ) := by
  unfold takeEntry
  split <;> exact hm

theorem marked_of_reachable {taskCapacity : NonZeroUsize} {s : ServiceState}
    (h : (service taskCapacity).Reachable s) : ∀ τ ∈ s.tasks, TaskInvariant τ ∧ Marked τ := by
  refine forall_tasks_of_reachable ?_ (fun k τ hP => ?_) (fun _ _ _ _ _ _ hP hstep => ?_) h
  · exact ⟨taskInvariant_new, rfl⟩
  · exact ⟨taskInvariant_takeEntry hP.1, marked_takeEntry hP.2⟩
  · exact ⟨taskInvariant_of_taskStep hP.1 hstep, marked_of_taskStep hP.1 hP.2 hstep⟩

end

/-! ### The entry -/

/-- What a step of one task does to its entry and to the stop calls that count
it. -/
inductive EntryMove (τ τ' : Task) : Action → Prop
  | keep {a : Action} (hentry : τ'.entry = τ.entry) (hcounted : τ'.countedBy = τ.countedBy) :
      EntryMove τ τ' a
  | register {a : Action} (hs : τ.submitter = .register) (hentry : τ'.entry = .registered)
      (hcounted : τ'.countedBy = τ.countedBy) : EntryMove τ τ' a
  | refuse {a : Action} (hs : τ.submitter = .register)
      (hdead : τ'.markerFinished = true ∨ τ'.worker = .finished) (hentry : τ'.entry = .gone)
      (hcounted : τ'.countedBy = τ.countedBy) : EntryMove τ τ' a
  | remove {a : Action} (hbefore : τ.entry = .registered) (hmarker : τ'.markerFinished = true)
      (hentry : τ'.entry = .gone) (hcounted : τ'.countedBy = τ.countedBy) : EntryMove τ τ' a
  | sweepNext {k : Nat} {t : TaskId} (hbefore : τ.entry = .taken k)
      (hentry : τ'.entry = if τ.worker = .finished then .gone else .aborting k)
      (hworker : τ'.worker = τ.worker) (hcounted : τ'.countedBy = τ.countedBy) :
      EntryMove τ τ' (.sweepNext k t)
  | sweepAbort {k : Nat} (hbefore : τ.entry = .aborting k) (hentry : τ'.entry = .gone)
      (haborted : τ'.aborted = true) (hcounted : τ'.countedBy = τ.countedBy ++ [k]) :
      EntryMove τ τ' (.sweepAbort k)

section

variable {t : TaskId} {g g' : TokioIoExecutorServiceState} {τ τ' : Task} {a : Action}

theorem entryMove_of_guardStep {b : Actor} {d : GuardPc} {next : Option GuardPc}
    (h : guardStep b g τ d = some (g', τ', next))
    (hmarked : τ.markerFinished = PayloadStage.isMarked (.droppingGuard d))
    (s : SubmitterPc) (w : WorkerPc) :
    EntryMove τ { τ' with submitter := s, worker := w } a := by
  cases d <;> simp only [guardStep] at h
  case remove =>
    simp only [Option.some.injEq, Prod.mk.injEq] at h
    obtain ⟨_, rfl, _⟩ := h
    by_cases hentry : τ.entry = .registered
    · exact .remove hentry hmarked (if_pos hentry) rfl
    · exact .keep (if_neg hentry) rfl
  case lock =>
    simp only [map_acquire_eq_some, Prod.mk.injEq] at h
    obtain ⟨_, _, rfl, _⟩ := h
    exact .keep rfl rfl
  all_goals
    simp only [Option.some.injEq, Prod.mk.injEq] at h
    obtain ⟨_, rfl, _⟩ := h
    exact .keep rfl rfl

theorem entryMove_of_payloadMove {b : Actor} (hm : Marked τ) (h : PayloadMove b g τ g' τ') :
    EntryMove τ τ' a := by
  cases h with
  | go | accept | dropFuture | abandonSender => exact .keep rfl rfl
  | register hs =>
      by_cases halive : τ.markerFinished = false ∧ τ.worker ≠ .finished
      · exact .register hs (by simp [halive]) rfl
      · have hdead : τ.markerFinished = true ∨ τ.worker = .finished := by
          simpa [imp_iff_not_or] using halive
        refine .refuse hs hdead ?_ rfl
        rcases hdead with hdead | hdead <;> simp [hdead]
  | guard hd hstep =>
      rw [Marked, hd] at hm
      exact entryMove_of_guardStep hstep hm _ _

theorem entryMove_of_taskStep (hi : TaskInvariant τ) (hm : Marked τ)
    (h : TaskStep t g τ a g' τ') : EntryMove τ τ' a := by
  rcases taskMove_of_taskStep hi h with ⟨_, hmove⟩ |
    ⟨_, ⟨_, _, _, rfl⟩ | ⟨k, rfl, hentry, rfl⟩ | ⟨k, rfl, hentry, rfl⟩⟩
  · exact entryMove_of_payloadMove hm hmove
  · exact .keep rfl rfl
  · exact .sweepNext hentry rfl rfl rfl
  · exact .sweepAbort hentry rfl rfl rfl

/-! ### Why an entry is gone -/

theorem finished_of_taskStep (hi : TaskInvariant τ) (h : TaskStep t g τ a g' τ')
    (hfinished : τ.worker = .finished) : τ'.worker = .finished := by
  have hplaced := hi.placed
  cases h with
  | submitter h =>
      rcases (submitterStep_frame h).1 with hsame | ⟨hs, _⟩
      · rw [hsame, hfinished]
      · rw [hfinished, hs] at hplaced
        cases hplaced.1
  | worker h => simp [workerStep, hfinished] at h
  | pickUp h | destroy h =>
      rw [hfinished] at h
      cases h
  | abandon | callCancel | canceller => exact hfinished
  | sweepNext | sweepAbort => exact hfinished

theorem markerFinished_of_taskStep (h : TaskStep t g τ a g' τ')
    (hfinished : τ.markerFinished = true) : τ'.markerFinished = true := by
  cases h with
  | submitter h =>
      obtain ⟨_, _, _, _, hmarker⟩ := submitterStep_frame h
      exact hmarker hfinished
  | worker h =>
      obtain ⟨_, _, _, _, hmarker⟩ := workerStep_frame h
      exact hmarker hfinished
  | abandon | pickUp | destroy | callCancel | canceller => exact hfinished
  | sweepNext | sweepAbort => exact hfinished

theorem aborted_of_taskStep (h : TaskStep t g τ a g' τ') (haborted : τ.aborted = true) :
    τ'.aborted = true := by
  cases h with
  | submitter h =>
      obtain ⟨_, _, hsame, _⟩ := submitterStep_frame h
      rw [hsame, haborted]
  | worker h =>
      obtain ⟨_, _, hsame, _⟩ := workerStep_frame h
      rw [hsame, haborted]
  | canceller h => exact h.elim (·.trans haborted) id
  | abandon | pickUp | destroy | callCancel | sweepNext => exact haborted
  | sweepAbort => rfl

/-- A task is counted at most once, and an entry is gone because its guard began
its drop, because Tokio's task had finished or because a stop call aborted it. -/
structure Accounted (τ : Task) : Prop where
  once : τ.countedBy ≠ [] → τ.entry = .gone ∧ τ.countedBy.length = 1 ∧ τ.aborted = true
  gone : τ.entry = .gone →
    τ.markerFinished = true ∨ τ.worker = .finished ∨ τ.countedBy ≠ []

theorem accounted_of_taskStep (hi : TaskInvariant τ) (hm : Marked τ) (ha : Accounted τ)
    (h : TaskStep t g τ a g' τ') : Accounted τ' := by
  have hnone : τ.entry ≠ .gone → τ.countedBy = [] := fun hne =>
    by_contra fun hcounted => hne (ha.once hcounted).1
  have hopen : τ.submitter = .register → τ.entry ≠ .gone := by
    intro hs hgone
    have habsent := hi.absent.mpr (by rw [hs]; rfl)
    rw [hgone] at habsent
    cases habsent
  cases entryMove_of_taskStep hi hm h with
  | keep hentry hcounted =>
      refine ⟨fun hne => ?_, fun hgone => ?_⟩
      · rw [hcounted] at hne
        obtain ⟨hgone, hlength, haborted⟩ := ha.once hne
        exact ⟨hentry.trans hgone, hcounted ▸ hlength, aborted_of_taskStep h haborted⟩
      · rw [hcounted]
        refine (ha.gone (hentry.symm.trans hgone)).imp (markerFinished_of_taskStep h) ?_
        exact Or.imp_left (finished_of_taskStep hi h)
  | register hs hentry hcounted =>
      have hempty := hcounted.trans (hnone (hopen hs))
      exact ⟨fun hne => absurd hempty hne, fun hgone => by rw [hentry] at hgone; cases hgone⟩
  | refuse hs hdead _ hcounted =>
      have hempty := hcounted.trans (hnone (hopen hs))
      exact ⟨fun hne => absurd hempty hne, fun _ => hdead.imp_right .inl⟩
  | remove hbefore hmarker _ hcounted =>
      have hempty := hcounted.trans (hnone (by simp [hbefore]))
      exact ⟨fun hne => absurd hempty hne, fun _ => .inl hmarker⟩
  | sweepNext hbefore hentry hworker hcounted =>
      have hempty := hcounted.trans (hnone (by simp [hbefore]))
      refine ⟨fun hne => absurd hempty hne, fun hgone => .inr (.inl ?_)⟩
      rw [hentry] at hgone
      split at hgone
      · exact hworker.trans ‹_›
      · cases hgone
  | sweepAbort hbefore hentry haborted hcounted =>
      rw [hnone (by simp [hbefore])] at hcounted
      exact ⟨fun _ => ⟨hentry, by rw [hcounted]; rfl, haborted⟩,
        fun _ => .inr (.inr (by simp [hcounted]))⟩

theorem accounted_takeEntry {k : Nat} (ha : Accounted τ) : Accounted (takeEntry k τ) := by
  unfold takeEntry
  split
  · rename_i hentry
    refine ⟨fun hne => ?_, fun hgone => by cases hgone⟩
    have hgone := (ha.once hne).1
    rw [hentry] at hgone
    cases hgone
  · exact ha

theorem accounted_of_reachable {taskCapacity : NonZeroUsize} {s : ServiceState}
    (h : (service taskCapacity).Reachable s) : ∀ τ ∈ s.tasks, Accounted τ := by
  have hall := forall_tasks_of_reachable (P := fun τ => TaskInvariant τ ∧ Marked τ ∧ Accounted τ)
    ⟨taskInvariant_new, rfl, ⟨fun hne => absurd rfl hne, fun hgone => by cases hgone⟩⟩
    (fun k τ hP => ⟨taskInvariant_takeEntry hP.1, marked_takeEntry hP.2.1,
      accounted_takeEntry hP.2.2⟩)
    (fun _ _ _ _ _ _ hP hstep => ⟨taskInvariant_of_taskStep hP.1 hstep,
      marked_of_taskStep hP.1 hP.2.1 hstep, accounted_of_taskStep hP.1 hP.2.1 hP.2.2 hstep⟩) h
  exact fun τ hτ => (hall τ hτ).2.2

end

/-! ### In whose hands an entry is -/

/-- The stop call that has taken an entry of task `t` is still at work on it. -/
def EntryOwned (closers : List Closer) (t : TaskId) : EntryPc → Prop
  | .taken k => ∃ c, closers[k]? = some c ∧ (c.pc = .takeUnlock ∨ c.pc = .sweep)
  | .aborting k => ∃ c, closers[k]? = some c ∧ c.pc = .sweep ∧ c.current = some t
  | .absent | .registered | .gone => True

section

variable {taskCapacity : NonZeroUsize} {s s' : ServiceState}

theorem EntryOwned.setCloser {closers : List Closer} {t : TaskId} {e : EntryPc} {k : Nat}
    {c c' : Closer} (h : EntryOwned closers t e) (hc : closers[k]? = some c)
    (htaken : e = .taken k → c.pc = .takeUnlock ∨ c.pc = .sweep →
      c'.pc = .takeUnlock ∨ c'.pc = .sweep)
    (haborting : e = .aborting k → c.pc = .sweep → c.current = some t →
      c'.pc = .sweep ∧ c'.current = some t) : EntryOwned (closers.set k c') t e := by
  cases e with
  | taken k₁ =>
      obtain ⟨c₁, hc₁, hpc⟩ := h
      by_cases hk : k₁ = k
      · subst k₁
        obtain rfl := Option.some.inj (hc₁.symm.trans hc)
        exact ⟨c', getElem?_set_self_of_some hc, htaken rfl hpc⟩
      · exact ⟨c₁, (getElem?_set_of_ne hk).trans hc₁, hpc⟩
  | aborting k₁ =>
      obtain ⟨c₁, hc₁, hpc, ht⟩ := h
      by_cases hk : k₁ = k
      · subst k₁
        obtain rfl := Option.some.inj (hc₁.symm.trans hc)
        exact ⟨c', getElem?_set_self_of_some hc, haborting rfl hpc ht⟩
      · exact ⟨c₁, (getElem?_set_of_ne hk).trans hc₁, hpc, ht⟩
  | absent | registered | gone => trivial

theorem EntryOwned.append {closers : List Closer} {t : TaskId} {e : EntryPc} {c' : Closer}
    (h : EntryOwned closers t e) : EntryOwned (closers ++ [c']) t e := by
  cases e with
  | taken k | aborting k =>
      obtain ⟨c, hc, hpc⟩ := h
      exact ⟨c, getElem?_append_of_some hc, hpc⟩
  | absent | registered | gone => trivial

theorem closerStep_current {k : Nat} {g g' : TokioIoExecutorServiceState} {c c' : Closer}
    (h : closerStep k g c = some (g', c')) :
    c'.current = c.current ∧ c.pc ≠ .sweep ∧ (c.pc = .takeUnlock → c'.pc = .sweep) := by
  cases hpc : c.pc <;> simp only [closerStep, hpc] at h
  case take | sweep | returned => cases h
  case lockSubmission | takeLock =>
    simp only [map_acquire_eq_some, Prod.mk.injEq] at h
    obtain ⟨_, _, rfl⟩ := h
    simp
  case store =>
    split at h <;> simp only [Option.some.injEq, Prod.mk.injEq] at h <;>
      obtain ⟨_, rfl⟩ := h <;> simp
  all_goals
    simp only [Option.some.injEq, Prod.mk.injEq] at h
    obtain ⟨_, rfl⟩ := h
    simp

theorem owned_of_reachable (h : (service taskCapacity).Reachable s) :
    ∀ (t : TaskId) (τ : Task), s.tasks[t]? = some τ → EntryOwned s.closers t τ.entry := by
  refine Reachable.invariant (P := fun s => ∀ (t : TaskId) (τ : Task), s.tasks[t]? = some τ →
    EntryOwned s.closers t τ.entry) h (by simp [service]) ?_
  intro s a s' hs ih hnext
  have hi := marked_of_reachable hs
  cases effect_of_step hnext with
  | newTask =>
      intro t τ hτ
      rcases getElem?_append_cases hτ with hτ | ⟨_, rfl⟩
      · exact ih t τ hτ
      · trivial
  | newCloser => exact fun t τ hτ => (ih t τ hτ).append
  | newWaiter | waiter => exact ih
  | @task t₀ τ₀ _ _ τ' hτ₀ hτstep hfirst habort =>
      intro t τ hτ
      rcases getElem?_set_cases hτ with ⟨rfl, rfl⟩ | ⟨_, hτ⟩
      · obtain ⟨hinv, hmarked⟩ := hi τ₀ (mem_of_getElem? hτ₀)
        cases entryMove_of_taskStep hinv hmarked hτstep with
        | keep hentry => exact hentry ▸ ih t τ₀ hτ₀
        | register _ hentry | refuse _ _ hentry | remove _ _ hentry =>
            rw [hentry]
            trivial
        | sweepNext => cases hτstep; exact absurd rfl (hfirst _)
        | sweepAbort => exact absurd rfl (habort _)
      · exact ih t τ hτ
  | @sweepNext k c t₀ τ₀ hc hpc hnone hτ₀ hentry =>
      intro t τ hτ
      rcases getElem?_set_cases hτ with ⟨rfl, rfl⟩ | ⟨_, hτ⟩
      · unfold sweepCheck
        dsimp only
        split
        · trivial
        · exact ⟨_, getElem?_set_self_of_some hc, hpc, rfl⟩
      · exact (ih t τ hτ).setCloser hc (fun _ _ => .inr hpc) (by simp [hnone])
  | @sweepAbort k c t₀ τ₀ hc hcurrent hτ₀ hentry =>
      intro t τ hτ
      rcases getElem?_set_cases hτ with ⟨rfl, rfl⟩ | ⟨hne, hτ⟩
      · trivial
      · refine (ih t τ hτ).setCloser hc (fun _ hpc => hpc) fun _ _ ht => ?_
        exact absurd (Option.some.inj (ht.symm.trans hcurrent)) hne
  | @take k c hc hpc =>
      intro t τ hτ
      rw [List.getElem?_map, Option.map_eq_some_iff] at hτ
      obtain ⟨τ₀, hτ₀, rfl⟩ := hτ
      unfold takeEntry
      split
      · exact ⟨_, getElem?_set_self_of_some hc, .inl rfl⟩
      · exact (ih t τ₀ hτ₀).setCloser hc (by simp [hpc]) (by simp [hpc])
  | @endSweep k c hc hpc hnone hleft =>
      intro t τ hτ
      refine (ih t τ hτ).setCloser hc (fun hk => ?_) (by simp [hnone])
      exact absurd hk (hleft τ (mem_of_getElem? hτ))
  | @closer k c g' c' hc hcstep =>
      intro t τ hτ
      obtain ⟨_, hsweep, hunlock⟩ := closerStep_current hcstep
      refine (ih t τ hτ).setCloser hc ?_ fun _ hpc => absurd hpc hsweep
      rintro - (hpc | hpc)
      · exact .inr (hunlock hpc)
      · exact absurd hpc hsweep

end

end TokioExecutorProofs.IoSweeps
