import TokioExecutorProofs.BlockingStop

/-!
What a successful cancellation of a tracked callable guarantees. It decides on
the task state first and turns to the tracker afterwards, where the worker, the
guard's drop and a stop call may have been faster. The results here say exactly
when that matters.
-/

namespace TokioExecutorProofs.BlockingCancel

open ServiceBasics
open BlockingServiceState
open BlockingTask
open BlockingService
open BlockingTaskPlacement
open BlockingTaskRegistry
open BlockingTaskTracking
open BlockingTaskSlots
open BlockingTaskInvariants
open BlockingTaskEffects
open BlockingTaskMoves
open BlockingAccounting
open BlockingSweeps
open BlockingResults
open BlockingStopAccounts
open BlockingStop
open ProcessFamilies
open TransitionSystems

/-! ### The capacity of a cancelled task -/

/-- The tracker is finished, and whoever finished it has updated the counts. -/
def isFinishApplied (τ : Task) : Bool :=
  τ.taskState == .finished && pendingFinishes τ == 0

/-- A cancellation that has won the task state finds the tracker queued, or the
counts updated already. -/
def claimsQueued (s : ServiceState) : Action → Bool
  | .canceller t j => (s.tasks[t]?).all fun τ =>
      τ.cancels[j]? != some .finishQueued || τ.taskState == .queued || isFinishApplied τ
  | .callSubmit _ | .submitter _ _ | .pickUp _ | .destroy _ | .worker _ _ | .callCancel _
  | .callClose _ | .closer _ | .sweepNext _ _ | .sweep _ | .callWait _ | .waiter _ => true

/-- The cancellation has turned to the tracker. -/
def pastTracker : CancelPc → Bool
  | .finish _ | .abort | .returned true => true
  | .cancel | .wakeCancelled | .remove _ | .finishQueued | .returned false => false

/-- A cancellation past the tracker has updated the counts itself, is about to, or
has found them updated. -/
def Frees (finishes : List Bool) : CancelPc → Prop
  | .finish f => f.isPending = true ∨ finishes ≠ []
  | .abort | .returned true => finishes ≠ []
  | .cancel | .wakeCancelled | .remove _ | .finishQueued | .returned false => True

section

variable {t : TaskId} {g g' : TokioExecutorServiceState} {τ τ' : Task} {a : Action}

theorem isFinishApplied_iff (hi : TaskInvariant τ) :
    isFinishApplied τ = true ↔ τ.finishes ≠ [] := by
  have hcons := hi.tracked.conserved
  rw [isFinishApplied, Bool.and_eq_true, beq_iff_eq, beq_iff_eq, ← List.length_pos_iff]
  constructor
  · rintro ⟨hstate, hpending⟩
    rw [if_pos hstate] at hcons
    omega
  · intro hpos
    by_cases hstate : τ.taskState = .finished
    · rw [if_pos hstate] at hcons
      exact ⟨hstate, by omega⟩
    · rw [if_neg hstate] at hcons
      omega

theorem uncounted_iff (haccepted : isAccepted τ.submitter = true) :
    isCountedQueued τ = false ∧ isCountedRunning τ = false ↔ τ.finishes ≠ [] := by
  cases hfinishes : τ.finishes with
  | nil =>
      simp only [isCountedQueued, isCountedRunning, isUnfinished, haccepted, hfinishes,
        List.isEmpty_nil, Bool.true_and, ne_eq, not_true_eq_false, iff_false]
      by_cases hstarts : τ.starts = 0 <;> simp [hstarts]
  | cons => simp [isCountedQueued, isCountedRunning, isUnfinished, hfinishes]

theorem isAccepted_of_cancels (hi : TaskInvariant τ) (h : τ.cancels ≠ []) :
    isAccepted τ.submitter = true := by
  rw [(hi.registry.cancels h).1]
  rfl

theorem isWon_of_cancelStep {b : Actor} {c c' : CancelPc}
    (h : cancelStep b g τ c = some (g', τ', c')) :
    CancelPc.isWon c' = CancelPc.isWon c ∨ c = .cancel ∧ τ.status = .pending := by
  cases c <;> simp only [cancelStep] at h
  case cancel =>
    split at h
    · rename_i hpending
      exact .inr ⟨rfl, hpending⟩
    · simp only [Option.some.injEq, Prod.mk.injEq] at h
      rw [← h.2.2]
      exact .inl rfl
  case remove r =>
    simp only [Option.map_eq_some_iff, Prod.mk.injEq, Prod.exists] at h
    obtain ⟨_, _, next, _, _, _, rfl⟩ := h
    cases next <;> exact .inl rfl
  case finish f =>
    simp only [Option.map_eq_some_iff, Prod.mk.injEq, Prod.exists] at h
    obtain ⟨_, next, _, _, _, rfl⟩ := h
    cases next <;> exact .inl rfl
  case finishQueued =>
    simp only [Option.some.injEq, Prod.mk.injEq] at h
    rw [← h.2.2]
    split <;> exact .inl rfl
  case returned => cases h
  all_goals
    simp only [Option.some.injEq, Prod.mk.injEq] at h
    rw [← h.2.2]
    exact .inl rfl

theorem Frees.mono {finishes finishes' : List Bool} {c : CancelPc} (h : Frees finishes c)
    (hmono : finishes ≠ [] → finishes' ≠ []) : Frees finishes' c := by
  cases c with
  | cancel | wakeCancelled | remove | finishQueued => trivial
  | finish f => exact h.imp_right hmono
  | abort => exact hmono h
  | returned cancelled =>
      cases cancelled with
      | false => trivial
      | true => exact hmono h

theorem frees_of_finishStep {b : Actor} {f : FinishPc} {next : Option FinishPc}
    (h : finishTaskStep b false g f = some (g', next)) (hfrees : Frees τ.finishes (.finish f)) :
    Frees (τ.recordFinish false f).finishes (next.elim .abort .finish) := by
  rw [Task.recordFinish_finishes]
  cases f with
  | lock =>
      simp only [finishTaskStep, Option.map_eq_some_iff, Prod.mk.injEq] at h
      obtain ⟨_, _, _, rfl⟩ := h
      exact .inl rfl
  | update =>
      simp only [finishTaskStep, Option.some.injEq, Prod.mk.injEq] at h
      obtain ⟨_, rfl⟩ := h
      exact .inr (by simp)
  | unlock terminated | notifyCapacity terminated | notifyAll | notifyWaiters =>
      simp only [finishTaskStep, Option.some.injEq, Prod.mk.injEq] at h
      obtain ⟨_, rfl⟩ := h
      exact .inr (hfrees.resolve_left Bool.false_ne_true)
  | wakeCapacity terminated =>
      simp only [finishTaskStep, Option.some.injEq, Prod.mk.injEq] at h
      obtain ⟨_, rfl⟩ := h
      have hupdated := hfrees.resolve_left Bool.false_ne_true
      cases terminated with
      | true => exact .inr hupdated
      | false => exact hupdated
  | wakeTermination =>
      simp only [finishTaskStep, Option.some.injEq, Prod.mk.injEq] at h
      obtain ⟨_, rfl⟩ := h
      exact hfrees.resolve_left Bool.false_ne_true

theorem frees_of_cancelStep {b : Actor} {c c' : CancelPc}
    (h : cancelStep b g τ c = some (g', τ', c'))
    (hallowed : c = .finishQueued → τ.taskState = .queued ∨ τ.finishes ≠ [])
    (hfrees : Frees τ.finishes c) :
    Frees τ'.finishes c' ∧ (pastTracker c = true → pastTracker c' = true) := by
  cases c with
  | cancel =>
      simp only [cancelStep] at h
      split at h <;> obtain ⟨_, _, rfl⟩ := h <;> exact ⟨trivial, fun hpast => by cases hpast⟩
  | wakeCancelled =>
      obtain ⟨_, _, rfl⟩ := h
      exact ⟨trivial, fun hpast => by cases hpast⟩
  | remove r =>
      simp only [cancelStep, Option.map_eq_some_iff, Prod.mk.injEq, Prod.exists] at h
      obtain ⟨_, _, next, _, _, _, rfl⟩ := h
      cases next <;> exact ⟨trivial, fun hpast => by cases hpast⟩
  | finishQueued =>
      refine ⟨?_, fun hpast => by cases hpast⟩
      simp only [cancelStep, Task.finishQueued] at h
      split at h
      · obtain ⟨_, _, rfl⟩ := h
        exact .inl rfl
      · rename_i hclaimed
        obtain ⟨_, rfl, rfl⟩ := h
        exact (hallowed rfl).resolve_left hclaimed
  | finish f =>
      simp only [cancelStep, Option.map_eq_some_iff, Prod.mk.injEq, Prod.exists] at h
      obtain ⟨_, next, hstep, _, rfl, rfl⟩ := h
      have hfrees' := frees_of_finishStep hstep hfrees
      cases next <;> exact ⟨hfrees', fun _ => rfl⟩
  | abort =>
      obtain ⟨_, rfl, rfl⟩ := h
      exact ⟨hfrees, fun _ => rfl⟩
  | returned => cases h

theorem pastTracker_of_finishQueued {b : Actor} {c' : CancelPc}
    (h : cancelStep b g τ .finishQueued = some (g', τ', c')) : pastTracker c' = true := by
  simp only [cancelStep, Option.some.injEq, Prod.mk.injEq] at h
  rw [← h.2.2]
  split <;> rfl

theorem frees_of_taskStep (hi : TaskInvariant τ) (h : TaskStep t g τ a g' τ') {j : Nat}
    {c : CancelPc} (hc : τ.cancels[j]? = some c)
    (hallowed : a = .canceller t j → c = .finishQueued →
      τ.taskState = .queued ∨ τ.finishes ≠ []) (hfrees : Frees τ.finishes c) :
    ∃ c', τ'.cancels[j]? = some c' ∧ Frees τ'.finishes c' ∧
      (pastTracker c = true → pastTracker c' = true) := by
  have hmono : τ.finishes ≠ [] → τ'.finishes ≠ [] := by
    rw [← List.length_pos_iff, ← List.length_pos_iff]
    exact fun hpos => hpos.trans_le (finishes_of_taskStep hi h)
  rcases cancels_of_taskStep h with hkeep | ⟨rfl, rfl⟩ | ⟨i, c₀, τ₁, c', rfl, hi, hstep, rfl⟩
  · exact ⟨c, by rw [hkeep, hc], hfrees.mono hmono, id⟩
  · refine ⟨c, ?_, hfrees, id⟩
    rw [List.getElem?_append_left (List.getElem?_eq_some_iff.mp hc).1, hc]
  · by_cases hij : i = j
    · subst hij
      obtain rfl := Option.some.inj (hc.symm.trans hi)
      obtain ⟨hfrees', hpast⟩ := frees_of_cancelStep hstep (hallowed rfl) hfrees
      exact ⟨c', getElem?_set_self_of_some hc, hfrees', hpast⟩
    · exact ⟨c, by rw [List.getElem?_set_ne hij, hc], hfrees.mono hmono, id⟩

theorem cancel_of_taskStep (h : TaskStep t g τ a g' τ') {j : Nat} {c : CancelPc}
    (hnone : τ.cancels[j]? = none) (hc : τ'.cancels[j]? = some c) : c = .cancel := by
  rcases cancels_of_taskStep h with hkeep | ⟨rfl, rfl⟩ | ⟨i, c₀, τ₁, c', rfl, hi, hstep, rfl⟩
  · rw [hkeep, hnone] at hc
    cases hc
  · rw [List.getElem?_append_right (List.getElem?_eq_none_iff.mp hnone)] at hc
    exact List.mem_singleton.mp (mem_of_getElem? hc)
  · have hlt := (List.getElem?_eq_some_iff.mp hc).1
    rw [List.length_set] at hlt
    exact absurd (List.getElem?_eq_none_iff.mp hnone) (Nat.not_le.mpr hlt)

end

section

variable {taskCapacity : NonZeroUsize} {s s' : ServiceState} {t : TaskId} {j : Nat} {τ τ' : Task}
  {a : Action}

theorem claims_iff (hi : TaskInvariant τ) (hτ : s.tasks[t]? = some τ)
    (hc : τ.cancels[j]? = some .finishQueued) :
    claimsQueued s (.canceller t j) = true ↔ τ.taskState = .queued ∨ τ.finishes ≠ [] := by
  simp only [claimsQueued, hτ, hc, Option.all_some, bne_self_eq_false, Bool.false_or,
    Bool.or_eq_true, beq_iff_eq, isFinishApplied_iff hi]

theorem frees_of_step (h : (service taskCapacity).Reachable s)
    (hnext : (service taskCapacity).step a s = some s')
    (hallowed : a = .canceller t j → claimsQueued s a = true) {c : CancelPc}
    (hτ : s.tasks[t]? = some τ) (hc : τ.cancels[j]? = some c) (hfrees : Frees τ.finishes c) :
    ∃ τ' c', s'.tasks[t]? = some τ' ∧ τ'.cancels[j]? = some c' ∧ Frees τ'.finishes c' ∧
      (pastTracker c = true → pastTracker c' = true) := by
  have hlt := (List.getElem?_eq_some_iff.mp hτ).1
  rcases (effect_of_step hnext).tasks with
    ⟨kind, -, htasks⟩ | ⟨i, τ₀, τ₁, hi, hτstep, htasks⟩ | ⟨k, -, htasks⟩ | htasks
  · exact ⟨τ, c, by rw [htasks, List.getElem?_append_left hlt, hτ], hc, hfrees, id⟩
  · by_cases hit : i = t
    · subst hit
      obtain rfl := Option.some.inj (hτ.symm.trans hi)
      have hinv := taskInvariant_of_reachable h τ (mem_of_getElem? hτ)
      obtain ⟨c', hc', hfrees', hpast⟩ := frees_of_taskStep hinv hτstep hc
        (fun ha hfinish => (claims_iff hinv hτ (hfinish ▸ hc)).mp (ha ▸ hallowed ha)) hfrees
      exact ⟨τ₁, c', by rw [htasks, getElem?_set_self_of_some hτ], hc', hfrees', hpast⟩
    · exact ⟨τ, c, by rw [htasks, List.getElem?_set_ne hit, hτ], hc, hfrees, id⟩
  · refine ⟨takeEntry k τ, c, by rw [htasks, List.getElem?_map, hτ]; rfl, ?_⟩
    unfold takeEntry
    split <;> exact ⟨hc, hfrees, id⟩
  · exact ⟨τ, c, by rw [htasks, hτ], hc, hfrees, id⟩

theorem frees_of_reachable
    (h : (service taskCapacity).ReachableUnder (fun s a => claimsQueued s a = true) s) :
    ∀ τ ∈ s.tasks, ∀ (j : Nat) (c : CancelPc), τ.cancels[j]? = some c → Frees τ.finishes c := by
  refine ReachableUnder.invariant (P := fun s => ∀ τ ∈ s.tasks, ∀ (j : Nat) (c : CancelPc),
    τ.cancels[j]? = some c → Frees τ.finishes c) h (by simp [service]) ?_
  intro s a s' hs ih hallowed hnext
  rcases (effect_of_step hnext).tasks with
    ⟨kind, -, htasks⟩ | ⟨t, τ, τ', hτ, hτstep, htasks⟩ | ⟨k, -, htasks⟩ | htasks
  · rw [htasks]
    exact forall_mem_append ih (by simp)
  · rw [htasks]
    have hmem := mem_of_getElem? hτ
    have hi := taskInvariant_of_reachable (ReachableUnder.reachable hs) τ hmem
    refine forall_mem_set ih fun j c' hc' => ?_
    cases hc : τ.cancels[j]? with
    | none =>
        rw [cancel_of_taskStep hτstep hc hc']
        trivial
    | some c =>
        obtain ⟨c₁, hc₁, hfrees, _⟩ := frees_of_taskStep hi hτstep hc
          (fun ha hfinish => (claims_iff hi hτ (hfinish ▸ hc)).mp (ha ▸ hallowed))
          (ih τ hmem j c hc)
        rw [Option.some.inj (hc'.symm.trans hc₁)]
        exact hfrees
  · rw [htasks]
    intro τ' hτ'
    obtain ⟨τ, hτ, rfl⟩ := List.mem_map.mp hτ'
    have := ih τ hτ
    unfold takeEntry
    split <;> exact this
  · rw [htasks]
    exact ih

/-- A cancellation that has turned to the tracker under the assumption frees its task,
whatever the others do. -/
theorem freed_of_run {s₁ : ServiceState} {c : CancelPc} (h : (service taskCapacity).Reachable s)
    (hτ : s.tasks[t]? = some τ) (hc : τ.cancels[j]? = some c) (hpast : pastTracker c = true)
    (hfrees : Frees τ.finishes c) (hrun : (service taskCapacity).Run s s₁) :
    ∃ τ' c', s₁.tasks[t]? = some τ' ∧ τ'.cancels[j]? = some c' ∧ pastTracker c' = true ∧
      Frees τ'.finishes c' := by
  refine Run.stable (P := fun s => ∃ τ' c', s.tasks[t]? = some τ' ∧ τ'.cancels[j]? = some c' ∧
    pastTracker c' = true ∧ Frees τ'.finishes c') h hrun ⟨τ, c, hτ, hc, hpast, hfrees⟩ ?_
  rintro s a s' hs ⟨τ, c, hτ, hc, hpast, hfrees⟩ hnext
  obtain ⟨τ', c', hτ', hc', hfrees', hpast'⟩ := frees_of_step hs hnext
    (fun ha => by
      have hother : c ≠ .finishQueued := fun hfinish => by
        rw [hfinish] at hpast
        cases hpast
      simp [claimsQueued, ha, hτ, hc, hother]) hτ hc hfrees
  exact ⟨τ', c', hτ', hc', hpast' hpast, hfrees'⟩

theorem step_canceller {c c' : CancelPc} {g' : TokioExecutorServiceState}
    (hτ : s.tasks[t]? = some τ) (hc : τ.cancels[j]? = some c)
    (hstep : cancelStep (.canceller t j) s.shared τ c = some (g', τ', c')) :
    (service taskCapacity).step (.canceller t j) s = some
      { s with
        shared := g'
        tasks := s.tasks.set t { τ' with cancels := τ'.cancels.set j c' } } := by
  refine onTask_eq_some.mpr ⟨τ, _, _, hτ, ?_, rfl⟩
  rw [cancellerStep, hc]
  simp only [hstep, Option.map_some]

/-- A cancellation that finds the tracker claimed and the counts not updated may
return at once. -/
theorem counted_of_unclaimed (hτ : s.tasks[t]? = some τ)
    (hc : τ.cancels[j]? = some .finishQueued) (hclaimed : τ.taskState ≠ .queued)
    (hnext : (service taskCapacity).step (.canceller t j) s = some s') :
    ∃ s₁ τ₁, (service taskCapacity).Run s' s₁ ∧ s₁.tasks[t]? = some τ₁ ∧
      τ₁.cancels[j]? = some (.returned true) ∧ τ₁.finishes = τ.finishes ∧
      τ₁.submitter = τ.submitter := by
  have hunclaimed : cancelStep (.canceller t j) s.shared τ .finishQueued =
      some (s.shared, τ, .abort) := by
    simp [cancelStep, Task.finishQueued, hclaimed]
  obtain rfl := Option.some.inj (hnext.symm.trans (step_canceller hτ hc hunclaimed))
  have hτ' := getElem?_set_self_of_some (y := { τ with cancels := τ.cancels.set j .abort }) hτ
  have hc' := getElem?_set_self_of_some (y := CancelPc.abort) hc
  refine ⟨_, _, RunUnder.tail (runUnder_refl _) trivial
    (step_canceller (s := { s with tasks := s.tasks.set t _ }) hτ' hc' rfl),
    getElem?_set_self_of_some hτ', ?_, rfl, rfl⟩
  exact getElem?_set_self_of_some hc'

/-- A successful cancellation whose step on the tracker meets the assumption has freed
the slot of its task when it returns, and the assumption on that step is necessary. -/
theorem cancelled_is_uncounted (taskCapacity : NonZeroUsize) :
    (∀ s, (service taskCapacity).ReachableUnder (fun s a => claimsQueued s a = true) s →
      s.shared.taskCounts.queued = s.tasks.countP isCountedQueued ∧
      s.shared.taskCounts.running = s.tasks.countP isCountedRunning ∧
      ∀ τ ∈ s.tasks, .returned true ∈ τ.cancels →
        isCountedQueued τ = false ∧ isCountedRunning τ = false) ∧
    ∀ (s s' : ServiceState) (t : TaskId) (j : Nat) (τ : Task),
      (service taskCapacity).Reachable s → s.tasks[t]? = some τ →
      τ.cancels[j]? = some .finishQueued →
      (service taskCapacity).step (.canceller t j) s = some s' →
      ((∀ s₁ τ₁, (service taskCapacity).Run s' s₁ → s₁.tasks[t]? = some τ₁ →
          τ₁.cancels[j]? = some (.returned true) →
          isCountedQueued τ₁ = false ∧ isCountedRunning τ₁ = false) ↔
        claimsQueued s (.canceller t j) = true) := by
  have huncounted : ∀ {s}, (service taskCapacity).Reachable s → ∀ τ ∈ s.tasks, ∀ j : Nat,
      τ.cancels[j]? = some (.returned true) →
      (isCountedQueued τ = false ∧ isCountedRunning τ = false ↔ τ.finishes ≠ []) :=
    fun h τ hτ j hc => uncounted_iff (isAccepted_of_cancels
      (taskInvariant_of_reachable h τ hτ) (List.ne_nil_of_mem (mem_of_getElem? hc)))
  constructor
  · intro s h
    have hreachable := ReachableUnder.reachable h
    have hconserved := conserved_of_reachable hreachable
    refine ⟨hconserved.queued, hconserved.running, fun τ hτ hreturned => ?_⟩
    obtain ⟨j, hj⟩ := List.mem_iff_getElem?.mp hreturned
    exact (huncounted hreachable τ hτ j hj).mpr (frees_of_reachable h τ hτ j _ hj)
  · intro s s' t j τ h hτ hc hnext
    have hi := taskInvariant_of_reachable h τ (mem_of_getElem? hτ)
    have h' : (service taskCapacity).Reachable s' := RunUnder.tail h trivial hnext
    constructor
    · intro hclaim
      rw [claims_iff hi hτ hc, or_iff_not_imp_left]
      intro hclaimed
      obtain ⟨s₁, τ₁, hrun, hτ₁, hreturned, hsame, _⟩ := counted_of_unclaimed hτ hc hclaimed hnext
      rw [← hsame]
      exact (huncounted (Reachable.run h' hrun) τ₁ (mem_of_getElem? hτ₁) j hreturned).mp
        (hclaim s₁ τ₁ hrun hτ₁ hreturned)
    · intro hallowed s₁ τ₁ hrun hτ₁ hreturned
      obtain ⟨τ₀, g', τ₀', hτ₀, hstep, rfl⟩ := onTask_eq_some.mp hnext
      obtain rfl := Option.some.inj (hτ.symm.trans hτ₀)
      obtain ⟨c, τ₂, c', hc₀, hcancel, rfl⟩ := cancellerStep_cases hstep
      obtain rfl := Option.some.inj (hc.symm.trans hc₀)
      have hfrees := (frees_of_cancelStep hcancel
        (fun _ => (claims_iff hi hτ hc).mp hallowed) trivial).1
      obtain ⟨τ', c'', hτ', hc'', _, hfreed⟩ := freed_of_run h' (getElem?_set_self_of_some hτ)
        (getElem?_set_self_of_some hc) (pastTracker_of_finishQueued hcancel) hfrees hrun
      obtain rfl := Option.some.inj (hτ₁.symm.trans hτ')
      obtain rfl := Option.some.inj (hreturned.symm.trans hc'')
      exact (huncounted (Reachable.run h' hrun) τ₁ (mem_of_getElem? hτ₁) j hreturned).mpr hfreed

/-- A cancellation that comes before the pick-up. -/
theorem cancelled_is_uncounted_queued : ∃ s τ, (service oneSlot).execute
    (.callSubmit .trackedCallable :: submission 0 ++
      .callCancel 0 :: List.replicate 14 (.canceller 0 0)) (service oneSlot).start = some s ∧
    s.tasks[0]? = some τ ∧ τ.cancels = [.returned true] ∧ isCountedQueued τ = false := by
  have hexecute : ((service oneSlot).executeUnder (fun s a => claimsQueued s a = true)
      (.callSubmit .trackedCallable :: submission 0 ++
        .callCancel 0 :: List.replicate 14 (.canceller 0 0)) (service oneSlot).start).map
        (fun s => s.tasks.map fun τ => τ.cancels) = some [[.returned true]] := by decide
  obtain ⟨s, hs, htasks⟩ := Option.map_eq_some_iff.mp hexecute
  rw [List.map_eq_singleton_iff] at htasks
  obtain ⟨τ, htasks, hτ⟩ := htasks
  have huncounted := (cancelled_is_uncounted oneSlot).1 s (runUnder_of_executeUnder hs)
  refine ⟨s, τ, ?_, by rw [htasks]; rfl, hτ, (huncounted.2.2 τ (by simp [htasks]) ?_).1⟩
  · exact execute_of_executeUnder hs
  · simp [hτ]

/-- The worker has moved the tracker to running when the cancellation wins the slot. -/
theorem cancelled_and_counted : ¬ ∀ s, (service oneSlot).Reachable s → ∀ τ ∈ s.tasks,
    .returned true ∈ τ.cancels → isCountedQueued τ = false ∧ isCountedRunning τ = false := by
  have hexecute : ((service oneSlot).execute
      (.callSubmit .trackedCallable :: submission 0 ++ .callCancel 0 :: .pickUp 0 ::
        List.replicate 5 (.worker 0 .ok) ++ List.replicate 9 (.canceller 0 0))
        (service oneSlot).start).map
        (fun s => s.tasks.map fun τ => (τ.cancels, isCountedRunning τ)) =
      some [([.returned true], true)] := by decide
  obtain ⟨s, hs, htasks⟩ := Option.map_eq_some_iff.mp hexecute
  rw [List.map_eq_singleton_iff] at htasks
  obtain ⟨τ, htasks, hτ⟩ := htasks
  simp only [Prod.mk.injEq] at hτ
  intro hclaim
  have huncounted := hclaim s (Reachable.of_execute hs) τ (by simp [htasks]) (by simp [hτ.1])
  rw [hτ.2] at huncounted
  cases huncounted.2

end

/-! ### The credit for a cancelled task -/

/-- No stop call claims a task whose slot a cancellation has won, and no
cancellation wins the slot of a task that a stop call has claimed. -/
def claimsAlone (s : ServiceState) : Action → Bool
  | .sweep k => s.tasks.all fun τ =>
      !(τ.entry == .sweeping k .finishQueued && τ.taskState == .queued && τ.status == .cancelled)
  | .canceller t j => (s.tasks[t]?).all fun τ =>
      !(τ.cancels[j]? == some .cancel && τ.status == .pending && EntryPc.isWon τ.entry)
  | .callSubmit _ | .submitter _ _ | .pickUp _ | .destroy _ | .worker _ _ | .callCancel _
  | .callClose _ | .closer _ | .sweepNext _ _ | .callWait _ | .waiter _ => true

/-- Cancellations and stop calls that have got the credit for the task or will
get it. -/
def credits (τ : Task) : Nat :=
  τ.cancels.countP CancelPc.isWon + (EntryPc.isWon τ.entry).toNat + τ.countedBy.length

section

variable {t : TaskId} {g g' : TokioExecutorServiceState} {τ τ' : Task} {a : Action}

theorem countP_isWon_eq_zero (hi : TaskInvariant τ) (hstatus : τ.status ≠ .cancelled) :
    τ.cancels.countP CancelPc.isWon = 0 := by
  have hle := hi.held.cancelled
  rw [if_neg hstatus] at hle
  omega

theorem countedBy_eq_nil (hi : TaskInvariant τ) (hstate : τ.taskState ≠ .finished) :
    τ.countedBy = [] := by
  by_contra hne
  exact hstate (hi.tracked.counted hne).2

theorem isWon_of_entryMove (h : EntryMove a τ τ') :
    (EntryPc.isWon τ'.entry).toNat ≤ (EntryPc.isWon τ.entry).toNat ∨
      ∃ k, a = .sweep k ∧ τ.entry = .sweeping k .finishQueued ∧ τ.taskState = .queued := by
  cases h with
  | keep hentry => exact .inl (by rw [hentry])
  | register _ _ hentry' | dropHook _ hentry' | remove _ _ hentry' | drop _ hentry'
    | sweepNext _ hentry' | finishSweep _ hentry' =>
      rw [hentry']
      exact .inl (Nat.zero_le _)
  | sweep hact hentry hentry' hmove =>
      generalize τ'.taskState = state, τ'.finishes = finishes at hmove
      cases hmove with
      | win hstate => exact .inr ⟨_, hact, hentry, hstate⟩
      | other hsame =>
          rw [hentry, hentry']
          exact .inl (by simp [EntryPc.isWon, hsame])
      | finish =>
          rw [hentry]
          exact .inl (Bool.toNat_le _)

/-- The credits of a task grow by one at most, and only when a stop call claims the
task or a cancellation wins its slot. -/
theorem credits_of_taskStep (hi : TaskInvariant τ)
    (h : TaskStep t g τ a g' τ') :
    credits τ' ≤ credits τ ∨
      credits τ' ≤ credits τ + 1 ∧
        ((∃ k, a = .sweep k ∧ τ.entry = .sweeping k .finishQueued ∧ τ.taskState = .queued) ∨
          ∃ j, a = .canceller t j ∧ τ.cancels[j]? = some .cancel ∧ τ.status = .pending) := by
  rcases countedBy_of_taskStep h with hcounted | ⟨k, counted, -, hentry, rfl⟩
  case inr =>
    refine .inl ?_
    cases counted <;> simp [credits, finishSweep, hentry, EntryPc.isWon, SweepPc.isWon]
    omega
  have hentry := isWon_of_entryMove (entryMove_of_taskStep hi h)
  have hbool : (EntryPc.isWon τ'.entry).toNat ≤ 1 := Bool.toNat_le _
  rcases cancels_of_taskStep h with hcancels | ⟨rfl, rfl⟩ | ⟨j, c, τ₁, c', rfl, hc, hstep, rfl⟩
  · rw [credits, credits, hcancels, hcounted]
    rcases hentry with hle | hclaim
    · exact .inl (by omega)
    · exact .inr ⟨by omega, .inl hclaim⟩
  · refine .inl ?_
    simp [credits, CancelPc.isWon]
  · have hle := hentry.resolve_right (by simp)
    have hadd := countP_set_add (y := c') CancelPc.isWon hc
    have hlength := congrArg List.length hcounted
    simp only [credits] at hle hlength ⊢
    rcases isWon_of_cancelStep hstep with hsame | ⟨rfl, hpending⟩
    · rw [weight, weight, hsame] at hadd
      exact .inl (by omega)
    · have hone := weight_le_one CancelPc.isWon c'
      exact .inr ⟨by omega, .inr ⟨j, rfl, hc, hpending⟩⟩

theorem credits_le_one_of_taskStep {s : ServiceState} (hτ : s.tasks[t]? = some τ)
    (hallowed : claimsAlone s a = true) (hi : TaskInvariant τ)
    (h : TaskStep t g τ a g' τ') (hle : credits τ ≤ 1) : credits τ' ≤ 1 := by
  rcases credits_of_taskStep hi h with hkeep | ⟨hnew, hwhy⟩
  · exact hkeep.trans hle
  -- Whoever gets the credit gets the first one.
  suffices hzero : credits τ = 0 by omega
  rcases hwhy with ⟨k, rfl, hentry, hqueued⟩ | ⟨j, rfl, hc, hpending⟩
  · simp only [claimsAlone, List.all_eq_true] at hallowed
    have hstatus := hallowed τ (mem_of_getElem? hτ)
    simp only [hentry, hqueued, beq_self_eq_true, Bool.true_and, Bool.not_eq_true',
      beq_eq_false_iff_ne] at hstatus
    rw [credits, countP_isWon_eq_zero hi hstatus, countedBy_eq_nil hi (by simp [hqueued]), hentry]
    rfl
  · simp only [claimsAlone, hτ, Option.all_some, hc, hpending, beq_self_eq_true, Bool.true_and,
      Bool.not_eq_true'] at hallowed
    have hkind := (hi.registry.cancels (List.ne_nil_of_mem (mem_of_getElem? hc))).2
    have hnil : τ.countedBy = [] := by
      by_contra hne
      have := hi.held.counted (by rw [Task.hasSlot, hkind]; rfl) (.inr hne)
      rw [hpending] at this
      cases this
    rw [credits, countP_isWon_eq_zero hi (by simp [hpending]), hallowed, hnil]
    rfl

end

theorem credits_le_one_of_reachable {taskCapacity : NonZeroUsize} {s : ServiceState}
    (h : (service taskCapacity).ReachableUnder (fun s a => claimsAlone s a = true) s) :
    ∀ τ ∈ s.tasks, credits τ ≤ 1 := by
  refine ReachableUnder.invariant (P := fun s => ∀ τ ∈ s.tasks, credits τ ≤ 1) h
    (by simp [service]) ?_
  intro s a s' hs ih hallowed hnext
  have hreachable := ReachableUnder.reachable hs
  rcases (effect_of_step hnext).tasks with
    ⟨kind, -, htasks⟩ | ⟨t, τ, τ', hτ, hτstep, htasks⟩ | ⟨k, -, htasks⟩ | htasks
  · rw [htasks]
    exact forall_mem_append ih (by simp [credits, EntryPc.isWon])
  · rw [htasks]
    have hmem := mem_of_getElem? hτ
    exact forall_mem_set ih (credits_le_one_of_taskStep hτ hallowed
      (taskInvariant_of_reachable hreachable τ hmem) hτstep (ih τ hmem))
  · rw [htasks]
    intro τ' hτ'
    obtain ⟨τ, hτ, rfl⟩ := List.mem_map.mp hτ'
    have hle := ih τ hτ
    unfold takeEntry
    split
    · rename_i hentry
      rw [credits, hentry] at hle
      exact hle
    · exact hle
  · rw [htasks]
    exact ih

theorem credited_once {taskCapacity : NonZeroUsize} {s : ServiceState}
    (h : (service taskCapacity).ReachableUnder (fun s a => claimsAlone s a = true) s)
    {τ : Task} (hτ : τ ∈ s.tasks) :
    (τ.cancels.countP fun c => c == .returned true) + τ.countedBy.length ≤ 1 := by
  have hle := credits_le_one_of_reachable h τ hτ
  have hmono : (τ.cancels.countP fun c => c == .returned true) ≤
      τ.cancels.countP CancelPc.isWon := by
    apply List.countP_mono_left
    intro c _ hc
    rw [beq_iff_eq] at hc
    rw [hc]
    rfl
  rw [credits] at hle
  omega

/-- A cancellation that has returned before the stop call begins. -/
theorem credited_once_cancelled : ∃ s τ, (service oneSlot).execute
    (.callSubmit .trackedCallable :: submission 0 ++
      .callCancel 0 :: List.replicate 14 (.canceller 0 0) ++
      .callClose .stop :: List.replicate 18 (.closer 0)) (service oneSlot).start = some s ∧
    s.tasks[0]? = some τ ∧
    (τ.cancels.countP fun c => c == .returned true) + τ.countedBy.length ≤ 1 := by
  have hexecute : (((service oneSlot).executeUnder (fun s a => claimsAlone s a = true)
      (.callSubmit .trackedCallable :: submission 0 ++
        .callCancel 0 :: List.replicate 14 (.canceller 0 0) ++
        .callClose .stop :: List.replicate 18 (.closer 0)) (service oneSlot).start).map
        fun s => s.tasks.map fun τ => τ.cancels) = some [[.returned true]] := by decide
  obtain ⟨s, hs, htasks⟩ := Option.map_eq_some_iff.mp hexecute
  rw [List.map_eq_singleton_iff] at htasks
  obtain ⟨τ, htasks, _⟩ := htasks
  exact ⟨s, τ, execute_of_executeUnder hs, by rw [htasks]; rfl,
    credited_once (runUnder_of_executeUnder hs) (by simp [htasks])⟩

/-- The stop call claims the task between the two decisions of a cancellation. -/
theorem credited_twice : ¬ ∀ s, (service oneSlot).Reachable s → ∀ τ ∈ s.tasks,
    (τ.cancels.countP fun c => c == .returned true) + τ.countedBy.length ≤ 1 := by
  have hexecute : (((service oneSlot).execute
      (.callSubmit .trackedCallable :: submission 0 ++ .callCancel 0 :: .canceller 0 0 ::
        .callClose .stop :: List.replicate 9 (.closer 0) ++
        .sweepNext 0 0 :: List.replicate 14 (.sweep 0) ++ List.replicate 9 (.closer 0) ++
        List.replicate 7 (.canceller 0 0)) (service oneSlot).start).map
        fun s => s.tasks.map fun τ => (τ.cancels, τ.countedBy)) =
      some [([.returned true], [0])] := by decide
  obtain ⟨s, hs, htasks⟩ := Option.map_eq_some_iff.mp hexecute
  rw [List.map_eq_singleton_iff] at htasks
  obtain ⟨τ, htasks, hτ⟩ := htasks
  simp only [Prod.mk.injEq] at hτ
  intro hclaim
  have hle := hclaim s (Reachable.of_execute hs) τ (by simp [htasks])
  rw [hτ.1, hτ.2] at hle
  revert hle
  decide

end TokioExecutorProofs.BlockingCancel
