import TokioExecutorProofs.BlockingTaskInvariants

/-!
What a step of one task does to the state that all tasks share. Besides the
locks it is one of four things: a task is accepted, a task is started, or some
activity advances inside `finish_task`.
-/

namespace TokioExecutorProofs.BlockingTaskEffects

open ServiceBasics
open BlockingServiceState
open BlockingServiceState.TokioExecutorServiceState
open BlockingTask
open BlockingService
open BlockingTaskPlacement
open BlockingTaskRegistry
open BlockingTaskTracking
open BlockingTaskInvariants
open ProcessFamilies

/-- The places from which `finish_task` is called for a task. -/
inductive Site where
  | guard
  | sweep
  | cancel (j : Nat)
  deriving DecidableEq, Repr

@[grind] def GuardPc.finishing : GuardPc → Option (Bool × FinishPc)
  | .remove _ | .swap => none
  | .finish started f => some (started, f)

@[grind] def GuardStage.finishing : GuardStage → Option (Bool × FinishPc)
  | .alive | .dropped => none
  | .dropping d => GuardPc.finishing d

@[grind] def SweepPc.finishing : SweepPc → Option (Bool × FinishPc)
  | .finish f => some (false, f)
  | .isFinished | .abort | .finishQueued | .cancelUnstarted | .wakeCancelled | .dropHook _
  | .wakeDropped _ | .next _ => none

@[grind] def EntryPc.finishing : EntryPc → Option (Bool × FinishPc)
  | .absent | .registered | .taken _ | .removed | .gone => none
  | .sweeping _ p => SweepPc.finishing p

@[grind] def CancelPc.finishing : CancelPc → Option (Bool × FinishPc)
  | .finish f => some (false, f)
  | .cancel | .wakeCancelled | .remove _ | .finishQueued | .abort | .returned _ => none

/-- The running call of `finish_task` at a site: its argument and position. -/
@[grind] def finishAt (τ : Task) : Site → Option (Bool × FinishPc)
  | .guard => GuardStage.finishing (guardStage τ)
  | .sweep => EntryPc.finishing τ.entry
  | .cancel j => (τ.cancels[j]?).bind CancelPc.finishing

inductive SharedMove (g : TokioExecutorServiceState) (τ : Task) :
    TokioExecutorServiceState → Task → Prop
  | locks {locks τ'} (haccepted : isAccepted τ'.submitter = isAccepted τ.submitter)
      (hstarts : τ'.starts = τ.starts) (hfinishes : τ'.finishes = τ.finishes)
      (hkeep : ∀ site x, finishAt τ site = some x → finishAt τ' site = some x) :
      SharedMove g τ { g with locks := locks } τ'
  | accept {τ'} (hfree : g.isSaturated = false) (hbefore : τ.submitter = .accept)
      (haccepted : isAccepted τ'.submitter = true) (hstarts : τ'.starts = τ.starts)
      (hfinishes : τ'.finishes = τ.finishes)
      (hkeep : ∀ site x, finishAt τ site = some x → finishAt τ' site = some x) :
      SharedMove g τ g.acceptTask τ'
  | start {τ'} (hbefore : τ.worker = .start)
      (haccepted : isAccepted τ'.submitter = isAccepted τ.submitter)
      (hstarts : τ'.starts = τ.starts + 1) (hfinishes : τ'.finishes = τ.finishes)
      (hkeep : ∀ site x, finishAt τ site = some x → finishAt τ' site = some x) :
      SharedMove g τ g.markTaskStarted τ'
  | finish {a site started f g' next τ'} (hat : finishAt τ site = some (started, f))
      (hstep : finishTaskStep a started g f = some (g', next))
      (haccepted : isAccepted τ'.submitter = isAccepted τ.submitter)
      (hstarts : τ'.starts = τ.starts)
      (hfinishes : τ'.finishes =
        if f = .update then τ.finishes ++ [started] else τ.finishes)
      (hnext : finishAt τ' site = next.map fun f' => (started, f'))
      (hkeep : ∀ site' x, site' ≠ site → finishAt τ site' = some x →
        finishAt τ' site' = some x) : SharedMove g τ g' τ'

section

variable {t : TaskId} {g g' : TokioExecutorServiceState} {τ τ' : Task}

theorem finishAt_cases {site : Site} {started : Bool} {f : FinishPc}
    (h : finishAt τ site = some (started, f)) :
    (site = .guard ∧ guardStage τ = .dropping (.finish started f)) ∨
    (site = .sweep ∧ started = false ∧ ∃ k, τ.entry = .sweeping k (.finish f)) ∨
    (∃ j, site = .cancel j ∧ started = false ∧ τ.cancels[j]? = some (.finish f)) := by
  cases site with
  | guard =>
      refine .inl ⟨rfl, ?_⟩
      cases hstage : guardStage τ with
      | dropping d => cases d <;> simp_all [finishAt, GuardStage.finishing, GuardPc.finishing]
      | _ => simp_all [finishAt, GuardStage.finishing]
  | sweep =>
      refine .inr (.inl ⟨rfl, ?_⟩)
      cases hentry : τ.entry with
      | sweeping k p => cases p <;> simp_all [finishAt, EntryPc.finishing, SweepPc.finishing]
      | _ => simp_all [finishAt, EntryPc.finishing]
  | cancel j =>
      obtain ⟨c, hc, h⟩ := Option.bind_eq_some_iff.mp h
      refine .inr (.inr ⟨j, rfl, ?_⟩)
      cases c <;> simp_all [CancelPc.finishing]

theorem removeAbortHandleStep_locks {a : Actor} {r : RemovePc} {next : Option RemovePc}
    (h : removeAbortHandleStep a g τ r = some (g', τ', next)) :
    ∃ locks, g' = { g with locks := locks } := by
  cases r <;> simp only [removeAbortHandleStep] at h
  case lock =>
    simp only [map_acquire_eq_some, Prod.mk.injEq] at h
    exact ⟨_, h.2.1.symm⟩
  case remove =>
    split at h <;> simp only [Option.some.injEq, Prod.mk.injEq] at h <;>
      exact ⟨_, h.1.symm⟩
  all_goals
    simp only [Option.some.injEq, Prod.mk.injEq] at h
    exact ⟨_, h.1.symm⟩

theorem finishing_of_entry (h : τ'.entry = τ.entry ∨
      τ.entry = .registered ∧ τ'.entry = .removed ∨ τ.entry = .removed ∧ τ'.entry = .gone) :
    EntryPc.finishing τ'.entry = EntryPc.finishing τ.entry := by
  grind -linarith

theorem finishAt_of_guard (hstage : GuardStage.finishing (guardStage τ') =
      GuardStage.finishing (guardStage τ))
    (hentry : EntryPc.finishing τ'.entry = EntryPc.finishing τ.entry)
    (hcancels : τ'.cancels = τ.cancels) (site : Site) (x : Bool × FinishPc)
    (hx : finishAt τ site = some x) : finishAt τ' site = some x := by
  rw [← hx]
  cases site with
  | guard => exact hstage
  | sweep => exact hentry
  | cancel j => simp only [finishAt, hcancels]

theorem sharedMove_of_payloadMove {a : Actor} (hi : TaskInvariant τ)
    (h : PayloadMove a g τ g' τ') : SharedMove g τ g' τ' := by
  have hr := hi.registry
  have habsent := hr.absent
  cases h with
  | carry hlocks haccepted _ _ _ _ hstage =>
      obtain ⟨_, rfl⟩ := hlocks
      refine .locks haccepted rfl rfl (finishAt_of_guard ?_ rfl rfl)
      rcases hstage with hsame | ⟨halive, hbegin⟩
      · exact congrArg GuardStage.finishing hsame
      · rw [halive]
        exact (congrArg GuardStage.finishing hbegin).trans rfl
  | accept hs hfree =>
      refine .accept hfree hs rfl rfl rfl
        (finishAt_of_guard ?_ rfl rfl)
      simp only [guardStage, hs]
      rfl
  | register hs =>
      have hentry : τ.entry = .absent := habsent.mpr (by rw [hs]; rfl)
      refine .locks (by rw [hs]; rfl) rfl rfl
        (finishAt_of_guard ?_ ?_ rfl)
      · simp only [guardStage, hs]
        rfl
      · rw [hentry]
        rfl
  | dropHook hs haccepted hphase =>
      have hentry : τ.entry = .absent := habsent.mpr (by rw [hs]; rfl)
      refine .locks (by rw [hs, haccepted]; rfl) rfl rfl
        (finishAt_of_guard ?_ ?_ rfl)
      · simp only [guardStage, hs, hphase]
        rfl
      · rw [hentry]
        rfl
  | markStarted hw =>
      refine .locks rfl rfl rfl (finishAt_of_guard ?_ rfl rfl)
      simp only [guardStage, hw]
      exact congrArg GuardStage.finishing (guardStageOf_congr rfl)
  | markedAlready hw hstate =>
      exact absurd hstate (hi.tracked.notRunning (hi.tracked.ran false (by rw [hw]; rfl)))
  | start hw =>
      refine .start hw rfl rfl rfl (finishAt_of_guard ?_ rfl rfl)
      simp only [guardStage, hw]
      exact congrArg GuardStage.finishing (guardStageOf_congr rfl)
  | @guard _ d τ₁ next s w hd hstep haccepted _ _ _ _ hstage =>
      have hentry := finishing_of_entry (entry_of_guardStep hr hd hstep)
      obtain ⟨_, _, _, _, state, finishes, hframe⟩ := guardStep_frame hstep
      cases d with
      | remove r =>
          simp only [guardStep, Option.map_eq_some_iff, Prod.mk.injEq, Prod.exists] at hstep
          obtain ⟨_, τ₂, next', hstep, rfl, rfl, rfl⟩ := hstep
          obtain ⟨_, rfl⟩ := removeAbortHandleStep_locks hstep
          obtain ⟨_, _, _, _, rfl⟩ := removeAbortHandleStep_frame hstep
          refine .locks haccepted rfl rfl (finishAt_of_guard ?_ hentry rfl)
          rw [hd]
          refine (congrArg GuardStage.finishing hstage).trans ?_
          cases next' <;> rfl
      | swap =>
          have hmove := guardMove_of_step hstep
          have hlocks : g' = { g with locks := g.locks } := by
            simp only [guardStep] at hstep
            split at hstep <;> simp only [Option.some.injEq, Prod.mk.injEq] at hstep <;>
              exact hstep.1.symm
          rw [hframe] at hmove hentry ⊢
          rw [hlocks]
          have hkeep : finishes = τ.finishes := by
            generalize hs : GuardPc.swap = d at hmove
            cases hmove <;> simp_all
          refine .locks haccepted rfl hkeep ?_
          rintro (_ | _ | j) x hx
          · rw [finishAt, hd] at hx
            cases hx
          · exact hentry.trans hx
          · exact hx
      | finish started f =>
          simp only [guardStep, Option.map_eq_some_iff, Prod.mk.injEq, Prod.exists] at hstep
          obtain ⟨_, next', hfinish, rfl, rfl, rfl⟩ := hstep
          have hfinishes := congrArg Task.finishes hframe
          rw [Task.recordFinish_finishes] at hfinishes
          rw [hframe] at hentry ⊢
          have hat : finishAt τ .guard = some (started, f) := by
            rw [finishAt, hd]
            rfl
          refine .finish hat hfinish haccepted rfl hfinishes.symm ?_ ?_
          · refine (congrArg GuardStage.finishing hstage).trans ?_
            cases next' <;> rfl
          · rintro (_ | _ | j) x hne hx
            · exact absurd rfl hne
            · exact hentry.trans hx
            · exact hx

theorem cancelStep_shared {a : Actor} {c c' : CancelPc}
    (h : cancelStep a g τ c = some (g', τ', c')) :
    (CancelPc.finishing c = none ∧ (∃ locks, g' = { g with locks := locks }) ∧
      τ'.finishes = τ.finishes) ∨
    ∃ f next, c = .finish f ∧ finishTaskStep a false g f = some (g', next) ∧
      τ' = τ.recordFinish false f ∧
      CancelPc.finishing c' = next.map fun f' => (false, f') := by
  cases c <;> simp only [cancelStep] at h
  case remove r =>
    simp only [Option.map_eq_some_iff, Prod.mk.injEq, Prod.exists] at h
    obtain ⟨_, _, _, hstep, rfl, rfl, _⟩ := h
    obtain ⟨_, _, _, _, rfl⟩ := removeAbortHandleStep_frame hstep
    exact .inl ⟨rfl, removeAbortHandleStep_locks hstep, rfl⟩
  case finish f =>
    simp only [Option.map_eq_some_iff, Prod.mk.injEq, Prod.exists] at h
    obtain ⟨_, next, hstep, rfl, rfl, rfl⟩ := h
    exact .inr ⟨f, next, rfl, hstep, rfl, by cases next <;> rfl⟩
  case finishQueued =>
    unfold Task.finishQueued at h
    split at h <;> simp only [Option.some.injEq, Prod.mk.injEq] at h <;>
      obtain ⟨rfl, rfl, _⟩ := h <;> exact .inl ⟨rfl, ⟨_, rfl⟩, rfl⟩
  case cancel =>
    split at h <;> simp only [Option.some.injEq, Prod.mk.injEq] at h <;>
      obtain ⟨rfl, rfl, _⟩ := h <;> exact .inl ⟨rfl, ⟨_, rfl⟩, rfl⟩
  case returned => cases h
  all_goals
    simp only [Option.some.injEq, Prod.mk.injEq] at h
    obtain ⟨rfl, rfl, _⟩ := h
    exact .inl ⟨rfl, ⟨_, rfl⟩, rfl⟩

theorem sharedMove_of_cancellerStep {j : Nat} (hi : TaskInvariant τ)
    (h : cancellerStep t j g τ = some (g', τ')) : SharedMove g τ g' τ' := by
  obtain ⟨c, τ₁, c', hc, hstep, rfl⟩ := cancellerStep_cases h
  have hentry := finishing_of_entry (entry_of_cancelStep hi.registry hc hstep)
  have hother : ∀ i, i ≠ j → (τ.cancels.set j c')[i]? = τ.cancels[i]? := fun i hij =>
    getElem?_set_of_ne hij
  have hself : (τ.cancels.set j c')[j]? = some c' := getElem?_set_self_of_some hc
  obtain ⟨_, _, _, _, _, _, _, hframe⟩ := cancelStep_frame hstep
  rcases cancelStep_shared hstep with
    ⟨hnone, ⟨_, rfl⟩, hfinishes⟩ | ⟨f, next, rfl, hfinish, rfl, hnext⟩
  · rw [hframe] at hentry hfinishes ⊢
    refine .locks rfl rfl hfinishes ?_
    rintro (_ | _ | i) x hx
    · exact hx
    · exact hentry.trans hx
    · have hij : i ≠ j := by
        rintro rfl
        rw [finishAt, hc, Option.bind_some, hnone] at hx
        cases hx
      rw [finishAt, hother i hij]
      exact hx
  · have hfinishes := congrArg Task.finishes hframe
    rw [Task.recordFinish_finishes] at hfinishes
    rw [hframe] at hentry ⊢
    have hat : finishAt τ (.cancel j) = some (false, f) := by
      rw [finishAt, hc]
      rfl
    refine .finish hat hfinish rfl rfl hfinishes.symm ?_ ?_
    · rw [finishAt, hself]
      exact hnext
    · rintro (_ | _ | i) x hne hx
      · exact hx
      · exact hentry.trans hx
      · rw [finishAt, hother i fun hij => hne (congrArg Site.cancel hij)]
        exact hx

theorem sharedMove_of_sweepStep {k : Nat} {p p' : SweepPc} (hentry : τ.entry = .sweeping k p)
    (h : sweepStep k g τ p = some (g', τ', p')) :
    SharedMove g τ g' { τ' with entry := .sweeping k p' } := by
  obtain ⟨_, _, _, _, _, hframe⟩ := sweepStep_frame h
  have hquiet (hp : SweepPc.finishing p = none) (hg : ∃ locks, g' = { g with locks := locks })
      (hfinishes : τ'.finishes = τ.finishes) :
      SharedMove g τ g' { τ' with entry := .sweeping k p' } := by
    obtain ⟨_, rfl⟩ := hg
    rw [hframe] at hfinishes ⊢
    refine .locks rfl rfl hfinishes ?_
    rintro (_ | _ | i) x hx
    · exact hx
    · rw [finishAt, hentry] at hx
      exact absurd (hp.symm.trans hx) (by simp)
    · exact hx
  cases p <;> simp only [sweepStep] at h
  case finish f =>
    simp only [Option.map_eq_some_iff, Prod.mk.injEq, Prod.exists] at h
    obtain ⟨_, next, hfinish, rfl, rfl, rfl⟩ := h
    have hfinishes := congrArg Task.finishes hframe
    rw [Task.recordFinish_finishes] at hfinishes
    rw [hframe]
    have hat : finishAt τ .sweep = some (false, f) := by
      rw [finishAt, hentry]
      rfl
    refine .finish hat hfinish rfl rfl hfinishes.symm ?_ ?_
    · cases next with
      | some f' => rfl
      | none =>
          simp only [finishAt]
          split <;> rfl
    · rintro (_ | _ | i) x hne hx
      · exact hx
      · exact absurd rfl hne
      · exact hx
  case finishQueued =>
    unfold Task.finishQueued at h
    split at h <;> simp only [Option.some.injEq, Prod.mk.injEq] at h <;>
      obtain ⟨rfl, rfl, _⟩ := h <;> exact hquiet rfl ⟨_, rfl⟩ rfl
  case cancelUnstarted =>
    simp only [Option.some.injEq, Prod.mk.injEq] at h
    obtain ⟨rfl, rfl, _⟩ := h
    exact hquiet rfl ⟨_, rfl⟩ Task.cancelUnstarted_finishes
  case dropHook =>
    simp only [Option.some.injEq, Prod.mk.injEq] at h
    obtain ⟨rfl, rfl, _⟩ := h
    obtain ⟨_, _, heq⟩ := dropSlotRef_frame τ τ.payloadSlotRef
    exact hquiet rfl ⟨_, rfl⟩ (by rw [heq])
  case next => cases h
  all_goals
    simp only [Option.some.injEq, Prod.mk.injEq] at h
    obtain ⟨rfl, rfl, _⟩ := h
    exact hquiet rfl ⟨_, rfl⟩ rfl

theorem SharedMove.setEntry {e : EntryPc} {countedBy : List Nat}
    (h : EntryPc.finishing τ.entry = none) :
    SharedMove g τ g { τ with entry := e, countedBy := countedBy } := by
  refine .locks rfl rfl rfl ?_
  rintro (_ | _ | i) x hx
  · exact hx
  · exact absurd (h.symm.trans hx) (by simp)
  · exact hx

theorem sharedMove_of_callCancelStep (h : callCancelStep τ = some τ') :
    SharedMove g τ g τ' := by
  unfold callCancelStep at h
  split at h
  · obtain rfl := Option.some.inj h
    refine .locks rfl rfl rfl ?_
    rintro (_ | _ | i) x hx
    · exact hx
    · exact hx
    · obtain ⟨c, hc, hx⟩ := Option.bind_eq_some_iff.mp hx
      exact Option.bind_eq_some_iff.mpr ⟨c, getElem?_append_of_some hc, hx⟩
  · cases h

theorem sharedMove_of_taskStep {a : Action} (hi : TaskInvariant τ)
    (h : TaskStep t g τ a g' τ') : SharedMove g τ g' τ' := by
  cases h with
  | submitter h => exact sharedMove_of_payloadMove hi (payloadMove_of_submitterStep hi.placed h)
  | worker h => exact sharedMove_of_payloadMove hi (payloadMove_of_workerStep hi.placed h)
  | pickUp h => exact sharedMove_of_payloadMove hi (payloadMove_of_pickUpStep (a := .worker t) h)
  | destroy h => exact sharedMove_of_payloadMove hi (payloadMove_of_destroyStep (a := .worker t) h)
  | callCancel h => exact sharedMove_of_callCancelStep h
  | canceller h => exact sharedMove_of_cancellerStep hi h
  | sweepNext hentry => exact .setEntry (by rw [hentry]; rfl)
  | sweep hentry hstep => exact sharedMove_of_sweepStep hentry hstep
  | finishSweep hentry => exact .setEntry (by rw [hentry]; rfl)

theorem finishAt_takeEntry {k : Nat} (site : Site) :
    finishAt (takeEntry k τ) site = finishAt τ site := by
  unfold takeEntry
  split
  · rename_i hentry
    cases site with
    | sweep =>
        rw [finishAt, finishAt, hentry]
        rfl
    | guard | cancel => rfl
  · rfl

end

end TokioExecutorProofs.BlockingTaskEffects
