import TokioExecutorProofs.BlockingTaskPlacement

/-!
The registry entry of one task. It is inserted before the payload can reach
anybody, it is removed by the first of the guard's drop, the cancellations and
the stop calls, and whoever has removed it drops it.
-/

namespace TokioExecutorProofs.BlockingTaskRegistry

open ServiceBasics
open BlockingServiceState
open BlockingTask
open BlockingService
open BlockingTaskPlacement
open ProcessFamilies

def RemovePc.isPast : RemovePc → Bool
  | .finishMarker | .lock | .remove => false
  | .dropEntry | .wakeDropped | .unlock => true

def RemovePc.dropsEntry : RemovePc → Bool
  | .dropEntry => true
  | .finishMarker | .lock | .remove | .wakeDropped | .unlock => false

def GuardPc.isPastRemove : GuardPc → Bool
  | .remove r => RemovePc.isPast r
  | .swap | .finish _ _ => true

def GuardPc.dropsEntry : GuardPc → Bool
  | .remove r => RemovePc.dropsEntry r
  | .swap | .finish _ _ => false

def GuardStage.isPastRemove : GuardStage → Bool
  | .alive => false
  | .dropping d => GuardPc.isPastRemove d
  | .dropped => true

def GuardStage.dropsEntry : GuardStage → Bool
  | .alive | .dropped => false
  | .dropping d => GuardPc.dropsEntry d

def CancelPc.isPastRemove : CancelPc → Bool
  | .cancel | .wakeCancelled | .returned false => false
  | .remove r => RemovePc.isPast r
  | .finishQueued | .finish _ | .abort | .returned true => true

def CancelPc.dropsEntry : CancelPc → Bool
  | .remove r => RemovePc.dropsEntry r
  | .cancel | .wakeCancelled | .finishQueued | .finish _ | .abort | .returned _ => false

/-- How many activities hold the removed entry. -/
def entryDrops (τ : Task) : Nat :=
  (GuardStage.dropsEntry (guardStage τ)).toNat + τ.cancels.countP CancelPc.dropsEntry

structure Registry (τ : Task) : Prop where
  cancels : τ.cancels ≠ [] → τ.submitter = .returned ∧ τ.kind = .trackedCallable
  marker : guardStage τ = .alive → τ.cancels = [] → τ.markerFinished = false
  absent : τ.entry = .absent ↔ isOpen (submitterPhase τ.submitter) = true
  removed : entryDrops τ = if τ.entry = .removed then 1 else 0
  guard : τ.entry = .registered → GuardStage.isPastRemove (guardStage τ) = false
  canceller : τ.entry = .registered → ∀ c ∈ τ.cancels, CancelPc.isPastRemove c = false

section

variable {t : TaskId} {g g' : TokioExecutorServiceState} {τ τ' : Task}

/-- What `remove_abort_handle` does to the entry and the marker. -/
inductive RemoveMove (τ τ' : Task) : RemovePc → Option RemovePc → Prop
  | remove (h : τ.entry = .registered) (h' : τ'.entry = .removed) :
      RemoveMove τ τ' .remove (some .dropEntry)
  | absent (h : τ.entry ≠ .registered) (h' : τ'.entry = τ.entry) :
      RemoveMove τ τ' .remove (some .unlock)
  | dropEntry {r} (h' : τ'.entry = .gone) (hr : r = .wakeDropped ∨ r = .unlock) :
      RemoveMove τ τ' .dropEntry (some r)
  | keep {r next} (h' : τ'.entry = τ.entry) (hr : RemovePc.dropsEntry r = false)
      (hnext : ∀ r', next = some r' →
        RemovePc.dropsEntry r' = false ∧ RemovePc.isPast r' = RemovePc.isPast r)
      (hnone : next = none → r = .unlock) : RemoveMove τ τ' r next

theorem removeMove_of_step {a : Actor} {r : RemovePc} {next : Option RemovePc}
    (h : removeAbortHandleStep a g τ r = some (g', τ', next)) : RemoveMove τ τ' r next := by
  cases r <;> simp only [removeAbortHandleStep] at h
  case remove =>
    split at h
    all_goals
      rename_i hentry
      simp only [Option.some.injEq, Prod.mk.injEq] at h
      obtain ⟨_, rfl, rfl⟩ := h
    · exact .remove hentry rfl
    · exact .absent hentry rfl
  case dropEntry =>
    obtain ⟨_, _, heq⟩ := dropSlotRef_frame τ τ.payloadSlotRef
    simp only [Option.some.injEq, Prod.mk.injEq, heq] at h
    obtain ⟨_, rfl, rfl⟩ := h
    exact .dropEntry rfl (by split <;> simp)
  case lock =>
    simp only [TokioExecutorServiceState.map_acquire_eq_some, Prod.mk.injEq] at h
    obtain ⟨_, _, rfl, rfl⟩ := h
    exact .keep rfl rfl (by rintro r' ⟨⟩; exact ⟨rfl, rfl⟩) (by simp)
  case finishMarker | wakeDropped =>
    simp only [Option.some.injEq, Prod.mk.injEq] at h
    obtain ⟨_, rfl, rfl⟩ := h
    exact .keep rfl rfl (by rintro r' ⟨⟩; exact ⟨rfl, rfl⟩) (by simp)
  case unlock =>
    simp only [Option.some.injEq, Prod.mk.injEq] at h
    obtain ⟨_, rfl, rfl⟩ := h
    exact .keep rfl rfl (by simp) (by simp)

theorem entry_recordFinish (τ : Task) (started : Bool) (f : FinishPc) :
    (τ.recordFinish started f).entry = τ.entry := by
  unfold Task.recordFinish
  split <;> rfl

theorem guardStep_entry {a : Actor} {d : GuardPc} {next : Option GuardPc}
    (h : guardStep a g τ d = some (g', τ', next)) :
    (∃ r next', d = .remove r ∧ RemoveMove τ τ' r next' ∧
      next = some (match next' with | some r' => .remove r' | none => .swap)) ∨
    (GuardPc.isPastRemove d = true ∧ GuardPc.dropsEntry d = false ∧ τ'.entry = τ.entry ∧
      ∀ d', next = some d' → GuardPc.isPastRemove d' = true ∧ GuardPc.dropsEntry d' = false) := by
  cases d <;> simp only [guardStep] at h
  case remove r =>
    simp only [Option.map_eq_some_iff, Prod.mk.injEq, Prod.exists] at h
    obtain ⟨_, _, next', hstep, rfl, rfl, rfl⟩ := h
    refine .inl ⟨r, next', rfl, removeMove_of_step hstep, ?_⟩
    cases next' <;> rfl
  case swap =>
    split at h <;> simp only [Option.some.injEq, Prod.mk.injEq] at h <;>
      obtain ⟨_, rfl, rfl⟩ := h <;> refine .inr ⟨rfl, rfl, rfl, ?_⟩ <;> rintro d' ⟨⟩
    · exact ⟨rfl, rfl⟩
    · exact ⟨rfl, rfl⟩
  case finish started f =>
    simp only [Option.map_eq_some_iff, Prod.mk.injEq, Prod.exists] at h
    obtain ⟨_, next', _, rfl, rfl, rfl⟩ := h
    refine .inr ⟨rfl, rfl, entry_recordFinish τ started f, fun d' hd' => ?_⟩
    obtain ⟨f', _, rfl⟩ := Option.map_eq_some_iff.mp hd'
    exact ⟨rfl, rfl⟩

theorem GuardStage.after_ne_alive (next : Option GuardPc) :
    GuardStage.after next ≠ .alive := by
  cases next <;> simp [GuardStage.after]

theorem isOpen_of_guardStage (h : guardStage τ ≠ .alive) :
    isOpen (submitterPhase τ.submitter) = false := by
  unfold guardStage at h
  cases hs : submitterPhase τ.submitter <;> simp_all [guardStageOf, isOpen]

theorem Registry.removed_of_dropsEntry (hr : Registry τ)
    (h : GuardStage.dropsEntry (guardStage τ) = true) : τ.entry = .removed := by
  by_contra hne
  have hnone := hr.removed
  rw [if_neg hne, entryDrops, h] at hnone
  simp at hnone

theorem Registry.removed_of_cancel {j : Nat} {c : CancelPc} (hr : Registry τ)
    (hc : τ.cancels[j]? = some c) (h : CancelPc.dropsEntry c = true) : τ.entry = .removed := by
  by_contra hne
  have hnone := hr.removed
  have hweight := weight_le_countP CancelPc.dropsEntry hc
  rw [weight_of_true h] at hweight
  rw [if_neg hne, entryDrops] at hnone
  omega

/-- A step that leaves the entry alone and takes the drop of the guard at most up to
the removal. -/
theorem Registry.keep (hr : Registry τ) (hkind : τ'.kind = τ.kind)
    (hcancels : τ'.cancels = τ.cancels) (hentry : τ'.entry = τ.entry)
    (hreturned : τ.submitter = .returned → τ'.submitter = .returned)
    (hopen : isOpen (submitterPhase τ'.submitter) = isOpen (submitterPhase τ.submitter))
    (halive : guardStage τ' = .alive →
      guardStage τ = .alive ∧ τ'.markerFinished = τ.markerFinished)
    (hdrops : GuardStage.dropsEntry (guardStage τ') = GuardStage.dropsEntry (guardStage τ))
    (hpast : GuardStage.isPastRemove (guardStage τ) = false →
      GuardStage.isPastRemove (guardStage τ') = false ∨ τ.entry ≠ .registered) :
    Registry τ' where
  cancels h := by
    rw [hcancels] at h
    rw [hkind]
    exact ⟨hreturned (hr.cancels h).1, (hr.cancels h).2⟩
  marker h hnil := by
    obtain ⟨hbefore, hsame⟩ := halive h
    rw [hcancels] at hnil
    exact hsame.trans (hr.marker hbefore hnil)
  absent := by
    rw [hentry, hopen]
    exact hr.absent
  removed := by
    rw [hentry, ← hr.removed, entryDrops, entryDrops, hdrops, hcancels]
  guard h := by
    rw [hentry] at h
    exact (hpast (hr.guard h)).resolve_right fun hne => hne h
  canceller h := by
    rw [hentry] at h
    rw [hcancels]
    exact hr.canceller h

theorem Registry.keepGuard (hr : Registry τ) (hkind : τ'.kind = τ.kind)
    (hcancels : τ'.cancels = τ.cancels) (hmarker : τ'.markerFinished = τ.markerFinished)
    (hentry : τ'.entry = τ.entry)
    (hreturned : τ.submitter = .returned → τ'.submitter = .returned)
    (hopen : isOpen (submitterPhase τ'.submitter) = isOpen (submitterPhase τ.submitter))
    (hstage : guardStage τ' = guardStage τ ∨
      guardStage τ = .alive ∧ guardStage τ' = .dropping (.remove .finishMarker)) :
    Registry τ' := by
  refine hr.keep hkind hcancels hentry hreturned hopen ?_ ?_ fun hpast => .inl ?_
  all_goals rcases hstage with hsame | ⟨hbefore, hafter⟩
  · rw [hsame]
    exact fun halive => ⟨halive, hmarker⟩
  · rw [hafter]
    exact fun halive => by cases halive
  · rw [hsame]
  · rw [hbefore, hafter]
    rfl
  · rw [hsame, hpast]
  · rw [hafter]
    rfl

theorem cancels_eq_nil (hr : Registry τ) (hs : τ.submitter ≠ .returned) : τ.cancels = [] := by
  by_contra hne
  exact hs (hr.cancels hne).1

theorem Registry.decide {s : SubmitterPc} {e : EntryPc} {inCell : Bool} {status : TaskStatus}
    (hr : Registry τ) (hs : τ.submitter ≠ .returned) (hphase : submitterPhase s = .decided)
    (hmarker : τ.markerFinished = false) (he : e = .registered ∨ e = .gone) :
    Registry { τ with submitter := s, entry := e, slotInCell := inCell, status := status } := by
  have hnil := cancels_eq_nil hr hs
  have hafter : guardStageOf (workerPhase τ.worker) (submitterPhase s) = .alive := by
    rw [hphase]
    rfl
  refine ⟨fun h => absurd hnil h, fun _ _ => hmarker, ⟨fun h => ?_, fun h => ?_⟩, ?_, fun _ => ?_,
    fun _ => ?_⟩
  · rcases he with rfl | rfl <;> cases h
  · rw [hphase] at h
    cases h
  · have hne : e ≠ .removed := by rcases he with rfl | rfl <;> simp
    rw [if_neg hne, entryDrops, guardStage, hafter, hnil]
    rfl
  · rw [guardStage, hafter]
    rfl
  · rw [hnil]
    simp

/-- Once the entry is out of the registry, only who drops it is left to be counted. -/
theorem registry_of_out
    (hcancels : τ'.cancels ≠ [] → τ'.submitter = .returned ∧ τ'.kind = .trackedCallable)
    (hmarker : guardStage τ' = .alive → τ'.cancels ≠ [])
    (hclosed : isOpen (submitterPhase τ'.submitter) = false)
    (hout : τ'.entry = .removed ∧ entryDrops τ' = 1 ∨ τ'.entry = .gone ∧ entryDrops τ' = 0) :
    Registry τ' where
  cancels := hcancels
  marker h hnil := absurd hnil (hmarker h)
  absent := by
    rw [hclosed]
    rcases hout with ⟨h, _⟩ | ⟨h, _⟩ <;> simp [h]
  removed := by
    rcases hout with ⟨h, hcount⟩ | ⟨h, hcount⟩ <;> simp [h, hcount]
  guard h := by
    rcases hout with ⟨h', _⟩ | ⟨h', _⟩ <;> simp [h'] at h
  canceller h := by
    rcases hout with ⟨h', _⟩ | ⟨h', _⟩ <;> simp [h'] at h

theorem registry_of_guardMove {a : Actor} {d : GuardPc} {next : Option GuardPc} {s : SubmitterPc}
    {w : WorkerPc} (hr : Registry τ) (hd : guardStage τ = .dropping d)
    (hstep : guardStep a g τ d = some (g', τ', next))
    (hopen : isOpen (submitterPhase s) = isOpen (submitterPhase τ.submitter))
    (hreturned : τ.submitter = .returned → s = .returned)
    (hstage : guardStageOf (workerPhase w) (submitterPhase s) = GuardStage.after next) :
    Registry { τ' with submitter := s, worker := w } := by
  have hclosed := isOpen_of_guardStage (τ := τ) (by simp [hd])
  have hentry := guardStep_entry hstep
  have hcount := hr.removed
  rw [entryDrops, hd] at hcount
  obtain ⟨marker, entry, inCell, status, state, finishes, rfl⟩ := guardStep_frame hstep
  have hafter : ∀ τ₁ : Task, τ₁.worker = w → τ₁.submitter = s →
      guardStage τ₁ = GuardStage.after next := by
    rintro τ₁ rfl rfl
    exact hstage
  -- The entry is as it was, and the drop is on the same side of the removal.
  have hkeep : entry = τ.entry →
      GuardStage.dropsEntry (GuardStage.after next) = GuardPc.dropsEntry d →
      (GuardPc.isPastRemove d = false →
        GuardStage.isPastRemove (GuardStage.after next) = false ∨ τ.entry ≠ .registered) →
      Registry { τ with markerFinished := marker, entry := entry, slotInCell := inCell,
                        status := status, taskState := state, finishes := finishes,
                        submitter := s, worker := w } := by
    intro hsame hdrops hpast
    refine hr.keep rfl rfl hsame hreturned hopen ?_ ?_ ?_
    · intro halive
      rw [hafter _ rfl rfl] at halive
      exact absurd halive (GuardStage.after_ne_alive next)
    · rw [hafter _ rfl rfl, hdrops, hd]
      rfl
    · rw [hd, hafter _ rfl rfl]
      exact hpast
  -- The guard is the one that takes the entry out, or drops it.
  have hmoved : (entry = .removed ∧ GuardStage.dropsEntry (GuardStage.after next) = true ∨
        entry = .gone ∧ GuardStage.dropsEntry (GuardStage.after next) = false) →
      τ.cancels.countP CancelPc.dropsEntry = 0 →
      Registry { τ with markerFinished := marker, entry := entry, slotInCell := inCell,
                        status := status, taskState := state, finishes := finishes,
                        submitter := s, worker := w } := by
    intro hout hnone
    refine registry_of_out ?_ ?_ ?_ ?_
    · exact fun h => ⟨hreturned (hr.cancels h).1, (hr.cancels h).2⟩
    · intro halive
      rw [hafter _ rfl rfl] at halive
      exact absurd halive (GuardStage.after_ne_alive next)
    · exact hopen.trans hclosed
    · rw [entryDrops, hafter _ rfl rfl, hnone]
      rcases hout with ⟨h, hdrops⟩ | ⟨h, hdrops⟩ <;> simp [h, hdrops]
  rcases hentry with ⟨r, next', rfl, hmove, rfl⟩ | ⟨hpast, hdrops, hsame, hnext⟩
  · cases hmove with
    | remove h h' =>
        rw [h] at hcount
        exact hmoved (.inl ⟨h', rfl⟩) (Nat.eq_zero_of_add_eq_zero_left hcount)
    | absent h h' =>
        exact hkeep h' rfl fun _ => .inr h
    | dropEntry h' hr' =>
        rw [hr.removed_of_dropsEntry (by rw [hd]; rfl)] at hcount
        refine hmoved (.inr ⟨h', ?_⟩) (Nat.add_left_cancel hcount)
        rcases hr' with rfl | rfl <;> rfl
    | keep h' hr' hnext' hnone =>
        refine hkeep h' ?_ fun hpast => .inl ?_
        · cases hn : next' with
          | none => exact hr'.symm
          | some r' => exact (hnext' r' hn).1.trans hr'.symm
        · cases hn : next' with
          | none =>
              rw [hnone hn] at hpast
              cases hpast
          | some r' => exact (hnext' r' hn).2.trans hpast
  · refine hkeep hsame ?_ fun hnot => absurd (hpast.symm.trans hnot) (by simp)
    cases hn : next with
    | none => exact hdrops.symm
    | some d' => exact (hnext d' hn).2.trans hdrops.symm

theorem registry_of_payloadMove {a : Actor} (hr : Registry τ)
    (h : PayloadMove a g τ g' τ') : Registry τ' := by
  cases h with
  | carry _ _ hopen hreturned _ _ hstage =>
      exact hr.keepGuard rfl rfl rfl rfl hreturned hopen hstage
  | accept hs =>
      exact hr.keepGuard rfl rfl rfl rfl (by simp [hs]) (by rw [hs]; rfl)
        (.inl (by rw [guardStage, guardStage, hs]; rfl))
  | register hs hmarker =>
      exact hr.decide (by simp [hs]) rfl hmarker (.inl rfl)
  | dropHook hs _ hphase =>
      have halive : guardStage τ = .alive := by rw [guardStage, hs]; rfl
      exact hr.decide (by simp [hs]) hphase
        (hr.marker halive (cancels_eq_nil hr (by simp [hs]))) (.inr rfl)
  | markStarted hw | start hw =>
      exact hr.keepGuard rfl rfl rfl rfl id rfl (.inl (guardStageOf_congr (by rw [hw]; rfl)))
  | markedAlready hw =>
      exact hr.keepGuard rfl rfl rfl rfl id rfl
        (.inl (guardStageOf_congr (by rw [workerPhase_enterTask, hw]; rfl)))
  | guard hd hstep _ hopen hreturned _ _ hstage =>
      exact registry_of_guardMove hr hd hstep hopen hreturned hstage

theorem Registry.setEntry {e : EntryPc} {inCell aborted : Bool} {status : TaskStatus}
    {state : TrackerState} {finishes : List Bool} {countedBy : List Nat} (hr : Registry τ)
    (hheld : τ.entry ≠ .absent ∧ τ.entry ≠ .removed)
    (he : e ≠ .absent ∧ e ≠ .removed ∧ e ≠ .registered) :
    Registry { τ with entry := e, slotInCell := inCell, aborted := aborted, status := status,
                      taskState := state, finishes := finishes, countedBy := countedBy } where
  cancels := hr.cancels
  marker := hr.marker
  absent := ⟨fun h => absurd h he.1, fun h => absurd (hr.absent.mpr h) hheld.1⟩
  removed := by
    rw [if_neg he.2.1]
    exact hr.removed.trans (if_neg hheld.2)
  guard h := absurd h he.2.2
  canceller h := absurd h he.2.2

theorem registry_takeEntry {k : Nat} (hr : Registry τ) : Registry (takeEntry k τ) := by
  unfold takeEntry
  split
  · rename_i hentry
    exact hr.setEntry (by simp [hentry]) (by simp)
  · exact hr

theorem cancelStep_entry {a : Actor} {c c' : CancelPc}
    (h : cancelStep a g τ c = some (g', τ', c')) :
    (∃ r next, c = .remove r ∧ RemoveMove τ τ' r next ∧
      c' = (match next with | some r' => .remove r' | none => .finishQueued)) ∨
    (CancelPc.dropsEntry c = false ∧ CancelPc.dropsEntry c' = false ∧
      CancelPc.isPastRemove c' = CancelPc.isPastRemove c ∧ τ'.entry = τ.entry) := by
  cases c <;> simp only [cancelStep] at h
  case remove r =>
    simp only [Option.map_eq_some_iff, Prod.mk.injEq, Prod.exists] at h
    obtain ⟨_, _, next', hstep, rfl, rfl, rfl⟩ := h
    refine .inl ⟨r, next', rfl, removeMove_of_step hstep, ?_⟩
    cases next' <;> rfl
  case finish f =>
    simp only [Option.map_eq_some_iff, Prod.mk.injEq, Prod.exists] at h
    obtain ⟨_, next', _, rfl, rfl, rfl⟩ := h
    have hentry := entry_recordFinish τ false f
    cases next' <;> exact .inr ⟨rfl, rfl, rfl, hentry⟩
  case finishQueued =>
    unfold Task.finishQueued at h
    split at h <;> simp only [Option.some.injEq, Prod.mk.injEq] at h <;>
      obtain ⟨_, rfl, rfl⟩ := h <;> exact .inr ⟨rfl, rfl, rfl, rfl⟩
  case cancel =>
    split at h <;> simp only [Option.some.injEq, Prod.mk.injEq] at h <;>
      obtain ⟨_, rfl, rfl⟩ := h <;> exact .inr ⟨rfl, rfl, rfl, rfl⟩
  case wakeCancelled | abort =>
    simp only [Option.some.injEq, Prod.mk.injEq] at h
    obtain ⟨_, rfl, rfl⟩ := h
    exact .inr ⟨rfl, rfl, rfl, rfl⟩
  case returned => cases h

theorem Registry.keepCancel {j : Nat} {c c' : CancelPc} (hr : Registry τ)
    (hc : τ.cancels[j]? = some c) (hcancels : τ'.cancels = τ.cancels.set j c')
    (hkind : τ'.kind = τ.kind) (hsubmitter : τ'.submitter = τ.submitter)
    (hstage : guardStage τ' = guardStage τ) (hentry : τ'.entry = τ.entry)
    (hdrops : CancelPc.dropsEntry c' = CancelPc.dropsEntry c)
    (hpast : CancelPc.isPastRemove c = false →
      CancelPc.isPastRemove c' = false ∨ τ.entry ≠ .registered) :
    Registry τ' where
  cancels _ := by
    rw [hsubmitter, hkind]
    exact hr.cancels (List.ne_nil_of_mem (mem_of_getElem? hc))
  marker _ hnil := by
    rw [hcancels] at hnil
    exact absurd hnil (List.ne_nil_of_mem (mem_set_of_getElem? hc))
  absent := by
    rw [hentry, hsubmitter]
    exact hr.absent
  removed := by
    have hcount := countP_set_add (y := c') CancelPc.dropsEntry hc
    rw [weight, weight, hdrops] at hcount
    rw [hentry, ← hr.removed, entryDrops, entryDrops, hstage, hcancels]
    omega
  guard h := by
    rw [hentry] at h
    rw [hstage]
    exact hr.guard h
  canceller h := by
    rw [hentry] at h
    rw [hcancels]
    intro z hz
    rcases List.mem_or_eq_of_mem_set hz with hmem | rfl
    · exact hr.canceller h z hmem
    · exact (hpast (hr.canceller h c (mem_of_getElem? hc))).resolve_right fun hne => hne h

theorem registry_of_cancellerStep {j : Nat} (hr : Registry τ)
    (h : cancellerStep t j g τ = some (g', τ')) : Registry τ' := by
  obtain ⟨c, τ₁, c', hc, hstep, rfl⟩ := cancellerStep_cases h
  have hcalled := hr.cancels (List.ne_nil_of_mem (mem_of_getElem? hc))
  have hclosed : isOpen (submitterPhase τ.submitter) = false := by
    rw [hcalled.1]
    rfl
  have hremoved := hr.removed
  have hcount := countP_set_add (y := c') CancelPc.dropsEntry hc
  have hentry := cancelStep_entry hstep
  obtain ⟨_, entry, _, _, _, _, _, rfl⟩ := cancelStep_frame hstep
  -- The canceller is the one that takes the entry out, or drops it.
  have hmoved : ∀ τ₂ : Task, τ₂.kind = τ.kind → τ₂.submitter = τ.submitter →
      guardStage τ₂ = guardStage τ → τ₂.cancels = τ.cancels.set j c' →
      (τ₂.entry = .removed ∧ entryDrops τ = 0 ∧ CancelPc.dropsEntry c = false ∧
          CancelPc.dropsEntry c' = true ∨
        τ₂.entry = .gone ∧ entryDrops τ = 1 ∧ CancelPc.dropsEntry c = true ∧
          CancelPc.dropsEntry c' = false) → Registry τ₂ := by
    intro τ₂ hkind hsubmitter hstage hcancels hout
    refine registry_of_out ?_ ?_ ?_ ?_
    · exact fun _ => by rwa [hsubmitter, hkind]
    · exact fun _ => hcancels ▸ List.ne_nil_of_mem (mem_set_of_getElem? hc)
    · rw [hsubmitter, hclosed]
    · rw [entryDrops, hstage, hcancels]
      rcases hout with ⟨h, hdrops, hbefore, hafter⟩ | ⟨h, hdrops, hbefore, hafter⟩
      all_goals
        rw [entryDrops] at hdrops
        rw [weight, weight, hbefore, hafter] at hcount
      · exact .inl ⟨h, by simp at hcount; omega⟩
      · exact .inr ⟨h, by simp at hcount; omega⟩
  rcases hentry with ⟨r, next', rfl, hmove, rfl⟩ | ⟨hdrops, hdrops', hpast, hsame⟩
  · cases hmove with
    | remove hentry h' =>
        rw [hentry] at hremoved
        exact hmoved _ rfl rfl rfl rfl (.inl ⟨h', hremoved, rfl, rfl⟩)
    | absent hentry h' =>
        exact hr.keepCancel hc rfl rfl rfl rfl h' rfl fun _ => .inr hentry
    | dropEntry h' hr' =>
        rw [hr.removed_of_cancel hc rfl] at hremoved
        refine hmoved _ rfl rfl rfl rfl (.inr ⟨h', hremoved, rfl, ?_⟩)
        rcases hr' with rfl | rfl <;> rfl
    | keep h' hr' hnext' hnone =>
        refine hr.keepCancel hc rfl rfl rfl rfl h' ?_ fun hpast => .inl ?_
        · cases hn : next' with
          | none => exact hr'.symm
          | some r' => exact (hnext' r' hn).1.trans hr'.symm
        · cases hn : next' with
          | none =>
              rw [hnone hn] at hpast
              cases hpast
          | some r' => exact (hnext' r' hn).2.trans hpast
  · exact hr.keepCancel hc rfl rfl rfl rfl hsame (hdrops'.trans hdrops.symm)
      fun hbefore => .inl (hpast.trans hbefore)

theorem registry_of_callCancelStep (hr : Registry τ) (h : callCancelStep τ = some τ') :
    Registry τ' := by
  unfold callCancelStep at h
  split at h
  · rename_i hcalled
    obtain rfl := Option.some.inj h
    exact {
      cancels := fun _ => ⟨hcalled.2, hcalled.1⟩
      marker := fun _ hnil => absurd hnil (by simp)
      absent := hr.absent
      removed := by
        rw [← hr.removed, entryDrops, entryDrops, List.countP_append]
        rfl
      guard := hr.guard
      canceller := by
        intro hentry c hc
        rcases List.mem_append.mp hc with hmem | hmem
        · exact hr.canceller hentry c hmem
        · rw [List.mem_singleton.mp hmem]
          rfl }
  · cases h

theorem entry_ne_absent_of_returned (hr : Registry τ) (h : τ.submitter = .returned) :
    τ.entry ≠ .absent := by
  intro habsent
  have := hr.absent.mp habsent
  simp [h, submitterPhase, isOpen] at this

theorem entry_of_removeMove {r : RemovePc} {next : Option RemovePc}
    (hdrop : RemovePc.dropsEntry r = true → τ.entry = .removed) (h : RemoveMove τ τ' r next) :
    τ'.entry = τ.entry ∨ τ.entry = .registered ∧ τ'.entry = .removed ∨
      τ.entry = .removed ∧ τ'.entry = .gone := by
  cases h with
  | remove h h' => exact .inr (.inl ⟨h, h'⟩)
  | absent _ h' => exact .inl h'
  | dropEntry h' => exact .inr (.inr ⟨hdrop rfl, h'⟩)
  | keep h' => exact .inl h'

theorem entry_of_guardStep {a : Actor} {d : GuardPc} {next : Option GuardPc}
    (hr : Registry τ) (hd : guardStage τ = .dropping d)
    (h : guardStep a g τ d = some (g', τ', next)) :
    τ'.entry = τ.entry ∨ τ.entry = .registered ∧ τ'.entry = .removed ∨
      τ.entry = .removed ∧ τ'.entry = .gone := by
  rcases guardStep_entry h with ⟨r, next', rfl, hmove, _⟩ | ⟨_, _, hkeep, _⟩
  · exact entry_of_removeMove (fun hdrop => hr.removed_of_dropsEntry (by rwa [hd])) hmove
  · exact .inl hkeep

theorem entry_of_cancelStep {a : Actor} {j : Nat} {c c' : CancelPc} (hr : Registry τ)
    (hc : τ.cancels[j]? = some c) (h : cancelStep a g τ c = some (g', τ', c')) :
    τ'.entry = τ.entry ∨ τ.entry = .registered ∧ τ'.entry = .removed ∨
      τ.entry = .removed ∧ τ'.entry = .gone := by
  rcases cancelStep_entry h with ⟨r, next', rfl, hmove, _⟩ | ⟨_, _, _, hkeep⟩
  · exact entry_of_removeMove (hr.removed_of_cancel hc) hmove
  · exact .inl hkeep

theorem registry_of_taskStep {a : Action} (hp : Placed τ) (hr : Registry τ)
    (h : TaskStep t g τ a g' τ') : Registry τ' := by
  cases h with
  | submitter h => exact registry_of_payloadMove hr (payloadMove_of_submitterStep hp h)
  | worker h => exact registry_of_payloadMove hr (payloadMove_of_workerStep hp h)
  | pickUp h =>
      exact registry_of_payloadMove hr (payloadMove_of_pickUpStep (g := g) (a := .worker t) h)
  | destroy h =>
      exact registry_of_payloadMove hr (payloadMove_of_destroyStep (g := g) (a := .worker t) h)
  | callCancel h => exact registry_of_callCancelStep hr h
  | canceller h => exact registry_of_cancellerStep hr h
  | sweepNext hentry => exact hr.setEntry (by simp [hentry]) (by simp)
  | sweep hentry hstep =>
      obtain ⟨_, _, _, _, _, rfl⟩ := sweepStep_frame hstep
      exact hr.setEntry (by simp [hentry]) (by simp)
  | finishSweep hentry => exact hr.setEntry (by simp [hentry]) (by simp)

end

end TokioExecutorProofs.BlockingTaskRegistry
