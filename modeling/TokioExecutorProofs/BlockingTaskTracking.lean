import TokioExecutorProofs.BlockingTaskRegistry

/-!
The tracker of one task. Exactly one of the guard's swap and the
compare-exchanges of stop and cancel moves it to finished, and that one applies
`finish_task` once.
-/

namespace TokioExecutorProofs.BlockingTaskTracking

open ServiceBasics
open BlockingServiceState
open BlockingServiceState.TokioExecutorServiceState
open BlockingTask
open BlockingService
open BlockingTaskPlacement
open BlockingTaskRegistry
open ProcessFamilies

def GuardPc.isSwapped : GuardPc → Bool
  | .remove _ | .swap => false
  | .finish _ _ => true

def GuardPc.isPending : GuardPc → Bool
  | .remove _ | .swap => false
  | .finish _ f => f.isPending

def GuardPc.flag : GuardPc → Option Bool
  | .remove _ | .swap => none
  | .finish started _ => some started

/-- The swap in the guard's drop has happened. -/
def GuardStage.isSwapped : GuardStage → Bool
  | .alive => false
  | .dropping d => GuardPc.isSwapped d
  | .dropped => true

def GuardStage.isPending : GuardStage → Bool
  | .alive | .dropped => false
  | .dropping d => GuardPc.isPending d

def GuardStage.flag : GuardStage → Option Bool
  | .alive | .dropped => none
  | .dropping d => GuardPc.flag d

/-- The compare-exchange of the stop call has succeeded. -/
def SweepPc.isWon : SweepPc → Bool
  | .isFinished | .abort | .finishQueued => false
  | .finish _ | .cancelUnstarted | .wakeCancelled => true
  | .dropHook counted | .wakeDropped counted | .next counted => counted

def SweepPc.isPending : SweepPc → Bool
  | .finish f => f.isPending
  | .isFinished | .abort | .finishQueued | .cancelUnstarted | .wakeCancelled | .dropHook _
  | .wakeDropped _ | .next _ => false

def EntryPc.isWon : EntryPc → Bool
  | .absent | .registered | .taken _ | .removed | .gone => false
  | .sweeping _ p => SweepPc.isWon p

def EntryPc.isPending : EntryPc → Bool
  | .absent | .registered | .taken _ | .removed | .gone => false
  | .sweeping _ p => SweepPc.isPending p

/-- The compare-exchange of the cancellation has succeeded. -/
def CancelPc.isFinishing : CancelPc → Bool
  | .finish _ => true
  | .cancel | .wakeCancelled | .remove _ | .finishQueued | .abort | .returned _ => false

def CancelPc.isPending : CancelPc → Bool
  | .finish f => f.isPending
  | .cancel | .wakeCancelled | .remove _ | .finishQueued | .abort | .returned _ => false

/-- The activities between their tracker transition to finished and their count
update. -/
def pendingFinishes (τ : Task) : Nat :=
  (GuardStage.isPending (guardStage τ)).toNat + (EntryPc.isPending τ.entry).toNat +
    τ.cancels.countP CancelPc.isPending

structure Tracked (τ : Task) : Prop where
  ran : ∀ b, ranPhase (workerPhase τ.worker) = some b → τ.everRunning = b
  returned : τ.everRunning = true → τ.submitter = .returned
  starts : τ.starts =
    if τ.everRunning && !isStarting (workerPhase τ.worker) then 1 else 0
  fresh : τ.entry = .absent → τ.taskState = .queued
  notRunning : τ.everRunning = false → τ.taskState ≠ .running
  running : τ.everRunning = true → GuardStage.isSwapped (guardStage τ) = false →
    τ.taskState = .running
  swapped : GuardStage.isSwapped (guardStage τ) = true → τ.taskState = .finished
  conserved : τ.finishes.length + pendingFinishes τ =
    if τ.taskState = .finished then 1 else 0
  flags : ∀ b ∈ τ.finishes, b = τ.everRunning
  guardFlag : ∀ b, GuardStage.flag (guardStage τ) = some b → b = τ.everRunning
  entryWon : EntryPc.isWon τ.entry = true →
    τ.everRunning = false ∧ τ.taskState = .finished
  cancelWon : ∀ c ∈ τ.cancels, CancelPc.isFinishing c = true →
    τ.everRunning = false ∧ τ.taskState = .finished
  counted : τ.countedBy ≠ [] → τ.everRunning = false ∧ τ.taskState = .finished

section

variable {t : TaskId} {g g' : TokioExecutorServiceState} {τ τ' : Task}

/-- What a step does to the tracker and to the applications of `finish_task`. -/
inductive TrackerMove (τ τ' : Task) : Prop
  | keep (hstate : τ'.taskState = τ.taskState) (hfinishes : τ'.finishes = τ.finishes)
      (hpending : pendingFinishes τ' = pendingFinishes τ)
      (hswapped : GuardStage.isSwapped (guardStage τ') = false →
        GuardStage.isSwapped (guardStage τ) = false)
  | finish (hstate : τ.taskState ≠ .finished) (hstate' : τ'.taskState = .finished)
      (hfinishes : τ'.finishes = τ.finishes)
      (hpending : pendingFinishes τ' = pendingFinishes τ + 1) (hentry : τ'.entry ≠ .absent)
      (hran : GuardStage.isSwapped (guardStage τ') = false → τ.everRunning = false)
  | apply {b} (hb : b = τ.everRunning) (hstate : τ'.taskState = τ.taskState)
      (hfinishes : τ'.finishes = τ.finishes ++ [b])
      (hpending : pendingFinishes τ' + 1 = pendingFinishes τ)
      (hswapped : GuardStage.isSwapped (guardStage τ') = false →
        GuardStage.isSwapped (guardStage τ) = false)

theorem TrackerMove.finished (h : TrackerMove τ τ') (hbefore : τ.taskState = .finished) :
    τ'.taskState = .finished := by
  cases h with
  | keep hstate => exact hstate.trans hbefore
  | finish hstate => exact absurd hbefore hstate
  | apply _ hstate => exact hstate.trans hbefore

/-- What a step leaves alone unless it starts the task. -/
structure TrackFrame (τ τ' : Task) : Prop where
  ran : ∀ b, ranPhase (workerPhase τ'.worker) = some b →
    ranPhase (workerPhase τ.worker) = some b := by exact fun _ => id
  ever : τ'.everRunning = τ.everRunning := by rfl
  returned : τ.submitter = .returned → τ'.submitter = .returned := by exact id
  starts : τ.starts = (if τ.everRunning && !isStarting (workerPhase τ.worker) then 1 else 0) →
    τ'.starts = if τ.everRunning && !isStarting (workerPhase τ'.worker) then 1 else 0 := by exact id
  fresh : τ'.entry = .absent → τ.entry = .absent := by exact id
  swapped : GuardStage.isSwapped (guardStage τ') = true →
    GuardStage.isSwapped (guardStage τ) = true ∨ τ'.taskState = .finished := by exact .inl
  guardFlag : ∀ b, GuardStage.flag (guardStage τ') = some b →
    GuardStage.flag (guardStage τ) = some b ∨ b = τ.everRunning := by exact fun _ => .inl
  entryWon : EntryPc.isWon τ'.entry = true →
    EntryPc.isWon τ.entry = true ∨ τ.everRunning = false ∧ τ'.taskState = .finished := by exact .inl
  cancelWon : ∀ c ∈ τ'.cancels, CancelPc.isFinishing c = true →
    c ∈ τ.cancels ∨ τ.everRunning = false ∧ τ'.taskState = .finished := by exact fun _ h _ => .inl h
  counted : τ'.countedBy ≠ [] → τ.countedBy ≠ [] ∨ EntryPc.isWon τ.entry = true := by exact .inl

theorem Tracked.move (ht : Tracked τ) (hf : TrackFrame τ τ') (h : TrackerMove τ τ') :
    Tracked τ' where
  ran b hb := hf.ever.trans (ht.ran b (hf.ran b hb))
  returned hran := hf.returned (ht.returned (hf.ever ▸ hran))
  starts := by
    rw [hf.ever]
    exact hf.starts ht.starts
  fresh hentry := by
    cases h with
    | keep hstate => exact hstate.trans (ht.fresh (hf.fresh hentry))
    | finish _ _ _ _ hpresent => exact absurd hentry hpresent
    | apply _ hstate => exact hstate.trans (ht.fresh (hf.fresh hentry))
  notRunning hran := by
    rw [hf.ever] at hran
    cases h with
    | keep hstate => exact hstate ▸ ht.notRunning hran
    | finish _ hstate' => simp [hstate']
    | apply _ hstate => exact hstate ▸ ht.notRunning hran
  running hran hnot := by
    rw [hf.ever] at hran
    cases h with
    | keep hstate _ _ hswapped => exact hstate.trans (ht.running hran (hswapped hnot))
    | finish _ _ _ _ _ hnever => simp [hnever hnot] at hran
    | apply _ hstate _ _ hswapped => exact hstate.trans (ht.running hran (hswapped hnot))
  swapped hswapped := by
    rcases hf.swapped hswapped with hbefore | hafter
    · exact h.finished (ht.swapped hbefore)
    · exact hafter
  conserved := by
    have hcons := ht.conserved
    cases h with
    | keep hstate hfinishes hpending =>
        rw [hstate, hfinishes, hpending]
        exact hcons
    | finish hstate hstate' hfinishes hpending =>
        rw [if_neg hstate] at hcons
        rw [if_pos hstate', hfinishes, hpending]
        omega
    | apply _ hstate hfinishes hpending =>
        rw [hstate, hfinishes, List.length_append, ← hcons, ← hpending]
        simp only [List.length_singleton]
        omega
  flags := by
    rw [hf.ever]
    cases h with
    | keep _ hfinishes =>
        rw [hfinishes]
        exact ht.flags
    | finish _ _ hfinishes =>
        rw [hfinishes]
        exact ht.flags
    | apply hb _ hfinishes =>
        rw [hfinishes]
        exact forall_mem_append ht.flags hb
  guardFlag b hb := by
    rw [hf.ever]
    rcases hf.guardFlag b hb with hbefore | hafter
    · exact ht.guardFlag b hbefore
    · exact hafter
  entryWon hwon := by
    rw [hf.ever]
    rcases hf.entryWon hwon with hbefore | hafter
    · exact ⟨(ht.entryWon hbefore).1, h.finished (ht.entryWon hbefore).2⟩
    · exact hafter
  cancelWon c hc hwon := by
    rw [hf.ever]
    rcases hf.cancelWon c hc hwon with hbefore | hafter
    · exact ⟨(ht.cancelWon c hbefore hwon).1, h.finished (ht.cancelWon c hbefore hwon).2⟩
    · exact hafter
  counted hcounted := by
    rw [hf.ever]
    rcases hf.counted hcounted with hbefore | hwon
    · exact ⟨(ht.counted hbefore).1, h.finished (ht.counted hbefore).2⟩
    · exact ⟨(ht.entryWon hwon).1, h.finished (ht.entryWon hwon).2⟩

theorem Tracked.everRunning_of_queued (ht : Tracked τ) (h : τ.taskState = .queued) :
    τ.everRunning = false := by
  rw [← Bool.not_eq_true]
  intro hran
  cases hswapped : GuardStage.isSwapped (guardStage τ) with
  | true => simp [ht.swapped hswapped] at h
  | false => simp [ht.running hran hswapped] at h

/-- What `finish_task` does to its position. -/
inductive FinishMove : FinishPc → Option FinishPc → Prop
  | lock : FinishMove .lock (some .update)
  | update {f'} (h' : f'.isPending = false) : FinishMove .update (some f')
  | rest {f next} (h : f.isPending = false)
      (h' : ∀ f', next = some f' → f'.isPending = false) : FinishMove f next

theorem finishMove_of_step {a : Actor} {started : Bool} {f : FinishPc}
    {next : Option FinishPc} (h : finishTaskStep a started g f = some (g', next)) :
    FinishMove f next := by
  cases f <;> simp only [finishTaskStep] at h
  case lock =>
    simp only [map_acquire_eq_some, Prod.mk.injEq] at h
    obtain ⟨_, _, rfl⟩ := h
    exact .lock
  case update =>
    simp only [Option.some.injEq, Prod.mk.injEq] at h
    obtain ⟨_, rfl⟩ := h
    exact .update rfl
  case wakeCapacity terminated =>
    simp only [Option.some.injEq, Prod.mk.injEq] at h
    obtain ⟨_, rfl⟩ := h
    refine .rest rfl fun f' hf' => ?_
    split at hf' <;> cases hf'
    rfl
  case unlock | notifyCapacity | notifyAll | notifyWaiters =>
    simp only [Option.some.injEq, Prod.mk.injEq] at h
    obtain ⟨_, rfl⟩ := h
    refine .rest rfl ?_
    rintro f' ⟨⟩
    rfl
  case wakeTermination =>
    simp only [Option.some.injEq, Prod.mk.injEq] at h
    obtain ⟨_, rfl⟩ := h
    exact .rest rfl (by simp)

/-- What the guard's drop does to the tracker. -/
inductive GuardMove (τ : Task) : GuardPc → Option GuardPc → TrackerState → List Bool → Prop
  | remove {r d'} (h' : d' = .swap ∨ ∃ r', d' = .remove r') :
      GuardMove τ (.remove r) (some d') τ.taskState τ.finishes
  | swapQueued (h : τ.taskState = .queued) :
      GuardMove τ .swap (some (.finish false .lock)) .finished τ.finishes
  | swapRunning (h : τ.taskState = .running) :
      GuardMove τ .swap (some (.finish true .lock)) .finished τ.finishes
  | swapFinished (h : τ.taskState = .finished) : GuardMove τ .swap none .finished τ.finishes
  | finish {started f next} (h : FinishMove f next) :
      GuardMove τ (.finish started f) (next.map (.finish started)) τ.taskState
        (if f = .update then τ.finishes ++ [started] else τ.finishes)

theorem guardMove_of_step {a : Actor} {d : GuardPc} {next : Option GuardPc}
    (h : guardStep a g τ d = some (g', τ', next)) :
    GuardMove τ d next τ'.taskState τ'.finishes := by
  cases d <;> simp only [guardStep] at h
  case remove r =>
    simp only [Option.map_eq_some_iff, Prod.mk.injEq, Prod.exists] at h
    obtain ⟨_, _, next', hstep, rfl, rfl, rfl⟩ := h
    obtain ⟨_, _, _, _, rfl⟩ := removeAbortHandleStep_frame hstep
    cases next' with
    | none => exact .remove (.inl rfl)
    | some r' => exact .remove (.inr ⟨r', rfl⟩)
  case swap =>
    split at h
    all_goals
      rename_i hstate
      simp only [Option.some.injEq, Prod.mk.injEq] at h
      obtain ⟨_, rfl, rfl⟩ := h
    · exact .swapQueued hstate
    · exact .swapRunning hstate
    · rw [hstate]
      exact .swapFinished hstate
  case finish started f =>
    simp only [Option.map_eq_some_iff, Prod.mk.injEq, Prod.exists] at h
    obtain ⟨_, next', hstep, _, rfl, rfl⟩ := h
    rw [Task.recordFinish_taskState, Task.recordFinish_finishes]
    exact .finish (finishMove_of_step hstep)

/-- The guard is as it was, or its drop begins. -/
theorem tracking_of_stage {stage stage' : GuardStage}
    (h : stage' = stage ∨ stage = .alive ∧ stage' = .dropping (.remove .finishMarker)) :
    GuardStage.isSwapped stage' = GuardStage.isSwapped stage ∧
      GuardStage.isPending stage' = GuardStage.isPending stage ∧
      GuardStage.flag stage' = GuardStage.flag stage := by
  rcases h with rfl | ⟨rfl, rfl⟩ <;> exact ⟨rfl, rfl, rfl⟩

theorem Tracked.carry {s : SubmitterPc} {w : WorkerPc} {ch : Channel} {inCell : Bool}
    {status : TaskStatus} {e : EntryPc} {starts invocations : Nat} {returned : Option RunOutcome}
    (ht : Tracked τ)
    (hran : ∀ b, ranPhase (workerPhase w) = some b → ranPhase (workerPhase τ.worker) = some b)
    (hreturned : τ.submitter = .returned → s = .returned)
    (hstarts : τ.starts = (if τ.everRunning && !isStarting (workerPhase τ.worker) then 1 else 0) →
      starts = if τ.everRunning && !isStarting (workerPhase w) then 1 else 0)
    (hfresh : e = .absent → τ.entry = .absent)
    (hpending : EntryPc.isPending e = EntryPc.isPending τ.entry)
    (hwon : EntryPc.isWon e = EntryPc.isWon τ.entry)
    (hstage : guardStageOf (workerPhase w) (submitterPhase s) = guardStage τ ∨
      guardStage τ = .alive ∧
        guardStageOf (workerPhase w) (submitterPhase s) = .dropping (.remove .finishMarker)) :
    Tracked { τ with submitter := s, worker := w, channel := ch, slotInCell := inCell,
                     status := status, entry := e, starts := starts, invocations := invocations,
                     returned := returned } := by
  obtain ⟨hswapped, hpend, hflag⟩ := tracking_of_stage hstage
  refine ht.move { ran := hran, returned := hreturned, starts := hstarts, fresh := hfresh,
                   swapped := fun h => .inl (hswapped ▸ h),
                   guardFlag := fun b h => .inl (hflag ▸ h), entryWon := fun h => .inl (hwon ▸ h) }
    (.keep rfl rfl ?_ fun h => hswapped ▸ h)
  rw [pendingFinishes, pendingFinishes, guardStage, hpend, hpending]

theorem tracking_of_entry {e e' : EntryPc}
    (h : e' = e ∨ e = .registered ∧ e' = .removed ∨ e = .removed ∧ e' = .gone) :
    (e' = .absent → e = .absent) ∧ EntryPc.isPending e' = EntryPc.isPending e ∧
      EntryPc.isWon e' = EntryPc.isWon e := by
  rcases h with rfl | ⟨rfl, rfl⟩ | ⟨rfl, rfl⟩
  · exact ⟨id, rfl, rfl⟩
  · exact ⟨fun h => (by cases h), rfl, rfl⟩
  · exact ⟨fun h => (by cases h), rfl, rfl⟩

theorem FinishPc.ne_update {f : FinishPc} (h : f.isPending = false) : f ≠ .update := by
  rintro rfl
  cases h

theorem tracked_of_guardMove {d : GuardPc} {next : Option GuardPc} {s : SubmitterPc} {w : WorkerPc}
    {marker inCell : Bool} {status : TaskStatus} {e : EntryPc} {state : TrackerState}
    {finishes : List Bool} (hr : Registry τ) (ht : Tracked τ) (hd : guardStage τ = .dropping d)
    (hmove : GuardMove τ d next state finishes)
    (hentry : e = τ.entry ∨ τ.entry = .registered ∧ e = .removed ∨
      τ.entry = .removed ∧ e = .gone)
    (hreturned : τ.submitter = .returned → s = .returned)
    (hran : ∀ b, ranPhase (workerPhase w) = some b → ranPhase (workerPhase τ.worker) = some b)
    (hstarting : isStarting (workerPhase w) = isStarting (workerPhase τ.worker))
    (hstage : guardStageOf (workerPhase w) (submitterPhase s) = GuardStage.after next) :
    Tracked { τ with submitter := s, worker := w, markerFinished := marker, entry := e,
                     slotInCell := inCell, status := status, taskState := state,
                     finishes := finishes } := by
  obtain ⟨hfresh, hpending, hwon⟩ := tracking_of_entry hentry
  have hclosed := isOpen_of_guardStage (τ := τ) (by simp [hd])
  have hpresent : e ≠ .absent := fun h => by simp [hr.absent.mp (hfresh h)] at hclosed
  have hf : (GuardStage.isSwapped (GuardStage.after next) = true →
        GuardStage.isSwapped (.dropping d) = true ∨ state = .finished) →
      (∀ b, GuardStage.flag (GuardStage.after next) = some b →
        GuardStage.flag (.dropping d) = some b ∨ b = τ.everRunning) →
      TrackFrame τ { τ with submitter := s, worker := w, markerFinished := marker, entry := e,
                            slotInCell := inCell, status := status, taskState := state,
                            finishes := finishes } := fun hswapped hflag => {
    ran := hran
    returned := hreturned
    starts := by
      dsimp only
      rw [hstarting]
      exact id
    fresh := hfresh
    swapped := by
      rw [hd, guardStage, hstage]
      exact hswapped
    guardFlag := by
      rw [hd, guardStage, hstage]
      exact hflag
    entryWon := fun h => .inl (hwon ▸ h) }
  have hpend : pendingFinishes { τ with submitter := s, worker := w, markerFinished := marker,
                                        entry := e, slotInCell := inCell, status := status,
                                        taskState := state, finishes := finishes } +
        (GuardPc.isPending d).toNat =
      pendingFinishes τ + (GuardStage.isPending (GuardStage.after next)).toNat := by
    rw [pendingFinishes, pendingFinishes, guardStage, hstage, hpending, hd, GuardStage.isPending]
    dsimp only
    omega
  cases hmove with
  | @remove r d' h' =>
      have hafter : GuardStage.isSwapped (GuardStage.after (some d')) = false ∧
          GuardStage.isPending (GuardStage.after (some d')) = false ∧
          GuardStage.flag (GuardStage.after (some d')) = none := by
        rcases h' with rfl | ⟨r', rfl⟩ <;> exact ⟨rfl, rfl, rfl⟩
      refine ht.move (hf ?_ ?_) (.keep rfl rfl ?_ ?_)
      · simp [hafter.1]
      · simp [hafter.2.2]
      · rw [hafter.2.1] at hpend
        exact hpend
      · rw [hd]
        exact fun _ => rfl
  | swapQueued h =>
      have hnot := ht.everRunning_of_queued h
      refine ht.move (hf (fun _ => .inr rfl) ?_) (.finish (by simp [h]) rfl rfl hpend hpresent ?_)
      · rintro b hb
        obtain rfl := Option.some.inj hb
        exact .inr hnot.symm
      · exact fun _ => hnot
  | swapRunning h =>
      have hran : τ.everRunning = true := by
        rw [← Bool.not_eq_false]
        exact fun hnot => ht.notRunning hnot h
      refine ht.move (hf (fun _ => .inr rfl) ?_) (.finish (by simp [h]) rfl rfl hpend hpresent ?_)
      · rintro b hb
        obtain rfl := Option.some.inj hb
        exact .inr hran.symm
      · rw [guardStage, hstage]
        exact fun hnever => by cases hnever
  | swapFinished h =>
      refine ht.move (hf (fun _ => .inr rfl) (fun _ hb => by cases hb)) (.keep h.symm rfl hpend ?_)
      rw [hd]
      exact fun _ => rfl
  | @finish started f next' hfinish =>
      have hflag := ht.guardFlag started (by rw [hd]; rfl)
      have hsame : ∀ b, GuardStage.flag (GuardStage.after (next'.map (.finish started))) = some b →
          GuardStage.flag (.dropping (.finish started f)) = some b ∨ b = τ.everRunning := by
        intro b hb
        cases next' with
        | none => cases hb
        | some f' => exact .inl hb
      have hswapped : GuardStage.isSwapped
          (guardStageOf (workerPhase w) (submitterPhase s)) = true := by
        rw [hstage]
        cases next' <;> rfl
      have hnever : GuardStage.isSwapped (guardStageOf (workerPhase w) (submitterPhase s)) =
          false → GuardStage.isSwapped (guardStage τ) = false := fun hnot => by
        simp [hswapped] at hnot
      cases hfinish with
      | lock =>
          exact ht.move (hf (fun _ => .inl rfl) hsame) (.keep rfl rfl (Nat.succ.inj hpend) hnever)
      | @update f' h' =>
          have hdone : GuardStage.isPending
              (GuardStage.after ((some f').map (GuardPc.finish started))) = false := h'
          rw [hdone] at hpend
          exact ht.move (hf (fun _ => .inl rfl) hsame) (.apply hflag rfl rfl hpend hnever)
      | rest hrest hrest' =>
          have hdone : GuardStage.isPending (GuardStage.after (next'.map (.finish started))) =
              false := by
            cases hn : next' with
            | none => rfl
            | some f' => exact hrest' f' hn
          rw [hdone, GuardPc.isPending, hrest] at hpend
          exact ht.move (hf (fun _ => .inl rfl) hsame)
            (.keep rfl (if_neg (FinishPc.ne_update hrest)) hpend hnever)

theorem tracked_of_payloadMove {a : Actor} (hp : Placed τ) (hr : Registry τ)
    (ht : Tracked τ) (h : PayloadMove a g τ g' τ') : Tracked τ' := by
  have habsent : isOpen (submitterPhase τ.submitter) = true → τ.entry = .absent := hr.absent.mpr
  cases h with
  | carry _ _ _ hreturned hran hstarting hstage =>
      exact ht.carry hran hreturned (by rw [hstarting]; exact id) id rfl rfl hstage
  | accept hs =>
      exact ht.carry (fun _ => id) (by simp [hs]) id id rfl rfl
        (.inl (by rw [guardStage, hs]; rfl))
  | register hs =>
      have hentry := habsent (by rw [hs]; rfl)
      exact ht.carry (fun _ => id) (by simp [hs]) id (fun _ => hentry) (by rw [hentry]; rfl)
        (by rw [hentry]; rfl) (.inl (by rw [guardStage, hs]; rfl))
  | dropHook hs _ hphase =>
      have hentry := habsent (by rw [hs]; rfl)
      exact ht.carry (fun _ => id) (by simp [hs]) id (fun _ => hentry) (by rw [hentry]; rfl)
        (by rw [hentry]; rfl) (.inl (by rw [guardStage, hs, hphase]; rfl))
  | markStarted hw hstate =>
      have hreturned := submitter_of_placed hp (by rw [hw]; rfl)
      have hpresent := entry_ne_absent_of_returned hr hreturned
      have hnot : τ.everRunning = false := ht.ran false (by rw [hw]; rfl)
      have hnone : τ.finishes.length + pendingFinishes τ = 0 := by
        have hcons := ht.conserved
        rwa [hstate, if_neg (by simp)] at hcons
      have halive : guardStage τ = .alive := by
        rw [guardStage, hreturned, hw]
        rfl
      have hafter : guardStage { τ with worker := .startLock, taskState := .running,
                                        everRunning := true } = .alive := by
        rw [guardStage, hreturned]
        rfl
      exact {
        ran := fun b hb => Option.some.inj hb
        returned := fun _ => hreturned
        starts := by
          have hstarts := ht.starts
          rw [hnot] at hstarts
          exact hstarts
        fresh := fun hfresh => absurd hfresh hpresent
        notRunning := fun hnever => by cases hnever
        running := fun _ _ => rfl
        swapped := by
          rw [hafter]
          exact fun hnever => by cases hnever
        conserved := by
          rw [pendingFinishes, halive] at hnone
          rw [pendingFinishes, hafter]
          exact hnone
        flags := by
          rw [List.length_eq_zero_iff.mp (Nat.eq_zero_of_add_eq_zero_right hnone)]
          simp
        guardFlag := by
          rw [hafter]
          exact fun _ hnever => by cases hnever
        entryWon := fun hwon => by simp [(ht.entryWon hwon).2] at hstate
        cancelWon := fun c hc hwon => by simp [(ht.cancelWon c hc hwon).2] at hstate
        counted := fun hcounted => by simp [(ht.counted hcounted).2] at hstate }
  | start hw =>
      have hran : τ.everRunning = true := ht.ran true (by rw [hw]; rfl)
      refine ht.carry (by rw [hw]; exact fun _ => id) id ?_ id rfl rfl
        (.inl (guardStageOf_congr (by rw [hw]; rfl)))
      rw [hran, hw]
      exact congrArg Nat.succ
  | markedAlready hw hstate => exact absurd hstate (ht.notRunning (ht.ran false (by rw [hw]; rfl)))
  | @guard _ d _ next s w hd hstep _ _ hreturned hran hstarting hstage =>
      have hentry := entry_of_guardStep hr hd hstep
      have hmove := guardMove_of_step hstep
      obtain ⟨_, _, _, _, state, finishes, rfl⟩ := guardStep_frame hstep
      exact tracked_of_guardMove (τ := τ) hr ht hd hmove hentry hreturned hran hstarting hstage

/-- What a `cancel()` call does to the tracker. -/
inductive CancelMove (τ : Task) : CancelPc → CancelPc → TrackerState → List Bool → Prop
  | win (h : τ.taskState = .queued) :
      CancelMove τ .finishQueued (.finish .lock) .finished τ.finishes
  | finish {f next} (h : FinishMove f next) :
      CancelMove τ (.finish f) (next.elim .abort .finish) τ.taskState
        (if f = .update then τ.finishes ++ [false] else τ.finishes)
  | other {c c'} (h : CancelPc.isFinishing c = false) (h' : CancelPc.isFinishing c' = false) :
      CancelMove τ c c' τ.taskState τ.finishes

theorem cancelMove_of_step {a : Actor} {c c' : CancelPc}
    (h : cancelStep a g τ c = some (g', τ', c')) :
    CancelMove τ c c' τ'.taskState τ'.finishes := by
  cases c <;> simp only [cancelStep] at h
  case remove r =>
    simp only [Option.map_eq_some_iff, Prod.mk.injEq, Prod.exists] at h
    obtain ⟨_, _, next', hstep, rfl, rfl, rfl⟩ := h
    obtain ⟨_, _, _, _, rfl⟩ := removeAbortHandleStep_frame hstep
    exact .other rfl (by cases next' <;> rfl)
  case finishQueued =>
    unfold Task.finishQueued at h
    split at h
    all_goals
      rename_i hstate
      simp only [Option.some.injEq, Prod.mk.injEq] at h
      obtain ⟨_, rfl, rfl⟩ := h
    · exact .win hstate
    · exact .other rfl rfl
  case finish f =>
    simp only [Option.map_eq_some_iff, Prod.mk.injEq, Prod.exists] at h
    obtain ⟨_, next', hstep, _, rfl, rfl⟩ := h
    rw [Task.recordFinish_taskState, Task.recordFinish_finishes]
    cases next' <;> exact .finish (finishMove_of_step hstep)
  case cancel =>
    split at h
    all_goals
      simp only [Option.some.injEq, Prod.mk.injEq] at h
      obtain ⟨_, rfl, rfl⟩ := h
      exact .other rfl rfl
  case returned => cases h
  all_goals
    simp only [Option.some.injEq, Prod.mk.injEq] at h
    obtain ⟨_, rfl, rfl⟩ := h
    exact .other rfl rfl

/-- What the loop body of a stop call does to the tracker. -/
inductive SweepMove (τ : Task) : SweepPc → SweepPc → TrackerState → List Bool → Prop
  | win (h : τ.taskState = .queued) :
      SweepMove τ .finishQueued (.finish .lock) .finished τ.finishes
  | finish {f next} (h : FinishMove f next) :
      SweepMove τ (.finish f)
        (next.elim (if τ.hasSlot then .cancelUnstarted else .dropHook true) .finish) τ.taskState
        (if f = .update then τ.finishes ++ [false] else τ.finishes)
  | other {p p'} (hwon : SweepPc.isWon p' = SweepPc.isWon p)
      (h : SweepPc.isPending p = false) (h' : SweepPc.isPending p' = false) :
      SweepMove τ p p' τ.taskState τ.finishes

theorem sweepMove_of_step {k : Nat} {p p' : SweepPc}
    (h : sweepStep k g τ p = some (g', τ', p')) :
    SweepMove τ p p' τ'.taskState τ'.finishes := by
  cases p <;> simp only [sweepStep] at h
  case finishQueued =>
    unfold Task.finishQueued at h
    split at h
    all_goals
      rename_i hstate
      simp only [Option.some.injEq, Prod.mk.injEq] at h
      obtain ⟨_, rfl, rfl⟩ := h
    · exact .win hstate
    · exact .other rfl rfl rfl
  case finish f =>
    simp only [Option.map_eq_some_iff, Prod.mk.injEq, Prod.exists] at h
    obtain ⟨_, next', hstep, _, rfl, rfl⟩ := h
    rw [Task.recordFinish_taskState, Task.recordFinish_finishes]
    cases next' <;> exact .finish (finishMove_of_step hstep)
  case isFinished =>
    simp only [Option.some.injEq, Prod.mk.injEq] at h
    obtain ⟨_, rfl, rfl⟩ := h
    split <;> exact .other rfl rfl rfl
  case cancelUnstarted =>
    simp only [Option.some.injEq, Prod.mk.injEq] at h
    obtain ⟨_, rfl, rfl⟩ := h
    rw [Task.cancelUnstarted_taskState, Task.cancelUnstarted_finishes]
    split <;> exact .other rfl rfl rfl
  case dropHook counted =>
    obtain ⟨_, _, heq⟩ := dropSlotRef_frame τ τ.payloadSlotRef
    simp only [Option.some.injEq, Prod.mk.injEq, heq] at h
    obtain ⟨_, rfl, rfl⟩ := h
    split <;> exact .other rfl rfl rfl
  case next => cases h
  all_goals
    simp only [Option.some.injEq, Prod.mk.injEq] at h
    obtain ⟨_, rfl, rfl⟩ := h
    exact .other rfl rfl rfl

theorem CancelPc.isPending_of_isFinishing {c : CancelPc} (h : CancelPc.isFinishing c = false) :
    CancelPc.isPending c = false := by
  cases c <;> simp_all [CancelPc.isFinishing, CancelPc.isPending]

theorem tracked_of_cancellerStep {j : Nat} (hr : Registry τ) (ht : Tracked τ)
    (h : cancellerStep t j g τ = some (g', τ')) : Tracked τ' := by
  obtain ⟨c, τ₁, c', hc, hstep, rfl⟩ := cancellerStep_cases h
  have hmem := mem_of_getElem? hc
  have hcount := countP_set_add (y := c') CancelPc.isPending hc
  have hset : ∀ z ∈ τ.cancels.set j c', z ∈ τ.cancels ∨ z = c' := fun z hz =>
    List.mem_or_eq_of_mem_set hz
  have habsent := entry_ne_absent_of_returned hr (hr.cancels (List.ne_nil_of_mem hmem)).1
  have hentry := entry_of_cancelStep hr hc hstep
  have hmove := cancelMove_of_step hstep
  obtain ⟨marker, entry, inCell, status, state, finishes, aborted, rfl⟩ := cancelStep_frame hstep
  obtain ⟨hfresh, hpending, hwon⟩ := tracking_of_entry hentry
  dsimp only at hfresh hpending hwon hmove
  have hf : (CancelPc.isFinishing c' = true → τ.everRunning = false ∧ state = .finished) →
      TrackFrame τ { τ with cancels := τ.cancels.set j c', markerFinished := marker,
                            entry := entry, slotInCell := inCell, status := status,
                            taskState := state, finishes := finishes, aborted := aborted } :=
    fun hlast => {
      fresh := hfresh
      entryWon := fun h => .inl (hwon ▸ h)
      cancelWon := fun z hz hfinishing => by
        rcases hset z hz with hold | rfl
        · exact .inl hold
        · exact .inr (hlast hfinishing) }
  have hpend : pendingFinishes { τ with cancels := τ.cancels.set j c', markerFinished := marker,
                                        entry := entry, slotInCell := inCell, status := status,
                                        taskState := state, finishes := finishes,
                                        aborted := aborted } + weight CancelPc.isPending c =
      pendingFinishes τ + weight CancelPc.isPending c' := by
    rw [pendingFinishes, pendingFinishes, hpending, guardStage, guardStage]
    dsimp only
    omega
  cases hmove with
  | win hqueued =>
      have hnot := ht.everRunning_of_queued hqueued
      exact ht.move (hf fun _ => ⟨hnot, rfl⟩) (.finish (by simp [hqueued]) rfl rfl hpend
        (fun hnever => habsent (hfresh hnever)) fun _ => hnot)
  | @finish f next hfinish =>
      have hlast := ht.cancelWon _ hmem rfl
      cases hfinish with
      | lock => exact ht.move (hf fun _ => hlast) (.keep rfl rfl (Nat.succ.inj hpend) id)
      | @update f' h' =>
          have hdone : CancelPc.isPending ((some f').elim .abort .finish) = false := h'
          rw [weight_of_true rfl, weight_of_false hdone] at hpend
          exact ht.move (hf fun _ => hlast) (.apply hlast.1.symm rfl rfl hpend id)
      | rest hrest hrest' =>
          have hdone : CancelPc.isPending (next.elim .abort .finish) = false := by
            cases hn : next with
            | none => rfl
            | some f' => exact hrest' f' hn
          have hnot : CancelPc.isPending (.finish f) = false := hrest
          rw [weight_of_false hnot, weight_of_false hdone] at hpend
          exact ht.move (hf fun _ => hlast) (.keep rfl (if_neg (FinishPc.ne_update hrest)) hpend id)
  | other hbefore hafter =>
      rw [weight_of_false (CancelPc.isPending_of_isFinishing hbefore),
        weight_of_false (CancelPc.isPending_of_isFinishing hafter)] at hpend
      exact ht.move (hf fun hnever => by simp [hafter] at hnever) (.keep rfl rfl hpend id)

theorem tracked_of_callCancelStep (ht : Tracked τ) (h : callCancelStep τ = some τ') :
    Tracked τ' := by
  unfold callCancelStep at h
  split at h
  · obtain rfl := Option.some.inj h
    refine ht.move { cancelWon := ?_ } (.keep rfl rfl ?_ id)
    · intro c hc hfinishing
      rcases List.mem_append.mp hc with hold | hnew
      · exact .inl hold
      · rw [List.mem_singleton.mp hnew] at hfinishing
        cases hfinishing
    · rw [pendingFinishes, pendingFinishes, countP_append_singleton]
      rfl
  · cases h

theorem Tracked.setEntry {e : EntryPc} {inCell aborted : Bool} {status : TaskStatus}
    {countedBy : List Nat} (ht : Tracked τ) (he : e ≠ .absent)
    (hpending : EntryPc.isPending e = EntryPc.isPending τ.entry)
    (hwon : EntryPc.isWon e = true → EntryPc.isWon τ.entry = true)
    (hcounted : countedBy ≠ [] → τ.countedBy ≠ [] ∨ EntryPc.isWon τ.entry = true) :
    Tracked { τ with entry := e, slotInCell := inCell, aborted := aborted, status := status,
                     countedBy := countedBy } := by
  refine ht.move { fresh := fun h => absurd h he, entryWon := fun h => .inl (hwon h),
                   counted := hcounted } (.keep rfl rfl ?_ id)
  rw [pendingFinishes, pendingFinishes, hpending]
  rfl

theorem tracked_takeEntry {k : Nat} (ht : Tracked τ) : Tracked (takeEntry k τ) := by
  unfold takeEntry
  split
  · rename_i hentry
    exact ht.setEntry (by simp) (by rw [hentry]; rfl) (by simp [EntryPc.isWon]) .inl
  · exact ht

theorem tracked_of_sweepStep {k : Nat} {p p' : SweepPc} (ht : Tracked τ)
    (hentry : τ.entry = .sweeping k p) (h : sweepStep k g τ p = some (g', τ', p')) :
    Tracked { τ' with entry := .sweeping k p' } := by
  have hmove := sweepMove_of_step h
  obtain ⟨inCell, status, state, finishes, aborted, rfl⟩ := sweepStep_frame h
  have hf : (SweepPc.isWon p' = true → τ.everRunning = false ∧ state = .finished) →
      TrackFrame τ { τ with entry := .sweeping k p', slotInCell := inCell, status := status,
                            taskState := state, finishes := finishes, aborted := aborted } :=
    fun hwon => {
      fresh := fun hnever => by cases hnever
      entryWon := fun h => .inr (hwon h) }
  have hpend : pendingFinishes { τ with entry := .sweeping k p', slotInCell := inCell,
                                        status := status, taskState := state,
                                        finishes := finishes, aborted := aborted } +
        (SweepPc.isPending p).toNat =
      pendingFinishes τ + (SweepPc.isPending p').toNat := by
    rw [pendingFinishes, pendingFinishes, hentry, guardStage, guardStage, EntryPc.isPending,
      EntryPc.isPending]
    dsimp only
    omega
  cases hmove with
  | other hwon hbefore hafter =>
      exact ht.setEntry (by simp) (by rw [hentry]; exact hafter.trans hbefore.symm)
        (by rw [hentry]; exact fun hw => hwon.symm.trans hw) .inl
  | win hqueued =>
      have hnot := ht.everRunning_of_queued hqueued
      exact ht.move (hf fun _ => ⟨hnot, rfl⟩)
        (.finish (by simp [hqueued]) rfl rfl hpend (by simp) fun _ => hnot)
  | @finish f next hfinish =>
      have hwon := ht.entryWon (by rw [hentry]; rfl)
      cases hfinish with
      | lock => exact ht.move (hf fun _ => hwon) (.keep rfl rfl (Nat.succ.inj hpend) id)
      | @update f' h' =>
          have hdone : SweepPc.isPending ((some f').elim
              (if τ.hasSlot then .cancelUnstarted else .dropHook true) .finish) = false := h'
          rw [hdone] at hpend
          exact ht.move (hf fun _ => hwon) (.apply hwon.1.symm rfl rfl hpend id)
      | rest hrest hrest' =>
          have hdone : SweepPc.isPending
              (next.elim (if τ.hasSlot then .cancelUnstarted else .dropHook true) .finish) =
              false := by
            cases hn : next with
            | none => cases τ.hasSlot <;> rfl
            | some f' => exact hrest' f' hn
          rw [hdone, SweepPc.isPending, hrest] at hpend
          exact ht.move (hf fun _ => hwon) (.keep rfl (if_neg (FinishPc.ne_update hrest)) hpend id)

theorem tracked_of_taskStep {a : Action} (hp : Placed τ) (hr : Registry τ) (ht : Tracked τ)
    (h : TaskStep t g τ a g' τ') : Tracked τ' := by
  cases h with
  | submitter h => exact tracked_of_payloadMove hp hr ht (payloadMove_of_submitterStep hp h)
  | worker h => exact tracked_of_payloadMove hp hr ht (payloadMove_of_workerStep hp h)
  | pickUp h =>
      exact tracked_of_payloadMove hp hr ht (payloadMove_of_pickUpStep (g := g) (a := .worker t) h)
  | destroy h =>
      exact tracked_of_payloadMove hp hr ht (payloadMove_of_destroyStep (g := g) (a := .worker t) h)
  | callCancel h => exact tracked_of_callCancelStep ht h
  | canceller h => exact tracked_of_cancellerStep hr ht h
  | sweepNext hentry =>
      exact ht.setEntry (by simp) (by rw [hentry]; rfl) (by simp [EntryPc.isWon, SweepPc.isWon])
        .inl
  | sweep hentry hstep => exact tracked_of_sweepStep ht hentry hstep
  | @finishSweep _ counted hentry =>
      refine ht.setEntry (by simp) (by rw [hentry]; rfl) (by simp [EntryPc.isWon]) ?_
      rw [hentry]
      cases counted
      · exact .inl
      · exact fun _ => .inr rfl

end

end TokioExecutorProofs.BlockingTaskTracking
