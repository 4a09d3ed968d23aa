import TokioExecutorProofs.AddressedTables
import TokioExecutorProofs.BlockingTaskMoves

/-!
The markers of the blocking service, their references and the registry that is
keyed by their addresses.

A tracked handle holds the tracker of its task, and so the marker, until the
user drops it. The handles that have been dropped are therefore part of the
state here.
-/

namespace TokioExecutorProofs.BlockingMarkers

open ServiceBasics
open BlockingServiceState
open BlockingServiceState.TokioExecutorServiceState
open BlockingTask
open BlockingService
open BlockingTaskPlacement
open BlockingTaskRegistry
open BlockingTaskInvariants
open BlockingTaskMoves
open AddressedTables
open AddressedTables.TableView
open ProcessFamilies
open TransitionSystems

/-! ### The tracked handles -/

structure HandledState where
  service : ServiceState
  /-- The `TokioBlockingTaskHandle` of the task is dropped, with every
  cancellation handle made from it. -/
  handleDropped : TaskId → Bool := fun _ => false

inductive HandledAction where
  | service (a : Action)
  | dropHandle (t : TaskId)
  deriving DecidableEq, Repr

@[grind] def CancelPc.isOver : CancelPc → Bool
  | .returned _ => true
  | .cancel | .wakeCancelled | .remove _ | .finishQueued | .finish _ | .abort => false

/-- A handle can be dropped when no `cancel()` call borrows it. -/
def ownsIdleHandle (τ : Task) : Bool :=
  τ.kind == .trackedCallable && τ.submitter == .returned && τ.cancels.all CancelPc.isOver

/-- A `cancel()` call needs a handle. -/
def HandledState.permits (x : HandledState) : Action → Bool
  | .callCancel t => !x.handleDropped t
  | .callSubmit _ | .submitter _ _ | .pickUp _ | .destroy _ | .worker _ _ | .canceller _ _
  | .callClose _ | .closer _ | .sweepNext _ _ | .sweep _ | .callWait _ | .waiter _ => true

def handledStep : HandledAction → HandledState → Option HandledState
  | .service a, x =>
      if x.permits a then (step a x.service).map fun s => { x with service := s } else none
  | .dropHandle t, x =>
      if (x.service.tasks[t]?).any ownsIdleHandle then
        some { x with handleDropped := Function.update x.handleDropped t true }
      else none

def handledService (taskCapacity : NonZeroUsize) :
    TransitionSystem HandledState HandledAction where
  start := { service := (service taskCapacity).start }
  step := handledStep

/-! ### Who holds a marker -/

/-- The submission has made the marker and the guard. -/
@[grind] def SubmitterPc.hasMarker : SubmitterPc → Bool
  | .lockSubmission | .checkRunning | .acceptLock | .accept | .acceptUnlock _
  | .rejectUnlock _ | .rejected _ => false
  | .shareSlot | .spawn | .registerLock | .register | .registerUnlock _ | .dropHook
  | .wakeDropped | .unlockSubmission | .send | .dropClosure _ | .dropGuard _ | .returned => true

/-- The variable of the submission, which becomes the parameter of
`register_abort_handle`. It dies there after the hook if the entry is not
inserted. -/
@[grind] def SubmitterPc.ownsMarker : SubmitterPc → Bool
  | .shareSlot | .spawn | .registerLock | .register | .registerUnlock false | .dropHook
  | .wakeDropped => true
  | .lockSubmission | .checkRunning | .acceptLock | .accept | .acceptUnlock _
  | .rejectUnlock _ | .rejected _ | .registerUnlock true | .unlockSubmission | .send
  | .dropClosure _ | .dropGuard _ | .returned => false

/-- The field `_marker` of the entry. The loop of `abort_tracked_tasks` drops it
at the end of its body. -/
@[grind] def EntryPc.ownsMarker : EntryPc → Bool
  | .registered | .taken _ | .sweeping _ _ | .removed => true
  | .absent | .gone => false

/-- The `TokioServiceTaskTracker` of the task, which has one reference to the
marker. The guard, the hook and the cancellation callback of a tracked handle
share it. -/
def trackerAlive (handleDropped : Bool) (τ : Task) : Bool :=
  (SubmitterPc.hasMarker τ.submitter && guardStage τ != .dropped) || τ.submitter.ownsHook ||
    τ.entry.ownsHook ||
    (SubmitterPc.hasMarker τ.submitter && τ.kind == .trackedCallable && !handleDropped)

/-- References to the marker of a task. -/
def arcs (handleDropped : Bool) (τ : Task) : Nat :=
  (SubmitterPc.ownsMarker τ.submitter).toNat + (trackerAlive handleDropped τ).toNat +
    (EntryPc.ownsMarker τ.entry).toNat

def isRegistered (τ : Task) : Bool := τ.entry == .registered

/-- `remove_abort_handle` has run for the guard's drop or for a cancellation. -/
def isRemoved (τ : Task) : Bool :=
  GuardStage.isPastRemove (guardStage τ) || τ.cancels.any CancelPc.isPastRemove

/-! ### The accesses to the registry -/

def guardOp (t : TaskId) (d : GuardPc) : TableOp :=
  if d = .remove .remove then .remove t else .skip

def submitterOp (t : TaskId) (τ : Task) : TableOp :=
  match τ.submitter with
  | .acceptUnlock true => .allocate t
  | .register => if !τ.markerFinished && τ.worker != .finished then .insert t else .skip
  | .dropGuard d => guardOp t d
  | _ => .skip

def workerOp (t : TaskId) (τ : Task) : TableOp :=
  match τ.worker with
  | .ranGuard d | .refusedGuard d | .destroyGuard d => guardOp t d
  | _ => .skip

def cancellerOp (t : TaskId) (j : Nat) (τ : Task) : TableOp :=
  if τ.cancels[j]? = some (.remove .remove) then .remove t else .skip

/-- The access that a step of one task makes. -/
def taskOp (t : TaskId) (τ : Task) : Action → TableOp
  | .submitter _ _ => submitterOp t τ
  | .worker _ _ => workerOp t τ
  | .canceller _ j => cancellerOp t j τ
  | .callSubmit _ | .pickUp _ | .destroy _ | .callCancel _ | .callClose _ | .closer _
  | .sweepNext _ _ | .sweep _ | .callWait _ | .waiter _ => .skip

def closerOp (c : Closer) : TableOp := if c.pc = .take then .takeAll else .skip

def serviceOp (s : ServiceState) : Action → TableOp
  | .submitter t r => (s.tasks[t]?).elim .skip fun τ => taskOp t τ (.submitter t r)
  | .worker t o => (s.tasks[t]?).elim .skip fun τ => taskOp t τ (.worker t o)
  | .canceller t j => (s.tasks[t]?).elim .skip fun τ => taskOp t τ (.canceller t j)
  | .closer k => (s.closers[k]?).elim .skip closerOp
  | .callSubmit _ | .pickUp _ | .destroy _ | .callCancel _ | .callClose _ | .sweepNext _ _
  | .sweep _ | .callWait _ | .waiter _ => .skip

def markerOp (x : HandledState) : HandledAction → TableOp
  | .service a => serviceOp x.service a
  | .dropHandle _ => .skip

def markerView : TableView HandledState HandledAction where
  op := markerOp
  allocated x := x.service.tasks.length
  arcs x t := (x.service.tasks[t]?).elim 0 (arcs (x.handleDropped t))
  isRegistered x t := (x.service.tasks[t]?).any isRegistered
  isRemoved x t := (x.service.tasks[t]?).any isRemoved

/-! ### One task -/

section

variable {t : TaskId} {g g' : TokioExecutorServiceState} {τ τ' : Task} {a : Action}
  {dropped : Bool}

theorem arcs_pos_of_tracker (h : trackerAlive dropped τ = true) : 0 < arcs dropped τ := by
  simp only [arcs, h, Bool.toNat_true]
  omega

theorem arcs_pos_of_entry (h : EntryPc.ownsMarker τ.entry = true) : 0 < arcs dropped τ := by
  simp [arcs, h]

theorem arcs_pos_of_guard {d : GuardPc} (hmarker : SubmitterPc.hasMarker τ.submitter = true)
    (hd : guardStage τ = .dropping d) : 0 < arcs dropped τ :=
  arcs_pos_of_tracker (by simp [trackerAlive, hmarker, hd])

/-- Nobody has a reference to the marker any more. -/
structure Gone (dropped : Bool) (τ : Task) : Prop where
  guard : guardStage τ = .dropped
  entry : τ.entry = .gone
  handle : τ.kind = .trackedCallable → dropped = true

theorem returned_of_dropped (h : guardStage τ = .dropped) : τ.submitter = .returned := by
  unfold guardStage at h
  rw [← submitterPhase_eq_returned]
  cases hs : submitterPhase τ.submitter <;> simp_all [guardStageOf]

theorem absent_of_no_marker (hi : TaskInvariant τ)
    (h : SubmitterPc.hasMarker τ.submitter = false) : τ.entry = .absent := by
  apply hi.registry.absent.mpr
  cases hs : τ.submitter <;> rw [hs] at h <;> first | rfl | cases h

theorem arcs_eq_zero_iff (hi : TaskInvariant τ) :
    arcs dropped τ = 0 ↔ SubmitterPc.hasMarker τ.submitter = false ∨ Gone dropped τ := by
  constructor
  · intro hzero
    by_cases hmarker : SubmitterPc.hasMarker τ.submitter = true
    · have htracker : trackerAlive dropped τ = false := by
        by_contra htracker
        have := arcs_pos_of_tracker (by simpa using htracker)
        omega
      have howns : EntryPc.ownsMarker τ.entry = false := by
        by_contra howns
        have : 0 < arcs dropped τ := arcs_pos_of_entry (by simpa using howns)
        omega
      simp only [trackerAlive, hmarker, Bool.or_eq_false_iff, Bool.true_and, bne_eq_false_iff_eq,
        Bool.and_eq_false_iff, Bool.not_eq_false', beq_eq_false_iff_ne] at htracker
      obtain ⟨⟨⟨hguard, _⟩, _⟩, hhandle⟩ := htracker
      have hpresent := entry_ne_absent_of_returned hi.registry (returned_of_dropped hguard)
      refine .inr ⟨hguard, ?_, hhandle.resolve_left ∘ not_not_intro⟩
      cases hentry : τ.entry <;> simp_all [EntryPc.ownsMarker]
    · exact .inl (by simpa using hmarker)
  · rintro (hmarker | hgone)
    · have hentry := absent_of_no_marker hi hmarker
      cases hs : τ.submitter <;> simp_all [arcs, trackerAlive, SubmitterPc.hasMarker,
        SubmitterPc.ownsMarker, SubmitterPc.ownsHook, EntryPc.ownsMarker, EntryPc.ownsHook]
    · have hs := returned_of_dropped hgone.guard
      have hhandle := hgone.handle
      simp only [arcs, trackerAlive, hs, hgone.guard, hgone.entry]
      cases hkind : τ.kind <;> cases dropped <;> simp_all [SubmitterPc.hasMarker,
        SubmitterPc.ownsMarker, SubmitterPc.ownsHook, EntryPc.ownsMarker, EntryPc.ownsHook]

/-! ### What a step does to the registration -/

theorem isRegistered_of_removeStep {b : Actor} {r : RemovePc} {next : Option RemovePc}
    (h : removeAbortHandleStep b g τ r = some (g', τ', next))
    (hdrop : RemovePc.dropsEntry r = true → τ.entry = .removed) :
    isRegistered τ' = if r = .remove then false else isRegistered τ := by
  unfold isRegistered
  cases r <;> simp only [removeAbortHandleStep] at h
  case remove =>
    split at h
    all_goals
      rename_i hentry
      simp only [Option.some.injEq, Prod.mk.injEq] at h
      obtain ⟨_, rfl, _⟩ := h
    · rfl
    · exact beq_false_of_ne hentry
  case dropEntry =>
    simp only [Option.some.injEq, Prod.mk.injEq] at h
    obtain ⟨_, rfl, _⟩ := h
    rw [hdrop rfl]
    rfl
  case lock =>
    simp only [map_acquire_eq_some, Prod.mk.injEq] at h
    obtain ⟨_, _, rfl, _⟩ := h
    rfl
  all_goals
    simp only [Option.some.injEq, Prod.mk.injEq] at h
    obtain ⟨_, rfl, _⟩ := h
    rfl

theorem registers_guardOp {d : GuardPc} {before : Bool} :
    (guardOp t d).registers before = if d = .remove .remove then false else before := by
  unfold guardOp
  split <;> rfl

theorem isRegistered_of_guardStep {b : Actor} {d : GuardPc} {next : Option GuardPc}
    (hi : TaskInvariant τ) (hd : guardStage τ = .dropping d)
    (h : guardStep b g τ d = some (g', τ', next)) :
    isRegistered τ' = (guardOp t d).registers (isRegistered τ) := by
  have hentry := guardStep_entry h
  rw [registers_guardOp]
  cases d with
  | remove r =>
      simp only [guardStep, Option.map_eq_some_iff, Prod.mk.injEq, Prod.exists] at h
      obtain ⟨_, _, next', hstep, _, rfl, _⟩ := h
      rw [isRegistered_of_removeStep hstep fun hdrop => ?_]
      · simp only [GuardPc.remove.injEq]
      · exact hi.registry.removed_of_dropsEntry (by rwa [hd])
  | swap | finish =>
      rw [if_neg (by simp)]
      have hsame : τ'.entry = τ.entry := by
        rcases hentry with ⟨_, _, hd, _⟩ | ⟨_, _, hsame, _⟩
        · cases hd
        · exact hsame
      rw [isRegistered, hsame, isRegistered]

theorem isRegistered_of_cancelStep {b : Actor} {j : Nat} {c c' : CancelPc}
    (hi : TaskInvariant τ) (hc : τ.cancels[j]? = some c)
    (h : cancelStep b g τ c = some (g', τ', c')) :
    isRegistered τ' = (cancellerOp t j τ).registers (isRegistered τ) := by
  have hentry := cancelStep_entry h
  have hop : (cancellerOp t j τ).registers (isRegistered τ) =
      if c = .remove .remove then false else isRegistered τ := by
    rw [cancellerOp, hc]
    by_cases hremove : c = .remove .remove
    · rw [if_pos (by rw [hremove]), if_pos hremove]
      rfl
    · rw [if_neg (by simpa using hremove), if_neg hremove]
      rfl
  rw [hop]
  cases c with
  | remove r =>
      simp only [cancelStep, Option.map_eq_some_iff, Prod.mk.injEq, Prod.exists] at h
      obtain ⟨_, _, next', hstep, _, rfl, _⟩ := h
      rw [isRegistered_of_removeStep hstep fun hdrop => ?_]
      · simp only [CancelPc.remove.injEq]
      · exact hi.registry.removed_of_cancel hc hdrop
  | cancel | wakeCancelled | finishQueued | finish | abort | returned =>
      rw [if_neg (by simp)]
      have hsame : τ'.entry = τ.entry := by
        rcases hentry with ⟨_, _, hd, _⟩ | ⟨_, _, _, hsame⟩
        · cases hd
        · exact hsame
      rw [isRegistered, hsame, isRegistered]

theorem isRegistered_of_submitterStep {runtimeClosed : Bool} (hi : TaskInvariant τ)
    (h : submitterStep t runtimeClosed g τ = some (g', τ')) :
    isRegistered τ' = (submitterOp t τ).registers (isRegistered τ) := by
  unfold submitterOp
  cases hs : τ.submitter <;> simp only [submitterStep, hs] at h ⊢
  case rejected | returned => cases h
  case dropGuard d =>
    simp only [Option.map_eq_some_iff, Prod.mk.injEq, Prod.exists] at h
    obtain ⟨_, τ₁, next, hstep, _, rfl⟩ := h
    show isRegistered τ₁ = _
    exact isRegistered_of_guardStep hi (by rw [guardStage, hs]; rfl) hstep
  case dropClosure c =>
    rcases hc : closureStep τ c with ⟨τ₁, next⟩
    obtain ⟨_, _, rfl⟩ := closureStep_frame hc
    simp only [Option.some.injEq, Prod.mk.injEq, hc] at h
    obtain ⟨_, rfl⟩ := h
    rfl
  case dropHook =>
    have habsent := hi.registry.absent.mpr (by rw [hs]; rfl)
    simp only [Option.some.injEq, Prod.mk.injEq] at h
    obtain ⟨_, rfl⟩ := h
    rw [isRegistered, isRegistered, habsent]
    rfl
  case lockSubmission | acceptLock | registerLock =>
    simp only [map_acquire_eq_some, Prod.mk.injEq] at h
    obtain ⟨_, _, rfl⟩ := h
    rfl
  case acceptUnlock accepted =>
    simp only [Option.some.injEq, Prod.mk.injEq] at h
    obtain ⟨_, rfl⟩ := h
    cases accepted <;> rfl
  case register =>
    split at h
    all_goals
      rename_i hcheck
      simp only [Option.some.injEq, Prod.mk.injEq] at h
      obtain ⟨_, rfl⟩ := h
    · rw [if_pos hcheck]
      rfl
    · rw [if_neg hcheck]
      rfl
  case accept | spawn | send =>
    split at h
    all_goals
      simp only [Option.some.injEq, Prod.mk.injEq, reduceCtorEq] at h
      try obtain ⟨_, rfl⟩ := h
      try rfl
  all_goals
    simp only [Option.some.injEq, Prod.mk.injEq] at h
    obtain ⟨_, rfl⟩ := h
    rfl

theorem isRegistered_of_workerStep {outcome : RunOutcome} (hi : TaskInvariant τ)
    (h : workerStep t outcome g τ = some (g', τ')) :
    isRegistered τ' = (workerOp t τ).registers (isRegistered τ) := by
  have hplaced := hi.placed
  unfold Placed at hplaced
  unfold workerOp
  cases hw : τ.worker <;> simp only [workerStep, hw] at h hplaced ⊢
  case absent | queued | finished => cases h
  case ranGuard d | refusedGuard d | destroyGuard d =>
    simp only [Option.map_eq_some_iff, Prod.mk.injEq, Prod.exists] at h
    obtain ⟨_, τ₁, next, hstep, _, rfl⟩ := h
    show isRegistered τ₁ = _
    refine isRegistered_of_guardStep hi ?_ hstep
    rw [guardStage, hw, submitter_of_placed hi.placed (by rw [hw]; rfl)]
    rfl
  case ranClosure c | refusedClosure c | destroyClosure c =>
    rcases hc : closureStep τ c with ⟨τ₁, next⟩
    obtain ⟨_, _, rfl⟩ := closureStep_frame hc
    simp only [Option.some.injEq, Prod.mk.injEq, hc] at h
    obtain ⟨_, rfl⟩ := h
    rfl
  case startLock =>
    simp only [map_acquire_eq_some, Prod.mk.injEq] at h
    obtain ⟨_, _, rfl⟩ := h
    rfl
  case recv | markStarted | takeSlot | startSlot =>
    split at h
    all_goals
      simp only [Option.some.injEq, Prod.mk.injEq, reduceCtorEq] at h
      try obtain ⟨_, rfl⟩ := h
      try rfl
  all_goals
    simp only [Option.some.injEq, Prod.mk.injEq] at h
    obtain ⟨_, rfl⟩ := h
    rfl

theorem isRegistered_of_taskStep (hi : TaskInvariant τ) (h : TaskStep t g τ a g' τ') :
    isRegistered τ' = (taskOp t τ a).registers (isRegistered τ) := by
  cases h with
  | submitter h => exact isRegistered_of_submitterStep hi h
  | worker h => exact isRegistered_of_workerStep hi h
  | pickUp h =>
      unfold pickUpStep at h
      split at h <;> cases h
      rfl
  | destroy h =>
      unfold destroyStep at h
      split at h <;> cases h
      rfl
  | callCancel h =>
      unfold callCancelStep at h
      split at h <;> cases h
      rfl
  | canceller h =>
      obtain ⟨c, τ₁, c', hc, hstep, rfl⟩ := cancellerStep_cases h
      show isRegistered τ₁ = _
      exact isRegistered_of_cancelStep hi hc hstep
  | sweepNext hentry | sweep hentry | finishSweep hentry =>
      rw [isRegistered, isRegistered, hentry]
      rfl

/-! ### References outlive every access -/

/-- Where an access to the registry comes from. -/
inductive AccessSite (t : TaskId) (τ : Task) : TableOp → Prop
  | skip : AccessSite t τ .skip
  | allocate (hs : τ.submitter = .acceptUnlock true) : AccessSite t τ (.allocate t)
  | insert (hs : τ.submitter = .register) : AccessSite t τ (.insert t)
  | guard (hd : guardStage τ = .dropping (.remove .remove)) : AccessSite t τ (.remove t)
  | cancel {j : Nat} (hc : τ.cancels[j]? = some (.remove .remove)) : AccessSite t τ (.remove t)

theorem accessSite_guardOp {d : GuardPc} (hd : guardStage τ = .dropping d) :
    AccessSite t τ (guardOp t d) := by
  unfold guardOp
  split
  · rename_i hremove
    exact .guard (hremove ▸ hd)
  · exact .skip

theorem accessSite_submitterOp : AccessSite t τ (submitterOp t τ) := by
  unfold submitterOp
  split
  · exact .allocate ‹_›
  · split
    · exact .insert ‹_›
    · exact .skip
  · rename_i d hs
    exact accessSite_guardOp (by rw [guardStage, hs]; rfl)
  · exact .skip

theorem accessSite_workerOp (hp : Placed τ) : AccessSite t τ (workerOp t τ) := by
  unfold workerOp
  split
  case h_4 => exact .skip
  all_goals
    rename_i d hw
    refine accessSite_guardOp ?_
    rw [guardStage, hw, submitter_of_placed hp (by rw [hw]; rfl)]
    rfl

theorem accessSite_of_taskOp (hp : Placed τ) : AccessSite t τ (taskOp t τ a) := by
  cases a <;> simp only [taskOp]
  case submitter => exact accessSite_submitterOp
  case worker => exact accessSite_workerOp hp
  case canceller =>
    unfold cancellerOp
    split
    · exact .cancel ‹_›
    · exact .skip
  all_goals exact .skip

theorem hasMarker_of_dropping {d : GuardPc} (hd : guardStage τ = .dropping d) :
    SubmitterPc.hasMarker τ.submitter = true := by
  unfold guardStage at hd
  cases hs : τ.submitter <;> rw [hs] at hd <;> first | rfl | cases hd

/-- Whoever accesses the registry for a marker has a reference to it. -/
theorem arcs_pos_of_access {op : TableOp} (hi : TaskInvariant τ)
    (hkept : dropped = true → ∀ c ∈ τ.cancels, CancelPc.isOver c = true)
    (h : AccessSite t τ op) (hop : op = .insert t ∨ op = .remove t) : 0 < arcs dropped τ := by
  cases h with
  | skip | allocate => simp at hop
  | insert hs =>
      simp only [arcs, hs, SubmitterPc.ownsMarker, Bool.toNat_true]
      omega
  | guard hd => exact arcs_pos_of_guard (hasMarker_of_dropping hd) hd
  | cancel hc =>
      have hmem := mem_of_getElem? hc
      obtain ⟨hs, hkind⟩ := hi.registry.cancels (List.ne_nil_of_mem hmem)
      have hheld : dropped = false := by
        by_contra hdropped
        have hover := hkept (by simpa using hdropped) _ hmem
        cases hover
      exact arcs_pos_of_tracker
        (by simp [trackerAlive, hs, hkind, hheld, SubmitterPc.hasMarker])

theorem hasMarker_of_submitterStep {runtimeClosed : Bool}
    (h : submitterStep t runtimeClosed g τ = some (g', τ'))
    (hmarker : SubmitterPc.hasMarker τ.submitter = false)
    (hop : submitterOp t τ ≠ .allocate t) : SubmitterPc.hasMarker τ'.submitter = false := by
  unfold submitterOp at hop
  cases hs : τ.submitter <;> simp only [submitterStep, hs] at h hmarker hop
  case rejected => cases h
  case lockSubmission | acceptLock =>
    simp only [map_acquire_eq_some, Prod.mk.injEq] at h
    obtain ⟨_, _, rfl⟩ := h
    rfl
  case accept =>
    split at h
    all_goals
      simp only [Option.some.injEq, Prod.mk.injEq] at h
      obtain ⟨_, rfl⟩ := h
      rfl
  case acceptUnlock accepted =>
    cases accepted with
    | true => exact absurd rfl hop
    | false =>
        simp only [Option.some.injEq, Prod.mk.injEq] at h
        obtain ⟨_, rfl⟩ := h
        rfl
  case checkRunning =>
    simp only [Option.some.injEq, Prod.mk.injEq] at h
    obtain ⟨_, rfl⟩ := h
    dsimp only
    split <;> rfl
  case rejectUnlock =>
    simp only [Option.some.injEq, Prod.mk.injEq] at h
    obtain ⟨_, rfl⟩ := h
    rfl
  all_goals cases hmarker

theorem dropped_of_payloadMove {b : Actor} (h : PayloadMove b g τ g' τ')
    (hstage : guardStage τ = .dropped) : guardStage τ' = .dropped := by
  have hreturned := returned_of_dropped hstage
  cases h with
  | carry _ _ _ _ _ _ hafter =>
      rcases hafter with hsame | ⟨halive, _⟩
      · exact hsame.trans hstage
      · rw [halive] at hstage
        cases hstage
  | accept hs | register hs | dropHook hs =>
      rw [hs] at hreturned
      cases hreturned
  | markStarted hw | markedAlready hw | start hw =>
      rw [guardStage, hreturned, hw] at hstage
      cases hstage
  | guard hd =>
      rw [hd] at hstage
      cases hstage

theorem dropped_of_taskStep (hi : TaskInvariant τ) (h : TaskStep t g τ a g' τ')
    (hstage : guardStage τ = .dropped) : guardStage τ' = .dropped := by
  rcases payload_of_taskStep hi.placed h with ⟨_, hmove⟩ | ⟨hs, hw⟩
  · exact dropped_of_payloadMove hmove hstage
  · rw [guardStage, hs, hw]
    exact hstage

theorem dead_of_taskStep (hi : TaskInvariant τ) (h : TaskStep t g τ a g' τ')
    (hop : taskOp t τ a ≠ .allocate t) (hzero : arcs dropped τ = 0) : arcs dropped τ' = 0 := by
  rw [arcs_eq_zero_iff (taskInvariant_of_taskStep hi h)]
  rcases (arcs_eq_zero_iff hi).mp hzero with hmarker | hgone
  · left
    rcases (taskStep_frame h).2.1 with hs | ⟨runtimeClosed, rfl, hstep⟩
    · rw [hs, hmarker]
    · exact hasMarker_of_submitterStep hstep hmarker hop
  · have hkind := (taskStep_frame h).1
    exact .inr ⟨dropped_of_taskStep hi h hgone.guard,
      (entryMove_of_taskStep hi h).of_gone hi hgone.entry, fun htracked =>
        hgone.handle (hkind ▸ htracked)⟩

theorem markerMove_of_taskStep (hi : TaskInvariant τ) (h : TaskStep t g τ a g' τ')
    (hkept : dropped = true → ∀ c ∈ τ.cancels, CancelPc.isOver c = true) :
    OwnMove t (arcs dropped τ) (arcs dropped τ') (isRegistered τ) (isRegistered τ')
      (taskOp t τ a) := by
  have hregistered := isRegistered_of_taskStep hi h
  have hdead : taskOp t τ a ≠ .allocate t → arcs dropped τ = 0 → arcs dropped τ' = 0 :=
    dead_of_taskStep hi h
  have hsite := accessSite_of_taskOp (t := t) (a := a) hi.placed
  generalize taskOp t τ a = op at hregistered hdead hsite
  have hlive := arcs_pos_of_access hi hkept hsite
  cases hsite with
  | skip => exact .skip (hdead (by simp)) hregistered
  | allocate hs =>
      exact .allocate ((arcs_eq_zero_iff hi).mpr (.inl (by rw [hs]; rfl))) hregistered
  | insert hs =>
      refine .insert (hlive (.inl rfl)) ?_ hregistered
      rw [isRegistered, hi.registry.absent.mpr (by rw [hs]; rfl)]
      rfl
  | guard | cancel => exact .remove (hlive (.inr rfl)) hregistered

theorem arcs_takeEntry {k : Nat} : arcs dropped (takeEntry k τ) = arcs dropped τ := by
  unfold takeEntry
  split
  · rename_i hentry
    simp only [arcs, trackerAlive, hentry]
    rfl
  · rfl

theorem isRegistered_takeEntry {k : Nat} : isRegistered (takeEntry k τ) = false := by
  unfold takeEntry
  split
  · rfl
  · exact beq_false_of_ne ‹_›

/-! ### An entry is inserted at most once -/

/-- The entry is never inserted again. -/
def Spent (τ : Task) : Prop := τ.entry ≠ .absent ∧ τ.entry ≠ .registered

theorem spent_of_isRemoved (hi : TaskInvariant τ) (h : isRemoved τ = true) : Spent τ := by
  rcases (Bool.or_eq_true _ _).mp h with hguard | hcancel
  · refine ⟨fun habsent => ?_, fun hregistered => ?_⟩
    · have hopen := hi.registry.absent.mp habsent
      rw [isOpen_of_guardStage fun halive => by rw [halive] at hguard; cases hguard] at hopen
      cases hopen
    · rw [hi.registry.guard hregistered] at hguard
      cases hguard
  · obtain ⟨c, hc, hpast⟩ := List.any_eq_true.mp hcancel
    refine ⟨?_, fun hregistered => ?_⟩
    · have hreturned := (hi.registry.cancels (List.ne_nil_of_mem hc)).1
      exact entry_ne_absent_of_returned hi.registry hreturned
    · rw [hi.registry.canceller hregistered c hc] at hpast
      cases hpast

theorem spent_of_taskStep (hi : TaskInvariant τ) (h : TaskStep t g τ a g' τ')
    (hspent : Spent τ) : Spent τ' := by
  unfold Spent at hspent ⊢
  cases entryMove_of_taskStep hi h with
  | keep hentry => rwa [hentry]
  | register hs => exact absurd (hi.registry.absent.mpr (by rw [hs]; rfl)) hspent.1
  | dropHook _ hentry' | remove _ _ hentry' | drop _ hentry' | sweepNext _ hentry'
  | sweep _ _ hentry' | finishSweep _ hentry' => simp [hentry']

theorem spent_takeEntry {k : Nat} (hspent : Spent τ) : Spent (takeEntry k τ) := by
  unfold takeEntry
  rw [if_neg hspent.2]
  exact hspent

/-! ### Handles that have been dropped -/

/-- No `cancel()` call is running, and the handle has been returned. -/
def IdleHandle (τ : Task) : Prop :=
  τ.submitter = .returned ∧ ∀ c ∈ τ.cancels, CancelPc.isOver c = true

theorem cancels_of_taskStep (h : TaskStep t g τ a g' τ') (hnew : a ≠ .callCancel t)
    (hover : ∀ c ∈ τ.cancels, CancelPc.isOver c = true) : τ'.cancels = τ.cancels := by
  cases h with
  | submitter h =>
      obtain ⟨_, _, _, _, _, _, _, _, _, rfl, _⟩ := submitterStep_frame h
      rfl
  | worker h =>
      obtain ⟨_, _, _, _, _, _, _, _, _, _, _, _, rfl, _⟩ := workerStep_frame h
      rfl
  | pickUp h =>
      unfold pickUpStep at h
      split at h <;> cases h
      rfl
  | destroy h =>
      unfold destroyStep at h
      split at h <;> cases h
      rfl
  | callCancel => exact absurd rfl hnew
  | canceller h =>
      obtain ⟨c, _, _, hc, hstep, _⟩ := cancellerStep_cases h
      have hpc := hover c (mem_of_getElem? hc)
      cases c with
      | returned => cases hstep
      | cancel | wakeCancelled | remove | finishQueued | finish | abort => cases hpc
  | sweep _ h =>
      obtain ⟨_, _, _, _, _, rfl⟩ := sweepStep_frame h
      rfl
  | sweepNext | finishSweep => rfl

theorem idleHandle_of_taskStep (h : TaskStep t g τ a g' τ') (hnew : a ≠ .callCancel t)
    (hidle : IdleHandle τ) : IdleHandle τ' := by
  obtain ⟨hreturned, hover⟩ := hidle
  refine ⟨?_, by rwa [cancels_of_taskStep h hnew hover]⟩
  rcases (taskStep_frame h).2.1 with hs | ⟨_, _, hstep⟩
  · rw [hs, hreturned]
  · simp [submitterStep, hreturned] at hstep

theorem idleHandle_takeEntry {k : Nat} (hidle : IdleHandle τ) : IdleHandle (takeEntry k τ) := by
  unfold takeEntry
  split <;> exact hidle

end

/-! ### The whole service -/

section

variable {taskCapacity : NonZeroUsize} {s s' : ServiceState} {x x' : HandledState}

theorem handledStep_cases {b : HandledAction} (h : handledStep b x = some x') :
    (∃ a s', b = .service a ∧ x.permits a = true ∧ step a x.service = some s' ∧
      x' = { x with service := s' }) ∨
    (∃ t τ, b = .dropHandle t ∧ x.service.tasks[t]? = some τ ∧ ownsIdleHandle τ = true ∧
      x' = { x with handleDropped := Function.update x.handleDropped t true }) := by
  cases b with
  | service a =>
      simp only [handledStep] at h
      split at h
      · obtain ⟨s', hstep, rfl⟩ := Option.map_eq_some_iff.mp h
        exact .inl ⟨a, s', rfl, ‹_›, hstep, rfl⟩
      · cases h
  | dropHandle t =>
      simp only [handledStep] at h
      split at h
      · obtain ⟨τ, hτ, howns⟩ := (Option.any_eq_true _ _).mp ‹_›
        exact .inr ⟨t, τ, rfl, hτ, howns, (Option.some.inj h).symm⟩
      · cases h

theorem run_of_handled (h : (handledService taskCapacity).Run x x') :
    (service taskCapacity).Run x.service x'.service := by
  refine RunUnder.preserves (P := fun x' => (service taskCapacity).Run x.service x'.service) h
    (runUnder_refl _) fun x₁ b x₂ hrun _ hnext => ?_
  rcases handledStep_cases hnext with ⟨a, s', _, _, hstep, rfl⟩ | ⟨_, _, _, _, _, rfl⟩
  · exact RunUnder.tail hrun trivial hstep
  · exact hrun

/-- A user who keeps all handles loses no behaviour of the service. -/
theorem handled_of_run (h : (service taskCapacity).Run s s') :
    (handledService taskCapacity).Run { service := s } { service := s' } := by
  refine RunUnder.preserves
    (P := fun s' => (handledService taskCapacity).Run { service := s } { service := s' }) h
    (runUnder_refl _) fun s₁ a s₂ hrun _ hnext => ?_
  refine RunUnder.tail (a := .service a) hrun trivial ?_
  have hpermits : HandledState.permits { service := s₁ } a = true := by cases a <;> rfl
  show handledStep (.service a) { service := s₁ } = _
  simp only [handledStep, hpermits, if_true]
  exact Option.map_eq_some_iff.mpr ⟨s₂, hnext, rfl⟩

theorem idleHandle_of_reachable (h : (handledService taskCapacity).Reachable x) :
    ∀ t, x.handleDropped t = true → ∃ τ, x.service.tasks[t]? = some τ ∧ IdleHandle τ := by
  refine Reachable.invariant (P := fun x => ∀ t, x.handleDropped t = true →
    ∃ τ, x.service.tasks[t]? = some τ ∧ IdleHandle τ) h (by simp [handledService]) ?_
  intro x b x' _ ih hnext t hdropped
  rcases handledStep_cases hnext with ⟨a, s', _, hpermits, hstep, rfl⟩ | ⟨t₀, τ, _, hτ, howns, rfl⟩
  · obtain ⟨τ, hτ, hidle⟩ := ih t hdropped
    have hnew : a ≠ .callCancel t := by
      rintro rfl
      change x.handleDropped t = true at hdropped
      simp [HandledState.permits, hdropped] at hpermits
    exact exists_task_of_step hstep hτ hidle
      (fun _ hτstep => idleHandle_of_taskStep hτstep hnew hidle)
      fun _ => idleHandle_takeEntry hidle
  · by_cases ht : t = t₀
    · subst t₀
      simp only [ownsIdleHandle, Bool.and_eq_true, beq_iff_eq, List.all_eq_true] at howns
      exact ⟨τ, hτ, howns.1.2, howns.2⟩
    · change Function.update x.handleDropped t₀ true t = true at hdropped
      rw [Function.update_of_ne ht] at hdropped
      exact ih t hdropped

/-! ### Every step moves at most one marker -/

theorem serviceOp_of_taskStep {a : Action} {t : TaskId} {g g' : TokioExecutorServiceState}
    {τ τ' : Task} (hτ : s.tasks[t]? = some τ) (h : TaskStep t g τ a g' τ') :
    serviceOp s a = taskOp t τ a := by
  cases h <;> simp [serviceOp, taskOp, hτ]

theorem markerMove_of_tasks {a : Action} {t : TaskId} {g g' : TokioExecutorServiceState}
    {τ τ' : Task} (hx : (handledService taskCapacity).Reachable x)
    (hτ : x.service.tasks[t]? = some τ) (h : TaskStep t g τ a g' τ')
    (htasks : s'.tasks = x.service.tasks.set t τ') :
    markerView.MarkerMove x { x with service := s' } (serviceOp x.service a) := by
  have hi := taskInvariant_of_reachable (run_of_handled hx) τ (mem_of_getElem? hτ)
  have hkept : x.handleDropped t = true → ∀ c ∈ τ.cancels, CancelPc.isOver c = true := by
    intro hdropped
    obtain ⟨τ₁, hτ₁, hidle⟩ := idleHandle_of_reachable hx t hdropped
    obtain rfl := Option.some.inj (hτ.symm.trans hτ₁)
    exact hidle.2
  rw [serviceOp_of_taskStep hτ h]
  refine .own (m := t) ?_ fun m hm => ?_
  · simp only [markerView, htasks, hτ, getElem?_set_self_of_some hτ]
    exact markerMove_of_taskStep hi h hkept
  · simp only [markerView, htasks, getElem?_set_of_ne hm, and_self]

theorem closerOp_of_closerStep {k : Nat} {g g' : TokioExecutorServiceState} {c c' : Closer}
    (h : closerStep k g c = some (g', c')) : closerOp c = .skip := by
  unfold closerOp
  split
  · rename_i hpc
    simp [closerStep, hpc] at h
  · rfl

theorem markerMove_of_serviceStep {a : Action} (hx : (handledService taskCapacity).Reachable x)
    (hnext : step a x.service = some s') :
    markerView.MarkerMove x { x with service := s' } (serviceOp x.service a) := by
  cases effect_of_step hnext with
  | newTask kind =>
      refine .quiet (fun m => ?_) fun m => ?_
      · have hnew : arcs (x.handleDropped m) { kind := kind } = 0 := by
          simp [arcs, trackerAlive, SubmitterPc.hasMarker, SubmitterPc.ownsMarker,
            SubmitterPc.ownsHook, EntryPc.ownsMarker, EntryPc.ownsHook]
        exact apply_getElem?_append
          (fun y : Option Task => y.elim 0 (arcs (x.handleDropped m))) hnew m
      · exact apply_getElem?_append (y := { kind := kind })
          (fun y : Option Task => y.any isRegistered) rfl m
  | newCloser | newWaiter | waiter => exact .quiet (fun _ => rfl) fun _ => rfl
  | task hτ hτstep => exact markerMove_of_tasks hx hτ hτstep rfl
  | @sweepNext k _ t τ _ _ _ hτ hentry =>
      exact markerMove_of_tasks (g := x.service.shared) hx hτ (.sweepNext hentry) rfl
  | @finishSweep k _ t τ _ _ _ hτ hentry =>
      exact markerMove_of_tasks (g := x.service.shared) hx hτ (.finishSweep hentry) rfl
  | @take k c hc hpc =>
      have hop : serviceOp x.service (.closer k) = .takeAll := by
        simp [serviceOp, hc, closerOp, hpc]
      rw [hop]
      refine .takeAll (fun m => ?_) fun m => ?_
      · simp only [markerView, List.getElem?_map]
        cases x.service.tasks[m]? with
        | none => rfl
        | some τ => exact arcs_takeEntry
      · simp only [markerView, List.getElem?_map]
        cases x.service.tasks[m]? with
        | none => rfl
        | some τ => exact isRegistered_takeEntry
  | @endSweep k c hc hpc =>
      have hop : serviceOp x.service (.closer k) = .skip := by
        simp [serviceOp, hc, closerOp, hpc]
      rw [hop]
      exact .quiet (fun _ => rfl) fun _ => rfl
  | @closer k c _ _ hc hcstep =>
      have hop : serviceOp x.service (.closer k) = .skip := by
        simp [serviceOp, hc, closerOp_of_closerStep hcstep]
      rw [hop]
      exact .quiet (fun _ => rfl) fun _ => rfl

theorem arcs_of_dropHandle {τ : Task} {dropped : Bool} (h : arcs dropped τ = 0) :
    arcs true τ = 0 := by
  have hle : arcs true τ ≤ arcs dropped τ := by
    unfold arcs trackerAlive
    cases dropped
    · cases hother : (SubmitterPc.hasMarker τ.submitter && guardStage τ != .dropped ||
          τ.submitter.ownsHook || τ.entry.ownsHook)
      · simp
      · simp
    · exact le_rfl
  omega

theorem markerMove_of_step {b : HandledAction} (hx : (handledService taskCapacity).Reachable x)
    (hnext : (handledService taskCapacity).step b x = some x') :
    markerView.MarkerMove x x' (markerOp x b) := by
  rcases handledStep_cases hnext with ⟨a, s', rfl, _, hstep, rfl⟩ | ⟨t, τ, rfl, hτ, _, rfl⟩
  · exact markerMove_of_serviceStep hx hstep
  · refine .own (m := t) ?_ fun m hm => ?_
    · simp only [markerView, hτ, Function.update_self]
      exact .skip arcs_of_dropHandle rfl
    · simp only [markerView, Function.update_of_ne hm, and_self]

theorem spent_of_run {t : TaskId} {τ : Task} (hs : (service taskCapacity).Reachable s)
    (hrun : (service taskCapacity).Run s s') (hτ : s.tasks[t]? = some τ) (hspent : Spent τ) :
    ∃ τ', s'.tasks[t]? = some τ' ∧ Spent τ' :=
  Run.stable (P := fun s => ∃ τ, s.tasks[t]? = some τ ∧ Spent τ) hs hrun ⟨τ, hτ, hspent⟩
    fun _ _ _ hs hP hnext => by
      obtain ⟨τ, hτ, hspent⟩ := hP
      have hi := taskInvariant_of_reachable hs τ (mem_of_getElem? hτ)
      exact exists_task_of_step hnext hτ hspent
        (fun _ hτstep => spent_of_taskStep hi hτstep hspent) fun _ => spent_takeEntry hspent

theorem lawful (taskCapacity : NonZeroUsize) :
    markerView.Lawful (handledService taskCapacity) where
  start m := rfl
  bounded {x m} _ hlive := by
    by_contra hge
    have hnone : x.service.tasks[m]? = none :=
      List.getElem?_eq_none (by simpa [markerView] using hge)
    simp [markerView, hnone] at hlive
  owned {x m} _ hregistered := by
    obtain ⟨τ, hτ, hentry⟩ := (Option.any_eq_true _ _).mp hregistered
    simp only [markerView, hτ]
    exact arcs_pos_of_entry (by rw [eq_of_beq hentry]; rfl)
  move hx hnext := markerMove_of_step hx hnext
  removed {x x' m} hx hremoved hrun := by
    obtain ⟨τ, hτ, hpast⟩ := (Option.any_eq_true _ _).mp hremoved
    have hs := run_of_handled hx
    have hi := taskInvariant_of_reachable hs τ (mem_of_getElem? hτ)
    obtain ⟨τ', hτ', hspent⟩ :=
      spent_of_run hs (run_of_handled hrun) hτ (spent_of_isRemoved hi hpast)
    simp only [markerView, hτ', Option.any_some]
    exact beq_false_of_ne hspent.2

end

end TokioExecutorProofs.BlockingMarkers
