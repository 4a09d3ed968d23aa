import TokioExecutorProofs.AddressedTables
import TokioExecutorProofs.IoSweeps

/-!
The markers of the IO service, their references and the registry that is keyed by
their addresses.
-/

namespace TokioExecutorProofs.IoMarkers

open ServiceBasics
open IoServiceState
open IoServiceState.TokioIoExecutorServiceState
open IoTask
open IoService
open IoTaskInvariants
open IoSweeps
open AddressedTables
open AddressedTables.TableView
open ProcessFamilies
open TransitionSystems

/-! ### Who holds a marker -/

/-- The variable of `prepare_spawn`, which becomes the parameter of
`register_abort_handle`. It dies there if the entry is not inserted. -/
@[grind] def SubmitterPc.ownsMarker (entry : EntryPc) : SubmitterPc → Bool
  | .spawn | .registerLock | .register => true
  | .registerUnlock => entry == .gone
  | .lockSubmission | .checkRunning | .getActive | .inc | .rejectUnlock _ | .rejected _
  | .unlockSubmission | .send | .dropFuture | .dropGuard _ | .returned | .abandonFuture
  | .abandonSender | .abandonGuard _ | .abandoned => false

/-- The field `_marker` of the entry. -/
@[grind] def EntryPc.ownsMarker : EntryPc → Bool
  | .registered | .taken _ | .aborting _ => true
  | .absent | .gone => false

/-- The `TokioIoServiceTaskGuard` of the task. -/
def guardAlive (τ : Task) : Bool := isAccepted τ.submitter && stage τ != .destroyed

/-- References to the marker of a task. -/
def arcs (τ : Task) : Nat :=
  (SubmitterPc.ownsMarker τ.entry τ.submitter).toNat + (guardAlive τ).toNat +
    (EntryPc.ownsMarker τ.entry).toNat

def isRegistered (τ : Task) : Bool := τ.entry == .registered

/-! ### The accesses to the registry -/

def submitterOp (t : TaskId) (τ : Task) : TableOp :=
  match τ.submitter with
  | .inc => .allocate t
  | .register => if !τ.markerFinished && τ.worker != .finished then .insert t else .skip
  | .dropGuard .remove | .abandonGuard .remove => .remove t
  | _ => .skip

def workerOp (t : TaskId) (τ : Task) : TableOp :=
  match τ.worker with
  | .dropGuard .remove => .remove t
  | _ => .skip

def closerOp (c : Closer) : TableOp := if c.pc = .take then .takeAll else .skip

def markerOp (s : ServiceState) : Action → TableOp
  | .submitter t _ => (s.tasks[t]?).elim .skip (submitterOp t)
  | .worker t _ => (s.tasks[t]?).elim .skip (workerOp t)
  | .closer k => (s.closers[k]?).elim .skip closerOp
  | .callSpawn | .abandon _ | .pickUp _ | .destroy _ | .callCancel _ | .canceller _ _
  | .callClose _ | .sweepNext _ _ | .sweepAbort _ | .callWait | .waiter _ => .skip

def markerView : TableView ServiceState Action where
  op := markerOp
  allocated s := s.tasks.length
  arcs s t := (s.tasks[t]?).elim 0 arcs
  isRegistered s t := (s.tasks[t]?).any isRegistered
  isRemoved s t := (s.tasks[t]?).any fun τ => (stage τ).isPastRemove

/-! ### One task -/

section

variable {t : TaskId} {g g' : TokioIoExecutorServiceState} {τ τ' : Task} {a : Action}

theorem arcs_pos_of_guard (haccepted : isAccepted τ.submitter = true)
    (hstage : stage τ ≠ .destroyed) : 0 < arcs τ := by
  have halive : guardAlive τ = true := by simp [guardAlive, haccepted, hstage]
  simp only [arcs, halive, Bool.toNat_true]
  omega

theorem arcs_pos_of_entry (h : EntryPc.ownsMarker τ.entry = true) : 0 < arcs τ := by
  simp [arcs, h]

theorem arcs_eq_zero (haccepted : isAccepted τ.submitter = false) (hentry : τ.entry = .absent) :
    arcs τ = 0 := by
  cases hs : τ.submitter <;> simp_all [arcs, guardAlive, isAccepted, SubmitterPc.ownsMarker,
    EntryPc.ownsMarker]

theorem absent_of_not_accepted (hi : TaskInvariant τ) (h : isAccepted τ.submitter = false) :
    τ.entry = .absent := by
  apply hi.absent.mpr
  cases hs : τ.submitter <;> rw [hs] at h <;> first | rfl | cases h

theorem stage_of_isOpen (h : isOpen τ.submitter = true) : stage τ = .whole := by
  unfold stage
  cases hs : τ.submitter <;> rw [hs] at h <;> first | rfl | cases h

/-- What a step of one task does to its marker. -/
abbrev TaskMarkerMove (t : TaskId) (τ τ' : Task) : TableOp → Prop :=
  OwnMove t (arcs τ) (arcs τ') (isRegistered τ) (isRegistered τ')

theorem skip_of_live (hlive : 0 < arcs τ) (hentry : τ'.entry = τ.entry) :
    TaskMarkerMove t τ τ' .skip :=
  .skip (fun hdead => absurd hdead (by omega)) (by rw [isRegistered, hentry, isRegistered])

theorem skip_of_not_accepted (hi : TaskInvariant τ) (h : isAccepted τ.submitter = false)
    (h' : isAccepted τ'.submitter = false) (hentry : τ'.entry = τ.entry) :
    TaskMarkerMove t τ τ' .skip :=
  .skip (fun _ => arcs_eq_zero h' (hentry.trans (absent_of_not_accepted hi h)))
    (by rw [isRegistered, hentry, isRegistered])

theorem markerMove_of_guardStep {b : Actor} {d : GuardPc} {next : Option GuardPc} {τ₁ : Task}
    (h : guardStep b g τ d = some (g', τ₁, next)) (hlive : 0 < arcs τ) (s : SubmitterPc)
    (w : WorkerPc) :
    TaskMarkerMove t τ { τ₁ with submitter := s, worker := w }
      (if d = .remove then .remove t else .skip) := by
  cases d <;> simp only [guardStep] at h
  case remove =>
    simp only [Option.some.injEq, Prod.mk.injEq] at h
    obtain ⟨_, rfl, _⟩ := h
    refine .remove hlive ?_
    by_cases hentry : τ.entry = .registered
    · simp [isRegistered, hentry]
    · simp [isRegistered, hentry]
  case lock =>
    simp only [map_acquire_eq_some, Prod.mk.injEq] at h
    obtain ⟨_, _, rfl, _⟩ := h
    exact skip_of_live hlive rfl
  all_goals
    simp only [Option.some.injEq, Prod.mk.injEq] at h
    obtain ⟨_, rfl, _⟩ := h
    exact skip_of_live hlive rfl

theorem markerMove_of_submitterStep {runtimeClosed : Bool} (hi : TaskInvariant τ)
    (h : submitterStep t runtimeClosed g τ = some (g', τ')) :
    TaskMarkerMove t τ τ' (submitterOp t τ) := by
  have hlive : isAccepted τ.submitter = true → stage τ ≠ .destroyed → 0 < arcs τ :=
    arcs_pos_of_guard
  have hdead := arcs_eq_zero (τ := τ)
  have habsent := absent_of_not_accepted hi
  have hskip : isAccepted τ.submitter = false → isAccepted τ'.submitter = false →
      τ'.entry = τ.entry → TaskMarkerMove t τ τ' .skip := skip_of_not_accepted hi
  unfold stage at hlive
  unfold submitterOp
  cases hs : τ.submitter <;>
    simp only [submitterStep, hs] at h hlive hdead habsent hskip ⊢
  case rejected | returned | abandoned => cases h
  case lockSubmission =>
    simp only [map_acquire_eq_some, Prod.mk.injEq] at h
    obtain ⟨_, _, rfl⟩ := h
    exact hskip rfl rfl rfl
  case checkRunning | getActive =>
    simp only [Option.some.injEq, Prod.mk.injEq] at h
    obtain ⟨_, rfl⟩ := h
    refine hskip rfl ?_ rfl
    dsimp only
    split <;> rfl
  case rejectUnlock =>
    simp only [Option.some.injEq, Prod.mk.injEq] at h
    obtain ⟨_, rfl⟩ := h
    exact hskip rfl rfl rfl
  case inc =>
    simp only [Option.some.injEq, Prod.mk.injEq] at h
    obtain ⟨_, rfl⟩ := h
    exact .allocate (hdead rfl (habsent rfl)) rfl
  case register =>
    have hnew : isRegistered τ = false := by
      rw [isRegistered, hi.absent.mpr (by rw [hs]; rfl)]
      rfl
    simp only [Option.some.injEq, Prod.mk.injEq] at h
    obtain ⟨_, rfl⟩ := h
    split
    · exact .insert (hlive rfl (by simp [submitterPhase, stageOf])) hnew rfl
    · refine .skip (fun hzero => ?_) hnew.symm
      have := hlive rfl (by simp [submitterPhase, stageOf])
      omega
  case spawn | send =>
    split at h
    all_goals
      simp only [Option.some.injEq, Prod.mk.injEq, reduceCtorEq] at h
      try obtain ⟨_, rfl⟩ := h
      try exact skip_of_live (hlive rfl (by simp [submitterPhase, stageOf])) rfl
  case registerLock =>
    simp only [map_acquire_eq_some, Prod.mk.injEq] at h
    obtain ⟨_, _, rfl⟩ := h
    exact skip_of_live (hlive rfl (by simp [submitterPhase, stageOf])) rfl
  case dropGuard d | abandonGuard d =>
    simp only [Option.map_eq_some_iff, Prod.mk.injEq, Prod.exists] at h
    obtain ⟨_, τ₁, next, hstep, rfl, rfl⟩ := h
    have hmove : ∀ s w, TaskMarkerMove t τ { τ₁ with submitter := s, worker := w } _ :=
      markerMove_of_guardStep hstep (hlive rfl (by simp [submitterPhase, stageOf]))
    cases d <;> exact hmove _ τ₁.worker
  all_goals
    simp only [Option.some.injEq, Prod.mk.injEq] at h
    obtain ⟨_, rfl⟩ := h
    exact skip_of_live (hlive rfl (by simp [submitterPhase, stageOf])) rfl

theorem destroyed_iff :
    stage τ = .destroyed ↔
      τ.submitter = .abandoned ∨ τ.submitter = .returned ∧ workerPhase τ.worker = .ended := by
  unfold stage
  cases hs : τ.submitter <;> simp [submitterPhase, stageOf]
  cases workerPhase τ.worker <;> simp [workerStage]

theorem skip_of_stage (hs : τ'.submitter = τ.submitter) (hentry : τ'.entry = τ.entry)
    (hstage : stage τ = .destroyed → stage τ' = .destroyed) : TaskMarkerMove t τ τ' .skip := by
  have hguard : guardAlive τ = false → guardAlive τ' = false := by
    unfold guardAlive
    rw [hs]
    cases isAccepted τ.submitter
    · simp
    · simpa using hstage
  refine .skip (fun hdead => ?_) (by rw [isRegistered, hentry, isRegistered])
  unfold arcs at hdead ⊢
  rw [hs, hentry]
  cases hbefore : guardAlive τ <;> rw [hbefore] at hdead
  · rw [hguard hbefore]
    exact hdead
  · simp at hdead

theorem markerMove_of_workerStep {outcome : PollOutcome} (hi : TaskInvariant τ)
    (h : workerStep t outcome g τ = some (g', τ')) :
    TaskMarkerMove t τ τ' (workerOp t τ) := by
  have hplaced := hi.placed
  have hended : ∀ pc, τ.worker = pc → workerPhase pc ≠ .ended → stage τ = .destroyed →
      τ.submitter = .abandoned := by
    rintro _ rfl hpc hstage
    exact (destroyed_iff.mp hstage).resolve_right fun hreturned => hpc hreturned.2
  unfold workerOp
  cases hw : τ.worker <;> simp only [workerStep, hw] at h hplaced ⊢
  case absent | idle | finished => cases h
  case dropGuard d =>
    simp only [Option.map_eq_some_iff, Prod.mk.injEq, Prod.exists] at h
    obtain ⟨_, τ₁, next, hstep, rfl, rfl⟩ := h
    have hreturned : τ.submitter = .returned :=
      submitterPhase_eq_returned.mp (returned_of_placed hplaced (.inr ⟨d, rfl⟩)).1
    have hstage : stage τ = .droppingGuard d := by rw [stage, hw, hreturned]; rfl
    have hlive : 0 < arcs τ :=
      arcs_pos_of_guard (by rw [hreturned]; rfl) (by rw [hstage]; simp)
    have hmove : ∀ s w, TaskMarkerMove t τ { τ₁ with submitter := s, worker := w } _ :=
      markerMove_of_guardStep hstep hlive
    cases d <;> exact hmove τ₁.submitter _
  case recv | polling =>
    split at h
    all_goals
      simp only [Option.some.injEq, Prod.mk.injEq] at h
      obtain ⟨_, rfl⟩ := h
      refine skip_of_stage rfl rfl fun hstage => ?_
      exact destroyed_iff.mpr (.inl (hended _ hw (by simp [workerPhase]) hstage))
  case complete =>
    simp only [Option.some.injEq, Prod.mk.injEq] at h
    obtain ⟨_, rfl⟩ := h
    refine skip_of_stage rfl rfl fun hstage => ?_
    exact destroyed_iff.mpr
      ((destroyed_iff.mp hstage).imp_right fun hreturned => ⟨hreturned.1, rfl⟩)
  all_goals
    simp only [Option.some.injEq, Prod.mk.injEq] at h
    obtain ⟨_, rfl⟩ := h
    refine skip_of_stage rfl rfl fun hstage => ?_
    exact destroyed_iff.mpr (.inl (hended _ hw (by simp [workerPhase]) hstage))

/-- The access to the registry that a step of one task makes. -/
def taskOp (t : TaskId) (τ : Task) : Action → TableOp
  | .submitter _ _ => submitterOp t τ
  | .worker _ _ => workerOp t τ
  | .callSpawn | .abandon _ | .pickUp _ | .destroy _ | .callCancel _ | .canceller _ _
  | .callClose _ | .closer _ | .sweepNext _ _ | .sweepAbort _ | .callWait | .waiter _ => .skip

theorem markerMove_of_taskStep (hi : TaskInvariant τ) (h : TaskStep t g τ a g' τ') :
    TaskMarkerMove t τ τ' (taskOp t τ a) := by
  have hidle : ∀ received w, τ.worker = .idle received → stage τ = .destroyed →
      stage { τ with worker := w } = .destroyed := by
    intro received w hw hstage
    refine destroyed_iff.mpr (.inl ((destroyed_iff.mp hstage).resolve_right fun hreturned => ?_))
    rw [hw] at hreturned
    cases received <;> cases hreturned.2
  cases h with
  | submitter h => exact markerMove_of_submitterStep hi h
  | worker h => exact markerMove_of_workerStep hi h
  | abandon h =>
      refine skip_of_live (arcs_pos_of_guard (by rw [h]; rfl) ?_) rfl
      simp [stage, h, submitterPhase, stageOf]
  | pickUp h | destroy h => exact skip_of_stage rfl rfl (hidle _ _ h)
  | callCancel | canceller => exact skip_of_stage rfl rfl id
  | sweepNext h =>
      have hlive : 0 < arcs τ := arcs_pos_of_entry (by rw [h]; rfl)
      refine .skip (fun hdead => absurd hdead (by omega)) ?_
      unfold isRegistered sweepCheck
      rw [h]
      dsimp only
      split <;> rfl
  | sweepAbort h =>
      have hlive : 0 < arcs τ := arcs_pos_of_entry (by rw [h]; rfl)
      refine .skip (fun hdead => absurd hdead (by omega)) ?_
      rw [isRegistered, isRegistered, h]
      rfl

theorem arcs_takeEntry {k : Nat} : arcs (takeEntry k τ) = arcs τ := by
  unfold takeEntry
  split
  · rename_i hentry
    have howns : SubmitterPc.ownsMarker (.taken k) τ.submitter =
        SubmitterPc.ownsMarker .registered τ.submitter := by
      cases τ.submitter <;> rfl
    simp only [arcs, guardAlive, hentry, howns]
    rfl
  · rfl

theorem isRegistered_takeEntry {k : Nat} : isRegistered (takeEntry k τ) = false := by
  unfold takeEntry isRegistered
  split
  · rfl
  · simpa using ‹_›

/-- The entry is never inserted again. -/
def Spent (τ : Task) : Prop := τ.entry ≠ .absent ∧ τ.entry ≠ .registered

theorem spent_of_pastRemove (hi : TaskInvariant τ) (h : (stage τ).isPastRemove = true) :
    Spent τ := by
  refine ⟨fun habsent => ?_, fun hregistered => ?_⟩
  · rw [stage_of_isOpen (hi.absent.mp habsent)] at h
    cases h
  · rw [hi.registered hregistered] at h
    cases h

theorem spent_of_taskStep (hi : TaskInvariant τ) (hm : Marked τ) (h : TaskStep t g τ a g' τ')
    (hspent : Spent τ) : Spent τ' := by
  unfold Spent at hspent ⊢
  cases entryMove_of_taskStep hi hm h with
  | keep hentry => rwa [hentry]
  | register hs => exact absurd (hi.absent.mpr (by rw [hs]; rfl)) hspent.1
  | refuse _ _ hentry | remove _ _ hentry | sweepAbort _ hentry => simp [hentry]
  | sweepNext _ hentry =>
      rw [hentry]
      split <;> simp

theorem spent_takeEntry {k : Nat} (hspent : Spent τ) : Spent (takeEntry k τ) := by
  unfold takeEntry
  rw [if_neg hspent.2]
  exact hspent

end

/-! ### The whole service -/

section

variable {taskCapacity : NonZeroUsize} {s s' : ServiceState} {a : Action}

theorem markerOp_of_taskStep {t : TaskId} {g g' : TokioIoExecutorServiceState} {τ τ' : Task}
    (hτ : s.tasks[t]? = some τ) (h : TaskStep t g τ a g' τ') :
    markerOp s a = taskOp t τ a := by
  cases h <;> simp [markerOp, taskOp, hτ]

theorem markerMove_of_tasks {t : TaskId} {g g' : TokioIoExecutorServiceState} {τ τ' : Task}
    (hi : ∀ τ ∈ s.tasks, TaskInvariant τ) (hτ : s.tasks[t]? = some τ)
    (h : TaskStep t g τ a g' τ') (htasks : s'.tasks = s.tasks.set t τ') :
    markerView.MarkerMove s s' (markerOp s a) := by
  rw [markerOp_of_taskStep hτ h]
  refine .own (m := t) ?_ fun m hm => ?_
  · simp only [markerView, htasks, hτ, getElem?_set_self_of_some hτ]
    exact markerMove_of_taskStep (hi τ (mem_of_getElem? hτ)) h
  · simp only [markerView, htasks, getElem?_set_of_ne hm, and_self]

theorem closerOp_of_closerStep {k : Nat} {g g' : TokioIoExecutorServiceState} {c c' : Closer}
    (h : closerStep k g c = some (g', c')) : closerOp c = .skip := by
  unfold closerOp
  split
  · rename_i hpc
    simp [closerStep, hpc] at h
  · rfl

theorem markerMove_of_step (hs : (service taskCapacity).Reachable s)
    (hnext : (service taskCapacity).step a s = some s') :
    markerView.MarkerMove s s' (markerOp s a) := by
  have hi := taskInvariant_of_reachable hs
  cases effect_of_step hnext with
  | newTask =>
      refine .quiet (fun m => ?_) fun m => ?_
      · exact apply_getElem?_append (fun x : Option Task => x.elim 0 arcs) rfl m
      · exact apply_getElem?_append (fun x : Option Task => x.any isRegistered) rfl m
  | newCloser | newWaiter | waiter => exact .quiet (fun _ => rfl) fun _ => rfl
  | task hτ hτstep => exact markerMove_of_tasks hi hτ hτstep rfl
  | @sweepNext k _ t τ _ _ _ hτ hentry =>
      exact markerMove_of_tasks (g := s.shared) hi hτ (.sweepNext hentry) rfl
  | @sweepAbort k _ t τ _ _ hτ hentry =>
      exact markerMove_of_tasks (g := s.shared) hi hτ (.sweepAbort hentry) rfl
  | @take k c hc hpc =>
      have hop : markerOp s (.closer k) = .takeAll := by simp [markerOp, hc, closerOp, hpc]
      rw [hop]
      refine .takeAll (fun m => ?_) fun m => ?_
      · simp only [markerView, List.getElem?_map]
        cases s.tasks[m]? with
        | none => rfl
        | some τ => exact arcs_takeEntry
      · simp only [markerView, List.getElem?_map]
        cases s.tasks[m]? with
        | none => rfl
        | some τ => exact isRegistered_takeEntry
  | @endSweep k c hc hpc =>
      have hop : markerOp s (.closer k) = .skip := by simp [markerOp, hc, closerOp, hpc]
      rw [hop]
      exact .quiet (fun _ => rfl) fun _ => rfl
  | @closer k c _ _ hc hcstep =>
      have hop : markerOp s (.closer k) = .skip := by
        simp [markerOp, hc, closerOp_of_closerStep hcstep]
      rw [hop]
      exact .quiet (fun _ => rfl) fun _ => rfl

theorem spent_of_run {t : TaskId} {τ : Task} (hs : (service taskCapacity).Reachable s)
    (hrun : (service taskCapacity).Run s s') (hτ : s.tasks[t]? = some τ) (hspent : Spent τ) :
    ∃ τ', s'.tasks[t]? = some τ' ∧ Spent τ' :=
  Run.stable (P := fun s => ∃ τ, s.tasks[t]? = some τ ∧ Spent τ) hs hrun ⟨τ, hτ, hspent⟩
    fun _ _ _ hs hP hnext => by
      obtain ⟨τ, hτ, hspent⟩ := hP
      obtain ⟨hi, hm⟩ := marked_of_reachable hs τ (mem_of_getElem? hτ)
      exact exists_task_of_step hnext hτ hspent
        (fun _ hτstep => spent_of_taskStep hi hm hτstep hspent) fun _ => spent_takeEntry hspent

theorem lawful (taskCapacity : NonZeroUsize) : markerView.Lawful (service taskCapacity) where
  start m := rfl
  bounded {s m} _ hlive := by
    by_contra hge
    have hnone : s.tasks[m]? = none := List.getElem?_eq_none (by simpa [markerView] using hge)
    simp [markerView, hnone] at hlive
  owned {s m} _ hregistered := by
    obtain ⟨τ, hτ, hentry⟩ := (Option.any_eq_true _ _).mp hregistered
    simp only [markerView, hτ]
    exact arcs_pos_of_entry (by rw [eq_of_beq hentry]; rfl)
  move hs hnext := markerMove_of_step hs hnext
  removed {s s' m} hs hremoved hrun := by
    obtain ⟨τ, hτ, hpast⟩ := (Option.any_eq_true _ _).mp hremoved
    have hi := taskInvariant_of_reachable hs τ (mem_of_getElem? hτ)
    obtain ⟨τ', hτ', hspent⟩ := spent_of_run hs hrun hτ (spent_of_pastRemove hi hpast)
    simp only [markerView, hτ', Option.any_some]
    exact beq_false_of_ne hspent.2

end

end TokioExecutorProofs.IoMarkers
