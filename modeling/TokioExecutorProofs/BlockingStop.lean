import TokioExecutorProofs.BlockingAdmission
import TokioExecutorProofs.BlockingStopAccounts

/-!
What a stop call of the blocking service reports and what it prevents. Every
unit of `cancelled` stands for one task that never starts, and a task that has
not started when the last stop call returns is never invoked.
-/

namespace TokioExecutorProofs.BlockingStop

open ServiceBasics
open BlockingServiceState
open BlockingServiceState.TokioExecutorServiceState
open ExecutorServiceLifecycleBits
open ExecutorServiceLifecycleBits.ExecutorServiceLifecycle
open BlockingTask
open BlockingService
open BlockingTaskPlacement
open BlockingTaskRegistry
open BlockingTaskTracking
open BlockingTaskInvariants
open BlockingTaskEffects
open BlockingTaskMoves
open BlockingAccounting
open BlockingSweeps
open BlockingLocks
open BlockingTermination
open BlockingAdmission
open BlockingStopAccounts
open LifecycleViews
open MutexTables
open ProcessFamilies
open TransitionSystems

/-! ### The positions of a stop call -/

/-- Only a stop call gets there. -/
def isStopOnly : CloserPc → Bool
  | .snapshotLock | .snapshot | .snapshotUnlock | .takeLock | .take | .takeUnlock
  | .sweep => true
  | .lockSubmission | .store | .unlockSubmission | .notifyCapacity | .wakeCapacity | .readLock
  | .read | .readUnlock _ | .notifyAll | .notifyWaiters | .wakeTermination | .returned => false

/-- A stop call past its snapshot. -/
def hasSnapshot : CloserPc → Bool
  | .lockSubmission | .store | .snapshotLock | .snapshot => false
  | .snapshotUnlock | .unlockSubmission | .takeLock | .take | .takeUnlock | .sweep
  | .notifyCapacity | .wakeCapacity | .readLock | .read | .readUnlock _ | .notifyAll
  | .notifyWaiters | .wakeTermination | .returned => true

/-- A stop call that has emptied the registry. -/
def hasTaken : CloserPc → Bool
  | .lockSubmission | .store | .snapshotLock | .snapshot | .snapshotUnlock
  | .unlockSubmission | .takeLock | .take => false
  | .takeUnlock | .sweep | .notifyCapacity | .wakeCapacity | .readLock | .read | .readUnlock _
  | .notifyAll | .notifyWaiters | .wakeTermination | .returned => true

theorem hasStored_of_hasTaken {pc : CloserPc} (h : hasTaken pc = true) : hasStored pc = true := by
  cases pc <;> first | rfl | cases h

theorem hasStored_of_hasSnapshot {pc : CloserPc} (h : hasSnapshot pc = true) :
    hasStored pc = true := by
  cases pc <;> first | rfl | cases h

theorem report_of_closerStep {k : Nat} {g g' : TokioExecutorServiceState} {c c' : Closer}
    (h : closerStep k g c = some (g', c')) :
    c'.kind = c.kind ∧ c'.cancellationCount = c.cancellationCount ∧
      (isStopOnly c'.pc = true → c.kind = .stop ∨ isStopOnly c.pc = true) ∧
      (hasTaken c'.pc = false → hasTaken c.pc = false) ∧
      (c.kind = .stop → hasTaken c'.pc = hasTaken c.pc) ∧
      (c.kind = .stop → hasSnapshot c'.pc = true →
        hasSnapshot c.pc = true ∧ c'.queuedCount = c.queuedCount ∨
          c.pc = .snapshot ∧ c'.queuedCount = g.taskCounts.queued) := by
  cases hpc : c.pc <;> simp only [closerStep, hpc] at h
  case take | sweep | returned => cases h
  case lockSubmission | snapshotLock | takeLock | readLock =>
    simp only [map_acquire_eq_some, Prod.mk.injEq] at h
    obtain ⟨_, _, rfl⟩ := h
    simp [isStopOnly, hasTaken, hasSnapshot]
  case store | unlockSubmission =>
    cases hkind : c.kind <;> simp only [hkind, Option.some.injEq, Prod.mk.injEq] at h <;>
      obtain ⟨_, rfl⟩ := h <;> simp [isStopOnly, hasTaken, hasSnapshot]
  case readUnlock terminated =>
    simp only [Option.some.injEq, Prod.mk.injEq] at h
    obtain ⟨_, rfl⟩ := h
    cases terminated <;> simp [isStopOnly, hasTaken, hasSnapshot]
  all_goals
    simp only [Option.some.injEq, Prod.mk.injEq] at h
    obtain ⟨_, rfl⟩ := h
    simp [isStopOnly, hasTaken, hasSnapshot]

section

variable {taskCapacity : NonZeroUsize} {s s' : ServiceState} {a : Action} {t : TaskId} {τ : Task}

def closingView (taskCapacity : NonZeroUsize) : ClosingView (service taskCapacity) Closer where
  toLifecycleView := lifecycleView taskCapacity
  closers s := s.closers
  isStop c := c.kind = .stop
  isStopOnly c := isStopOnly c.pc = true
  hasStored c := hasStored c.pc = true
  beginsStop a := a = .callClose .stop
  noCloser := rfl
  closerMove := by
    intro s a s' hs hstep
    cases effect_of_step hstep with
    | newTask | newWaiter | task | waiter => exact .keep
    | newCloser kind =>
        exact .append ⟨Bool.false_ne_true, Bool.false_ne_true, congrArg Action.callClose⟩
    | sweepNext hc | finishSweep hc => exact .set hc ⟨Iff.rfl, .inr, .inl⟩
    | take hc hpc =>
        refine .set hc ⟨Iff.rfl, fun _ => .inr ?_, fun _ => .inl ?_⟩ <;> rw [hpc] <;> rfl
    | endSweep hc hpc =>
        exact .set hc ⟨Iff.rfl, fun honly => absurd honly Bool.false_ne_true,
          fun _ => .inl (by rw [hpc]; rfl)⟩
    | closer hc hcstep =>
        obtain ⟨hkind, _, honly, _⟩ := report_of_closerStep hcstep
        refine .set hc ⟨by rw [hkind], honly, fun hpos => ?_⟩
        rcases hasStored_of_closerStep hcstep with ⟨hsame, _⟩ | ⟨_, _, hclosed⟩
        · exact .inl (hsame ▸ hpos)
        · exact .inr (isNotRunning_iff.mp hclosed)

theorem not_isAdmitted_of_hasStored (h : (service taskCapacity).Reachable s) {c : Closer}
    (hc : c ∈ s.closers) (hstored : hasStored c.pc = true) (hτ : τ ∈ s.tasks) :
    SubmitterPc.isAdmitted τ.submitter = false := by
  by_contra hadmitted
  exact (closingView taskCapacity).not_running_of_hasStored h c hc hstored
    ((admissionGate taskCapacity).running_of_isAdmitted h τ hτ
      (Bool.eq_true_of_not_eq_false hadmitted))

theorem registered_of_entryMove {τ' : Task} (h : EntryMove a τ τ')
    (hentry' : τ'.entry = .registered) : τ.entry = .registered ∨ τ.submitter = .register := by
  cases h with
  | keep hentry => exact .inl (hentry.symm.trans hentry')
  | register hs => exact .inr hs
  | remove _ hentry => exact .inl hentry
  | dropHook _ hnot | drop _ hnot | sweepNext _ hnot | finishSweep _ hnot =>
      rw [hnot] at hentry'
      cases hentry'
  | sweep _ _ hnot =>
      rw [hnot] at hentry'
      cases hentry'

/-- The registry stays empty behind a stop call. -/
theorem not_registered_of_hasTaken (h : (service taskCapacity).Reachable s) :
    ∀ c ∈ s.closers, c.kind = .stop → hasTaken c.pc = true →
      ∀ τ ∈ s.tasks, τ.entry ≠ .registered := by
  refine Reachable.invariant (P := fun s => ∀ c ∈ s.closers, c.kind = .stop →
    hasTaken c.pc = true → ∀ τ ∈ s.tasks, τ.entry ≠ .registered) h (by simp [service]) ?_
  intro s a s' hs ih hnext
  have hi := taskInvariant_of_reachable hs
  have htask : ∀ {t τ a g' τ'}, s.tasks[t]? = some τ → TaskStep t s.shared τ a g' τ' →
      ∀ c ∈ s.closers, c.kind = .stop → hasTaken c.pc = true →
        ∀ τ₁ ∈ s.tasks.set t τ', τ₁.entry ≠ .registered := by
    intro t τ a g' τ' hτ hτstep c hc hkind hpc
    have hmem := mem_of_getElem? hτ
    refine forall_mem_set (ih c hc hkind hpc) fun hentry' => ?_
    rcases registered_of_entryMove (entryMove_of_taskStep (hi τ hmem) hτstep) hentry' with
      hentry | hs'
    · exact ih c hc hkind hpc τ hmem hentry
    · have := not_isAdmitted_of_hasStored hs hc (hasStored_of_hasTaken hpc) hmem
      rw [hs'] at this
      cases this
  cases effect_of_step hnext with
  | newTask =>
      exact fun c hc hkind hpc => forall_mem_append (ih c hc hkind hpc) (by simp)
  | newWaiter | waiter => exact ih
  | newCloser => exact forall_mem_append ih fun _ hpc => by cases hpc
  | task hτ hτstep => exact htask hτ hτstep
  | sweepNext hc _ _ hτ hentry =>
      have hall := htask hτ (.sweepNext hentry)
      have hself := hall _ (mem_of_getElem? hc)
      exact forall_mem_set hall hself
  | finishSweep hc _ hτ hentry =>
      have hall := htask hτ (.finishSweep hentry)
      have hself := hall _ (mem_of_getElem? hc)
      exact forall_mem_set hall hself
  | take =>
      intro c _ _ _ τ' hτ'
      obtain ⟨τ, _, rfl⟩ := List.mem_map.mp hτ'
      unfold takeEntry
      split
      · simp
      · assumption
  | endSweep hc hpc =>
      have hold := ih _ (mem_of_getElem? hc)
      exact forall_mem_set ih fun hkind _ => hold hkind (by rw [hpc]; rfl)
  | closer hc hcstep =>
      obtain ⟨hkind, _, _, _, htaken, _⟩ := report_of_closerStep hcstep
      have hold := ih _ (mem_of_getElem? hc)
      refine forall_mem_set ih fun hstop hpc => ?_
      rw [hkind] at hstop
      exact hold hstop (htaken hstop ▸ hpc)

/-! ### Nothing starts after a stop call -/

/-- A stop call that finds one registered callable and claims it. -/
def stopping (k : Nat) (t : TaskId) : List Action :=
  .callClose .stop :: List.replicate 9 (.closer k) ++ .sweepNext k t ::
    List.replicate 15 (.sweep k) ++ List.replicate 9 (.closer k)

/-- The stop call comes between the registration and the delivery of a callable. -/
theorem execute_stopping : ∃ s τ c, (service oneSlot).execute
    (.callSubmit .callable :: List.replicate 11 (.submitter 0 false) ++ stopping 0 0)
      (service oneSlot).start = some s ∧ s.tasks = [τ] ∧ s.closers = [c] ∧
      (τ.kind = .callable ∧ τ.submitter = .send ∧ τ.everRunning = false ∧
        τ.countedBy = [0]) ∧
      c.kind = .stop ∧ c.pc = .returned ∧ c.cancellationCount = 1 := by
  have hexecute : ((service oneSlot).execute
      (.callSubmit .callable :: List.replicate 11 (.submitter 0 false) ++ stopping 0 0)
        (service oneSlot).start).map (fun s =>
          (s.tasks.map fun τ => (τ.kind, τ.submitter, τ.everRunning, τ.countedBy),
            s.closers.map fun c => (c.kind, c.pc, c.cancellationCount))) =
      some ([(.callable, .send, false, [0])], [(.stop, .returned, 1)]) := rfl
  obtain ⟨s, hs, hview⟩ := Option.map_eq_some_iff.mp hexecute
  rw [Prod.mk.injEq, List.map_eq_singleton_iff, List.map_eq_singleton_iff] at hview
  obtain ⟨⟨τ, htasks, hτ⟩, ⟨c, hclosers, hc⟩⟩ := hview
  simp only [Prod.mk.injEq] at hτ hc
  exact ⟨s, τ, c, hs, htasks, hclosers, hτ, hc⟩

/-- When no stop call is in progress and one has returned, nobody will use the
entry of an accepted task any more. -/
theorem isReleased_of_stopped (h : (service taskCapacity).Reachable s)
    (hreturned : ∃ c ∈ s.closers, c.kind = .stop ∧ c.pc = .returned)
    (hidle : ∀ c ∈ s.closers, c.kind = .stop → c.pc = .returned) (hτ : s.tasks[t]? = some τ)
    (haccepted : isAccepted τ.submitter = true) :
    EntryPc.isReleased τ.entry = true ∧ EntryPc.isWon τ.entry = false := by
  obtain ⟨c, hc, hkind, hpc⟩ := hreturned
  have hmem := mem_of_getElem? hτ
  have hi := taskInvariant_of_reachable h τ hmem
  have hadmitted := not_isAdmitted_of_hasStored h hc (by rw [hpc]; rfl) hmem
  have howned := (sweeping_of_reachable h).owned t τ hτ
  have hdone : ∀ (k : Nat) (c : Closer), s.closers[k]? = some c →
      isStopOnly c.pc = true → False := by
    intro k c₁ hc₁ hpos
    have hmem₁ := mem_of_getElem? hc₁
    have hkind₁ := (closingView taskCapacity).isStop_of_isStopOnly h c₁ hmem₁ hpos
    rw [hidle c₁ hmem₁ hkind₁] at hpos
    cases hpos
  cases hentry : τ.entry with
  | absent =>
      have hopen := hi.registry.absent.mp hentry
      cases hs : τ.submitter with
      | acceptUnlock | registerUnlock => simp [hs, SubmitterPc.isAdmitted] at hadmitted
      | _ => simp [hs, isAccepted, SubmitterPc.isAdmitted, submitterPhase, isOpen] at *
  | registered =>
      exact absurd hentry (not_registered_of_hasTaken h c hc hkind (by rw [hpc]; rfl) τ hmem)
  | taken k =>
      rw [hentry] at howned
      obtain ⟨c₁, hc₁, hpc₁ | hpc₁⟩ := howned
      · exact (hdone k c₁ hc₁ (by rw [hpc₁]; rfl)).elim
      · exact (hdone k c₁ hc₁ (by rw [hpc₁]; rfl)).elim
  | sweeping k p =>
      rw [hentry] at howned
      obtain ⟨c₁, hc₁, hpc₁, _⟩ := howned
      exact (hdone k c₁ hc₁ (by rw [hpc₁]; rfl)).elim
  | removed | gone => exact ⟨rfl, rfl⟩

theorem isPrevented_of_stopped (h : (service taskCapacity).Reachable s)
    (hreturned : ∃ c ∈ s.closers, c.kind = .stop ∧ c.pc = .returned)
    (hidle : ∀ c ∈ s.closers, c.kind = .stop → c.pc = .returned) (hτ : s.tasks[t]? = some τ)
    (haccepted : isAccepted τ.submitter = true) (hnot : τ.everRunning = false) :
    isPrevented τ := by
  have hreleased := (isReleased_of_stopped h hreturned hidle hτ haccepted).1
  have hwhy := (accounted_of_reachable h τ (mem_of_getElem? hτ)).released hreleased
  exact hwhy.resolve_left (by simp [hnot])

theorem nothing_starts_after_stop (h : (service taskCapacity).Reachable s)
    (hreturned : ∃ c ∈ s.closers, c.kind = .stop ∧ c.pc = .returned)
    (hidle : ∀ c ∈ s.closers, c.kind = .stop → c.pc = .returned) (hτ : s.tasks[t]? = some τ)
    (haccepted : isAccepted τ.submitter = true) (hnot : τ.everRunning = false)
    (hrun : (service taskCapacity).Run s s') :
    ∃ τ', s'.tasks[t]? = some τ' ∧ τ'.invocations = 0 :=
  isPrevented_of_run h hrun hτ
    (isPrevented_of_stopped h hreturned hidle hτ haccepted hnot)

theorem nothing_starts_after_stop_undelivered : ∃ s, (service oneSlot).execute
    (.callSubmit .callable :: List.replicate 11 (.submitter 0 false) ++ stopping 0 0)
      (service oneSlot).start = some s ∧
    ∀ s', (service oneSlot).Run s s' → ∃ τ', s'.tasks[0]? = some τ' ∧ τ'.invocations = 0 := by
  obtain ⟨s, τ, c, hs, htasks, hclosers, ⟨_, hsubmitter, hnot, _⟩, hkind, hpc, _⟩ :=
    execute_stopping
  refine ⟨s, hs, fun s' hrun => ?_⟩
  have hτ : s.tasks[0]? = some τ := by rw [htasks]; rfl
  refine nothing_starts_after_stop (Reachable.of_execute hs) ?_ ?_ hτ
    (by rw [hsubmitter]; rfl) hnot hrun
  · exact ⟨c, by simp [hclosers], hkind, hpc⟩
  · simp [hclosers, hpc]

/-! ### The report of a stop call -/

/-- The report of the stop call `k` counts the task. -/
def isCountedBy (k : Nat) (τ : Task) : Bool := decide (k ∈ τ.countedBy)

def EntryPc.isWonBy (k : Nat) : EntryPc → Bool
  | .sweeping k' p => k' == k && SweepPc.isWon p
  | .absent | .registered | .taken _ | .removed | .gone => false

/-- The stop call `k` counts the task, has claimed it, or may still claim it. -/
def isCountable (k : Nat) (τ : Task) : Bool :=
  isAccepted τ.submitter &&
    (τ.taskState == .queued || EntryPc.isWonBy k τ.entry || isCountedBy k τ)

theorem isCountable_iff {k : Nat} :
    isCountable k τ = true ↔ isAccepted τ.submitter = true ∧
      (τ.taskState = .queued ∨ EntryPc.isWonBy k τ.entry = true ∨ k ∈ τ.countedBy) := by
  simp only [isCountable, isCountedBy, Bool.and_eq_true, Bool.or_eq_true, beq_iff_eq,
    decide_eq_true_eq, or_assoc]

theorem isCountable_of_taskStep {g g' : TokioExecutorServiceState} {τ' : Task} {k : Nat}
    (hi : TaskInvariant τ) (h : TaskStep t g τ a g' τ') (hcountable : isCountable k τ' = true) :
    isCountable k τ = true ∨ τ.submitter = .accept := by
  rw [isCountable_iff] at hcountable ⊢
  obtain ⟨haccepted, hwhy⟩ := hcountable
  rcases isUnfinished_of_taskStep hi h with ⟨_, hsame⟩ | ⟨haccept, _⟩ | ⟨_, _, hsame⟩
  case inr.inl => exact .inr haccept
  all_goals
    refine .inl ⟨hsame ▸ haccepted, ?_⟩
    rcases hwhy with hqueued | hwon | hcounted
    · exact .inl ((trackerMove_of_taskStep hi h).queued hqueued)
    · cases entryMove_of_taskStep hi h with
      | keep hentry => exact .inr (.inl (hentry ▸ hwon))
      | register _ _ hentry' | dropHook _ hentry' | remove _ _ hentry' | drop _ hentry'
        | sweepNext _ hentry' | finishSweep _ hentry' =>
          rw [hentry'] at hwon
          simp [EntryPc.isWonBy, SweepPc.isWon] at hwon
      | sweep _ hentry hentry' hmove =>
          rw [hentry'] at hwon
          simp only [EntryPc.isWonBy, Bool.and_eq_true] at hwon
          rw [hentry]
          simp only [EntryPc.isWonBy, Bool.and_eq_true]
          obtain ⟨hk, hwon⟩ := hwon
          generalize τ'.taskState = state, τ'.finishes = finishes at hmove
          cases hmove with
          | win hqueued => exact .inl hqueued
          | finish => exact .inr (.inl ⟨hk, rfl⟩)
          | other hsame => exact .inr (.inl ⟨hk, hsame ▸ hwon⟩)
    · rcases countedBy_of_taskStep h with hkeep | ⟨k₁, counted, -, hentry, rfl⟩
      · exact .inr (.inr (hkeep ▸ hcounted))
      · cases counted with
        | false => exact .inr (.inr hcounted)
        | true =>
            rcases List.mem_append.mp hcounted with hold | hnew
            · exact .inr (.inr hold)
            · refine .inr (.inl ?_)
              rw [hentry, List.mem_singleton.mp hnew]
              simp [EntryPc.isWonBy, SweepPc.isWon]

/-- Before the sweep, and in a shutdown, nothing has been counted. -/
def isEarly (c : Closer) : Prop := hasTaken c.pc = false ∨ c.kind = .shutdown

theorem isCountedBy_takeEntry (k k' : Nat) (τ : Task) :
    isCountedBy k (takeEntry k' τ) = isCountedBy k τ := by
  unfold takeEntry
  split <;> rfl

theorem isCountable_takeEntry {k k' : Nat} (hcountable : isCountable k (takeEntry k' τ) = true) :
    isCountable k τ = true := by
  unfold takeEntry at hcountable
  split at hcountable
  · rw [isCountable_iff] at hcountable ⊢
    exact ⟨hcountable.1, hcountable.2.imp_right (Or.imp_left fun h => by cases h)⟩
  · exact hcountable

theorem isCountedBy_finishSweep (k' : Nat) (ha : Accounted τ) {k : Nat} {counted : Bool}
    (hentry : τ.entry = .sweeping k (.next counted)) :
    isCountedBy k' τ = false ∧
      isCountedBy k' (finishSweep k counted τ) = (counted && decide (k' = k)) := by
  have hnil : τ.countedBy = [] := by
    by_contra hne
    have := (ha.once hne).1
    rw [hentry] at this
    cases this
  cases counted <;> simp [isCountedBy, finishSweep, hnil]

theorem reportMove_of_step (hs : (service taskCapacity).Reachable s)
    (hnext : (service taskCapacity).step a s = some s') :
    ReportMove isCountedBy (·.cancellationCount) isEarly s.tasks s.closers s'.tasks s'.closers := by
  cases effect_of_step hnext with
  | newTask => exact .keep (fun k => countP_append_singleton _) .keep
  | newWaiter | waiter => exact .keep (fun _ => rfl) .keep
  | newCloser => exact .keep (fun _ => rfl) (.append rfl)
  | task hτ hτstep _ hlast =>
      refine .keep (fun k => countP_set_of_eq hτ ?_) .keep
      rcases countedBy_of_taskStep hτstep with hsame | ⟨k₁, counted, ha, hentry, _⟩
      · rw [isCountedBy, hsame, isCountedBy]
      · exact absurd hentry (hlast k₁ counted ha)
  | sweepNext hc _ _ hτ =>
      exact .keep (fun k => countP_set_of_eq hτ rfl) (.set hc ⟨rfl, id⟩)
  | @finishSweep k c t τ counted hc hcurrent hτ hentry =>
      have howned := (sweeping_of_reachable hs).owned t τ hτ
      have ha := accounted_of_reachable hs τ (mem_of_getElem? hτ)
      refine .sweep hc hτ (fun k' => (isCountedBy_finishSweep k' ha hentry).1)
        (fun k' => (isCountedBy_finishSweep k' ha hentry).2) ?_ fun hearly => ?_
      · cases counted <;> rfl
      · rw [hentry] at howned
        obtain ⟨c₁, hc₁, hpc, _⟩ := howned
        obtain rfl := Option.some.inj (hc₁.symm.trans hc)
        have hkind : c₁.kind = .stop := (closingView taskCapacity).isStop_of_isStopOnly hs c₁
          (mem_of_getElem? hc) (congrArg isStopOnly hpc)
        simp [isEarly, Closer.countSweep, hpc, hkind, hasTaken] at hearly
  | take hc hpc =>
      refine .keep (fun k => countP_map_of_eq fun _ _ => isCountedBy_takeEntry k _ _) ?_
      exact .set hc ⟨rfl, fun _ => .inl (by rw [hpc]; rfl)⟩
  | endSweep hc =>
      refine .keep (fun _ => rfl) (.set hc ⟨rfl, fun hearly => ?_⟩)
      exact .inr (hearly.resolve_left (by simp [hasTaken]))
  | closer hc hcstep =>
      obtain ⟨hkind, hsame, _, hback, _⟩ := report_of_closerStep hcstep
      refine .keep (fun _ => rfl) (.set hc ⟨hsame, fun hearly => ?_⟩)
      exact hearly.imp hback hkind.symm.trans

theorem credited (h : (service taskCapacity).Reachable s) :
    Credited isCountedBy (·.cancellationCount) isEarly s.tasks s.closers :=
  credited_of_reachable (·.tasks) (·.closers) h rfl rfl
    fun _ _ _ => reportMove_of_step

theorem isCountedQueued_of_isCountable {k : Nat} {c : Closer}
    (h : (service taskCapacity).Reachable s) (hc : s.closers[k]? = some c)
    (hpc : c.pc = .snapshot) (hτ : τ ∈ s.tasks) (hcountable : isCountable k τ = true) :
    isCountedQueued τ = true := by
  obtain ⟨haccepted, hqueued | hwon | hcounted⟩ := isCountable_iff.mp hcountable
  · obtain ⟨hstarts, hfinishes⟩ :=
      finishes_of_queued (taskInvariant_of_reachable h τ hτ) hqueued
    simp [isCountedQueued, isUnfinished, haccepted, hstarts, hfinishes]
  · -- The stop call has not begun its sweep.
    obtain ⟨t, ht⟩ := List.mem_iff_getElem?.mp hτ
    have howned := (sweeping_of_reachable h).owned t τ ht
    cases hentry : τ.entry with
    | sweeping k₁ p =>
        rw [hentry] at hwon howned
        simp only [EntryPc.isWonBy, Bool.and_eq_true, beq_iff_eq] at hwon
        obtain ⟨c₁, hc₁, hpc₁, _⟩ := howned
        obtain rfl := hwon.1
        obtain rfl := Option.some.inj (hc₁.symm.trans hc)
        rw [hpc] at hpc₁
        cases hpc₁
    | absent | registered | taken | removed | gone => simp [hentry, EntryPc.isWonBy] at hwon
  · have hcredited := credited h
    have hzero := hcredited.credit k
    rw [hc, Option.elim, hcredited.early c (mem_of_getElem? hc) (.inl (by rw [hpc]; rfl)),
      countP_eq_zero_iff] at hzero
    have := hzero τ hτ
    simp [isCountedBy, hcounted] at this

/-- A stop call can count no more tasks than were queued at its snapshot. -/
theorem countable_le_queued (h : (service taskCapacity).Reachable s) :
    ∀ (k : Nat) (c : Closer), s.closers[k]? = some c → c.kind = .stop →
      hasSnapshot c.pc = true → s.tasks.countP (isCountable k) ≤ c.queuedCount := by
  refine Reachable.invariant (P := fun s => ∀ (k : Nat) (c : Closer), s.closers[k]? = some c →
    c.kind = .stop → hasSnapshot c.pc = true →
      s.tasks.countP (isCountable k) ≤ c.queuedCount) h (by simp [service]) ?_
  intro s a s' hs ih hnext
  have htask : ∀ {t τ a g' τ'}, s.tasks[t]? = some τ → TaskStep t s.shared τ a g' τ' →
      ∀ (k : Nat) (c : Closer), s.closers[k]? = some c → c.kind = .stop →
        hasSnapshot c.pc = true → (s.tasks.set t τ').countP (isCountable k) ≤ c.queuedCount := by
    intro t τ a g' τ' hτ hτstep k c hc hkind hpc
    have hmem := mem_of_getElem? hτ
    refine (countP_set_le hτ fun hcountable => ?_).trans (ih k c hc hkind hpc)
    rcases isCountable_of_taskStep (taskInvariant_of_reachable hs τ hmem) hτstep hcountable with
      hold | haccept
    · exact hold
    · have := not_isAdmitted_of_hasStored hs (mem_of_getElem? hc)
        (hasStored_of_hasSnapshot hpc) hmem
      rw [haccept] at this
      cases this
  cases effect_of_step hnext with
  | newTask =>
      intro k c hc hkind hpc
      rw [countP_append_singleton, weight_of_false (by rfl)]
      exact ih k c hc hkind hpc
  | newWaiter | waiter => exact ih
  | newCloser =>
      intro k c hc hkind hpc
      rcases getElem?_append_cases hc with hc | ⟨_, rfl⟩
      · exact ih k c hc hkind hpc
      · cases hpc
  | task hτ hτstep => exact htask hτ hτstep
  | sweepNext hc _ _ hτ hentry =>
      intro k c₁ hc₁ hkind hpc
      rcases getElem?_set_cases hc₁ with ⟨rfl, rfl⟩ | ⟨_, hc₁⟩
      · have hle := htask hτ (.sweepNext hentry) _ _ hc hkind hpc
        exact hle
      · exact htask hτ (.sweepNext hentry) k c₁ hc₁ hkind hpc
  | finishSweep hc _ hτ hentry =>
      intro k c₁ hc₁ hkind hpc
      rcases getElem?_set_cases hc₁ with ⟨rfl, rfl⟩ | ⟨_, hc₁⟩
      · have hle := htask hτ (.finishSweep hentry) _ _ hc hkind hpc
        exact hle
      · exact htask hτ (.finishSweep hentry) k c₁ hc₁ hkind hpc
  | take hc hpc₀ =>
      intro k c₁ hc₁ hkind hpc
      have hmap : ∀ k', (s.tasks.map (takeEntry k')).countP (isCountable k) ≤
          s.tasks.countP (isCountable k) := by
        intro k'
        rw [List.countP_map]
        exact List.countP_mono_left fun _ _ => isCountable_takeEntry
      rcases getElem?_set_cases hc₁ with ⟨rfl, rfl⟩ | ⟨_, hc₁⟩
      · have hle := ih _ _ hc hkind (by rw [hpc₀]; rfl)
        exact (hmap _).trans hle
      · exact (hmap _).trans (ih k c₁ hc₁ hkind hpc)
  | endSweep hc hpc₀ =>
      intro k c₁ hc₁ hkind hpc
      rcases getElem?_set_cases hc₁ with ⟨rfl, rfl⟩ | ⟨_, hc₁⟩
      · have hle := ih _ _ hc hkind (by rw [hpc₀]; rfl)
        exact hle
      · exact ih k c₁ hc₁ hkind hpc
  | closer hc hcstep =>
      intro k c₁ hc₁ hkind hpc
      rcases getElem?_set_cases hc₁ with ⟨rfl, rfl⟩ | ⟨_, hc₁⟩
      · obtain ⟨hsame, _, _, _, _, hreport⟩ := report_of_closerStep hcstep
        rw [hsame] at hkind
        rcases hreport hkind hpc with ⟨hbefore, hqueued⟩ | ⟨hsnapshot, hqueued⟩
        · rw [hqueued]
          exact ih _ _ hc hkind hbefore
        · rw [hqueued, (conserved_of_reachable hs).queued]
          exact List.countP_mono_left fun τ hτ =>
            isCountedQueued_of_isCountable hs hc hsnapshot hτ
      · exact ih k c₁ hc₁ hkind hpc

theorem cancellationCount_le_queuedCount {k : Nat} {c : Closer}
    (h : (service taskCapacity).Reachable s) (hc : s.closers[k]? = some c)
    (hkind : c.kind = .stop) : c.cancellationCount ≤ c.queuedCount := by
  have hcredited := credited h
  have hcredit := hcredited.credit k
  rw [hc, Option.elim] at hcredit
  cases hpc : hasSnapshot c.pc with
  | false =>
      have hearly : hasTaken c.pc = false := by
        cases hc : c.pc <;> first | rfl | (rw [hc] at hpc; cases hpc)
      rw [hcredited.early c (mem_of_getElem? hc) (.inl hearly)]
      exact Nat.zero_le _
  | true =>
      rw [← hcredit]
      refine le_trans (List.countP_mono_left fun τ hτ hcounted => ?_)
        (countable_le_queued h k c hc hkind hpc)
      have hmem : k ∈ τ.countedBy := by simpa [isCountedBy] using hcounted
      have hgone := ((accounted_of_reachable h τ hτ).once (List.ne_nil_of_mem hmem)).1
      have haccepted := isAccepted_of_closed (taskInvariant_of_reachable h τ hτ)
        (by rw [hgone]; simp)
      exact isCountable_iff.mpr ⟨haccepted, .inr (.inr hmem)⟩

/-! ### Admission before a closing call -/

theorem pastLock_of_closerStep {k : Nat} {g g' : TokioExecutorServiceState} {c c' : Closer}
    (h : closerStep k g c = some (g', c')) : c'.pc ≠ .lockSubmission := by
  cases hpc : c.pc <;> simp only [closerStep, hpc] at h
  case take | sweep | returned => cases h
  case lockSubmission | snapshotLock | takeLock | readLock =>
    simp only [map_acquire_eq_some, Prod.mk.injEq] at h
    obtain ⟨_, _, rfl⟩ := h
    simp
  case store | unlockSubmission =>
    cases hkind : c.kind <;> simp only [hkind, Option.some.injEq, Prod.mk.injEq] at h <;>
      obtain ⟨_, rfl⟩ := h <;> simp
  case readUnlock terminated =>
    simp only [Option.some.injEq, Prod.mk.injEq] at h
    obtain ⟨_, rfl⟩ := h
    cases terminated <;> simp
  all_goals
    simp only [Option.some.injEq, Prod.mk.injEq] at h
    obtain ⟨_, rfl⟩ := h
    simp

theorem pastLock_of_step {k : Nat} (hnext : (service taskCapacity).step a s = some s')
    (h : ∃ c, s.closers[k]? = some c ∧ c.pc ≠ .lockSubmission) :
    ∃ c, s'.closers[k]? = some c ∧ c.pc ≠ .lockSubmission := by
  obtain ⟨c, hc, hpc⟩ := h
  have hset : ∀ {k₁ : Nat} {c₁ c' : Closer}, s.closers[k₁]? = some c₁ →
      (c₁.pc ≠ .lockSubmission → c'.pc ≠ .lockSubmission) →
        ∃ c, (s.closers.set k₁ c')[k]? = some c ∧ c.pc ≠ .lockSubmission := by
    intro k₁ c₁ c' hc₁ hpast
    by_cases hk : k = k₁
    · subst k₁
      obtain rfl := Option.some.inj (hc.symm.trans hc₁)
      exact ⟨c', getElem?_set_self_of_some hc, hpast hpc⟩
    · exact ⟨c, (getElem?_set_of_ne hk).trans hc, hpc⟩
  cases effect_of_step hnext with
  | newTask | newWaiter | task | waiter => exact ⟨c, hc, hpc⟩
  | newCloser => exact ⟨c, getElem?_append_of_some hc, hpc⟩
  | sweepNext hc₁ | finishSweep hc₁ => exact hset hc₁ fun hne => hne
  | take hc₁ | endSweep hc₁ => exact hset hc₁ (by simp)
  | closer hc₁ hcstep =>
      exact hset hc₁ fun _ => pastLock_of_closerStep hcstep

/-- From the moment a closing call has the submission lock, nobody is accepted. -/
theorem accepted_before_closing (h : (service taskCapacity).Reachable s)
    (hrun : (service taskCapacity).Run s s') {k : Nat} {c : Closer}
    (hc : s.closers[k]? = some c) (hpc : c.pc ≠ .lockSubmission)
    (hτ : s'.tasks[t]? = some τ) (haccepted : isAccepted τ.submitter = true) :
    ∃ τ₀, s.tasks[t]? = some τ₀ ∧ isAccepted τ₀.submitter = true := by
  have hboth := Run.stable (P := fun s' => (∃ c, s'.closers[k]? = some c ∧
      c.pc ≠ .lockSubmission) ∧ ∀ (t : Nat) (τ : Task), s'.tasks[t]? = some τ →
        isAccepted τ.submitter = true → ∃ τ₀, s.tasks[t]? = some τ₀ ∧
          isAccepted τ₀.submitter = true) h hrun
    ⟨⟨c, hc, hpc⟩, fun _ τ hτ hacc => ⟨τ, hτ, hacc⟩⟩ ?_
  · exact hboth.2 t τ hτ haccepted
  rintro s₁ a s₂ hs₁ ⟨hpast, hbefore⟩ hnext
  refine ⟨pastLock_of_step hnext hpast, ?_⟩
  obtain ⟨c₁, hc₁, hpc₁⟩ := hpast
  intro t τ hτ hacc
  rcases (effect_of_step hnext).tasks with
    ⟨kind, -, htasks⟩ | ⟨t₂, τ₂, τ₃, hτ₂, hτstep, htasks⟩ | ⟨k', -, htasks⟩ | htasks
  · rw [htasks] at hτ
    rcases getElem?_append_cases hτ with hτ | ⟨_, rfl⟩
    · exact hbefore t τ hτ hacc
    · cases hacc
  · rw [htasks] at hτ
    rcases getElem?_set_cases hτ with ⟨rfl, rfl⟩ | ⟨_, hτ⟩
    · have hmem := mem_of_getElem? hτ₂
      have hi := taskInvariant_of_reachable hs₁ τ₂ hmem
      rcases isUnfinished_of_taskStep hi hτstep with ⟨_, hsame⟩ | ⟨haccept, _⟩ | ⟨_, _, hsame⟩
      · exact hbefore _ τ₂ hτ₂ (hsame ▸ hacc)
      · exfalso
        have hadmitted : SubmitterPc.isAdmitted τ₂.submitter = true := by rw [haccept]; rfl
        by_cases hstored : hasStored c₁.pc = true
        · rw [not_isAdmitted_of_hasStored hs₁ (mem_of_getElem? hc₁) hstored hmem] at hadmitted
          cases hadmitted
        · -- Both would hold the submission lock.
          have hstore : c₁.pc = .store := by
            cases hpc : c₁.pc <;> simp_all [hasStored]
          have hcloser : holds s₁ (.closer k) .submission :=
            ⟨c₁, hc₁, .inl (by rw [hstore]; rfl)⟩
          have hsubmitter : holds s₁ (.submitter t) .submission :=
            ⟨t, τ₂, hτ₂, rfl, holds_of_isAdmitted hadmitted⟩
          cases (respects_of_reachable hs₁).unique hsubmitter hcloser
      · exact hbefore _ τ₂ hτ₂ (hsame ▸ hacc)
    · exact hbefore t τ hτ hacc
  · rw [htasks, List.getElem?_map, Option.map_eq_some_iff] at hτ
    obtain ⟨τ₀, hτ₀, rfl⟩ := hτ
    rw [(takeEntry_frame k' τ₀).1] at hacc
    exact hbefore t τ₀ hτ₀ hacc
  · rw [htasks] at hτ
    exact hbefore t τ hτ hacc

/-! ### Every unit of `cancelled` is genuine -/

theorem finishes_of_counted (h : (service taskCapacity).Reachable s) (hτ : τ ∈ s.tasks)
    (hcounted : τ.countedBy ≠ []) : τ.finishes = [false] := by
  have hi := taskInvariant_of_reachable h τ hτ
  have ha := accounted_of_reachable h τ hτ
  have hlength := ha.finished (.inr hcounted)
  rw [(ha.once hcounted).1] at hlength
  obtain ⟨b, hb⟩ := List.length_eq_one_iff.mp hlength
  have hflag := hi.tracked.flags b (by simp [hb])
  rw [(hi.tracked.counted hcounted).1] at hflag
  rw [hb, hflag]

theorem cancelled_is_genuine {k : Nat} {c : Closer} (h : (service taskCapacity).Reachable s)
    (hc : s.closers[k]? = some c) (hkind : c.kind = .stop) :
    c.cancellationCount ≤ c.queuedCount ∧
      c.cancellationCount = s.tasks.countP (fun τ => decide (k ∈ τ.countedBy)) ∧
      ∀ (t : TaskId) (τ : Task), s.tasks[t]? = some τ → k ∈ τ.countedBy →
        τ.countedBy = [k] ∧
        (∀ s₀, (service taskCapacity).Reachable s₀ → (service taskCapacity).Run s₀ s →
          (∃ c₀, s₀.closers[k]? = some c₀ ∧ c₀.pc ≠ .lockSubmission) →
            ∃ τ₀, s₀.tasks[t]? = some τ₀ ∧ isAccepted τ₀.submitter = true) ∧
        τ.taskState = .finished ∧ τ.everRunning = false ∧
        (∀ s', (service taskCapacity).Run s s' →
          ∃ τ', s'.tasks[t]? = some τ' ∧ τ'.invocations = 0) ∧
        τ.finishes = [false] ∧ isCountedQueued τ = false ∧ isCountedRunning τ = false ∧
        (τ.hasSlot = true → τ.status = .cancelled) := by
  refine ⟨cancellationCount_le_queuedCount h hc hkind, ?_, fun t τ hτ hmem => ?_⟩
  · have hcredit := (credited h).credit k
    rw [hc] at hcredit
    exact hcredit.symm
  have hτmem := mem_of_getElem? hτ
  have hi := taskInvariant_of_reachable h τ hτmem
  have hcounted : τ.countedBy ≠ [] := List.ne_nil_of_mem hmem
  obtain ⟨hgone, hlength⟩ := (accounted_of_reachable h τ hτmem).once hcounted
  obtain ⟨hever, hstate⟩ := hi.tracked.counted hcounted
  have hfinishes := finishes_of_counted h hτmem hcounted
  refine ⟨?_, ?_, hstate, hever, ?_, hfinishes, ?_, ?_, ?_⟩
  · obtain ⟨k₁, hk₁⟩ := List.length_eq_one_iff.mp hlength
    rw [hk₁, List.mem_singleton] at hmem
    rw [hk₁, hmem]
  · rintro s₀ hs₀ hrun ⟨c₀, hc₀, hpc₀⟩
    exact accepted_before_closing hs₀ hrun hc₀ hpc₀ hτ
      (isAccepted_of_closed hi (by rw [hgone]; simp))
  · exact fun s' hrun => isPrevented_of_run h hrun hτ (.inl ⟨hever, .inl hstate⟩)
  · simp [isCountedQueued, isUnfinished, hfinishes]
  · simp [isCountedRunning, isUnfinished, hfinishes]
  · exact fun hslot => hi.held.counted hslot (.inr hcounted)

theorem cancelled_is_genuine_undelivered : ∃ s τ c, (service oneSlot).execute
    (.callSubmit .callable :: List.replicate 11 (.submitter 0 false) ++ stopping 0 0)
      (service oneSlot).start = some s ∧ s.tasks[0]? = some τ ∧ s.closers[0]? = some c ∧
      c.cancellationCount = 1 ∧ c.cancellationCount ≤ c.queuedCount ∧ τ.finishes = [false] ∧
      τ.status = .cancelled := by
  obtain ⟨s, τ, c, hs, htasks, hclosers, ⟨hkind, _, _, hcounted⟩, hstop, _, hcount⟩ :=
    execute_stopping
  have hτ : s.tasks[0]? = some τ := by rw [htasks]; rfl
  have hc : s.closers[0]? = some c := by rw [hclosers]; rfl
  obtain ⟨hle, _, hgenuine⟩ := cancelled_is_genuine (Reachable.of_execute hs) hc hstop
  obtain ⟨_, _, _, _, _, hfinishes, _, _, hstatus⟩ :=
    hgenuine 0 τ hτ (by rw [hcounted]; exact List.mem_singleton.mpr rfl)
  exact ⟨s, τ, c, hs, hτ, hc, hcount, hle, hfinishes,
    hstatus (by rw [Task.hasSlot, hkind]; rfl)⟩

end

end TokioExecutorProofs.BlockingStop
