import TokioExecutorProofs.BlockingLocks

/-!
Code of the user and the locks of the blocking service. Every waker and every
user task runs under no lock of its thread, except for the result waker that
`remove_abort_handle` runs when the entry it removes has the last reference to
an unresolved task slot.
-/

namespace TokioExecutorProofs.BlockingCallbacks

open ServiceBasics
open BlockingServiceState
open BlockingServiceState.TokioExecutorServiceState
open BlockingTask
open BlockingService
open BlockingTaskPlacement
open BlockingTaskRegistry
open BlockingTaskSlots
open BlockingTaskInvariants
open BlockingSweeps
open BlockingActivities
open BlockingLocks
open MutexTables
open CallStacks
open ProcessFamilies
open TransitionSystems

/-! ### Positions that wait for a lock -/

def FinishPc.waitsFor : FinishPc → Lock → Bool
  | .lock, .taskCounts => true
  | _, _ => false

def RemovePc.waitsFor : RemovePc → Lock → Bool
  | .lock, .abortHandles => true
  | _, _ => false

def GuardPc.waitsFor : GuardPc → Lock → Bool
  | .remove r, l => RemovePc.waitsFor r l
  | .swap, _ => false
  | .finish _ f, l => FinishPc.waitsFor f l

def SubmitterPc.waitsFor : SubmitterPc → Lock → Bool
  | .lockSubmission, .submission | .acceptLock, .taskCounts
  | .registerLock, .abortHandles => true
  | .dropGuard d, l => GuardPc.waitsFor d l
  | _, _ => false

def WorkerPc.waitsFor : WorkerPc → Lock → Bool
  | .startLock, .taskCounts => true
  | .ranGuard d, l | .refusedGuard d, l | .destroyGuard d, l => GuardPc.waitsFor d l
  | _, _ => false

def CancelPc.waitsFor : CancelPc → Lock → Bool
  | .remove r, l => RemovePc.waitsFor r l
  | .finish f, l => FinishPc.waitsFor f l
  | _, _ => false

def SweepPc.waitsFor : SweepPc → Lock → Bool
  | .finish f, l => FinishPc.waitsFor f l
  | _, _ => false

def CloserPc.waitsFor : CloserPc → Lock → Bool
  | .lockSubmission, .submission | .snapshotLock, .taskCounts | .takeLock, .abortHandles
  | .readLock, .taskCounts => true
  | _, _ => false

def Waiter.waitsFor : Waiter → Lock → Bool
  | .lock, .taskCounts | .asyncReadCounts _ _, .taskCounts => true
  | _, _ => false

def Position.waitsFor : Position → Lock → Bool
  | .submitter pc, l => SubmitterPc.waitsFor pc l
  | .worker pc, l => WorkerPc.waitsFor pc l
  | .canceller pc, l => CancelPc.waitsFor pc l
  | .closer pc sweep, l => CloserPc.waitsFor pc l || sweep.any (SweepPc.waitsFor · l)
  | .waiter pc, l => Waiter.waitsFor pc l

/-! ### Positions that run a waker under a lock -/

def RemovePc.wakesLocked : RemovePc → Bool
  | .wakeDropped => true
  | .finishMarker | .lock | .remove | .dropEntry | .unlock => false

def GuardPc.wakesLocked : GuardPc → Bool
  | .remove r => RemovePc.wakesLocked r
  | .swap | .finish _ _ => false

def SubmitterPc.wakesLocked : SubmitterPc → Bool
  | .wakeDropped => true
  | .dropGuard d => GuardPc.wakesLocked d
  | _ => false

def WorkerPc.wakesLocked : WorkerPc → Bool
  | .ranGuard d | .refusedGuard d | .destroyGuard d => GuardPc.wakesLocked d
  | _ => false

def CancelPc.wakesLocked : CancelPc → Bool
  | .remove r => RemovePc.wakesLocked r
  | _ => false

def Position.wakesLocked : Position → Bool
  | .submitter pc => SubmitterPc.wakesLocked pc
  | .worker pc => WorkerPc.wakesLocked pc
  | .canceller pc => CancelPc.wakesLocked pc
  | .closer _ _ | .waiter _ => false

/-- A closing call works on an entry in its loop only. -/
def Position.WellFormed : Position → Prop
  | .closer pc sweep => pc ≠ .sweep → sweep = none
  | .submitter _ | .worker _ | .canceller _ | .waiter _ => True

section

variable {p : Position} {l : Lock}

theorem not_holds_of_finish {f : FinishPc}
    (h : f.runsUserCode = true ∨ FinishPc.waitsFor f l = true) : f.holds l = false := by
  cases f <;> first | rfl | simp [FinishPc.runsUserCode, FinishPc.waitsFor] at h

theorem not_holds_of_remove {r : RemovePc}
    (h : RemovePc.runsUserCode r = true ∨ RemovePc.waitsFor r l = true)
    (hquiet : RemovePc.wakesLocked r = false) : RemovePc.holds r l = false := by
  cases r with
  | wakeDropped => cases hquiet
  | _ => first | rfl | simp [RemovePc.runsUserCode, RemovePc.waitsFor] at h

theorem not_holds_of_guard {d : GuardPc}
    (h : GuardPc.runsUserCode d = true ∨ GuardPc.waitsFor d l = true)
    (hquiet : GuardPc.wakesLocked d = false) : GuardPc.holds d l = false := by
  cases d with
  | remove r => exact not_holds_of_remove h hquiet
  | swap => rfl
  | finish started f => exact not_holds_of_finish h

theorem not_holds_of_sweep {q : SweepPc}
    (h : SweepPc.runsUserCode q = true ∨ SweepPc.waitsFor q l = true) :
    SweepPc.holds q l = false := by
  cases q with
  | finish f => exact not_holds_of_finish h
  | _ => rfl

/-- Where code of the user runs, and where an activity waits for a lock, it does
not hold the lock, but for the positions that run a waker under a lock. -/
theorem not_holds_of_position (hwell : Position.WellFormed p)
    (h : Position.runsUserCode p = true ∨ Position.waitsFor p l = true)
    (hquiet : Position.wakesLocked p = false) : Position.holds p l = false := by
  cases p with
  | submitter pc =>
      cases pc with
      | dropGuard d => exact not_holds_of_guard h hquiet
      | wakeDropped => cases hquiet
      | _ => cases l <;> first | rfl | (rcases h with h | h <;> cases h)
  | worker pc =>
      cases pc with
      | ranGuard d | refusedGuard d | destroyGuard d => exact not_holds_of_guard h hquiet
      | _ => cases l <;> first | rfl | (rcases h with h | h <;> cases h)
  | canceller pc =>
      cases pc with
      | remove r => exact not_holds_of_remove h hquiet
      | finish f => exact not_holds_of_finish h
      | _ => rfl
  | closer pc sweep =>
      by_cases hpc : pc = .sweep
      · subst pc
        cases sweep with
        | none => rfl
        | some q => exact not_holds_of_sweep h
      · obtain rfl := hwell hpc
        cases pc <;> cases l <;> first | rfl | (rcases h with h | h <;> cases h)
  | waiter x => cases x <;> cases l <;> first | rfl | (rcases h with h | h <;> cases h)

end

/-! ### An activity that waits for a lock waits for nothing else -/

section

variable {g : TokioExecutorServiceState} {τ : Task} {l : Lock} {b : Actor}

theorem acquire_of_free (hfree : g.locks l = none) : ∃ g', g.acquire l b = some g' :=
  ⟨_, acquire_eq_some.mpr ⟨hfree, rfl⟩⟩

theorem finishTaskStep_of_free (started : Bool) {f : FinishPc}
    (hf : FinishPc.waitsFor f l = true) (hfree : g.locks l = none) :
    ∃ r, finishTaskStep b started g f = some r := by
  cases f <;> cases l <;> cases hf
  obtain ⟨g', hg⟩ := acquire_of_free (b := b) hfree
  exact ⟨_, by rw [finishTaskStep, hg]; rfl⟩

theorem removeAbortHandleStep_of_free {r : RemovePc} (hr : RemovePc.waitsFor r l = true)
    (hfree : g.locks l = none) : ∃ y, removeAbortHandleStep b g τ r = some y := by
  cases r <;> cases l <;> cases hr
  obtain ⟨g', hg⟩ := acquire_of_free (b := b) hfree
  exact ⟨_, by rw [removeAbortHandleStep, hg]; rfl⟩

theorem guardStep_of_free {d : GuardPc} (hd : GuardPc.waitsFor d l = true)
    (hfree : g.locks l = none) : ∃ y, guardStep b g τ d = some y := by
  cases d with
  | remove r =>
      obtain ⟨y, hy⟩ := removeAbortHandleStep_of_free (b := b) (τ := τ) hd hfree
      exact ⟨_, by rw [guardStep, hy]; rfl⟩
  | swap => cases hd
  | finish started f =>
      obtain ⟨y, hy⟩ := finishTaskStep_of_free (b := b) started hd hfree
      exact ⟨_, by rw [guardStep, hy]; rfl⟩

theorem cancelStep_of_free {c : CancelPc} (hc : CancelPc.waitsFor c l = true)
    (hfree : g.locks l = none) : ∃ y, cancelStep b g τ c = some y := by
  cases c with
  | remove r =>
      obtain ⟨y, hy⟩ := removeAbortHandleStep_of_free (b := b) (τ := τ) hc hfree
      exact ⟨_, by rw [cancelStep, hy]; rfl⟩
  | finish f =>
      obtain ⟨y, hy⟩ := finishTaskStep_of_free (b := b) false hc hfree
      exact ⟨_, by rw [cancelStep, hy]; rfl⟩
  | _ => cases hc

theorem submitterStep_of_free {t : TaskId} (hs : SubmitterPc.waitsFor τ.submitter l = true)
    (hfree : g.locks l = none) : ∃ y, submitterStep t false g τ = some y := by
  obtain ⟨g', hg⟩ := acquire_of_free (b := .submitter t) hfree
  cases hpc : τ.submitter with
  | dropGuard d =>
      rw [hpc] at hs
      obtain ⟨y, hy⟩ := guardStep_of_free (b := .submitter t) (τ := τ) hs hfree
      simp [submitterStep, hpc, hy]
  | _ =>
      rw [hpc] at hs
      cases l <;> simp_all [SubmitterPc.waitsFor, submitterStep]

theorem workerStep_of_free {t : TaskId} (outcome : RunOutcome)
    (hw : WorkerPc.waitsFor τ.worker l = true) (hfree : g.locks l = none) :
    ∃ y, workerStep t outcome g τ = some y := by
  obtain ⟨g', hg⟩ := acquire_of_free (b := .worker t) hfree
  cases hpc : τ.worker with
  | ranGuard d | refusedGuard d | destroyGuard d =>
      rw [hpc] at hw
      obtain ⟨y, hy⟩ := guardStep_of_free (b := .worker t) (τ := τ) hw hfree
      simp [workerStep, hpc, hy]
  | _ =>
      rw [hpc] at hw
      cases l <;> simp_all [WorkerPc.waitsFor, workerStep]

end

section

variable {taskCapacity : NonZeroUsize} {s : ServiceState} {o : Actor} {p : Position} {l : Lock}

theorem wellFormed_of_reachable (h : (service taskCapacity).Reachable s)
    (hp : position s o = some p) : Position.WellFormed p := by
  cases o with
  | closer k =>
      simp only [position, Option.map_eq_some_iff] at hp
      obtain ⟨c, hc, rfl⟩ := hp
      intro hne
      rw [(sweeping_of_reachable h).idle c (mem_of_getElem? hc) hne]
      rfl
  | submitter | waiter =>
      simp only [position, Option.map_eq_some_iff] at hp
      obtain ⟨_, _, rfl⟩ := hp
      exact trivial
  | worker t =>
      simp only [position, Option.bind_eq_some_iff] at hp
      obtain ⟨τ, _, hp⟩ := hp
      cases hw : τ.worker <;> rw [hw] at hp <;> cases hp <;> exact trivial
  | canceller t j =>
      simp only [position, Option.bind_eq_some_iff, Option.map_eq_some_iff] at hp
      obtain ⟨_, _, _, _, rfl⟩ := hp
      exact trivial

theorem step_of_closer {k : Nat} {c : Closer} (hc : s.closers[k]? = some c)
    (hwaits : CloserPc.waitsFor c.pc l = true) (hfree : s.shared.locks l = none) :
    ∃ s', (service taskCapacity).step (.closer k) s = some s' := by
  obtain ⟨g', hg⟩ := acquire_of_free (b := .closer k) hfree
  cases hpc : c.pc <;> rw [hpc] at hwaits <;> cases l <;> cases hwaits <;>
    simp [service, step, stepCloser, closerStep, hc, hpc, hg]

theorem step_of_sweep {k : Nat} {c : Closer} {q : SweepPc} {t : TaskId} {τ : Task}
    (hc : s.closers[k]? = some c) (hcurrent : c.current = some t) (hτ : s.tasks[t]? = some τ)
    (hentry : τ.entry = .sweeping k q) (hwaits : SweepPc.waitsFor q l = true)
    (hfree : s.shared.locks l = none) :
    ∃ s', (service taskCapacity).step (.sweep k) s = some s' := by
  cases q with
  | finish f =>
      obtain ⟨r, hr⟩ := finishTaskStep_of_free (b := .closer k) false hwaits hfree
      simp [service, step, stepSweep, hc, hcurrent, hτ, hentry, sweepStep, hr]
  | _ => cases hwaits

theorem step_of_waitsFor (hp : position s o = some p) (hwaits : Position.waitsFor p l = true)
    (hfree : s.shared.locks l = none) :
    ∃ a s', actor s a = o ∧ (service taskCapacity).step a s = some s' := by
  cases o with
  | submitter t =>
      simp only [position, Option.map_eq_some_iff] at hp
      obtain ⟨τ, hτ, rfl⟩ := hp
      obtain ⟨⟨g', τ'⟩, hstep⟩ := submitterStep_of_free (t := t) hwaits hfree
      exact ⟨.submitter t false, _, rfl, onTask_eq_some.mpr ⟨τ, g', τ', hτ, hstep, rfl⟩⟩
  | worker t =>
      simp only [position, Option.bind_eq_some_iff] at hp
      obtain ⟨τ, hτ, hp⟩ := hp
      have hw : WorkerPc.waitsFor τ.worker l = true := by
        cases hpc : τ.worker <;> rw [hpc] at hp <;> cases hp <;> exact hwaits
      obtain ⟨⟨g', τ'⟩, hstep⟩ := workerStep_of_free (t := t) .ok hw hfree
      exact ⟨.worker t .ok, _, rfl, onTask_eq_some.mpr ⟨τ, g', τ', hτ, hstep, rfl⟩⟩
  | canceller t j =>
      simp only [position, Option.bind_eq_some_iff, Option.map_eq_some_iff] at hp
      obtain ⟨τ, hτ, c, hc, rfl⟩ := hp
      obtain ⟨⟨g', τ', c'⟩, hstep⟩ :=
        cancelStep_of_free (b := .canceller t j) (τ := τ) hwaits hfree
      have hcancel : cancellerStep t j s.shared τ =
          some (g', { τ' with cancels := τ'.cancels.set j c' }) := by
        simp [cancellerStep, hc, hstep]
      exact ⟨.canceller t j, _, rfl, onTask_eq_some.mpr ⟨τ, g', _, hτ, hcancel, rfl⟩⟩
  | closer k =>
      simp only [position, Option.map_eq_some_iff] at hp
      obtain ⟨c, hc, rfl⟩ := hp
      rcases Bool.or_eq_true_iff.mp hwaits with hwaits | hwaits
      · obtain ⟨s', hnext⟩ : ∃ s', (service taskCapacity).step (.closer k) s = some s' :=
          step_of_closer hc hwaits hfree
        exact ⟨.closer k, s', rfl, hnext⟩
      · obtain ⟨q, hq, hwaits⟩ := (Option.any_eq_true _ _).mp hwaits
        obtain ⟨t, ht, hq⟩ := Option.bind_eq_some_iff.mp hq
        obtain ⟨τ, hτ, hq⟩ := Option.bind_eq_some_iff.mp hq
        have hentry : τ.entry = .sweeping k q := by
          cases hentry : τ.entry with
          | sweeping k' q' =>
              rw [hentry, EntryPc.sweepPc] at hq
              split at hq
              · rename_i hk
                rw [hk, Option.some.inj hq]
              · cases hq
          | _ =>
              rw [hentry] at hq
              cases hq
        obtain ⟨s', hnext⟩ : ∃ s', (service taskCapacity).step (.sweep k) s = some s' :=
          step_of_sweep hc ht hτ hentry hwaits hfree
        exact ⟨.sweep k, s', rfl, hnext⟩
  | waiter w =>
      simp only [position, Option.map_eq_some_iff] at hp
      obtain ⟨x, hx, rfl⟩ := hp
      suffices hstep : ∃ r, waiterStep w s.shared x = some r by
        obtain ⟨⟨g', x'⟩, hstep⟩ := hstep
        exact ⟨.waiter w, _, rfl, by simp [service, step, stepWaiter, hx, hstep]; rfl⟩
      obtain ⟨g', hg⟩ := acquire_of_free (b := .waiter w) hfree
      cases x <;> cases l <;> cases hwaits
      · exact ⟨_, by rw [waiterStep, hg]; rfl⟩
      · simp only [waiterStep, hfree, if_true]
        split <;> exact ⟨_, rfl⟩

end

/-! ### Entries that are not the last to know the result -/

/-- The registry entry has the last reference to an unresolved task slot. -/
def isLastRef (τ : Task) : Bool := !τ.payloadSlotRef && τ.slotInCell && τ.status == .pending

def SubmitterPc.isDroppingEntry : SubmitterPc → Bool
  | .dropGuard (.remove .dropEntry) => true
  | _ => false

def WorkerPc.isDroppingEntry : WorkerPc → Bool
  | .ranGuard (.remove .dropEntry) | .refusedGuard (.remove .dropEntry)
  | .destroyGuard (.remove .dropEntry) => true
  | _ => false

/-- No guard's drop removes an entry that has the last reference to an unresolved
task slot. -/
def removesResolved (s : ServiceState) : Action → Bool
  | .submitter t _ =>
      (s.tasks[t]?).all fun τ => !(SubmitterPc.isDroppingEntry τ.submitter && isLastRef τ)
  | .worker t _ =>
      (s.tasks[t]?).all fun τ => !(WorkerPc.isDroppingEntry τ.worker && isLastRef τ)
  | .callSubmit _ | .pickUp _ | .destroy _ | .callCancel _ | .canceller _ _ | .callClose _
  | .closer _ | .sweepNext _ _ | .sweep _ | .callWait _ | .waiter _ => true

/-- No activity of the task is about to run a waker under a lock. -/
structure Quiet (τ : Task) : Prop where
  submitter : SubmitterPc.wakesLocked τ.submitter = false
  worker : WorkerPc.wakesLocked τ.worker = false
  cancels : ∀ c ∈ τ.cancels, CancelPc.wakesLocked c = false

section

variable {t : TaskId} {g g' : TokioExecutorServiceState} {τ τ' : Task} {a : Action} {b : Actor}

theorem quiet_of_removeAbortHandleStep {r : RemovePc} {next : Option RemovePc}
    (hlast : r = .dropEntry → isLastRef τ = false)
    (h : removeAbortHandleStep b g τ r = some (g', τ', next)) :
    ∀ r' ∈ next, RemovePc.wakesLocked r' = false := by
  cases r <;> simp only [removeAbortHandleStep] at h
  case lock =>
    simp only [map_acquire_eq_some, Prod.mk.injEq] at h
    obtain ⟨_, _, _, rfl⟩ := h
    simp [RemovePc.wakesLocked]
  case remove =>
    split at h <;> simp only [Option.some.injEq, Prod.mk.injEq] at h <;>
      obtain ⟨_, _, rfl⟩ := h <;> simp [RemovePc.wakesLocked]
  case dropEntry =>
    have hquiet : (τ.dropSlotRef τ.payloadSlotRef).2 = false := by
      have hnot := hlast rfl
      rcases dropSlotRef_cases τ τ.payloadSlotRef with ⟨_, heq⟩ | ⟨href, hcell, hstatus, _⟩ |
        ⟨_, _, heq⟩
      · rw [heq]
      · simp [isLastRef, href, hcell, hstatus] at hnot
      · rw [heq]
    simp only [hquiet, Option.some.injEq, Prod.mk.injEq] at h
    obtain ⟨_, _, rfl⟩ := h
    simp [RemovePc.wakesLocked]
  all_goals
    simp only [Option.some.injEq, Prod.mk.injEq] at h
    obtain ⟨_, _, rfl⟩ := h
    simp [RemovePc.wakesLocked]

theorem quiet_of_guardStep {d : GuardPc} {next : Option GuardPc}
    (hlast : d = .remove .dropEntry → isLastRef τ = false)
    (h : guardStep b g τ d = some (g', τ', next)) :
    ∀ d' ∈ next, GuardPc.wakesLocked d' = false := by
  cases d <;> simp only [guardStep] at h
  case remove r =>
    simp only [Option.map_eq_some_iff, Prod.mk.injEq, Prod.exists] at h
    obtain ⟨_, _, next', hstep, _, _, rfl⟩ := h
    have hquiet := quiet_of_removeAbortHandleStep (fun hr => hlast (by rw [hr])) hstep
    cases next' with
    | none => simp [GuardPc.wakesLocked]
    | some r' => simpa [GuardPc.wakesLocked] using hquiet
  case swap =>
    split at h <;> simp only [Option.some.injEq, Prod.mk.injEq] at h <;>
      obtain ⟨_, _, rfl⟩ := h <;> simp [GuardPc.wakesLocked]
  case finish started f =>
    simp only [Option.map_eq_some_iff, Prod.mk.injEq, Prod.exists] at h
    obtain ⟨_, next', _, _, _, rfl⟩ := h
    cases next' <;> simp [GuardPc.wakesLocked]

/-- The hook of an entry that was not inserted is not the last to know the slot. -/
theorem quiet_of_submitterStep {runtimeClosed : Bool}
    (hlast : SubmitterPc.isDroppingEntry τ.submitter = true → isLastRef τ = false)
    (h : submitterStep t runtimeClosed g τ = some (g', τ')) :
    SubmitterPc.wakesLocked τ'.submitter = false := by
  cases hs : τ.submitter <;> simp only [submitterStep, hs] at h
  case dropHook =>
    have hquiet : (τ.dropSlotRef τ.payloadSlotRef).2 = false := by
      have href : τ.payloadSlotRef = true := by simp [Task.payloadSlotRef, hs,
        SubmitterPc.ownsClosure]
      simp [Task.dropSlotRef, href]
    simp only [hquiet, Option.some.injEq, Prod.mk.injEq] at h
    rw [← h.2]
    rfl
  case dropClosure c =>
    simp only [Option.some.injEq, Prod.mk.injEq] at h
    rw [← h.2]
    dsimp only
    split <;> rfl
  case dropGuard d =>
    simp only [Option.map_eq_some_iff, Prod.mk.injEq, Prod.exists] at h
    obtain ⟨_, _, next, hstep, _, rfl⟩ := h
    have hquiet := quiet_of_guardStep (fun hd => hlast (by rw [hs, hd]; rfl)) hstep
    cases next with
    | none => rfl
    | some d' => exact hquiet d' rfl
  case registerUnlock inserted =>
    simp only [Option.some.injEq, Prod.mk.injEq] at h
    rw [← h.2]
    cases inserted <;> rfl
  all_goals grind -linarith [SubmitterPc.wakesLocked]

theorem quiet_of_workerStep {outcome : RunOutcome}
    (hlast : WorkerPc.isDroppingEntry τ.worker = true → isLastRef τ = false)
    (h : workerStep t outcome g τ = some (g', τ')) :
    WorkerPc.wakesLocked τ'.worker = false := by
  have henter : WorkerPc.wakesLocked τ.enterTask = false := by
    unfold Task.enterTask
    split <;> rfl
  cases hw : τ.worker <;> simp only [workerStep, hw] at h
  case ranClosure c | refusedClosure c | destroyClosure c =>
    simp only [Option.some.injEq, Prod.mk.injEq] at h
    rw [← h.2]
    dsimp only
    split <;> rfl
  case ranGuard d | refusedGuard d | destroyGuard d =>
    simp only [Option.map_eq_some_iff, Prod.mk.injEq, Prod.exists] at h
    obtain ⟨_, _, next, hstep, _, rfl⟩ := h
    have hquiet := quiet_of_guardStep (fun hd => hlast (by rw [hw, hd]; rfl)) hstep
    cases next with
    | none => rfl
    | some d' => exact hquiet d' rfl
  all_goals grind -linarith [WorkerPc.wakesLocked, GuardPc.wakesLocked, RemovePc.wakesLocked]

theorem quiet_of_cancelStep {j : Nat} {c c' : CancelPc} (hi : TaskInvariant τ)
    (hc : τ.cancels[j]? = some c) (h : cancelStep b g τ c = some (g', τ', c')) :
    CancelPc.wakesLocked c' = false := by
  cases c <;> simp only [cancelStep] at h
  case remove r =>
    have hresolved : isLastRef τ = false := by
      have hle := weight_le_countP CancelPc.isWon hc
      have hcancelled := hi.held.cancelled
      rw [weight_of_true (by rfl)] at hle
      have hstatus : τ.status = .cancelled := by
        by_contra hne
        rw [if_neg hne] at hcancelled
        omega
      simp [isLastRef, hstatus]
    simp only [Option.map_eq_some_iff, Prod.mk.injEq, Prod.exists] at h
    obtain ⟨_, _, next, hstep, _, _, rfl⟩ := h
    have hquiet := quiet_of_removeAbortHandleStep (fun _ => hresolved) hstep
    cases next with
    | none => rfl
    | some r' => exact hquiet r' rfl
  case finish f =>
    simp only [Option.map_eq_some_iff, Prod.mk.injEq, Prod.exists] at h
    obtain ⟨_, next, _, _, _, rfl⟩ := h
    cases next <;> rfl
  case cancel | finishQueued =>
    grind -linarith [CancelPc.wakesLocked]
  case returned => cases h
  all_goals
    simp only [Option.some.injEq, Prod.mk.injEq] at h
    rw [← h.2.2]
    rfl

theorem quiet_of_taskStep {s : ServiceState} (hτ : s.tasks[t]? = some τ)
    (hallowed : removesResolved s a = true) (hi : TaskInvariant τ) (hq : Quiet τ)
    (h : TaskStep t g τ a g' τ') : Quiet τ' := by
  cases h with
  | submitter h =>
      have hquiet : SubmitterPc.wakesLocked τ'.submitter = false := by
        refine quiet_of_submitterStep (fun hdrop => ?_) h
        simpa [removesResolved, hτ, hdrop] using hallowed
      obtain ⟨_, _, _, _, _, _, _, _, _, rfl, hworker⟩ := submitterStep_frame h
      refine ⟨hquiet, ?_, hq.cancels⟩
      rcases hworker with rfl | ⟨_, rfl | rfl⟩
      · exact hq.worker
      · rfl
      · rfl
  | worker h =>
      have hquiet : WorkerPc.wakesLocked τ'.worker = false := by
        refine quiet_of_workerStep (fun hdrop => ?_) h
        simpa [removesResolved, hτ, hdrop] using hallowed
      obtain ⟨_, _, _, _, _, _, _, _, _, _, _, _, rfl, _, _⟩ := workerStep_frame h
      exact ⟨hq.submitter, hquiet, hq.cancels⟩
  | pickUp h | destroy h =>
      first | unfold pickUpStep at h | unfold destroyStep at h
      split at h <;> cases h
      refine ⟨hq.submitter, ?_, hq.cancels⟩
      dsimp only
      try split
      all_goals rfl
  | callCancel h =>
      unfold callCancelStep at h
      split at h <;> cases h
      exact ⟨hq.submitter, hq.worker, forall_mem_append hq.cancels rfl⟩
  | canceller h =>
      obtain ⟨c, τ₁, c', hc, hstep, rfl⟩ := cancellerStep_cases h
      have hquiet := quiet_of_cancelStep hi hc hstep
      obtain ⟨_, _, _, _, _, _, _, rfl⟩ := cancelStep_frame hstep
      exact ⟨hq.submitter, hq.worker, forall_mem_set hq.cancels hquiet⟩
  | sweep _ h =>
      obtain ⟨_, _, _, _, _, rfl⟩ := sweepStep_frame h
      exact ⟨hq.submitter, hq.worker, hq.cancels⟩
  | sweepNext | finishSweep => exact ⟨hq.submitter, hq.worker, hq.cancels⟩

end

section

variable {taskCapacity : NonZeroUsize} {s : ServiceState} {o : Actor} {p : Position} {l : Lock}

theorem quiet_of_reachable
    (h : (service taskCapacity).ReachableUnder (fun s a => removesResolved s a = true) s) :
    ∀ τ ∈ s.tasks, Quiet τ := by
  refine ReachableUnder.invariant (P := fun s => ∀ τ ∈ s.tasks, Quiet τ) h (by simp [service]) ?_
  intro s a s' hs ih hallowed hnext
  have hi := taskInvariant_of_reachable (ReachableUnder.reachable hs)
  rcases (effect_of_step hnext).tasks with
    ⟨kind, -, htasks⟩ | ⟨t, τ, τ', hτ, hτstep, htasks⟩ | ⟨k, -, htasks⟩ | htasks
  · rw [htasks]
    exact forall_mem_append ih ⟨rfl, rfl, by simp⟩
  · rw [htasks]
    have hmem := mem_of_getElem? hτ
    exact forall_mem_set ih (quiet_of_taskStep hτ hallowed (hi τ hmem) (ih τ hmem) hτstep)
  · rw [htasks]
    intro τ' hτ'
    obtain ⟨τ, hτ, rfl⟩ := List.mem_map.mp hτ'
    obtain ⟨hsubmitter, hworker, hcancels⟩ := ih τ hτ
    unfold takeEntry
    split <;> exact ⟨hsubmitter, hworker, hcancels⟩
  · rw [htasks]
    exact ih

theorem wakesLocked_of_position (hquiet : ∀ τ ∈ s.tasks, Quiet τ)
    (hp : position s o = some p) : Position.wakesLocked p = false := by
  cases o with
  | submitter t =>
      simp only [position, Option.map_eq_some_iff] at hp
      obtain ⟨τ, hτ, rfl⟩ := hp
      exact (hquiet τ (mem_of_getElem? hτ)).submitter
  | worker t =>
      simp only [position, Option.bind_eq_some_iff] at hp
      obtain ⟨τ, hτ, hp⟩ := hp
      have hworker := (hquiet τ (mem_of_getElem? hτ)).worker
      cases hw : τ.worker <;> rw [hw] at hp hworker <;> cases hp <;> exact hworker
  | canceller t j =>
      simp only [position, Option.bind_eq_some_iff, Option.map_eq_some_iff] at hp
      obtain ⟨τ, hτ, c, hc, rfl⟩ := hp
      exact (hquiet τ (mem_of_getElem? hτ)).cancels c (mem_of_getElem? hc)
  | closer k | waiter w =>
      simp only [position, Option.map_eq_some_iff] at hp
      obtain ⟨_, _, rfl⟩ := hp
      rfl

theorem not_owner_of_position
    (h : (service taskCapacity).ReachableUnder (fun s a => removesResolved s a = true) s)
    (hp : position s o = some p)
    (hpos : Position.runsUserCode p = true ∨ Position.waitsFor p l = true) :
    s.shared.locks l ≠ some o := by
  have hreachable := ReachableUnder.reachable h
  have hfree := not_holds_of_position (wellFormed_of_reachable hreachable hp) hpos
    (wakesLocked_of_position (quiet_of_reachable h) hp)
  rw [ne_eq, agrees_of_reachable hreachable o l, holds_iff_position, hp]
  rintro ⟨_, heq, hholds⟩
  rw [← Option.some.inj heq, hfree] at hholds
  cases hholds

/-- Under the assumption a thread that runs code of the user holds no lock, and a
call on such a thread never waits for a lock of its own thread. -/
theorem callbacks_hold_no_lock {x : ThreadedState ServiceState Actor}
    (h : (activities.threaded (service taskCapacity)).ReachableUnder
      (onSteps fun s a => removesResolved s a = true) x)
    {i : Nat} {o : Actor} {stack : List Actor} (hi : x.threads[i]? = some (o :: stack)) :
    (activities.inUserCode x.state o = true →
      ∀ o' ∈ o :: stack, ∀ l, x.state.shared.locks l ≠ some o') ∧
    ∀ (p : Position) (l : Lock), position x.state o = some p → Position.waitsFor p l = true →
      (∃ a s', actor x.state a = o ∧ (service taskCapacity).step a x.state = some s') ∨
        ∃ o', x.state.shared.locks l = some o' ∧ o' ∉ o :: stack := by
  have hreachable := reachable_of_threaded h
  have hnested := nested_of_reachable (framed taskCapacity) h
  have hfree : ∀ o, activities.inUserCode x.state o = true →
      ∀ l, x.state.shared.locks l ≠ some o := by
    intro o huser l
    obtain ⟨p, hp, hcode⟩ := (Option.any_eq_true _ _).mp huser
    exact not_owner_of_position hreachable hp (.inl hcode)
  refine ⟨fun htop => hnested.forall_of_inUserCode hi htop hfree, fun p l hp hwaits => ?_⟩
  cases hl : x.state.shared.locks l with
  | none => exact .inl (step_of_waitsFor hp hwaits hl)
  | some o' =>
      refine .inr ⟨o', rfl, fun hmem => ?_⟩
      rcases List.mem_cons.mp hmem with rfl | hmem
      · exact not_owner_of_position hreachable hp (.inr hwaits) hl
      · exact hfree o' (hnested.below i o stack hi o' hmem) l hl

end

/-- A capacity waker runs inside `shutdown()`. -/
theorem callbacks_hold_no_lock_shutdown : ∃ x,
    (activities.threaded (service oneSlot)).execute
      (.newThread :: .call 0 (.callClose .shutdown) :: List.replicate 4 (.run 0 (.closer 0)))
      (activities.threaded (service oneSlot)).start = some x ∧
    x.threads[0]? = some [.closer 0] ∧ ∀ l, x.state.shared.locks l ≠ some (.closer 0) := by
  have hexecute : ((activities.threaded (service oneSlot)).executeUnder
      (onSteps fun s a => removesResolved s a = true)
      (.newThread :: .call 0 (.callClose .shutdown) :: List.replicate 4 (.run 0 (.closer 0)))
      (activities.threaded (service oneSlot)).start).map
        (fun x => (x.threads, activities.inUserCode x.state (.closer 0))) =
      some ([[.closer 0]], true) := rfl
  obtain ⟨x, hx, hview⟩ := Option.map_eq_some_iff.mp hexecute
  simp only [Prod.mk.injEq] at hview
  have hi : x.threads[0]? = some [.closer 0] := by rw [hview.1]; rfl
  have hfree := (callbacks_hold_no_lock (runUnder_of_executeUnder hx) hi).1 hview.2
  exact ⟨x, execute_of_executeUnder hx, hi, hfree _ List.mem_cons_self⟩

/-- The runtime destroys a delivered callable. Its closure dies before its guard,
so the entry has the last reference to the slot when the guard's drop removes it. -/
theorem callbacks_hold_lock : ¬ ∀ x,
    (activities.threaded (service oneSlot)).Reachable x →
    ∀ (i : Nat) (o : Actor) (stack : List Actor), x.threads[i]? = some (o :: stack) →
      activities.inUserCode x.state o = true →
        ∀ o' ∈ o :: stack, ∀ l, x.state.shared.locks l ≠ some o' := by
  have hexecute : ((activities.threaded (service oneSlot)).execute
      (.newThread :: .call 0 (.callSubmit .callable) ::
        List.replicate 12 (.run 0 (.submitter 0 false)) ++
        .back 0 :: .call 0 (.destroy 0) :: List.replicate 7 (.run 0 (.worker 0 .ok)))
      (activities.threaded (service oneSlot)).start).map
        (fun x => (x.threads, activities.inUserCode x.state (.worker 0),
          x.state.shared.locks .abortHandles)) =
      some ([[.worker 0]], true, some (.worker 0)) := rfl
  obtain ⟨x, hx, hview⟩ := Option.map_eq_some_iff.mp hexecute
  simp only [Prod.mk.injEq] at hview
  intro hclaim
  exact hclaim x (Reachable.of_execute hx) 0 (.worker 0) [] (by rw [hview.1]; rfl) hview.2.1
    (.worker 0) List.mem_cons_self .abortHandles hview.2.2

end TokioExecutorProofs.BlockingCallbacks
