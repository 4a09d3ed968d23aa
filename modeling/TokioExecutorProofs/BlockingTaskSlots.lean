import TokioExecutorProofs.BlockingTaskTracking

/-!
The shared slot of one task. While the cell is alive the slot leaves it for the
worker that has started the task or for the stop call that has cancelled it;
the last reference takes it down with the cell.
-/

namespace TokioExecutorProofs.BlockingTaskSlots

open ServiceBasics
open BlockingServiceState
open BlockingServiceState.TokioExecutorServiceState
open BlockingTask
open BlockingService
open BlockingTaskPlacement
open BlockingTaskRegistry
open BlockingTaskTracking
open ProcessFamilies

/-- The submission has not shared the slot yet. -/
def isUnshared : SubmitterPc → Bool
  | .lockSubmission | .checkRunning | .acceptLock | .accept | .acceptUnlock _
  | .rejectUnlock _ | .rejected _ | .shareSlot => true
  | .spawn | .registerLock | .register | .registerUnlock _ | .dropHook | .wakeDropped
  | .unlockSubmission | .send | .dropClosure _ | .dropGuard _ | .returned => false

/-- The user callable has not been invoked. -/
def isBeforeInvoke : WorkerPc → Bool
  | .absent | .queued | .recv | .markStarted | .startLock | .start | .startUnlock | .takeSlot
  | .startSlot | .invoke => true
  | .executing | .publish _ | .wakePublished | .ranClosure _ | .ranGuard _ | .refusedGuard _
  | .refusedClosure _ | .dropReceiver | .destroyClosure _ | .destroyGuard _ | .complete
  | .finished => false

/-- The worker has started the slot and not resolved it. -/
def isStarted : WorkerPc → Bool
  | .invoke | .executing | .publish _ => true
  | .absent | .queued | .recv | .markStarted | .startLock | .start | .startUnlock | .takeSlot
  | .startSlot | .wakePublished | .ranClosure _ | .ranGuard _ | .refusedGuard _
  | .refusedClosure _ | .dropReceiver | .destroyClosure _ | .destroyGuard _ | .complete
  | .finished => false

/-- The stop call has resolved the slot of the task that it counts. -/
def SweepPc.isCancelled : SweepPc → Bool
  | .isFinished | .abort | .finishQueued | .finish _ | .cancelUnstarted => false
  | .wakeCancelled => true
  | .dropHook counted | .wakeDropped counted | .next counted => counted

def EntryPc.isCancelled : EntryPc → Bool
  | .absent | .registered | .taken _ | .removed | .gone => false
  | .sweeping _ p => SweepPc.isCancelled p

/-- The cancellation has resolved the slot. -/
def CancelPc.isWon : CancelPc → Bool
  | .cancel | .returned false => false
  | .wakeCancelled | .remove _ | .finishQueued | .finish _ | .abort | .returned true => true

structure SlotHeld (τ : Task) : Prop where
  cell : τ.slotInCell = true → τ.hasSlot = true ∧
    (τ.payloadSlotRef = true ∨ τ.hookSlotRef = true) ∧
    (τ.status = .pending ∨ τ.status = .cancelled)
  unshared : isUnshared τ.submitter = true → τ.slotInCell = false ∧ τ.status = .pending
  pending : τ.hasSlot = true → τ.slotInCell = false → τ.status = .pending →
    isUnshared τ.submitter = true ∨ τ.worker = .startSlot
  taken : τ.worker = .startSlot → τ.hasSlot = true ∧ τ.slotInCell = false ∧
    (τ.status = .pending ∨ τ.status = .cancelled)
  started : τ.status = .running ↔ τ.hasSlot = true ∧ isStarted τ.worker = true
  publishing : ∀ o, τ.worker = .publish o → τ.hasSlot = true
  hook : τ.hasSlot = true → τ.hookSlotRef = true → τ.everRunning = false →
    EntryPc.isCancelled τ.entry = false → τ.slotInCell = true
  counted : τ.hasSlot = true → EntryPc.isCancelled τ.entry = true ∨ τ.countedBy ≠ [] →
    τ.status = .cancelled
  cancelled : τ.cancels.countP CancelPc.isWon ≤ if τ.status = .cancelled then 1 else 0

section

variable {t : TaskId} {g g' : TokioExecutorServiceState} {τ τ' : Task}

theorem dropSlotRef_cases (τ : Task) (others : Bool) :
    (others = true ∧ τ.dropSlotRef others = (τ, false)) ∨
    (others = false ∧ τ.slotInCell = true ∧ τ.status = .pending ∧
      τ.dropSlotRef others = ({ τ with slotInCell := false, status := .dropped }, true)) ∨
    (others = false ∧ (τ.slotInCell = true → τ.status ≠ .pending) ∧
      τ.dropSlotRef others = ({ τ with slotInCell := false }, false)) := by
  unfold Task.dropSlotRef
  grind -linarith

/-- What a step leaves alone unless it is about the slot. -/
structure SlotFrame (τ τ' : Task) : Prop where
  hasSlot : τ'.hasSlot = τ.hasSlot := by rfl
  unshared : isUnshared τ'.submitter = isUnshared τ.submitter := by rfl
  taken : τ'.worker = .startSlot ↔ τ.worker = .startSlot := by exact Iff.rfl
  started : τ.hasSlot = true → isStarted τ'.worker = isStarted τ.worker := by exact fun _ => rfl
  publishing : ∀ o, τ'.worker = .publish o → τ.hasSlot = true ∨ τ.worker = .publish o := by
    exact fun _ => .inr
  everRunning : τ'.everRunning = false → τ.everRunning = false := by exact id
  counted : τ'.countedBy ≠ [] → EntryPc.isCancelled τ.entry = true ∨ τ.countedBy ≠ [] := by
    exact .inr
  cancels : τ'.cancels.countP CancelPc.isWon = τ.cancels.countP CancelPc.isWon := by rfl

theorem SlotFrame.publishes (hf : SlotFrame τ τ') (hh : SlotHeld τ) (o : RunOutcome)
    (h : τ'.worker = .publish o) : τ'.hasSlot = true := by
  rw [hf.hasSlot]
  rcases hf.publishing o h with hslot | hbefore
  · exact hslot
  · exact hh.publishing o hbefore

theorem SlotFrame.started_iff (hf : SlotFrame τ τ') (hh : SlotHeld τ) :
    τ.status = .running ↔ τ'.hasSlot = true ∧ isStarted τ'.worker = true := by
  rw [hh.started, hf.hasSlot]
  exact and_congr_right fun hslot => by rw [hf.started hslot]

/-- The slot stays where it is, and somebody still holds the cell. -/
theorem SlotHeld.keep (hh : SlotHeld τ) (hf : SlotFrame τ τ')
    (hcell : τ'.slotInCell = τ.slotInCell) (hstatus : τ'.status = τ.status)
    (hentry : τ.hasSlot = true → EntryPc.isCancelled τ'.entry = true →
      EntryPc.isCancelled τ.entry = true)
    (hrefs : τ.payloadSlotRef = true ∨ τ.hookSlotRef = true →
      τ'.payloadSlotRef = true ∨ τ'.hookSlotRef = true)
    (hhook : τ.hasSlot = true → τ'.hookSlotRef = true → τ.hookSlotRef = true ∧
      EntryPc.isCancelled τ'.entry = EntryPc.isCancelled τ.entry) : SlotHeld τ' where
  cell h := by
    rw [hcell] at h
    obtain ⟨hslot, href, hopen⟩ := hh.cell h
    rw [hf.hasSlot, hstatus]
    exact ⟨hslot, hrefs href, hopen⟩
  unshared h := by
    rw [hf.unshared] at h
    rw [hcell, hstatus]
    exact hh.unshared h
  pending := by
    rw [hf.hasSlot, hcell, hstatus, hf.unshared, hf.taken]
    exact hh.pending
  taken := by
    rw [hf.hasSlot, hcell, hstatus, hf.taken]
    exact hh.taken
  started := by
    rw [hstatus]
    exact hf.started_iff hh
  publishing := hf.publishes hh
  hook hslot href hran hcancelled := by
    rw [hf.hasSlot] at hslot
    obtain ⟨hbefore, hsame⟩ := hhook hslot href
    rw [hcell]
    exact hh.hook hslot hbefore (hf.everRunning hran) (hsame ▸ hcancelled)
  counted hslot h := by
    rw [hf.hasSlot] at hslot
    rw [hstatus]
    rcases h with hcancelled | hcounted
    · exact hh.counted hslot (.inl (hentry hslot hcancelled))
    · exact hh.counted hslot (hf.counted hcounted)
  cancelled := by
    rw [hf.cancels, hstatus]
    exact hh.cancelled

theorem SlotHeld.carry (hh : SlotHeld τ) (hf : SlotFrame τ τ')
    (hcell : τ'.slotInCell = τ.slotInCell) (hstatus : τ'.status = τ.status)
    (hcancelled : τ.hasSlot = true →
      EntryPc.isCancelled τ'.entry = EntryPc.isCancelled τ.entry)
    (hpayload : τ'.payloadSlotRef = τ.payloadSlotRef) (hhook : τ'.hookSlotRef = τ.hookSlotRef) :
    SlotHeld τ' := by
  refine hh.keep hf hcell hstatus (fun hslot h => hcancelled hslot ▸ h) ?_ ?_
  · rw [hpayload, hhook]
    exact id
  · rw [hhook]
    exact fun hslot href => ⟨href, hcancelled hslot⟩

/-- The last reference takes the cell down, and with it a slot that is still inside. -/
theorem SlotHeld.destroyCell (hh : SlotHeld τ) (hf : SlotFrame τ τ')
    (hcell : τ'.slotInCell = false)
    (hstatus : τ'.status = τ.status ∧ (τ.slotInCell = true → τ.status ≠ .pending) ∨
      τ'.status = .dropped ∧ τ.slotInCell = true ∧ τ.status = .pending)
    (hentry : EntryPc.isCancelled τ'.entry = true → EntryPc.isCancelled τ.entry = true)
    (hhook : τ'.hookSlotRef = false) : SlotHeld τ' where
  cell h := by simp [hcell] at h
  unshared h := by
    rw [hf.unshared] at h
    obtain ⟨hout, hpending⟩ := hh.unshared h
    rcases hstatus with ⟨hsame, _⟩ | ⟨_, hinside, _⟩
    · exact ⟨hcell, hsame.trans hpending⟩
    · simp [hout] at hinside
  pending hslot _ hpending := by
    rcases hstatus with ⟨hsame, hout⟩ | ⟨hdropped, _⟩
    · rw [hf.hasSlot] at hslot
      rw [hsame] at hpending
      rw [hf.unshared, hf.taken]
      exact hh.pending hslot (Bool.eq_false_iff.mpr fun h => hout h hpending) hpending
    · simp [hdropped] at hpending
  taken h := by
    obtain ⟨hslot, hout, hopen⟩ := hh.taken (hf.taken.mp h)
    rcases hstatus with ⟨hsame, _⟩ | ⟨_, hinside, _⟩
    · rw [hf.hasSlot, hsame]
      exact ⟨hslot, hcell, hopen⟩
    · simp [hout] at hinside
  started := by
    rw [← hf.started_iff hh]
    rcases hstatus with ⟨hsame, _⟩ | ⟨hdropped, _, hpending⟩
    · rw [hsame]
    · simp [hdropped, hpending]
  publishing := hf.publishes hh
  hook _ href := by simp [hhook] at href
  counted hslot h := by
    rw [hf.hasSlot] at hslot
    have hcancelled : τ.status = .cancelled := by
      rcases h with hcancelled | hcounted
      · exact hh.counted hslot (.inl (hentry hcancelled))
      · exact hh.counted hslot (hf.counted hcounted)
    rcases hstatus with ⟨hsame, _⟩ | ⟨_, _, hpending⟩
    · exact hsame.trans hcancelled
    · simp [hcancelled] at hpending
  cancelled := by
    have hcount := hh.cancelled
    rw [hf.cancels]
    rcases hstatus with ⟨hsame, _⟩ | ⟨hdropped, _, hpending⟩
    · rwa [hsame]
    · simpa [hdropped, hpending] using hcount

/-- Drop one of the two references while `others` tells whether the other one is alive. -/
theorem SlotHeld.dropRef (hh : SlotHeld τ) (others : Bool) (hf : SlotFrame τ τ')
    (hcell : τ'.slotInCell = (τ.dropSlotRef others).1.slotInCell)
    (hstatus : τ'.status = (τ.dropSlotRef others).1.status)
    (hentry : EntryPc.isCancelled τ'.entry = true → EntryPc.isCancelled τ.entry = true)
    (hothers : others = true → τ'.payloadSlotRef = true ∨ τ'.hookSlotRef = true)
    (hhook : τ'.hookSlotRef = true → others = true ∧ τ.hookSlotRef = true ∧
      EntryPc.isCancelled τ'.entry = EntryPc.isCancelled τ.entry) : SlotHeld τ' := by
  have hlast : others = false → τ'.hookSlotRef = false := fun hnone =>
    Bool.eq_false_iff.mpr fun href => by simp [hnone] at hhook; simp [hhook] at href
  rcases dropSlotRef_cases τ others with ⟨hsome, heq⟩ | ⟨hnone, hinside, hpending, heq⟩ |
    ⟨hnone, hout, heq⟩
  all_goals rw [heq] at hcell hstatus
  · exact hh.keep hf hcell hstatus (fun _ => hentry) (fun _ => hothers hsome)
      fun _ href => (hhook href).2
  · exact hh.destroyCell hf hcell (.inr ⟨hstatus, hinside, hpending⟩) hentry (hlast hnone)
  · exact hh.destroyCell hf hcell (.inl ⟨hstatus, hout⟩) hentry (hlast hnone)

/-- What `remove_abort_handle` does to the slot: it drops the hook, or nothing. -/
inductive HookMove (τ : Task) (entry : EntryPc) (inCell : Bool) (status : TaskStatus) : Prop
  | drop (hentry : entry = .gone)
      (hcell : inCell = (τ.dropSlotRef τ.payloadSlotRef).1.slotInCell)
      (hstatus : status = (τ.dropSlotRef τ.payloadSlotRef).1.status)
  | keep (hcell : inCell = τ.slotInCell) (hstatus : status = τ.status)
      (hhook : entry.ownsHook = τ.entry.ownsHook)
      (hcancelled : EntryPc.isCancelled entry = EntryPc.isCancelled τ.entry)

theorem hookMove_of_removeStep {a : Actor} {r : RemovePc} {next : Option RemovePc}
    (h : removeAbortHandleStep a g τ r = some (g', τ', next)) :
    HookMove τ τ'.entry τ'.slotInCell τ'.status := by
  cases r <;> simp only [removeAbortHandleStep] at h
  case remove =>
    split at h
    all_goals
      rename_i hentry
      simp only [Option.some.injEq, Prod.mk.injEq] at h
      obtain ⟨_, rfl, _⟩ := h
    · exact .keep rfl rfl (by rw [hentry]; rfl) (by rw [hentry]; rfl)
    · exact .keep rfl rfl rfl rfl
  case dropEntry =>
    simp only [Option.some.injEq, Prod.mk.injEq] at h
    obtain ⟨_, rfl, _⟩ := h
    exact .drop rfl rfl rfl
  case lock =>
    simp only [map_acquire_eq_some, Prod.mk.injEq] at h
    obtain ⟨_, _, rfl, _⟩ := h
    exact .keep rfl rfl rfl rfl
  case finishMarker | wakeDropped | unlock =>
    simp only [Option.some.injEq, Prod.mk.injEq] at h
    obtain ⟨_, rfl, _⟩ := h
    exact .keep rfl rfl rfl rfl

theorem hookMove_of_guardStep {a : Actor} {d : GuardPc} {next : Option GuardPc}
    (h : guardStep a g τ d = some (g', τ', next)) :
    HookMove τ τ'.entry τ'.slotInCell τ'.status := by
  cases d <;> simp only [guardStep] at h
  case remove r =>
    simp only [Option.map_eq_some_iff, Prod.mk.injEq, Prod.exists] at h
    obtain ⟨_, _, _, hstep, _, rfl, _⟩ := h
    exact hookMove_of_removeStep hstep
  case swap =>
    split at h
    all_goals
      simp only [Option.some.injEq, Prod.mk.injEq] at h
      obtain ⟨_, rfl, _⟩ := h
      exact .keep rfl rfl rfl rfl
  case finish started f =>
    simp only [Option.map_eq_some_iff, Prod.mk.injEq, Prod.exists] at h
    obtain ⟨_, _, _, _, rfl, _⟩ := h
    unfold Task.recordFinish
    split <;> exact .keep rfl rfl rfl rfl

theorem SlotHeld.moveHook (hh : SlotHeld τ) (hf : SlotFrame τ τ')
    (h : HookMove τ τ'.entry τ'.slotInCell τ'.status)
    (hpayload : τ'.payloadSlotRef = τ.payloadSlotRef) (hs : τ.submitter.ownsHook = false)
    (hs' : τ'.submitter.ownsHook = false) : SlotHeld τ' := by
  have hbefore : τ.hookSlotRef = τ.entry.ownsHook := by rw [Task.hookSlotRef, hs, Bool.false_or]
  have hafter : τ'.hookSlotRef = τ'.entry.ownsHook := by rw [Task.hookSlotRef, hs', Bool.false_or]
  cases h with
  | drop hentry hcell hstatus =>
      refine hh.dropRef _ hf hcell hstatus ?_ (fun hothers => .inl (hpayload.trans hothers)) ?_
      · rw [hentry]
        exact fun hnever => by cases hnever
      · rw [hafter, hentry]
        exact fun hnever => by cases hnever
  | keep hcell hstatus hhook hcancelled =>
      exact hh.carry hf hcell hstatus (fun _ => hcancelled) hpayload
        (by rw [hafter, hbefore, hhook])

theorem closureStep_slot {c : ClosurePc} {next : Option ClosurePc}
    (h : closureStep τ c = (τ', next)) :
    (∀ c', next = some c' → c'.ownsSlotRef = false) ∧
    (c = .dropSlotRef ∧ τ'.slotInCell = (τ.dropSlotRef τ.hookSlotRef).1.slotInCell ∧
        τ'.status = (τ.dropSlotRef τ.hookSlotRef).1.status ∨
      c.ownsSlotRef = false ∧ τ'.slotInCell = τ.slotInCell ∧ τ'.status = τ.status) := by
  cases c <;> simp only [closureStep, Prod.mk.injEq] at h <;> obtain ⟨rfl, rfl⟩ := h
  case dropSlotRef =>
    refine ⟨fun c' hc' => ?_, .inl ⟨rfl, rfl, rfl⟩⟩
    obtain rfl := Option.some.inj hc'
    split <;> rfl
  case wakeDropped =>
    refine ⟨?_, .inr ⟨rfl, rfl, rfl⟩⟩
    rintro c' ⟨⟩
    rfl
  case dropTask => exact ⟨fun _ hnone => (by cases hnone), .inr ⟨rfl, rfl, rfl⟩⟩

theorem SlotHeld.moveClosure {c : ClosurePc} (hh : SlotHeld τ) (hf : SlotFrame τ τ')
    (h : c = .dropSlotRef ∧ τ'.slotInCell = (τ.dropSlotRef τ.hookSlotRef).1.slotInCell ∧
        τ'.status = (τ.dropSlotRef τ.hookSlotRef).1.status ∨
      c.ownsSlotRef = false ∧ τ'.slotInCell = τ.slotInCell ∧ τ'.status = τ.status)
    (hpayload : c.ownsSlotRef = false → τ'.payloadSlotRef = τ.payloadSlotRef)
    (hentry : τ'.entry = τ.entry) (hhook : τ'.hookSlotRef = τ.hookSlotRef) : SlotHeld τ' := by
  rcases h with ⟨rfl, hcell, hstatus⟩ | ⟨howns, hcell, hstatus⟩
  · refine hh.dropRef _ hf hcell hstatus ?_ (fun hothers => .inr (hhook.trans hothers)) ?_
    · rw [hentry]
      exact id
    · rw [hentry, hhook]
      exact fun href => ⟨href, href, rfl⟩
  · exact hh.carry hf hcell hstatus (fun _ => by rw [hentry]) (hpayload howns) hhook

theorem SlotHeld.submit {s s' : SubmitterPc} (hh : SlotHeld τ) (hs : τ.submitter = s)
    (hunshared : isUnshared s' = isUnshared s) (hclosure : s'.ownsClosure = s.ownsClosure)
    (hhook : s'.ownsHook = s.ownsHook) : SlotHeld { τ with submitter := s' } :=
  hh.carry { unshared := by rw [hs]; exact hunshared } rfl rfl (fun _ => rfl)
    (by rw [Task.payloadSlotRef, Task.payloadSlotRef, hs, hclosure])
    (by rw [Task.hookSlotRef, Task.hookSlotRef, hs, hhook])

theorem slotHeld_of_submitterStep {runtimeClosed : Bool} (hp : Placed τ) (hr : Registry τ)
    (hh : SlotHeld τ)
    (h : submitterStep t runtimeClosed g τ = some (g', τ')) : SlotHeld τ' := by
  have habsent : isOpen (submitterPhase τ.submitter) = true → τ.entry = .absent := hr.absent.mpr
  cases hs : τ.submitter <;> simp only [submitterStep, hs] at h
  case rejected | returned => cases h
  case lockSubmission | acceptLock | registerLock =>
    simp only [map_acquire_eq_some, Prod.mk.injEq] at h
    obtain ⟨_, _, rfl⟩ := h
    exact hh.submit hs rfl rfl rfl
  case rejectUnlock | wakeDropped | unlockSubmission =>
    obtain ⟨_, rfl⟩ := Prod.mk.inj (Option.some.inj h)
    exact hh.submit hs rfl rfl rfl
  case checkRunning =>
    obtain ⟨_, rfl⟩ := Prod.mk.inj (Option.some.inj h)
    split <;> exact hh.submit hs rfl rfl rfl
  case acceptUnlock flag | registerUnlock flag =>
    obtain ⟨_, rfl⟩ := Prod.mk.inj (Option.some.inj h)
    cases flag <;> exact hh.submit hs rfl rfl rfl
  case accept =>
    split at h <;> obtain ⟨_, rfl⟩ := Prod.mk.inj (Option.some.inj h) <;>
      exact hh.submit hs rfl rfl rfl
  case shareSlot =>
    obtain ⟨_, rfl⟩ := Prod.mk.inj (Option.some.inj h)
    rw [Placed, hs] at hp
    have hw := worker_of_absent hp.1
    obtain ⟨_, hpending⟩ := hh.unshared (by rw [hs]; rfl)
    exact {
      cell := fun hslot => ⟨hslot, .inl (by simp [Task.payloadSlotRef, SubmitterPc.ownsClosure]),
        .inl hpending⟩
      unshared := fun hnever => by cases hnever
      pending := fun hslot hout => absurd (hslot.symm.trans hout) (by simp)
      taken := fun hstart => by simp [hw] at hstart
      started := hh.started
      publishing := hh.publishing
      hook := fun hslot _ _ _ => hslot
      counted := hh.counted
      cancelled := hh.cancelled }
  case spawn =>
    rw [Placed, hs] at hp
    have hw := worker_of_absent hp.1
    split at h <;> obtain ⟨_, rfl⟩ := Prod.mk.inj (Option.some.inj h)
    all_goals
      refine hh.carry { unshared := by rw [hs]; rfl, taken := by simp [hw],
                        started := fun _ => by rw [hw]; rfl, publishing := by simp }
        rfl rfl (fun _ => rfl) ?_ ?_
      · simp [Task.payloadSlotRef, hs, SubmitterPc.ownsClosure]
      · simp [Task.hookSlotRef, hs, SubmitterPc.ownsHook]
  case register =>
    split at h <;> obtain ⟨_, rfl⟩ := Prod.mk.inj (Option.some.inj h)
    · refine hh.carry { unshared := by rw [hs]; rfl } rfl rfl (fun _ => ?_) ?_ ?_
      · rw [habsent (by rw [hs]; rfl)]
        rfl
      · simp [Task.payloadSlotRef, hs, SubmitterPc.ownsClosure]
      · simp [Task.hookSlotRef, hs, SubmitterPc.ownsHook, EntryPc.ownsHook]
    · exact hh.submit hs rfl rfl rfl
  case dropHook =>
    obtain ⟨_, _, heq⟩ := dropSlotRef_frame τ τ.payloadSlotRef
    obtain ⟨_, rfl⟩ := Prod.mk.inj (Option.some.inj h)
    refine hh.dropRef τ.payloadSlotRef ?_ rfl rfl (fun hnever => by cases hnever) ?_ ?_
    · rw [heq]
      exact { unshared := by rw [hs]; dsimp only; split <;> rfl }
    · intro _
      left
      rw [heq]
      dsimp only
      split <;> simp [Task.payloadSlotRef, SubmitterPc.ownsClosure]
    · intro hnever
      rw [heq] at hnever
      dsimp only at hnever
      split at hnever <;> cases hnever
  case send =>
    split at h
    · obtain ⟨_, rfl⟩ := Prod.mk.inj (Option.some.inj h)
      refine hh.carry { unshared := by rw [hs]; rfl } rfl rfl (fun _ => rfl) ?_ ?_
      · simp [Task.payloadSlotRef, hs, SubmitterPc.ownsClosure]
      · simp [Task.hookSlotRef, hs, SubmitterPc.ownsHook]
    · cases h
    · obtain ⟨_, rfl⟩ := Prod.mk.inj (Option.some.inj h)
      exact hh.submit hs rfl rfl rfl
  case dropClosure c =>
    rcases hc : closureStep τ c with ⟨τ₁, next⟩
    obtain ⟨hnext, hmove⟩ := closureStep_slot hc
    obtain ⟨_, _, rfl⟩ := closureStep_frame hc
    simp only [Option.some.injEq, Prod.mk.injEq, hc] at h
    obtain ⟨_, rfl⟩ := h
    refine hh.moveClosure { unshared := by rw [hs]; cases next <;> rfl } hmove ?_ rfl ?_
    · intro howns
      cases hn : next with
      | none => simp [Task.payloadSlotRef, hs, SubmitterPc.ownsClosure, howns]
      | some c' => simp [Task.payloadSlotRef, hs, SubmitterPc.ownsClosure, howns, hnext c' hn]
    · rw [Task.hookSlotRef, Task.hookSlotRef, hs]
      cases next <;> rfl
  case dropGuard d =>
    simp only [Option.map_eq_some_iff, Prod.mk.injEq, Prod.exists] at h
    obtain ⟨_, τ₁, next, hstep, rfl, rfl⟩ := h
    have hmove := hookMove_of_guardStep hstep
    obtain ⟨_, _, _, _, _, _, rfl⟩ := guardStep_frame hstep
    refine hh.moveHook { unshared := by rw [hs]; cases next <;> rfl } hmove ?_ ?_ ?_
    · cases next <;> simp [Task.payloadSlotRef, hs, SubmitterPc.ownsClosure]
    · rw [hs]
      rfl
    · cases next <;> rfl

theorem SlotHeld.work {w w' : WorkerPc} {state : TrackerState} {ever : Bool} {starts : Nat}
    {invocations : Nat} {returned : Option RunOutcome} (hh : SlotHeld τ) (hw : τ.worker = w)
    (hclosure : w'.ownsClosure = w.ownsClosure) (htaken : w ≠ .startSlot ∧ w' ≠ .startSlot)
    (hstarted : τ.hasSlot = true → isStarted w' = isStarted w)
    (hpublish : ∀ o, w' = .publish o → τ.hasSlot = true)
    (hever : ever = false → τ.everRunning = false) :
    SlotHeld { τ with worker := w', taskState := state, everRunning := ever, starts := starts,
                      invocations := invocations, returned := returned } :=
  hh.carry { taken := by simp [hw, htaken],
             started := fun hslot => by rw [hw]; exact hstarted hslot,
             publishing := fun o ho => .inl (hpublish o ho), everRunning := hever }
    rfl rfl (fun _ => rfl)
    (by rw [Task.payloadSlotRef, Task.payloadSlotRef, hw, hclosure]) rfl

theorem enterTask_cases (τ : Task) :
    τ.hasSlot = true ∧ τ.enterTask = .takeSlot ∨ τ.hasSlot = false ∧ τ.enterTask = .invoke := by
  unfold Task.enterTask
  cases τ.hasSlot <;> simp

theorem SlotHeld.enterTask {w : WorkerPc} (hh : SlotHeld τ) (hw : τ.worker = w)
    (howns : w.ownsClosure = true) (htaken : w ≠ .startSlot) (hstarted : isStarted w = false) :
    SlotHeld { τ with worker := τ.enterTask } := by
  rcases enterTask_cases τ with ⟨_, henter⟩ | ⟨hnone, henter⟩ <;> rw [henter]
  · exact hh.work hw howns.symm ⟨htaken, by simp⟩ (fun _ => hstarted.symm) (by simp) id
  · exact hh.work hw howns.symm ⟨htaken, by simp⟩ (by simp [hnone]) (by simp) id

theorem slotHeld_of_workerStep {outcome : RunOutcome} (hp : Placed τ) (ht : Tracked τ)
    (hh : SlotHeld τ) (h : workerStep t outcome g τ = some (g', τ')) : SlotHeld τ' := by
  cases hs : τ.worker <;> simp only [workerStep, hs] at h
  case absent | queued | finished => cases h
  case recv =>
    split at h <;> cases h
    rename_i hfull
    refine hh.carry { taken := by simp [hs], started := fun _ => by rw [hs]; rfl,
                      publishing := by simp } rfl rfl (fun _ => rfl) ?_ rfl
    simp [Task.payloadSlotRef, hfull, WorkerPc.ownsClosure]
  case markStarted =>
    split at h <;> obtain ⟨_, rfl⟩ := Prod.mk.inj (Option.some.inj h)
    · exact hh.work hs rfl (by simp) (fun _ => rfl) (by simp) (by simp)
    · exact hh.enterTask hs rfl (by simp) rfl
    · exact hh.work hs rfl (by simp) (fun _ => rfl) (by simp) id
  case startLock =>
    simp only [map_acquire_eq_some, Prod.mk.injEq] at h
    obtain ⟨_, _, rfl⟩ := h
    exact hh.work hs rfl (by simp) (fun _ => rfl) (by simp) id
  case start | invoke | wakePublished | complete =>
    obtain ⟨_, rfl⟩ := Prod.mk.inj (Option.some.inj h)
    exact hh.work hs rfl (by simp) (fun _ => rfl) (by simp) id
  case startUnlock =>
    obtain ⟨_, rfl⟩ := Prod.mk.inj (Option.some.inj h)
    exact hh.enterTask hs rfl (by simp) rfl
  case takeSlot =>
    have hran : τ.everRunning = true := ht.ran true (by rw [hs]; rfl)
    split at h
    · rename_i hinside
      obtain ⟨_, rfl⟩ := Prod.mk.inj (Option.some.inj h)
      obtain ⟨hslot, _, hopen⟩ := hh.cell hinside
      have hstarted := hh.started
      rw [hs] at hstarted
      exact {
        cell := fun hnever => by cases hnever
        unshared := fun hun => ⟨rfl, (hh.unshared hun).2⟩
        pending := fun _ _ _ => .inr rfl
        taken := fun _ => ⟨hslot, rfl, hopen⟩
        started := hstarted
        publishing := fun _ hnever => by cases hnever
        hook := fun _ _ hnot _ => absurd (hran.symm.trans hnot) (by simp)
        counted := hh.counted
        cancelled := hh.cancelled }
    · obtain ⟨_, rfl⟩ := Prod.mk.inj (Option.some.inj h)
      exact hh.work hs rfl (by simp) (fun _ => rfl) (by simp) id
  case startSlot =>
    have hran : τ.everRunning = true := ht.ran true (by rw [hs]; rfl)
    obtain ⟨hslot, hout, _⟩ := hh.taken hs
    split at h
    · rename_i hpending
      obtain ⟨_, rfl⟩ := Prod.mk.inj (Option.some.inj h)
      exact {
        cell := fun hinside => absurd (hout.symm.trans hinside) (by simp)
        unshared := fun hun => by
          rw [submitter_of_placed hp (by rw [hs]; rfl)] at hun
          cases hun
        pending := fun _ _ hnever => by cases hnever
        taken := fun hnever => by cases hnever
        started := ⟨fun _ => ⟨hslot, rfl⟩, fun _ => rfl⟩
        publishing := fun _ hnever => by cases hnever
        hook := fun _ _ hnot _ => absurd (hran.symm.trans hnot) (by simp)
        counted := fun _ hcounted => by
          have hcancelled := hh.counted hslot hcounted
          simp [hcancelled] at hpending
        cancelled := by simpa [hpending] using hh.cancelled }
    · rename_i hresolved
      obtain ⟨_, rfl⟩ := Prod.mk.inj (Option.some.inj h)
      have hstarted := hh.started
      rw [hs] at hstarted
      exact {
        cell := fun hinside => absurd (hout.symm.trans hinside) (by simp)
        unshared := hh.unshared
        pending := fun _ _ hpending => absurd hpending hresolved
        taken := fun hnever => by cases hnever
        started := hstarted
        publishing := fun _ hnever => by cases hnever
        hook := fun _ _ hnot _ => absurd (hran.symm.trans hnot) (by simp)
        counted := hh.counted
        cancelled := hh.cancelled }
  case executing =>
    obtain ⟨_, rfl⟩ := Prod.mk.inj (Option.some.inj h)
    split
    · rename_i hslot
      exact hh.work hs rfl (by simp) (fun _ => rfl) (fun _ _ => hslot) id
    · rename_i hnone
      exact hh.work hs rfl (by simp) (fun hslot => absurd hslot hnone) (by simp) id
  case publish o =>
    have hslot := hh.publishing o hs
    have hrunning : τ.status = .running := hh.started.mpr ⟨hslot, by rw [hs]; rfl⟩
    have hran : τ.everRunning = true := ht.ran true (by rw [hs]; rfl)
    obtain ⟨_, rfl⟩ := Prod.mk.inj (Option.some.inj h)
    exact {
      cell := fun hinside => by
        have hopen := (hh.cell hinside).2.2
        simp [hrunning] at hopen
      unshared := fun hun => by
        have hpending := (hh.unshared hun).2
        simp [hrunning] at hpending
      pending := fun _ _ hnever => by cases hnever
      taken := fun hnever => by cases hnever
      started := ⟨fun hnever => (by cases hnever), fun hnever => (by cases hnever.2)⟩
      publishing := fun _ hnever => by cases hnever
      hook := fun _ _ hnot _ => absurd (hran.symm.trans hnot) (by simp)
      counted := fun _ hcounted => by
        have hcancelled := hh.counted hslot hcounted
        simp [hrunning] at hcancelled
      cancelled := by simpa [hrunning] using hh.cancelled }
  case dropReceiver =>
    obtain ⟨_, rfl⟩ := Prod.mk.inj (Option.some.inj h)
    split
    · rename_i hfull
      refine hh.carry { taken := by simp [hs], started := fun _ => by rw [hs]; rfl,
                        publishing := by simp } rfl rfl (fun _ => rfl) ?_ rfl
      simp [Task.payloadSlotRef, hs, hfull, WorkerPc.ownsClosure, ClosurePc.ownsSlotRef]
    · rename_i hnot
      refine hh.carry { taken := by simp [hs], started := fun _ => by rw [hs]; rfl,
                        publishing := by simp } rfl rfl (fun _ => rfl) ?_ rfl
      rw [Task.payloadSlotRef, Task.payloadSlotRef, hs, beq_false_of_ne hnot]
      rfl
  case ranClosure c | refusedClosure c | destroyClosure c =>
    rcases hc : closureStep τ c with ⟨τ₁, next⟩
    obtain ⟨hnext, hmove⟩ := closureStep_slot hc
    obtain ⟨_, _, rfl⟩ := closureStep_frame hc
    simp only [Option.some.injEq, Prod.mk.injEq, hc] at h
    obtain ⟨_, rfl⟩ := h
    refine hh.moveClosure { taken := by cases next <;> simp [hs],
                            started := fun _ => by rw [hs]; cases next <;> rfl,
                            publishing := by cases next <;> simp } hmove ?_ rfl rfl
    intro howns
    cases hn : next with
    | none => simp [Task.payloadSlotRef, hs, WorkerPc.ownsClosure, howns]
    | some c' => simp [Task.payloadSlotRef, hs, WorkerPc.ownsClosure, howns, hnext c' hn]
  case ranGuard d | refusedGuard d | destroyGuard d =>
    simp only [Option.map_eq_some_iff, Prod.mk.injEq, Prod.exists] at h
    obtain ⟨_, τ₁, next, hstep, rfl, rfl⟩ := h
    have hmove := hookMove_of_guardStep hstep
    have hreturned := submitter_of_placed hp (by rw [hs]; rfl)
    obtain ⟨_, _, _, _, _, _, rfl⟩ := guardStep_frame hstep
    refine hh.moveHook { taken := by cases next <;> simp [hs],
                         started := fun _ => by rw [hs]; cases next <;> rfl,
                         publishing := by cases next <;> simp } hmove ?_ ?_ ?_
    · cases next <;> simp [Task.payloadSlotRef, hs, WorkerPc.ownsClosure, ClosurePc.ownsSlotRef]
    · rw [hreturned]
      rfl
    · dsimp only
      rw [hreturned]
      rfl

theorem slotHeld_of_cancellerStep {j : Nat} (hr : Registry τ) (hh : SlotHeld τ)
    (h : cancellerStep t j g τ = some (g', τ')) : SlotHeld τ' := by
  obtain ⟨c, τ₁, c', hc, hstep, rfl⟩ := cancellerStep_cases h
  have hreturned := (hr.cancels (List.ne_nil_of_mem (mem_of_getElem? hc))).1
  have hsame : CancelPc.isWon c' = CancelPc.isWon c →
      (τ.cancels.set j c').countP CancelPc.isWon = τ.cancels.countP CancelPc.isWon :=
    countP_set_of_eq hc
  cases c <;> simp only [cancelStep] at hstep
  case cancel =>
    split at hstep
    · rename_i hpending
      have hcount := countP_set_add (y := c') CancelPc.isWon hc
      have hnone : τ.cancels.countP CancelPc.isWon ≤ 0 := by
        have hcancelled := hh.cancelled
        rwa [hpending, if_neg (by simp)] at hcancelled
      simp only [Option.some.injEq, Prod.mk.injEq] at hstep
      obtain ⟨_, rfl, rfl⟩ := hstep
      exact {
        cell := fun hinside => ⟨(hh.cell hinside).1, (hh.cell hinside).2.1, .inr rfl⟩
        unshared := fun hun => by
          dsimp only at hun
          rw [hreturned] at hun
          cases hun
        pending := fun _ _ hnever => by cases hnever
        taken := fun htaken => ⟨(hh.taken htaken).1, (hh.taken htaken).2.1, .inr rfl⟩
        started := ⟨fun hnever => (by cases hnever),
          fun hstarted => by simp [hh.started.mpr hstarted] at hpending⟩
        publishing := hh.publishing
        hook := hh.hook
        counted := fun _ _ => rfl
        cancelled := by
          rw [weight_of_false rfl, weight_of_true rfl, Nat.le_zero.mp hnone] at hcount
          exact hcount.le }
    · simp only [Option.some.injEq, Prod.mk.injEq] at hstep
      obtain ⟨_, rfl, rfl⟩ := hstep
      exact hh.carry { cancels := hsame rfl } rfl rfl (fun _ => rfl) rfl rfl
  case remove r =>
    simp only [Option.map_eq_some_iff, Prod.mk.injEq, Prod.exists] at hstep
    obtain ⟨_, τ₁, next, hstep, rfl, rfl, rfl⟩ := hstep
    have hmove := hookMove_of_removeStep hstep
    obtain ⟨_, _, _, _, rfl⟩ := removeAbortHandleStep_frame hstep
    refine hh.moveHook { cancels := hsame (by cases next <;> rfl) } hmove rfl ?_ ?_
    · rw [hreturned]
      rfl
    · dsimp only
      rw [hreturned]
      rfl
  case finish f =>
    simp only [Option.map_eq_some_iff, Prod.mk.injEq, Prod.exists] at hstep
    obtain ⟨_, next, _, rfl, rfl, rfl⟩ := hstep
    have hwon := hsame (by cases next <;> rfl)
    unfold Task.recordFinish
    split <;> exact hh.carry { cancels := hwon } rfl rfl (fun _ => rfl) rfl rfl
  case finishQueued =>
    unfold Task.finishQueued at hstep
    split at hstep <;> simp only [Option.some.injEq, Prod.mk.injEq] at hstep <;>
      obtain ⟨_, rfl, rfl⟩ := hstep <;>
      exact hh.carry { cancels := hsame rfl } rfl rfl (fun _ => rfl) rfl rfl
  case wakeCancelled | abort =>
    simp only [Option.some.injEq, Prod.mk.injEq] at hstep
    obtain ⟨_, rfl, rfl⟩ := hstep
    exact hh.carry { cancels := hsame rfl } rfl rfl (fun _ => rfl) rfl rfl
  case returned => cases hstep

theorem ownsHook_eq_false (hr : Registry τ) (h : τ.entry ≠ .absent) :
    τ.submitter.ownsHook = false := by
  have hclosed : ¬isOpen (submitterPhase τ.submitter) = true := fun hopen => h (hr.absent.mpr hopen)
  cases hs : τ.submitter with
  | registerUnlock inserted =>
      cases inserted with
      | true => rfl
      | false =>
          rw [hs] at hclosed
          exact absurd rfl hclosed
  | spawn | registerLock | register | dropHook =>
      rw [hs] at hclosed
      exact absurd rfl hclosed
  | lockSubmission | checkRunning | acceptLock | accept | acceptUnlock | rejectUnlock | rejected
  | shareSlot | wakeDropped | unlockSubmission | send | dropClosure | dropGuard | returned => rfl

theorem SlotHeld.setEntry {e : EntryPc} {state : TrackerState} {finishes : List Bool}
    {aborted : Bool} (hh : SlotHeld τ) (howns : e.ownsHook = τ.entry.ownsHook)
    (hcancelled : τ.hasSlot = true → EntryPc.isCancelled e = EntryPc.isCancelled τ.entry) :
    SlotHeld { τ with entry := e, taskState := state, finishes := finishes, aborted := aborted } :=
  hh.carry {} rfl rfl hcancelled rfl (by rw [Task.hookSlotRef, Task.hookSlotRef, howns])

theorem slotHeld_of_sweepStep {k : Nat} {p p' : SweepPc} (hr : Registry τ) (ht : Tracked τ)
    (hh : SlotHeld τ) (hentry : τ.entry = .sweeping k p)
    (h : sweepStep k g τ p = some (g', τ', p')) : SlotHeld { τ' with entry := .sweeping k p' } := by
  have howns := ownsHook_eq_false hr (by simp [hentry])
  cases p <;> simp only [sweepStep] at h
  case isFinished =>
    simp only [Option.some.injEq, Prod.mk.injEq] at h
    obtain ⟨_, rfl, rfl⟩ := h
    split <;> exact hh.setEntry (by rw [hentry]; rfl) (fun _ => by rw [hentry]; rfl)
  case abort | wakeCancelled | wakeDropped =>
    simp only [Option.some.injEq, Prod.mk.injEq] at h
    obtain ⟨_, rfl, rfl⟩ := h
    exact hh.setEntry (by rw [hentry]; rfl) (fun _ => by rw [hentry]; rfl)
  case finishQueued =>
    unfold Task.finishQueued at h
    split at h <;> simp only [Option.some.injEq, Prod.mk.injEq] at h <;>
      obtain ⟨_, rfl, rfl⟩ := h <;>
      exact hh.setEntry (by rw [hentry]; rfl) (fun _ => by rw [hentry]; rfl)
  case finish f =>
    simp only [Option.map_eq_some_iff, Prod.mk.injEq, Prod.exists] at h
    obtain ⟨_, next, _, rfl, rfl, rfl⟩ := h
    unfold Task.recordFinish
    cases next with
    | some f' => split <;> exact hh.setEntry (by rw [hentry]; rfl) (fun _ => by rw [hentry]; rfl)
    | none =>
        -- A runnable has no slot that the sweep could resolve.
        cases hslot : τ.hasSlot with
        | true => split <;> exact hh.setEntry (by rw [hentry]; rfl) (fun _ => by rw [hentry]; rfl)
        | false => split <;> exact hh.setEntry (by rw [hentry]; rfl) (by simp [hslot])
  case cancelUnstarted =>
    obtain ⟨hran, _⟩ := ht.entryWon (by rw [hentry]; rfl)
    have href : τ.hookSlotRef = true := by simp [Task.hookSlotRef, hentry, EntryPc.ownsHook,
      SweepPc.ownsHook]
    simp only [Option.some.injEq, Prod.mk.injEq] at h
    obtain ⟨_, rfl, rfl⟩ := h
    unfold Task.cancelUnstarted
    cases hinside : τ.slotInCell with
    | false =>
        have hnone : τ.hasSlot = true → False := fun hslot => by
          simp [hh.hook hslot href hran (by rw [hentry]; rfl)] at hinside
        exact hh.setEntry (by rw [hentry]; rfl) fun hslot => (hnone hslot).elim
    | true =>
        obtain ⟨hslot, _, hopen⟩ := hh.cell hinside
        have hcancelled : (if τ.status = .pending then .cancelled else τ.status) =
            TaskStatus.cancelled := by
          rcases hopen with hpending | hcancelled
          · simp [hpending]
          · simp [hcancelled]
        have hstarted : ¬(τ.hasSlot = true ∧ isStarted τ.worker = true) := by
          rw [← hh.started]
          rcases hopen with hpending | hcancelled
          · simp [hpending]
          · simp [hcancelled]
        rw [if_pos rfl, hcancelled]
        exact {
          cell := fun hnever => by cases hnever
          unshared := fun hun => by simp [(hh.unshared hun).1] at hinside
          pending := fun _ _ hnever => by cases hnever
          taken := fun htaken => by simp [(hh.taken htaken).2.1] at hinside
          started := ⟨fun hnever => (by cases hnever), fun h => (hstarted h).elim⟩
          publishing := hh.publishing
          hook := fun _ _ _ hnot => by
            dsimp only at hnot
            split at hnot <;> cases hnot
          counted := fun _ _ => rfl
          cancelled := hh.cancelled.trans (by split <;> simp) }
  case dropHook counted =>
    simp only [Option.some.injEq, Prod.mk.injEq] at h
    obtain ⟨_, rfl, rfl⟩ := h
    obtain ⟨inCell, status, heq⟩ := dropSlotRef_frame τ τ.payloadSlotRef
    have hmove : SlotHeld { τ with slotInCell := (τ.dropSlotRef τ.payloadSlotRef).1.slotInCell
                                   status := (τ.dropSlotRef τ.payloadSlotRef).1.status
                                   entry := .sweeping k (.next counted) } := by
      refine hh.dropRef _ {} rfl rfl ?_ .inl ?_
      · rw [hentry]
        exact id
      · rw [Task.hookSlotRef, howns]
        exact fun hnever => by cases hnever
    rw [heq] at hmove ⊢
    split
    · exact hmove.setEntry rfl fun _ => rfl
    · exact hmove
  case next => cases h

theorem slotHeld_of_callCancelStep (hh : SlotHeld τ) (h : callCancelStep τ = some τ') :
    SlotHeld τ' := by
  unfold callCancelStep at h
  split at h
  · obtain rfl := Option.some.inj h
    refine hh.carry { cancels := ?_ } rfl rfl (fun _ => rfl) rfl rfl
    rw [countP_append_singleton]
    rfl
  · cases h

theorem slotHeld_takeEntry {k : Nat} (hh : SlotHeld τ) : SlotHeld (takeEntry k τ) := by
  unfold takeEntry
  split
  · rename_i hentry
    exact hh.setEntry (by rw [hentry]; rfl) (fun _ => by rw [hentry]; rfl)
  · exact hh

theorem slotHeld_finishSweep {k : Nat} {counted : Bool} (hr : Registry τ) (hh : SlotHeld τ)
    (hentry : τ.entry = .sweeping k (.next counted)) : SlotHeld (finishSweep k counted τ) := by
  have howns := ownsHook_eq_false hr (by simp [hentry])
  have hafter : (finishSweep k counted τ).hookSlotRef = false := by
    simp [Task.hookSlotRef, finishSweep, howns, EntryPc.ownsHook]
  have hbefore : τ.hookSlotRef = false := by
    simp [Task.hookSlotRef, hentry, howns, EntryPc.ownsHook, SweepPc.ownsHook]
  have hcounted : (finishSweep k counted τ).countedBy ≠ [] →
      EntryPc.isCancelled τ.entry = true ∨ τ.countedBy ≠ [] := by
    rw [hentry]
    cases counted with
    | true => exact fun _ => .inl rfl
    | false => exact .inr
  refine hh.keep { counted := hcounted } rfl rfl (fun _ hnever => by cases hnever) ?_ ?_
  · rw [hafter, hbefore]
    exact id
  · rw [hafter]
    exact fun _ hnever => by cases hnever

theorem slotHeld_of_pickUpStep (hh : SlotHeld τ) (h : pickUpStep τ = some τ') : SlotHeld τ' := by
  unfold pickUpStep at h
  split at h
  · rename_i hw
    obtain rfl := Option.some.inj h
    split <;> exact hh.work hw rfl (by simp) (fun _ => rfl) (by simp) id
  · cases h

theorem slotHeld_of_destroyStep (hh : SlotHeld τ) (h : destroyStep τ = some τ') :
    SlotHeld τ' := by
  unfold destroyStep at h
  split at h
  · rename_i hw
    obtain rfl := Option.some.inj h
    exact hh.work hw rfl (by simp) (fun _ => rfl) (by simp) id
  · cases h

theorem slotHeld_of_taskStep {a : Action} (hp : Placed τ) (hr : Registry τ) (ht : Tracked τ)
    (hh : SlotHeld τ) (h : TaskStep t g τ a g' τ') : SlotHeld τ' := by
  cases h with
  | submitter h => exact slotHeld_of_submitterStep hp hr hh h
  | worker h => exact slotHeld_of_workerStep hp ht hh h
  | pickUp h => exact slotHeld_of_pickUpStep hh h
  | destroy h => exact slotHeld_of_destroyStep hh h
  | callCancel h => exact slotHeld_of_callCancelStep hh h
  | canceller h => exact slotHeld_of_cancellerStep hr hh h
  | sweepNext hentry => exact hh.setEntry (by rw [hentry]; rfl) (fun _ => by rw [hentry]; rfl)
  | sweep hentry hstep => exact slotHeld_of_sweepStep hr ht hh hentry hstep
  | finishSweep hentry => exact slotHeld_finishSweep hr hh hentry

end

end TokioExecutorProofs.BlockingTaskSlots
