import TokioExecutorProofs.IoAdmission
import TokioExecutorProofs.IoSweeps

/-!
What a stop call of the IO service reports and what it reaches. The active count
is read under the submission lock and the registry is emptied later, but after
the store only entries that were registered at the read can still be aborted.
-/

namespace TokioExecutorProofs.IoStop

open ServiceBasics
open IoServiceState
open IoServiceState.TokioIoExecutorServiceState
open ExecutorServiceLifecycleBits
open ExecutorServiceLifecycleBits.ExecutorServiceLifecycle
open IoTask
open IoService
open IoTaskInvariants
open IoAccounting
open IoTermination
open IoAdmission
open IoSweeps
open LifecycleViews
open ProcessFamilies
open TransitionSystems

/-! ### The positions of a stop call -/

/-- Only a stop call gets there. -/
def isStopOnly : CloserPc → Bool
  | .getActive | .takeLock | .take | .takeUnlock | .sweep => true
  | .lockSubmission | .store | .unlockSubmission | .notifyCapacity | .wakeCapacity
  | .notifyWaiters | .wakeTermination | .returned => false

/-- A stop call that has read the active count. -/
def hasRead : CloserPc → Bool
  | .lockSubmission | .store | .getActive => false
  | .unlockSubmission | .takeLock | .take | .takeUnlock | .sweep | .notifyCapacity
  | .wakeCapacity | .notifyWaiters | .wakeTermination | .returned => true

/-- A stop call that has emptied the registry. -/
def hasTaken : CloserPc → Bool
  | .lockSubmission | .store | .getActive | .unlockSubmission | .takeLock | .take => false
  | .takeUnlock | .sweep | .notifyCapacity | .wakeCapacity | .notifyWaiters
  | .wakeTermination | .returned => true

theorem hasStored_of_hasTaken {pc : CloserPc} (h : hasTaken pc = true) : hasStored pc = true := by
  cases pc <;> first | rfl | cases h

theorem hasStored_of_hasRead {pc : CloserPc} (h : hasRead pc = true) : hasStored pc = true := by
  cases pc <;> first | rfl | cases h

theorem report_of_closerStep {k : Nat} {g g' : TokioIoExecutorServiceState} {c c' : Closer}
    (h : closerStep k g c = some (g', c')) :
    c'.kind = c.kind ∧ c'.cancellationCount = c.cancellationCount ∧
      (isStopOnly c'.pc = true → c.kind = .stop ∨ isStopOnly c.pc = true) ∧
      (hasTaken c'.pc = false → hasTaken c.pc = false) ∧
      (c.kind = .stop → hasTaken c'.pc = hasTaken c.pc) ∧
      (c'.runningCount = c.runningCount ∨
        c.pc = .getActive ∧ c'.runningCount = g.activeTasks) ∧
      (c.kind = .stop → hasRead c'.pc = true →
        hasRead c.pc = true ∧ c'.runningCount = c.runningCount ∨
          c.pc = .getActive ∧ c'.runningCount = g.activeTasks) := by
  cases hpc : c.pc <;> simp only [closerStep, hpc] at h
  case take | sweep | returned => cases h
  case lockSubmission | takeLock =>
    simp only [map_acquire_eq_some, Prod.mk.injEq] at h
    obtain ⟨_, _, rfl⟩ := h
    simp [isStopOnly, hasTaken, hasRead]
  case store | unlockSubmission =>
    cases hkind : c.kind <;> simp only [hkind, Option.some.injEq, Prod.mk.injEq] at h <;>
      obtain ⟨_, rfl⟩ := h <;> simp [isStopOnly, hasTaken, hasRead]
  all_goals
    simp only [Option.some.injEq, Prod.mk.injEq] at h
    obtain ⟨_, rfl⟩ := h
    simp [isStopOnly, hasTaken, hasRead]

section

variable {taskCapacity : NonZeroUsize} {s s' : ServiceState} {a : Action} {t : TaskId} {τ : Task}

def closingView (taskCapacity : NonZeroUsize) : ClosingView (service taskCapacity) Closer where
  toLifecycleView := lifecycleView taskCapacity
  closers s := s.closers
  isStop c := c.kind = .stop
  isStopOnly c := isStopOnly c.pc = true
  hasStored c := hasStored c.pc = true
  beginsStop a := a = .callClose .stop
  noCloser := rfl
  closerMove := by
    intro s a s' hs hstep
    cases effect_of_step hstep with
    | newTask | newWaiter | task | waiter => exact .keep
    | newCloser kind =>
        exact .append ⟨Bool.false_ne_true, Bool.false_ne_true, congrArg Action.callClose⟩
    | sweepNext hc | sweepAbort hc => exact .set hc ⟨Iff.rfl, .inr, .inl⟩
    | take hc hpc =>
        refine .set hc ⟨Iff.rfl, fun _ => .inr ?_, fun _ => .inl ?_⟩ <;> rw [hpc] <;> rfl
    | endSweep hc hpc =>
        exact .set hc ⟨Iff.rfl, fun honly => absurd honly Bool.false_ne_true,
          fun _ => .inl (by rw [hpc]; rfl)⟩
    | closer hc hcstep =>
        obtain ⟨hkind, _, honly, _⟩ := report_of_closerStep hcstep
        refine .set hc ⟨by rw [hkind], honly, fun hpos => ?_⟩
        rcases hasStored_of_closerStep hcstep with ⟨hsame, _⟩ | ⟨_, _, hclosed⟩
        · exact .inl (hsame ▸ hpos)
        · exact .inr (isNotRunning_iff.mp hclosed)

theorem not_isAdmitted_of_hasStored (h : (service taskCapacity).Reachable s) {c : Closer}
    (hc : c ∈ s.closers) (hstored : hasStored c.pc = true) (hτ : τ ∈ s.tasks) :
    SubmitterPc.isAdmitted τ.submitter = false := by
  by_contra hadmitted
  exact (closingView taskCapacity).not_running_of_hasStored h c hc hstored
    ((admissionGate taskCapacity).running_of_isAdmitted h τ hτ
      (Bool.eq_true_of_not_eq_false hadmitted))

/-! ### Which entries a stop call can still abort -/

/-- The stop call `k` counts the task, or may still come to abort it. -/
def isCountable (k : Nat) (τ : Task) : Bool :=
  τ.entry == .registered || τ.entry == .taken k || τ.entry == .aborting k ||
    decide (k ∈ τ.countedBy)

theorem isCountable_iff {k : Nat} :
    isCountable k τ = true ↔ τ.entry = .registered ∨ τ.entry = .taken k ∨
      τ.entry = .aborting k ∨ k ∈ τ.countedBy := by
  simp only [isCountable, Bool.or_eq_true, beq_iff_eq, decide_eq_true_eq, or_assoc]

theorem isCountable_of_entryMove {τ' : Task} {k : Nat} (h : EntryMove τ τ' a)
    (hcountable : isCountable k τ' = true) :
    isCountable k τ = true ∨ τ.submitter = .register := by
  rw [isCountable_iff] at hcountable ⊢
  cases h with
  | keep hentry hcounted => exact .inl (by rwa [hentry, hcounted] at hcountable)
  | register hs | refuse hs => exact .inr hs
  | remove hbefore => exact .inl (.inl hbefore)
  | sweepNext hbefore hentry _ hcounted =>
      rw [hentry, hcounted] at hcountable
      split at hcountable <;> simp_all
  | sweepAbort hbefore hentry _ hcounted =>
      rw [hentry, hcounted] at hcountable
      simp only [reduceCtorEq, List.mem_append, List.mem_singleton, false_or] at hcountable
      rcases hcountable with hold | rfl
      · exact .inl (.inr (.inr (.inr hold)))
      · exact .inl (.inr (.inr (.inl hbefore)))

theorem isCountable_takeEntry {k k' : Nat} (hcountable : isCountable k (takeEntry k' τ) = true) :
    isCountable k τ = true := by
  unfold takeEntry at hcountable
  split at hcountable
  · exact isCountable_iff.mpr (.inl ‹_›)
  · exact hcountable

theorem not_registered_of_hasTaken (h : (service taskCapacity).Reachable s) :
    ∀ c ∈ s.closers, c.kind = .stop → hasTaken c.pc = true →
      ∀ τ ∈ s.tasks, τ.entry ≠ .registered := by
  refine Reachable.invariant (P := fun s => ∀ c ∈ s.closers, c.kind = .stop →
    hasTaken c.pc = true → ∀ τ ∈ s.tasks, τ.entry ≠ .registered) h (by simp [service]) ?_
  intro s a s' hs ih hnext
  have htask : ∀ {t τ a g' τ'}, s.tasks[t]? = some τ → TaskStep t s.shared τ a g' τ' →
      ∀ c ∈ s.closers, c.kind = .stop → hasTaken c.pc = true →
        ∀ τ₁ ∈ s.tasks.set t τ', τ₁.entry ≠ .registered := by
    intro t τ a g' τ' hτ hτstep c hc hkind hpc
    have hmem := mem_of_getElem? hτ
    obtain ⟨hi, hm⟩ := marked_of_reachable hs τ hmem
    refine forall_mem_set (ih c hc hkind hpc) fun hentry' => ?_
    have hclosed := not_isAdmitted_of_hasStored hs hc (hasStored_of_hasTaken hpc) hmem
    cases entryMove_of_taskStep hi hm hτstep with
    | keep hentry => exact ih c hc hkind hpc τ hmem (hentry.symm.trans hentry')
    | register hs' =>
        rw [hs'] at hclosed
        cases hclosed
    | refuse _ _ hentry | remove _ _ hentry | sweepAbort _ hentry =>
        rw [hentry'] at hentry
        cases hentry
    | sweepNext _ hentry =>
        rw [hentry'] at hentry
        split at hentry <;> cases hentry
  cases effect_of_step hnext with
  | newTask =>
      exact fun c hc hkind hpc => forall_mem_append (ih c hc hkind hpc) (by simp)
  | newWaiter | waiter => exact ih
  | newCloser => exact forall_mem_append ih fun _ hpc => by cases hpc
  | task hτ hτstep => exact htask hτ hτstep
  | sweepNext hc _ _ hτ hentry =>
      have hall := htask hτ (.sweepNext hentry)
      have hself := hall _ (mem_of_getElem? hc)
      exact forall_mem_set hall hself
  | sweepAbort hc _ hτ hentry =>
      have hall := htask hτ (.sweepAbort hentry)
      have hself := hall _ (mem_of_getElem? hc)
      exact forall_mem_set hall hself
  | take =>
      intro c _ _ _ τ' hτ'
      obtain ⟨τ, _, rfl⟩ := List.mem_map.mp hτ'
      unfold takeEntry
      split
      · simp
      · assumption
  | endSweep hc hpc =>
      have hold := ih _ (mem_of_getElem? hc)
      exact forall_mem_set ih fun hkind _ => hold hkind (by rw [hpc]; rfl)
  | closer hc hcstep =>
      obtain ⟨hkind, _, _, _, htaken, _⟩ := report_of_closerStep hcstep
      have hold := ih _ (mem_of_getElem? hc)
      refine forall_mem_set ih fun hstop hpc => ?_
      rw [hkind] at hstop
      exact hold hstop (htaken hstop ▸ hpc)

/-! ### The report of a stop call -/

/-- The report of the stop call `k` counts the task. -/
def isCountedBy (k : Nat) (τ : Task) : Bool := decide (k ∈ τ.countedBy)

/-- Before the sweep, and in a shutdown, nothing has been counted. -/
def isEarly (c : Closer) : Prop := hasTaken c.pc = false ∨ c.kind = .shutdown

theorem isCountedBy_takeEntry (k k' : Nat) (τ : Task) :
    isCountedBy k (takeEntry k' τ) = isCountedBy k τ := by
  unfold takeEntry
  split <;> rfl

theorem reportMove_of_step (hs : (service taskCapacity).Reachable s)
    (hnext : (service taskCapacity).step a s = some s') :
    ReportMove isCountedBy (·.cancellationCount) isEarly s.tasks s.closers s'.tasks s'.closers := by
  cases effect_of_step hnext with
  | newTask => exact .keep (fun k => countP_append_singleton _) .keep
  | newWaiter | waiter => exact .keep (fun _ => rfl) .keep
  | newCloser => exact .keep (fun _ => rfl) (.append rfl)
  | task hτ hτstep _ habort =>
      obtain ⟨hi, hm⟩ := marked_of_reachable hs _ (mem_of_getElem? hτ)
      refine .keep (fun k => countP_set_of_eq hτ ?_) .keep
      cases entryMove_of_taskStep hi hm hτstep with
      | keep _ hcounted | register _ _ hcounted | refuse _ _ _ hcounted
        | remove _ _ _ hcounted | sweepNext _ _ _ hcounted =>
          rw [isCountedBy, hcounted, isCountedBy]
      | sweepAbort => exact absurd rfl (habort _)
  | sweepNext hc _ _ hτ =>
      exact .keep (fun k => countP_set_of_eq hτ rfl) (.set hc ⟨rfl, id⟩)
  | @sweepAbort k c t τ hc hcurrent hτ hentry =>
      have howned := owned_of_reachable hs t τ hτ
      have ha := accounted_of_reachable hs τ (mem_of_getElem? hτ)
      have hnil : τ.countedBy = [] := by
        by_contra hne
        have hgone := (ha.once hne).1
        rw [hentry] at hgone
        cases hgone
      have hafter : ∀ k', isCountedBy k' (sweepAbort k τ) = (true && decide (k' = k)) := by
        simp [isCountedBy, sweepAbort, hnil]
      refine .sweep hc hτ (fun k' => ?_) hafter rfl fun hearly => ?_
      · simp [isCountedBy, hnil]
      · rw [hentry] at howned
        obtain ⟨c₁, hc₁, hpc, _⟩ := howned
        obtain rfl := Option.some.inj (hc₁.symm.trans hc)
        have hkind : c₁.kind = .stop := (closingView taskCapacity).isStop_of_isStopOnly hs c₁
          (mem_of_getElem? hc) (congrArg isStopOnly hpc)
        simp [isEarly, hpc, hkind, hasTaken] at hearly
  | take hc hpc =>
      refine .keep (fun k => countP_map_of_eq fun _ _ => isCountedBy_takeEntry k _ _) ?_
      exact .set hc ⟨rfl, fun _ => .inl (by rw [hpc]; rfl)⟩
  | endSweep hc =>
      refine .keep (fun _ => rfl) (.set hc ⟨rfl, fun hearly => ?_⟩)
      exact .inr (hearly.resolve_left (by simp [hasTaken]))
  | closer hc hcstep =>
      obtain ⟨hkind, hsame, _, hback, _⟩ := report_of_closerStep hcstep
      refine .keep (fun _ => rfl) (.set hc ⟨hsame, fun hearly => ?_⟩)
      exact hearly.imp hback hkind.symm.trans

theorem credited (h : (service taskCapacity).Reachable s) :
    Credited isCountedBy (·.cancellationCount) isEarly s.tasks s.closers :=
  credited_of_reachable (·.tasks) (·.closers) h rfl rfl
    fun _ _ _ => reportMove_of_step

/-- Whatever a stop call could abort is active when it reads the active count. -/
theorem isActive_of_isCountable {k : Nat} {c : Closer} (h : (service taskCapacity).Reachable s)
    (hc : s.closers[k]? = some c) (hpc : c.pc = .getActive) (hτ : τ ∈ s.tasks)
    (hcountable : isCountable k τ = true) : isActive τ = true := by
  obtain ⟨t, ht⟩ := List.mem_iff_getElem?.mp hτ
  have howned := owned_of_reachable h t τ ht
  have hi := taskInvariant_of_reachable h τ hτ
  rcases isCountable_iff.mp hcountable with hentry | hentry | hentry | hcounted
  · have hclosed := hi.absent.not.mp (by rw [hentry]; simp)
    have hreleased : (stage τ).isReleased = false := by
      have hpast := hi.registered hentry
      cases hstage : stage τ with
      | droppingGuard d =>
          rw [hstage] at hpast
          cases d <;> first | rfl | cases hpast
      | _ => rw [hstage] at hpast; first | rfl | cases hpast
    have hzero := hi.decrements
    rw [hreleased] at hzero
    have haccepted : isAccepted τ.submitter = true := by
      cases hs : τ.submitter <;> rw [hs] at hclosed <;> first | rfl | simp [isOpen] at hclosed
    simp [isActive, haccepted, hzero]
  · rw [hentry] at howned
    obtain ⟨c₁, hc₁, hpc₁⟩ := howned
    obtain rfl := Option.some.inj (hc₁.symm.trans hc)
    simp [hpc] at hpc₁
  · rw [hentry] at howned
    obtain ⟨c₁, hc₁, hpc₁, _⟩ := howned
    obtain rfl := Option.some.inj (hc₁.symm.trans hc)
    simp [hpc] at hpc₁
  · have hcredited := credited h
    have hzero := hcredited.credit k
    rw [hc, Option.elim, hcredited.early c (mem_of_getElem? hc) (.inl (by rw [hpc]; rfl)),
      countP_eq_zero_iff] at hzero
    have := hzero τ hτ
    simp [isCountedBy, hcounted] at this

/-- A stop call aborts no more tasks than were active at its read. -/
theorem countable_le_running (h : (service taskCapacity).Reachable s) :
    ∀ (k : Nat) (c : Closer), s.closers[k]? = some c → c.kind = .stop →
      hasRead c.pc = true → s.tasks.countP (isCountable k) ≤ c.runningCount := by
  refine Reachable.invariant (P := fun s => ∀ (k : Nat) (c : Closer), s.closers[k]? = some c →
    c.kind = .stop → hasRead c.pc = true →
      s.tasks.countP (isCountable k) ≤ c.runningCount) h (by simp [service]) ?_
  intro s a s' hs ih hnext
  have htask : ∀ {t τ a g' τ'}, s.tasks[t]? = some τ → TaskStep t s.shared τ a g' τ' →
      ∀ (k : Nat) (c : Closer), s.closers[k]? = some c → c.kind = .stop →
        hasRead c.pc = true → (s.tasks.set t τ').countP (isCountable k) ≤ c.runningCount := by
    intro t τ a g' τ' hτ hτstep k c hc hkind hpc
    have hmem := mem_of_getElem? hτ
    obtain ⟨hi, hm⟩ := marked_of_reachable hs τ hmem
    refine (countP_set_le hτ fun hcountable => ?_).trans (ih k c hc hkind hpc)
    rcases isCountable_of_entryMove (entryMove_of_taskStep hi hm hτstep) hcountable with
      hold | hregister
    · exact hold
    · have hclosed := not_isAdmitted_of_hasStored hs (mem_of_getElem? hc)
        (hasStored_of_hasRead hpc) hmem
      rw [hregister] at hclosed
      cases hclosed
  cases effect_of_step hnext with
  | newTask =>
      intro k c hc hkind hpc
      rw [countP_append_singleton, weight_of_false (by rfl)]
      exact ih k c hc hkind hpc
  | newWaiter | waiter => exact ih
  | newCloser =>
      intro k c hc hkind hpc
      rcases getElem?_append_cases hc with hc | ⟨_, rfl⟩
      · exact ih k c hc hkind hpc
      · cases hpc
  | task hτ hτstep => exact htask hτ hτstep
  | sweepNext hc _ _ hτ hentry =>
      intro k c₁ hc₁ hkind hpc
      rcases getElem?_set_cases hc₁ with ⟨rfl, rfl⟩ | ⟨_, hc₁⟩
      · have hle := htask hτ (.sweepNext hentry) _ _ hc hkind hpc
        exact hle
      · exact htask hτ (.sweepNext hentry) k c₁ hc₁ hkind hpc
  | sweepAbort hc _ hτ hentry =>
      intro k c₁ hc₁ hkind hpc
      rcases getElem?_set_cases hc₁ with ⟨rfl, rfl⟩ | ⟨_, hc₁⟩
      · have hle := htask hτ (.sweepAbort hentry) _ _ hc hkind hpc
        exact hle
      · exact htask hτ (.sweepAbort hentry) k c₁ hc₁ hkind hpc
  | take hc hpc₀ =>
      intro k c₁ hc₁ hkind hpc
      have hmap : ∀ k', (s.tasks.map (takeEntry k')).countP (isCountable k) ≤
          s.tasks.countP (isCountable k) := by
        intro k'
        rw [List.countP_map]
        exact List.countP_mono_left fun _ _ => isCountable_takeEntry
      rcases getElem?_set_cases hc₁ with ⟨rfl, rfl⟩ | ⟨_, hc₁⟩
      · have hle := ih _ _ hc hkind (by rw [hpc₀]; rfl)
        exact (hmap _).trans hle
      · exact (hmap _).trans (ih k c₁ hc₁ hkind hpc)
  | endSweep hc hpc₀ =>
      intro k c₁ hc₁ hkind hpc
      rcases getElem?_set_cases hc₁ with ⟨rfl, rfl⟩ | ⟨_, hc₁⟩
      · have hle := ih _ _ hc hkind (by rw [hpc₀]; rfl)
        exact hle
      · exact ih k c₁ hc₁ hkind hpc
  | closer hc hcstep =>
      intro k c₁ hc₁ hkind hpc
      rcases getElem?_set_cases hc₁ with ⟨rfl, rfl⟩ | ⟨_, hc₁⟩
      · obtain ⟨hsame, _, _, _, _, _, hreport⟩ := report_of_closerStep hcstep
        rw [hsame] at hkind
        rcases hreport hkind hpc with ⟨hbefore, hrunning⟩ | ⟨hread, hrunning⟩
        · rw [hrunning]
          exact ih _ _ hc hkind hbefore
        · rw [hrunning, (conserved_of_reachable hs).active]
          exact List.countP_mono_left fun τ hτ => isActive_of_isCountable hs hc hread hτ
      · exact ih k c₁ hc₁ hkind hpc

theorem runningCount_le_taskCapacity (h : (service taskCapacity).Reachable s) :
    ∀ c ∈ s.closers, c.runningCount ≤ taskCapacity.get := by
  refine Reachable.invariant (P := fun s => ∀ c ∈ s.closers,
    c.runningCount ≤ taskCapacity.get) h (by simp [service]) ?_
  intro s a s' hs ih hnext
  cases effect_of_step hnext with
  | newTask | newWaiter | task | waiter => exact ih
  | newCloser => exact forall_mem_append ih (Nat.zero_le _)
  | sweepNext hc | sweepAbort hc | take hc | endSweep hc =>
      have hold := ih _ (mem_of_getElem? hc)
      exact forall_mem_set ih hold
  | closer hc hcstep =>
      obtain ⟨_, _, _, _, _, hrunning, _⟩ := report_of_closerStep hcstep
      refine forall_mem_set ih ?_
      rcases hrunning with hsame | ⟨_, hread⟩
      · rw [hsame]
        exact ih _ (mem_of_getElem? hc)
      · rw [hread]
        exact (conserved_of_reachable hs).bounded

theorem cancellationCount_le_runningCount {k : Nat} {c : Closer}
    (h : (service taskCapacity).Reachable s) (hc : s.closers[k]? = some c)
    (hkind : c.kind = .stop) : c.cancellationCount ≤ c.runningCount := by
  have hcredited := credited h
  have hcredit := hcredited.credit k
  rw [hc, Option.elim] at hcredit
  cases hpc : hasRead c.pc with
  | false =>
      have hearly : hasTaken c.pc = false := by
        cases hc : c.pc <;> first | rfl | (rw [hc] at hpc; cases hpc)
      rw [hcredited.early c (mem_of_getElem? hc) (.inl hearly)]
      exact Nat.zero_le _
  | true =>
      rw [← hcredit]
      refine le_trans (List.countP_mono_left fun τ hτ hcounted => ?_)
        (countable_le_running h k c hc hkind hpc)
      exact isCountable_iff.mpr (.inr (.inr (.inr (by simpa [isCountedBy] using hcounted))))

/-! ### No future is left running -/

/-- When no stop call is in progress and one has returned, nobody has the entry of
an accepted task. -/
theorem gone_of_stopped (h : (service taskCapacity).Reachable s)
    (hreturned : ∃ c ∈ s.closers, c.kind = .stop ∧ c.pc = .returned)
    (hidle : ∀ c ∈ s.closers, c.kind = .stop → c.pc = .returned) (hτ : τ ∈ s.tasks)
    (haccepted : isAccepted τ.submitter = true) : τ.entry = .gone := by
  obtain ⟨c, hc, hkind, hpc⟩ := hreturned
  obtain ⟨t, ht⟩ := List.mem_iff_getElem?.mp hτ
  have hi := taskInvariant_of_reachable h τ hτ
  have hclosed := not_isAdmitted_of_hasStored h hc (by rw [hpc]; rfl) hτ
  have howned := owned_of_reachable h t τ ht
  have hdone : ∀ (k : Nat) (c : Closer), s.closers[k]? = some c →
      isStopOnly c.pc = true → False := by
    intro k c₁ hc₁ hpos
    have hmem₁ := mem_of_getElem? hc₁
    have hkind₁ := (closingView taskCapacity).isStop_of_isStopOnly h c₁ hmem₁ hpos
    rw [hidle c₁ hmem₁ hkind₁] at hpos
    cases hpos
  cases hentry : τ.entry with
  | absent =>
      have hopen := hi.absent.mp hentry
      cases hs : τ.submitter <;>
        simp [hs, isAccepted, SubmitterPc.isAdmitted, isOpen] at haccepted hclosed hopen
  | registered =>
      exact absurd hentry (not_registered_of_hasTaken h c hc hkind (by rw [hpc]; rfl) τ hτ)
  | taken k =>
      rw [hentry] at howned
      obtain ⟨c₁, hc₁, hpc₁ | hpc₁⟩ := howned
      · exact (hdone k c₁ hc₁ (by rw [hpc₁]; rfl)).elim
      · exact (hdone k c₁ hc₁ (by rw [hpc₁]; rfl)).elim
  | aborting k =>
      rw [hentry] at howned
      obtain ⟨c₁, hc₁, hpc₁, _⟩ := howned
      exact (hdone k c₁ hc₁ (by rw [hpc₁]; rfl)).elim
  | gone => rfl

/-- The reports are consistent, no task is counted twice, and no accepted future is
left running unsignalled. The first step of a guard's drop finishes the marker. -/
theorem stop_reaches_every_future (h : (service taskCapacity).Reachable s) :
    (∀ (k : Nat) (c : Closer), s.closers[k]? = some c → c.kind = .stop →
      c.cancellationCount ≤ c.runningCount ∧ c.runningCount ≤ taskCapacity.get ∧
        c.cancellationCount = s.tasks.countP (fun τ => decide (k ∈ τ.countedBy))) ∧
    (∀ τ ∈ s.tasks, τ.countedBy.length ≤ 1) ∧
    ((∃ c ∈ s.closers, c.kind = .stop ∧ c.pc = .returned) →
      (∀ c ∈ s.closers, c.kind = .stop → c.pc = .returned) →
        ∀ τ ∈ s.tasks, isAccepted τ.submitter = true → τ.markerFinished = false →
          τ.countedBy ≠ [] ∧ τ.aborted = true ∨ τ.worker = .finished) := by
  refine ⟨fun k c hc hkind => ⟨?_, ?_, ?_⟩, fun τ hτ => ?_, ?_⟩
  · exact cancellationCount_le_runningCount h hc hkind
  · exact runningCount_le_taskCapacity h c (mem_of_getElem? hc)
  · have hcredit := (credited h).credit k
    rw [hc] at hcredit
    exact hcredit.symm
  · by_cases hnil : τ.countedBy = []
    · simp [hnil]
    · exact ((accounted_of_reachable h τ hτ).once hnil).2.1.le
  · intro hreturned hidle τ hτ haccepted hmarker
    have ha := accounted_of_reachable h τ hτ
    have hgone := gone_of_stopped h hreturned hidle hτ haccepted
    rcases ha.gone hgone with hbegun | hfinished | hcounted
    · rw [hmarker] at hbegun
      cases hbegun
    · exact .inr hfinished
    · exact .inl ⟨hcounted, (ha.once hcounted).2.2⟩

end

/-- A stop call that finds one registered future and aborts it. -/
def stopping (k : Nat) (t : TaskId) : List Action :=
  .callClose .stop :: List.replicate 7 (.closer k) ++ .sweepNext k t :: .sweepAbort k ::
    List.replicate 5 (.closer k)

/-- The stop call comes between the registration and the delivery of a future. -/
theorem stop_reaches_every_future_undelivered : ∃ s, (service oneSlot).execute
    (.callSpawn :: List.replicate 9 (.submitter 0 false) ++ stopping 0 0)
      (service oneSlot).start = some s ∧
    s.closers.map (fun c => (c.runningCount, c.cancellationCount)) = [(1, 1)] ∧
    ∀ τ ∈ s.tasks, τ.submitter = .send ∧ τ.countedBy.length ≤ 1 ∧
      (τ.countedBy ≠ [] ∧ τ.aborted = true ∨ τ.worker = .finished) := by
  have hexecute : ((service oneSlot).execute
      (.callSpawn :: List.replicate 9 (.submitter 0 false) ++ stopping 0 0)
        (service oneSlot).start).map (fun s =>
          (s.tasks.map fun τ => (τ.submitter, τ.markerFinished),
            s.closers.map fun c => (c.kind, c.pc, c.runningCount, c.cancellationCount))) =
      some ([(.send, false)], [(.stop, .returned, 1, 1)]) := rfl
  obtain ⟨s, hs, hview⟩ := Option.map_eq_some_iff.mp hexecute
  rw [Prod.mk.injEq, List.map_eq_singleton_iff, List.map_eq_singleton_iff] at hview
  obtain ⟨⟨τ, htasks, hτ⟩, ⟨c, hclosers, hc⟩⟩ := hview
  simp only [Prod.mk.injEq] at hτ hc
  obtain ⟨hsubmitter, hmarker⟩ := hτ
  obtain ⟨hkind, hpc, hrunning, hcancelled⟩ := hc
  obtain ⟨_, honce, hreached⟩ := stop_reaches_every_future (Reachable.of_execute hs)
  refine ⟨s, hs, by simp [hclosers, hrunning, hcancelled], fun τ₁ hτ₁ => ?_⟩
  obtain rfl : τ₁ = τ := by simpa [htasks] using hτ₁
  refine ⟨hsubmitter, honce τ₁ hτ₁, hreached ?_ ?_ τ₁ hτ₁ (by rw [hsubmitter]; rfl) hmarker⟩
  · exact ⟨c, by simp [hclosers], hkind, hpc⟩
  · simp [hclosers, hpc]

end TokioExecutorProofs.IoStop
