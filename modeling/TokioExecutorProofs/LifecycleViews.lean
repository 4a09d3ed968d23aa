import TokioExecutorProofs.ExecutorServiceLifecycleBits
import TokioExecutorProofs.ProcessFamilies
import TokioExecutorProofs.TransitionSystems

/-!
What the lifecycles of the two services have in common. Only closing calls change
the stored byte, submissions are admitted while it says running, and a service that
is closed and idle stays so. Each service shows once what its steps do to the byte,
to the closing calls and to their reports.
-/

namespace TokioExecutorProofs.LifecycleViews

open ExecutorServiceLifecycleBits
open ExecutorServiceLifecycleBits.ExecutorServiceLifecycle
open ProcessFamilies
open TransitionSystems

universe u v w x

inductive StoredMove (lifecycle : UInt8) : UInt8 → Prop
  | keep : StoredMove lifecycle lifecycle
  | shutdown : StoredMove lifecycle (ExecutorServiceLifecycleBits.shutdown lifecycle)
  | stop : StoredMove lifecycle (ExecutorServiceLifecycleBits.stop lifecycle)

variable {State : Type u} {Action : Type v} {sys : TransitionSystem State Action}
variable {s s' s₁ s₂ s₃ s₄ : State}

/-- Where a service keeps its lifecycle byte. -/
structure LifecycleView (sys : TransitionSystem State Action) where
  stored : State → UInt8
  running : load (stored sys.start) = running
  storedMove : ∀ {s a s'}, sys.Reachable s → sys.step a s = some s' →
    StoredMove (stored s) (stored s')

namespace LifecycleView

variable (view : LifecycleView sys)

/-- `terminated` is never stored. -/
theorem load_le_stopping (h : sys.Reachable s) : load (view.stored s) ≤ stopping := by
  refine Reachable.invariant (P := fun s => load (view.stored s) ≤ stopping) h ?_ ?_
  · rw [view.running]
    exact le_of_lt (by decide : ExecutorServiceLifecycle.running < stopping)
  intro s a s' hs ih hstep
  have hmove := view.storedMove hs hstep
  generalize view.stored s' = lifecycle at hmove
  cases hmove with
  | keep => exact ih
  | shutdown =>
      rw [load_shutdown]
      split
      · decide
      · exact ih
  | stop => rw [load_stop]

theorem load_ne_terminated (h : sys.Reachable s) : load (view.stored s) ≠ terminated := by
  intro heq
  have hle := view.load_le_stopping h
  rw [heq] at hle
  revert hle
  decide

theorem load_le_of_run (h : sys.Reachable s) (hrun : sys.Run s s') :
    load (view.stored s) ≤ load (view.stored s') := by
  refine Run.stable (P := fun s' => load (view.stored s) ≤ load (view.stored s')) h hrun le_rfl ?_
  intro s₁ a s₂ hs₁ ih hstep
  refine ih.trans ?_
  have hmove := view.storedMove hs₁ hstep
  generalize view.stored s₂ = lifecycle at hmove
  cases hmove with
  | keep => exact le_rfl
  | shutdown => exact load_le_load_shutdown _
  | stop =>
      rw [load_stop]
      exact view.load_le_stopping hs₁

theorem not_running_of_run (h : sys.Reachable s) (hrun : sys.Run s s')
    (hclosed : load (view.stored s) ≠ .running) : load (view.stored s') ≠ .running := by
  intro hrunning
  have hle := view.load_le_of_run h hrun
  rw [hrunning] at hle
  revert hle hclosed
  cases load (view.stored s) <;> decide

theorem not_running_of_step {a : Action} (h : sys.Reachable s) (hstep : sys.step a s = some s')
    (hclosed : load (view.stored s) ≠ .running) : load (view.stored s') ≠ .running :=
  view.not_running_of_run h (RunUnder.tail (runUnder_refl s) trivial hstep) hclosed

end LifecycleView

/-! ### Admission -/

/-- The submissions of a service. They are admitted under a lock that the closing
call holds which stores the byte. -/
structure AdmissionGate (sys : TransitionSystem State Action) (Task : Type w)
    extends LifecycleView sys where
  tasks : State → List Task
  isAdmitted : Task → Bool
  noTask : tasks sys.start = []
  admissionMove : ∀ {s a s'}, sys.Reachable s → sys.step a s = some s' →
    stored s' = stored s ∧
        FamilyMove (fun τ => isAdmitted τ = false)
          (fun τ τ' => isAdmitted τ' = true → isAdmitted τ = true ∨ load (stored s) = .running)
          (tasks s) (tasks s') ∨
      ∀ τ ∈ tasks s', isAdmitted τ = false

theorem AdmissionGate.running_of_isAdmitted {Task : Type w} (gate : AdmissionGate sys Task)
    (h : sys.Reachable s) :
    ∀ τ ∈ gate.tasks s, gate.isAdmitted τ = true → load (gate.stored s) = .running := by
  refine Reachable.invariant (P := fun s => ∀ τ ∈ gate.tasks s, gate.isAdmitted τ = true →
    load (gate.stored s) = .running) h (by simp [gate.noTask]) ?_
  intro s a s' hs ih hstep
  rcases gate.admissionMove hs hstep with ⟨hsame, hmove⟩ | hnobody
  · rw [hsame]
    refine hmove.forall_mem ?_ ?_ ih
    · intro τ hfresh hadmitted
      rw [hfresh] at hadmitted
      cases hadmitted
    · intro τ τ' _ hmove hbefore hadmitted
      exact (hmove hadmitted).elim hbefore id
  · intro τ hτ hadmitted
    rw [hnobody τ hτ] at hadmitted
    cases hadmitted

/-! ### Closing calls -/

/-- The closing calls of a service: which of them are stop calls, which positions
only a stop call gets to, and which come after the store. -/
structure ClosingView (sys : TransitionSystem State Action) (Closer : Type w)
    extends LifecycleView sys where
  closers : State → List Closer
  isStop : Closer → Prop
  isStopOnly : Closer → Prop
  hasStored : Closer → Prop
  beginsStop : Action → Prop
  noCloser : closers sys.start = []
  closerMove : ∀ {s a s'}, sys.Reachable s → sys.step a s = some s' →
    FamilyMove
      (fun c => ¬ isStopOnly c ∧ ¬ hasStored c ∧ (isStop c → beginsStop a))
      (fun c c' => (isStop c' ↔ isStop c) ∧ (isStopOnly c' → isStop c ∨ isStopOnly c) ∧
        (hasStored c' → hasStored c ∨ load (stored s') ≠ .running))
      (closers s) (closers s')

namespace ClosingView

variable {Closer : Type w} (view : ClosingView sys Closer)

theorem isStop_of_isStopOnly (h : sys.Reachable s) :
    ∀ c ∈ view.closers s, view.isStopOnly c → view.isStop c := by
  refine Reachable.invariant
    (P := fun s => ∀ c ∈ view.closers s, view.isStopOnly c → view.isStop c) h
    (by simp [view.noCloser]) ?_
  intro s a s' hs ih hstep
  refine (view.closerMove hs hstep).forall_mem ?_ ?_ ih
  · exact fun c hfresh honly => absurd honly hfresh.1
  · exact fun c c' _ hmove hbefore honly => hmove.1.mpr ((hmove.2.1 honly).elim id hbefore)

/-- The service is closed as soon as one closing call has stored. -/
theorem not_running_of_hasStored (h : sys.Reachable s) :
    ∀ c ∈ view.closers s, view.hasStored c → load (view.stored s) ≠ .running := by
  refine Reachable.invariant (P := fun s => ∀ c ∈ view.closers s, view.hasStored c →
    load (view.stored s) ≠ .running) h (by simp [view.noCloser]) ?_
  intro s a s' hs ih hstep
  have hkept : ∀ c ∈ view.closers s, view.hasStored c → load (view.stored s') ≠ .running :=
    fun c hc hstored => view.not_running_of_step hs hstep (ih c hc hstored)
  refine (view.closerMove hs hstep).forall_mem ?_ ?_ hkept
  · exact fun c hfresh hstored => absurd hstored hfresh.2.1
  · exact fun c c' _ hmove hbefore hstored => (hmove.2.2 hstored).elim hbefore id

theorem not_isStop_of_reachableUnder {allowed : State → Action → Prop}
    (hallowed : ∀ s a, allowed s a → ¬ view.beginsStop a) (h : sys.ReachableUnder allowed s) :
    ∀ c ∈ view.closers s, ¬ view.isStop c := by
  refine ReachableUnder.invariant (P := fun s => ∀ c ∈ view.closers s, ¬ view.isStop c) h
    (by simp [view.noCloser]) ?_
  intro s a s' hs ih ha hstep
  refine (view.closerMove (ReachableUnder.reachable hs) hstep).forall_mem ?_ ?_ ih
  · exact fun c hfresh hstop => hallowed s a ha (hfresh.2.2 hstop)
  · exact fun c c' _ hmove hbefore hstop => hbefore (hmove.1.mp hstop)

end ClosingView

/-! ### The reports of stop calls -/

section

variable {Task : Type w} {Closer : Type x} (isCountedBy : Nat → Task → Bool)
variable (cancellationCount : Closer → Nat) (isEarly : Closer → Prop)

/-- Units of a report are counted tasks, and an early report is empty. -/
structure Credited (tasks : List Task) (closers : List Closer) : Prop where
  credit : ∀ k : Nat, tasks.countP (isCountedBy k) = (closers[k]?).elim 0 cancellationCount
  early : ∀ c ∈ closers, isEarly c → cancellationCount c = 0

/-- One unit of a report is one task that no report has counted before. -/
inductive ReportMove (tasks : List Task) (closers : List Closer) :
    List Task → List Closer → Prop
  | keep {tasks' closers'}
      (htasks : ∀ k : Nat, tasks'.countP (isCountedBy k) = tasks.countP (isCountedBy k))
      (hclosers : FamilyMove (fun c => cancellationCount c = 0)
        (fun c c' => cancellationCount c' = cancellationCount c ∧ (isEarly c' → isEarly c))
        closers closers') : ReportMove tasks closers tasks' closers'
  | sweep {k t : Nat} {c c' τ τ'} {counted : Bool} (hc : closers[k]? = some c)
      (hτ : tasks[t]? = some τ) (hbefore : ∀ k', isCountedBy k' τ = false)
      (hafter : ∀ k', isCountedBy k' τ' = (counted && decide (k' = k)))
      (hcount : cancellationCount c' = cancellationCount c + counted.toNat)
      (hlate : ¬ isEarly c') : ReportMove tasks closers (tasks.set t τ') (closers.set k c')

variable {isCountedBy cancellationCount isEarly}
variable {tasks tasks' : List Task} {closers closers' : List Closer}

theorem Credited.move (h : Credited isCountedBy cancellationCount isEarly tasks closers)
    (hmove : ReportMove isCountedBy cancellationCount isEarly tasks closers tasks' closers') :
    Credited isCountedBy cancellationCount isEarly tasks' closers' := by
  obtain ⟨hcredit, hearly⟩ := h
  cases hmove with
  | keep htasks hclosers =>
      constructor
      · intro k
        rw [htasks, hcredit]
        exact (hclosers.apply_getElem? (fun c => c.elim 0 cancellationCount) (fun c hc => hc)
          (fun c c' hmove => hmove.1) k).symm
      · refine hclosers.forall_mem (fun c hfresh _ => hfresh) ?_ hearly
        exact fun c c' _ hmove hbefore hc' => hmove.1.trans (hbefore (hmove.2 hc'))
  | @sweep k t c c' τ τ' counted hc hτ hbefore hafter hcount hlate =>
      constructor
      · intro k'
        have hadd := countP_set_add (y := τ') (isCountedBy k') hτ
        have hcount' := hcredit k'
        rw [weight_of_false (hbefore k'), Nat.add_zero] at hadd
        rw [hadd, hcount', weight, hafter]
        by_cases hk : k' = k
        · subst k'
          rw [getElem?_set_self_of_some hc, hc]
          cases counted <;> simp [hcount]
        · rw [getElem?_set_of_ne hk]
          simp [hk]
      · exact forall_mem_set hearly fun hc' => absurd hc' hlate

theorem credited_of_reachable (tasks : State → List Task) (closers : State → List Closer)
    (h : sys.Reachable s) (hnoTask : tasks sys.start = []) (hnoCloser : closers sys.start = [])
    (hmove : ∀ s a s', sys.Reachable s → sys.step a s = some s' →
      ReportMove isCountedBy cancellationCount isEarly (tasks s) (closers s)
        (tasks s') (closers s')) :
    Credited isCountedBy cancellationCount isEarly (tasks s) (closers s) := by
  refine Reachable.invariant (P := fun s =>
    Credited isCountedBy cancellationCount isEarly (tasks s) (closers s)) h ?_ ?_
  · rw [hnoTask, hnoCloser]
    exact ⟨fun k => rfl, by simp⟩
  · exact fun s a s' hs ih hstep => ih.move (hmove s a s' hs hstep)

end

/-! ### The lifecycle query -/

/-- A service whose lifecycle query loads the byte and asks later whether the
service is idle. -/
structure TerminatingView (sys : TransitionSystem State Action) extends LifecycleView sys where
  isIdle : State → Bool
  isIdle_of_run : ∀ {s s'}, sys.Reachable s → sys.Run s s' → load (stored s) ≠ .running →
    isIdle s = true → isIdle s' = true

namespace TerminatingView

variable (view : TerminatingView sys)

def answer (loadedAt readAt : State) : ExecutorServiceLifecycle :=
  if load (view.stored loadedAt) != .running && view.isIdle readAt then .terminated
  else load (view.stored loadedAt)

theorem answer_eq_terminated (h : sys.Reachable s₁) :
    view.answer s₁ s₂ = terminated ↔
      load (view.stored s₁) ≠ .running ∧ view.isIdle s₂ = true := by
  have hne := view.load_ne_terminated h
  unfold answer
  split <;> simp_all

theorem load_le_answer : load (view.stored s₁) ≤ view.answer s₁ s₂ := by
  unfold answer
  split
  · cases load (view.stored s₁) <;> decide
  · exact le_rfl

theorem idle_of_answer (h : sys.Reachable s₁) (hrun : sys.Run s₁ s₂)
    (hanswer : view.answer s₁ s₂ = terminated) :
    load (view.stored s₂) ≠ .running ∧ view.isIdle s₂ = true := by
  obtain ⟨hclosed, hidle⟩ := (view.answer_eq_terminated h).mp hanswer
  exact ⟨view.not_running_of_run h hrun hclosed, hidle⟩

theorem answer_of_later (h : sys.Reachable s₁) (hquery : sys.Run s₁ s₂) (hrun : sys.Run s₂ s₃)
    (hlater : sys.Run s₃ s₄) (hanswer : view.answer s₁ s₂ = terminated) :
    view.answer s₃ s₄ = terminated := by
  have h₂ := Reachable.run h hquery
  obtain ⟨hclosed, hidle⟩ := view.idle_of_answer h hquery hanswer
  refine (view.answer_eq_terminated (Reachable.run h₂ hrun)).mpr ⟨?_, ?_⟩
  · exact view.not_running_of_run h₂ hrun hclosed
  · exact view.isIdle_of_run h₂ (RunUnder.trans hrun hlater) hclosed hidle

/-- The answers of queries that do not overlap never go back. -/
theorem answer_le_of_later (h : sys.Reachable s₁) (hquery : sys.Run s₁ s₂)
    (hrun : sys.Run s₂ s₃) (hlater : sys.Run s₃ s₄) :
    view.answer s₁ s₂ ≤ view.answer s₃ s₄ := by
  by_cases hanswer : view.answer s₁ s₂ = terminated
  · rw [view.answer_of_later h hquery hrun hlater hanswer, hanswer]
  · have hload : view.answer s₁ s₂ = load (view.stored s₁) := by
      unfold answer at hanswer ⊢
      split at hanswer
      · exact absurd rfl hanswer
      · rw [if_neg ‹_›]
    rw [hload]
    exact (view.load_le_of_run h (RunUnder.trans hquery hrun)).trans view.load_le_answer

end TerminatingView

end TokioExecutorProofs.LifecycleViews
