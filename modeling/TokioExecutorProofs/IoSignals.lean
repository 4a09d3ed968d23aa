import TokioExecutorProofs.IoTermination
import TokioExecutorProofs.SignalledConditions

/-!
The announcements of the IO service: the watch channel for the capacity and the
notifier for the termination. A guard that has given its place back announces both;
a closing call announces them after its store.
-/

namespace TokioExecutorProofs.IoSignals

open ServiceBasics
open IoServiceState
open IoServiceState.TokioIoExecutorServiceState
open IoTask
open IoService
open IoTaskInvariants
open IoAccounting
open ProcessFamilies
open TransitionSystems
open SignalledConditions

/-- What a step of one task does to the shared state, and to the guard of the
task if it is being dropped. -/
inductive SharedMove (g : TokioIoExecutorServiceState) (τ : Task) :
    TokioIoExecutorServiceState → Task → Prop
  | locks {locks : MutexTables.MutexTable Lock Actor} {τ' : Task}
      (hstage : ∀ d, stage τ = .droppingGuard d → stage τ' = .droppingGuard d) :
      SharedMove g τ { g with locks := locks } τ'
  | accept {τ' : Task}
      (hstage : ∀ d, stage τ = .droppingGuard d → stage τ' = .droppingGuard d) :
      SharedMove g τ g.acceptTask τ'
  | guard {a : Actor} {g' : TokioIoExecutorServiceState} {τ₁ τ' : Task} {d : GuardPc}
      {next : Option GuardPc} (hstage : stage τ = .droppingGuard d)
      (hstep : guardStep a g τ d = some (g', τ₁, next))
      (hnext : stage τ' = PayloadStage.after next) : SharedMove g τ g' τ'

section

variable {t : TaskId} {g g' : TokioIoExecutorServiceState} {τ τ' : Task} {a : Action}

theorem sharedMove_of_payloadMove {b : Actor} (h : PayloadMove b g τ g' τ') :
    SharedMove g τ g' τ' := by
  cases h with
  | go hlocks _ hstage =>
      obtain ⟨_, rfl⟩ := hlocks
      exact .locks fun d hd => hstage.trans hd
  | accept hs =>
      refine .accept fun d hd => ?_
      rw [stage, hs] at hd
      cases hd
  | register hs | abandonSender hs =>
      refine .locks fun d hd => ?_
      rw [stage, hs] at hd
      cases hd
  | dropFuture _ hwhole =>
      refine .locks fun d hd => ?_
      rw [hwhole] at hd
      cases hd
  | guard hd hstep _ hstage => exact .guard hd hstep hstage

theorem sharedMove_of_taskStep (hi : TaskInvariant τ) (h : TaskStep t g τ a g' τ') :
    SharedMove g τ g' τ' := by
  rcases taskMove_of_taskStep hi h with ⟨_, hmove⟩ |
    ⟨rfl, ⟨_, _, _, rfl⟩ | ⟨_, _, _, rfl⟩ | ⟨_, _, _, rfl⟩⟩
  · exact sharedMove_of_payloadMove hmove
  · exact .locks fun d hd => hd
  · exact .locks fun d hd => hd
  · exact .locks fun d hd => hd

end

/-- An announcement: the condition, the generation, and the positions in the drop
of a guard and in a closing call that still have to advance it. -/
structure Signal where
  condition : TokioIoExecutorServiceState → Prop
  generation : TokioIoExecutorServiceState → Nat
  owedInGuard : GuardPc → Bool
  owedInClose : CloserPc → Bool
  condition_locks : ∀ {g locks}, condition { g with locks := locks } → condition g
  condition_accept : ∀ {g}, condition g.acceptTask → condition g
  generation_locks : ∀ {g locks}, generation { g with locks := locks } = generation g
  generation_accept : ∀ {g}, generation g.acceptTask = generation g
  generation_guard : ∀ {a g τ d g' τ' next},
    guardStep a g τ d = some (g', τ', next) → generation g ≤ generation g'
  generation_close : ∀ {k g c g' c'}, closerStep k g c = some (g', c') →
    generation g ≤ generation g'
  guard : ∀ {a g τ d g' τ' next}, guardStep a g τ d = some (g', τ', next) →
    condition g' → generation g' = generation g → owedInGuard d = true ∨ ¬ condition g →
    ∃ d', next = some d' ∧ owedInGuard d' = true
  close : ∀ {k g c g' c'}, closerStep k g c = some (g', c') →
    condition g' → generation g' = generation g → owedInClose c.pc = true ∨ ¬ condition g →
    owedInClose c'.pc = true
  take : owedInClose .take = true → owedInClose .takeUnlock = true
  endSweep : owedInClose .sweep = true → owedInClose .notifyCapacity = true

namespace Signal

variable (signal : Signal)

/-- The guard of the task has still to advance the generation. -/
def owedByTask (τ : Task) : Prop :=
  ∃ d, stage τ = .droppingGuard d ∧ signal.owedInGuard d = true

/-- Some activity has still to advance the generation. -/
def owed (s : ServiceState) : Prop :=
  (∃ τ ∈ s.tasks, signal.owedByTask τ) ∨ ∃ c ∈ s.closers, signal.owedInClose c.pc = true

variable {signal}

theorem owed_taskStep {s s' : ServiceState} {t : TaskId} {τ τ' : Task} {a : Action}
    (hτ : s.tasks[t]? = some τ) (htasks : s'.tasks = s.tasks.set t τ')
    (hclosers : ∀ c ∈ s.closers, signal.owedInClose c.pc = true →
      ∃ c' ∈ s'.closers, signal.owedInClose c'.pc = true)
    (hi : TaskInvariant τ) (h : TaskStep t s.shared τ a s'.shared τ')
    (hcondition : signal.condition s'.shared) (howed : signal.condition s.shared → signal.owed s)
    (hgeneration : signal.generation s'.shared = signal.generation s.shared) :
    signal.owed s' := by
  have hkeep : (signal.owedByTask τ → signal.owedByTask τ') → signal.condition s.shared →
      signal.owed s' := by
    intro htask hbefore
    rcases howed hbefore with howes | ⟨c, hc, howes⟩
    · refine .inl ?_
      rw [htasks]
      exact exists_mem_set_of_ne hτ howes htask
    · exact .inr (hclosers c hc howes)
  generalize hg : s'.shared = g' at *
  cases sharedMove_of_taskStep hi h with
  | locks hstage =>
      exact hkeep (fun ⟨d, hd, howes⟩ => ⟨d, hstage d hd, howes⟩)
        (signal.condition_locks hcondition)
  | accept hstage =>
      exact hkeep (fun ⟨d, hd, howes⟩ => ⟨d, hstage d hd, howes⟩)
        (signal.condition_accept hcondition)
  | @guard _ _ _ _ d next hstage hstep hnext =>
      have hmem : τ' ∈ s'.tasks := htasks ▸ mem_set_of_getElem? hτ
      by_cases hactive : signal.owedInGuard d = true ∨ ¬ signal.condition s.shared
      · obtain ⟨d', rfl, hd'⟩ := signal.guard hstep hcondition hgeneration hactive
        exact .inl ⟨τ', hmem, d', hnext, hd'⟩
      · simp only [not_or, not_not] at hactive
        refine hkeep (fun ⟨d₁, hd₁, howes⟩ => ?_) hactive.2
        rw [hstage] at hd₁
        obtain rfl := PayloadStage.droppingGuard.inj hd₁
        exact absurd howes hactive.1

theorem signalled (signal : Signal) (taskCapacity : NonZeroUsize) :
    Signalled (service taskCapacity) (fun s => signal.condition s.shared) signal.owed
      (fun s => signal.generation s.shared) where
  mono := by
    intro s a s' hs hnext
    have hi := taskInvariant_of_reachable hs
    cases effect_of_step hnext with
    | newTask | newCloser | newWaiter | sweepNext | sweepAbort | take | endSweep | waiter =>
        exact Nat.le_refl _
    | task hτ hτstep =>
        dsimp only
        cases sharedMove_of_taskStep (hi _ (mem_of_getElem? hτ)) hτstep with
        | locks => exact Nat.le_of_eq signal.generation_locks.symm
        | accept => exact Nat.le_of_eq signal.generation_accept.symm
        | guard _ hstep => exact signal.generation_guard hstep
    | closer _ hcstep => exact signal.generation_close hcstep
  signal := by
    intro s a s' hs hnext hcondition howed hgeneration
    have hi := taskInvariant_of_reachable hs
    have hset : ∀ {k : Nat} {c c' : Closer}, s.closers[k]? = some c → c'.pc = c.pc →
        ∀ c₁ ∈ s.closers, signal.owedInClose c₁.pc = true →
        ∃ c₂ ∈ s.closers.set k c', signal.owedInClose c₂.pc = true := by
      intro k c c' hc hpc c₁ hc₁ howes
      exact exists_mem_set_of_ne (P := fun c => signal.owedInClose c.pc = true) hc
        ⟨c₁, hc₁, howes⟩ fun h => hpc ▸ h
    cases effect_of_step hnext with
    | newTask =>
        rcases howed hcondition with ⟨τ, hτ, howes⟩ | howes
        · exact .inl ⟨τ, List.mem_append_left _ hτ, howes⟩
        · exact .inr howes
    | newCloser kind =>
        rcases howed hcondition with howes | ⟨c, hc, howes⟩
        · exact .inl howes
        · exact .inr ⟨c, List.mem_append_left _ hc, howes⟩
    | newWaiter | waiter => exact howed hcondition
    | task hτ hτstep =>
        exact owed_taskStep hτ rfl (fun c hc howes => ⟨c, hc, howes⟩)
          (hi _ (mem_of_getElem? hτ)) hτstep hcondition howed hgeneration
    | sweepNext hc _ _ hτ hentry =>
        refine owed_taskStep hτ rfl (hset hc ?_) (hi _ (mem_of_getElem? hτ)) (.sweepNext hentry)
          hcondition howed hgeneration
        rfl
    | sweepAbort hc _ hτ hentry =>
        refine owed_taskStep hτ rfl (hset hc ?_) (hi _ (mem_of_getElem? hτ)) (.sweepAbort hentry)
          hcondition howed hgeneration
        rfl
    | take hc hpc =>
        rcases howed hcondition with ⟨τ, hτ, d, hd, howes⟩ | howes
        · refine .inl ⟨takeEntry _ τ, List.mem_map_of_mem hτ, d, ?_, howes⟩
          rw [stage, (takeEntry_frame _ τ).1, (takeEntry_frame _ τ).2.1]
          exact hd
        · refine .inr (exists_mem_set_of_ne (P := fun c => signal.owedInClose c.pc = true) hc
            howes ?_)
          rw [hpc]
          exact signal.take
    | endSweep hc hpc =>
        rcases howed hcondition with howes | howes
        · exact .inl howes
        · refine .inr (exists_mem_set_of_ne (P := fun c => signal.owedInClose c.pc = true) hc
            howes ?_)
          rw [hpc]
          exact signal.endSweep
    | @closer k c g' c' hc hcstep =>
        by_cases hactive : signal.owedInClose c.pc = true ∨ ¬ signal.condition s.shared
        · have howes := signal.close hcstep hcondition hgeneration hactive
          exact .inr ⟨c', mem_set_of_getElem? hc, howes⟩
        · simp only [not_or, not_not] at hactive
          rcases howed hactive.2 with howes | howes
          · exact .inl howes
          · exact .inr (exists_mem_set_of_ne (P := fun c => signal.owedInClose c.pc = true) hc
              howes fun h => absurd h hactive.1)

theorem not_owed_of_completed {s : ServiceState} (hreturned : signal.owedInClose .returned = false)
    (hclosers : ∀ c ∈ s.closers, c.pc = .returned)
    (hguards : ∀ τ ∈ s.tasks, ∀ d, stage τ ≠ .droppingGuard d) : ¬ signal.owed s := by
  rintro (⟨τ, hτ, d, hd, _⟩ | ⟨c, hc, howes⟩)
  · exact hguards τ hτ d hd
  · rw [hclosers c hc, hreturned] at howes
    cases howes

end Signal

/-! ### The two announcements -/

def GuardPc.owesCapacity : GuardPc → Bool
  | .notifyCapacity => true
  | .finishMarker | .lock | .remove | .unlock | .dec | .wakeCapacity | .notifyWaiters
  | .wakeTermination => false

/-- A guard between its decrement and its notification of the waiters. -/
def GuardPc.owesNotifyWaiters : GuardPc → Bool
  | .notifyCapacity | .wakeCapacity | .notifyWaiters => true
  | .finishMarker | .lock | .remove | .unlock | .dec | .wakeTermination => false

/-- A closing call between its store and its bump of the watch channel. -/
def CloserPc.owesCapacity : CloserPc → Bool
  | .getActive | .unlockSubmission | .takeLock | .take | .takeUnlock | .sweep
  | .notifyCapacity => true
  | .lockSubmission | .store | .wakeCapacity | .notifyWaiters | .wakeTermination
  | .returned => false

/-- A closing call between its store and its notification of the waiters. -/
def CloserPc.owesNotifyWaiters : CloserPc → Bool
  | .getActive | .unlockSubmission | .takeLock | .take | .takeUnlock | .sweep
  | .notifyCapacity | .wakeCapacity | .notifyWaiters => true
  | .lockSubmission | .store | .wakeTermination | .returned => false

/-- A retry would not be answered with `Saturated`. -/
def isRetryable (g : TokioIoExecutorServiceState) : Prop :=
  g.isSaturated = false ∨ g.isNotRunning = true

theorem isRetryable_mono {g g' : TokioIoExecutorServiceState}
    (hcapacity : g'.taskCapacity = g.taskCapacity) (hlifecycle : g'.lifecycle = g.lifecycle)
    (hle : g.activeTasks ≤ g'.activeTasks) (h : isRetryable g') : isRetryable g := by
  refine h.imp (fun hfree => ?_) fun hclosed => ?_
  · rw [isSaturated_eq_false] at hfree ⊢
    rw [hcapacity] at hfree
    omega
  · rwa [isNotRunning, ← hlifecycle]

theorem guardStep_generations {a : Actor} {g g' : TokioIoExecutorServiceState} {τ τ' : Task}
    {d : GuardPc} {next : Option GuardPc} (h : guardStep a g τ d = some (g', τ', next)) :
    g'.capacityGeneration = g.capacityGeneration + (if d = .notifyCapacity then 1 else 0) ∧
      g'.notifyWaitersCalls = g.notifyWaitersCalls + (if d = .notifyWaiters then 1 else 0) := by
  cases d <;> simp only [guardStep] at h
  case lock =>
    simp only [map_acquire_eq_some, Prod.mk.injEq] at h
    obtain ⟨_, rfl, _⟩ := h
    exact ⟨rfl, rfl⟩
  all_goals
    simp only [Option.some.injEq, Prod.mk.injEq] at h
    obtain ⟨rfl, _⟩ := h
    exact ⟨rfl, rfl⟩

theorem closerStep_fields {k : Nat} {g g' : TokioIoExecutorServiceState} {c c' : Closer}
    (h : closerStep k g c = some (g', c')) :
    (c.pc ≠ .store → g'.lifecycle = g.lifecycle) ∧
      g'.capacityGeneration = g.capacityGeneration +
        (if c.pc = .notifyCapacity then 1 else 0) ∧
      g'.notifyWaitersCalls = g.notifyWaitersCalls +
        (if c.pc = .notifyWaiters then 1 else 0) := by
  cases hpc : c.pc <;> simp only [closerStep, hpc] at h
  case take | sweep | returned => cases h
  case store =>
    split at h <;> simp only [Option.some.injEq, Prod.mk.injEq] at h <;> obtain ⟨rfl, _⟩ := h
    all_goals exact ⟨fun hne => absurd rfl hne, rfl, rfl⟩
  case lockSubmission | takeLock =>
    simp only [map_acquire_eq_some, Prod.mk.injEq] at h
    obtain ⟨_, rfl, _⟩ := h
    exact ⟨fun _ => rfl, rfl, rfl⟩
  all_goals
    simp only [Option.some.injEq, Prod.mk.injEq] at h
    obtain ⟨rfl, _⟩ := h
    exact ⟨fun _ => rfl, rfl, rfl⟩

def capacitySignal : Signal where
  condition := isRetryable
  generation g := g.capacityGeneration
  owedInGuard := GuardPc.owesCapacity
  owedInClose := CloserPc.owesCapacity
  condition_locks := id
  condition_accept := isRetryable_mono rfl rfl (Nat.le_succ _)
  generation_locks := rfl
  generation_accept := rfl
  generation_guard h := by
    rw [(guardStep_generations h).1]
    omega
  generation_close h := by
    rw [(closerStep_fields h).2.1]
    omega
  guard := by
    intro a g τ d g' τ' next h hcondition hgeneration hactive
    obtain ⟨hlifecycle, hcapacity, hcount⟩ := guardStep_shared h
    obtain ⟨hbump, _⟩ := guardStep_generations h
    have hback : d ≠ .dec → isRetryable g := fun hne =>
      isRetryable_mono hcapacity hlifecycle (by rw [hcount, if_neg hne]) hcondition
    cases d <;> simp only [guardStep] at h
    case dec =>
      simp only [Option.some.injEq, Prod.mk.injEq] at h
      exact ⟨_, h.2.2.symm, rfl⟩
    case notifyCapacity => simp [hbump] at hgeneration
    all_goals
      exact absurd (hback (by simp)) (hactive.resolve_left (by simp [GuardPc.owesCapacity]))
  close := by
    intro k g c g' c' h hcondition hgeneration hactive
    obtain ⟨hlifecycle, hbump, _⟩ := closerStep_fields h
    obtain ⟨hcount, hcapacity⟩ := closerStep_counts h
    have hback : c.pc ≠ .store → isRetryable g := fun hne =>
      isRetryable_mono hcapacity (hlifecycle hne) hcount.ge hcondition
    cases hpc : c.pc <;> simp only [closerStep, hpc] at h
    case notifyCapacity => simp [hbump, hpc] at hgeneration
    case store | unlockSubmission =>
      cases hkind : c.kind <;> simp only [hkind, Option.some.injEq, Prod.mk.injEq] at h <;>
        rw [← h.2] <;> rfl
    case takeLock =>
      simp only [map_acquire_eq_some, Prod.mk.injEq] at h
      rw [← h.2.2]
      rfl
    case getActive | takeUnlock =>
      simp only [Option.some.injEq, Prod.mk.injEq] at h
      rw [← h.2]
      rfl
    case take | sweep => cases h
    all_goals
      exact absurd (hback (by simp [hpc]))
        (hactive.resolve_left (by simp [hpc, CloserPc.owesCapacity]))
  take := id
  endSweep := id

theorem isTerminated_congr {g g' : TokioIoExecutorServiceState}
    (hlifecycle : g'.lifecycle = g.lifecycle) (hcount : g'.activeTasks = g.activeTasks) :
    g'.isTerminated = g.isTerminated := by
  rw [isTerminated, isNotRunning, hlifecycle, hcount]
  rfl

theorem isTerminated_acceptTask {g : TokioIoExecutorServiceState} :
    g.acceptTask.isTerminated = false := by
  simp [isTerminated, acceptTask]

def terminationSignal : Signal where
  condition g := g.isTerminated = true
  generation g := g.notifyWaitersCalls
  owedInGuard := GuardPc.owesNotifyWaiters
  owedInClose := CloserPc.owesNotifyWaiters
  condition_locks := id
  condition_accept h := by rw [isTerminated_acceptTask] at h; cases h
  generation_locks := rfl
  generation_accept := rfl
  generation_guard h := by
    rw [(guardStep_generations h).2]
    omega
  generation_close h := by
    rw [(closerStep_fields h).2.2]
    omega
  guard := by
    intro a g τ d g' τ' next h hcondition hgeneration hactive
    obtain ⟨hlifecycle, _, hcount⟩ := guardStep_shared h
    obtain ⟨_, hbump⟩ := guardStep_generations h
    have hback : d ≠ .dec → g.isTerminated = true := fun hne => by
      rwa [← isTerminated_congr hlifecycle (by rw [hcount, if_neg hne])]
    cases d <;> simp only [guardStep] at h
    case dec | notifyCapacity | wakeCapacity =>
      simp only [Option.some.injEq, Prod.mk.injEq] at h
      exact ⟨_, h.2.2.symm, rfl⟩
    case notifyWaiters => simp [hbump] at hgeneration
    all_goals
      exact absurd (hback (by simp))
        (hactive.resolve_left (by simp [GuardPc.owesNotifyWaiters]))
  close := by
    intro k g c g' c' h hcondition hgeneration hactive
    obtain ⟨hlifecycle, _, hbump⟩ := closerStep_fields h
    obtain ⟨hcount, _⟩ := closerStep_counts h
    have hback : c.pc ≠ .store → g.isTerminated = true := fun hne => by
      rwa [← isTerminated_congr (hlifecycle hne) hcount]
    cases hpc : c.pc <;> simp only [closerStep, hpc] at h
    case notifyWaiters => simp [hbump, hpc] at hgeneration
    case store | unlockSubmission =>
      cases hkind : c.kind <;> simp only [hkind, Option.some.injEq, Prod.mk.injEq] at h <;>
        rw [← h.2] <;> rfl
    case takeLock =>
      simp only [map_acquire_eq_some, Prod.mk.injEq] at h
      rw [← h.2.2]
      rfl
    case getActive | takeUnlock | notifyCapacity | wakeCapacity =>
      simp only [Option.some.injEq, Prod.mk.injEq] at h
      rw [← h.2]
      rfl
    case take | sweep => cases h
    all_goals
      exact absurd (hback (by simp [hpc]))
        (hactive.resolve_left (by simp [hpc, CloserPc.owesNotifyWaiters]))
  take := id
  endSweep := id

end TokioExecutorProofs.IoSignals
