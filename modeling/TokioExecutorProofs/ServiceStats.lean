import TokioExecutorProofs.BlockingTermination
import TokioExecutorProofs.IoTermination

/-!
The snapshots of `stats()`. The blocking service samples its counts before its
lifecycle, the IO service afterwards, so that only the former can report
unfinished tasks of a service that has terminated.
-/

namespace TokioExecutorProofs.ServiceStats

open ServiceBasics
open ExecutorServiceLifecycleBits
open ExecutorServiceLifecycleBits.ExecutorServiceLifecycle
open ProcessFamilies
open TransitionSystems

/-! ### The blocking service -/

section

open BlockingServiceState
open BlockingServiceState.TokioExecutorServiceState
open BlockingService
open BlockingAccounting
open BlockingTermination

structure TokioExecutorServiceStats where
  lifecycle : ExecutorServiceLifecycle
  taskCapacity : Nat
  queued : Nat
  running : Nat
  deriving DecidableEq, Repr

/-- A `stats()` call: `task_count_snapshot`, then `lifecycle`. -/
structure StatsCall (taskCapacity : NonZeroUsize) where
  countedAt : ServiceState
  call : LifecycleCall taskCapacity
  run : (service taskCapacity).Run countedAt call.loadedAt
  free : countedAt.shared.locks .taskCounts = none

variable {taskCapacity : NonZeroUsize}

def StatsCall.stats (x : StatsCall taskCapacity) : TokioExecutorServiceStats where
  lifecycle := x.call.result
  taskCapacity := x.countedAt.shared.taskCapacity.get
  queued := x.countedAt.shared.taskCounts.queued
  running := x.countedAt.shared.taskCounts.running

/-- What a snapshot of the blocking service tells. -/
structure StatsCall.Faithful (x : StatsCall taskCapacity) : Prop where
  queued : x.stats.queued = x.countedAt.tasks.countP isCountedQueued
  running : x.stats.running = x.countedAt.tasks.countP isCountedRunning
  capacity : x.stats.taskCapacity = taskCapacity.get
  bounded : x.stats.queued + x.stats.running ≤ x.stats.taskCapacity
  /-- A task that was counted has been released before `Terminated` was read. -/
  terminated : x.stats.lifecycle = .terminated →
    ∀ τ ∈ x.call.readAt.tasks, isUnfinished τ = false
  later : ∀ y : StatsCall taskCapacity, (service taskCapacity).Run x.call.readAt y.countedAt →
    x.stats.lifecycle ≤ y.stats.lifecycle ∧ (x.stats.lifecycle = .terminated →
      y.stats = { lifecycle := .terminated, taskCapacity := taskCapacity.get,
                  queued := 0, running := 0 })

theorem StatsCall.faithful {x : StatsCall taskCapacity}
    (h : (service taskCapacity).Reachable x.countedAt) : x.Faithful := by
  have hloaded := Reachable.run h x.run
  have hread := Reachable.run hloaded x.call.run
  have hc := conserved_of_reachable h
  have hcapacity : x.stats.taskCapacity = taskCapacity.get := congrArg NonZeroUsize.get hc.capacity
  refine ⟨hc.queued, hc.running, hcapacity, ?_, fun hresult => ?_, fun y hrun => ⟨?_, ?_⟩⟩
  · rw [hcapacity]
    exact hc.bounded
  · have hterminated := LifecycleCall.isTerminated_readAt hloaded hresult
    exact ((isTerminated_iff_finished hread).mp hterminated).2
  · exact result_le_of_later hloaded (RunUnder.trans hrun y.run)
  · intro hresult
    have hterminated := LifecycleCall.isTerminated_readAt hloaded hresult
    have hcounted := isTerminated_of_run hread hterminated hrun
    have hzero := (isTerminated_iff.mp hcounted).2
    have hy := conserved_of_reachable (Reachable.run hread hrun)
    have hlater : y.call.result = .terminated :=
      result_of_later hloaded hresult (RunUnder.trans hrun y.run)
    simp only [StatsCall.stats, hlater, hy.capacity, TokioExecutorServiceStats.mk.injEq, true_and]
    omega

end

/-! ### The IO service -/

section

open IoServiceState
open IoServiceState.TokioIoExecutorServiceState
open IoService
open IoAccounting
open IoTermination

structure TokioIoExecutorServiceStats where
  lifecycle : ExecutorServiceLifecycle
  taskCapacity : Nat
  acceptedUnfinished : Nat
  deriving DecidableEq, Repr

/-- A `stats()` call of the IO service: `lifecycle`, then `active_tasks`. -/
structure IoStatsCall (taskCapacity : NonZeroUsize) where
  call : LifecycleCall taskCapacity
  countedAt : ServiceState
  run : (service taskCapacity).Run call.readAt countedAt

variable {taskCapacity : NonZeroUsize}

def IoStatsCall.stats (x : IoStatsCall taskCapacity) : TokioIoExecutorServiceStats where
  lifecycle := x.call.result
  taskCapacity := x.countedAt.shared.taskCapacity.get
  acceptedUnfinished := x.countedAt.shared.activeTasks

/-- What a snapshot of the IO service tells. -/
structure IoStatsCall.Faithful (x : IoStatsCall taskCapacity) : Prop where
  unfinished : x.stats.acceptedUnfinished = x.countedAt.tasks.countP isActive
  capacity : x.stats.taskCapacity = taskCapacity.get
  bounded : x.stats.acceptedUnfinished ≤ x.stats.taskCapacity
  terminated : x.stats.lifecycle = .terminated → x.stats.acceptedUnfinished = 0
  later : ∀ y : IoStatsCall taskCapacity,
    (service taskCapacity).Run x.countedAt y.call.loadedAt →
      x.stats.lifecycle ≤ y.stats.lifecycle ∧ (x.stats.lifecycle = .terminated →
        y.stats = { lifecycle := .terminated, taskCapacity := taskCapacity.get,
                    acceptedUnfinished := 0 })

theorem IoStatsCall.faithful {x : IoStatsCall taskCapacity}
    (h : (service taskCapacity).Reachable x.call.loadedAt) : x.Faithful := by
  have hread := Reachable.run h x.call.run
  have hcounted := Reachable.run hread x.run
  have hc := conserved_of_reachable hcounted
  have hcapacity : x.stats.taskCapacity = taskCapacity.get := congrArg NonZeroUsize.get hc.capacity
  refine ⟨hc.active, hcapacity, ?_, fun hresult => ?_, fun y hrun => ⟨?_, fun hresult => ?_⟩⟩
  · rw [hcapacity]
    exact hc.bounded
  · have hterminated := LifecycleCall.isTerminated_readAt h hresult
    exact (isTerminated_iff.mp (isTerminated_of_run hread hterminated x.run)).2
  · exact result_le_of_later h (RunUnder.trans x.run hrun)
  · have hlater : y.call.result = .terminated :=
      result_of_later h hresult (RunUnder.trans x.run hrun)
    have hy := Reachable.run hcounted hrun
    have hterminated := LifecycleCall.isTerminated_readAt hy hlater
    have hyread := Reachable.run hy y.call.run
    have hzero := (isTerminated_iff.mp (isTerminated_of_run hyread hterminated y.run)).2
    have hycapacity := (conserved_of_reachable (Reachable.run hyread y.run)).capacity
    simp only [IoStatsCall.stats, hlater, hycapacity, hzero]

end

/-- Every snapshot of either service. -/
theorem stats_snapshots (taskCapacity : NonZeroUsize) :
    (∀ x : StatsCall taskCapacity,
      (BlockingService.service taskCapacity).Reachable x.countedAt → x.Faithful) ∧
    ∀ x : IoStatsCall taskCapacity,
      (IoService.service taskCapacity).Reachable x.call.loadedAt → x.Faithful := by
  constructor
  · intro x h
    exact StatsCall.faithful h
  · intro x h
    exact IoStatsCall.faithful h

/-- A snapshot that counts a queued task of a service that has terminated. -/
theorem stats_snapshots_straddling : ∃ x : StatsCall oneSlot,
    x.stats = { lifecycle := .terminated, taskCapacity := 1, queued := 1, running := 0 } ∧
      x.Faithful ∧ ∀ τ ∈ x.call.readAt.tasks, BlockingAccounting.isUnfinished τ = false := by
  have hexecute : ((BlockingService.service oneSlot).execute
      (.callSubmit .callable :: BlockingService.submission 0)
      (BlockingService.service oneSlot).start).bind (fun s =>
        ((BlockingService.service oneSlot).execute
          (BlockingService.execution 0 .panicked ++
            .callClose .shutdown :: List.replicate 3 (.closer 0)) s).map
          (fun s' => ((s.shared.locks .taskCounts, s.shared.taskCapacity.get,
            s.shared.taskCounts), load s'.shared.lifecycle, s'.shared.taskCounts,
            s'.shared.locks .taskCounts))) =
      some ((none, 1, { queued := 1, running := 0 }), shuttingDown, {}, none) := by decide
  obtain ⟨s, hs, hlater⟩ := Option.bind_eq_some_iff.mp hexecute
  obtain ⟨s', hs', hvalues⟩ := Option.map_eq_some_iff.mp hlater
  simp only [Prod.mk.injEq] at hvalues
  obtain ⟨⟨hfree, hcapacity, hcounted⟩, hload, hcounts, hfree'⟩ := hvalues
  have hstats := (stats_snapshots oneSlot).1
    ⟨s, ⟨s', s', runUnder_refl s', hfree'⟩, runUnder_of_executeUnder hs', hfree⟩
    (Reachable.of_execute hs)
  have hresult : BlockingServiceState.TokioExecutorServiceState.lifecycleOf
      (load s'.shared.lifecycle) s'.shared.taskCounts = terminated := by
    rw [hload, hcounts]
    rfl
  refine ⟨_, ?_, hstats, hstats.terminated hresult⟩
  simp only [StatsCall.stats, BlockingTermination.LifecycleCall.result, hresult, hcapacity,
    hcounted]

end TokioExecutorProofs.ServiceStats
