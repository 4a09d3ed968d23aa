import TokioExecutorProofs.BlockingMarkers
import TokioExecutorProofs.IoMarkers

/-! Both abort-handle registries are tables keyed by the addresses of markers. -/

namespace TokioExecutorProofs.MarkerRegistries

open ServiceBasics
open AddressedTables
open AddressedTables.TableView
open TransitionSystems

/-- A registry never confuses two tasks and never keeps a dead one, wherever the
allocator puts the markers. -/
theorem registries_sound {Addr : Type} [DecidableEq Addr] (taskCapacity : NonZeroUsize) :
    (∀ x : BlockingMarkers.HandledState × Memory Addr,
      (BlockingMarkers.markerView.addressed
        (BlockingMarkers.handledService taskCapacity)).Reachable x →
      Sound BlockingMarkers.markerView (BlockingMarkers.handledService taskCapacity) x) ∧
    (∀ x : IoService.ServiceState × Memory Addr,
      (IoMarkers.markerView.addressed (IoService.service taskCapacity)).Reachable x →
      Sound IoMarkers.markerView (IoService.service taskCapacity) x) :=
  ⟨fun _ => sound_of_reachable (BlockingMarkers.lawful taskCapacity),
    fun _ => sound_of_reachable (IoMarkers.lawful taskCapacity)⟩

/-- The marker of the second submission gets the address of the first one, which
has finished. -/
theorem registries_sound_reused_address :
    ∃ x : BlockingMarkers.HandledState × Memory Nat,
      x.2.address 0 = some 7 ∧ x.2.address 1 = some 7 ∧ x.2.table 7 = some 1 ∧
      BlockingMarkers.markerView.arcs x.1 0 = 0 ∧
      Sound BlockingMarkers.markerView (BlockingMarkers.handledService oneSlot) x := by
  have hexecute : ((BlockingMarkers.markerView.addressed
      (BlockingMarkers.handledService oneSlot)).execute
      ((.callSubmit .callable :: BlockingService.submission 0 ++
        BlockingService.execution 0 .ok ++
        .callSubmit .runnable :: BlockingService.submission 1).map fun a => (.service a, 7))
      (BlockingMarkers.markerView.addressed (BlockingMarkers.handledService oneSlot)).start).map
      (fun x => (x.2.address 0, x.2.address 1, x.2.table 7,
        BlockingMarkers.markerView.arcs x.1 0)) = some (some 7, some 7, some 1, 0) := by rfl
  obtain ⟨x, hx, hview⟩ := Option.map_eq_some_iff.mp hexecute
  simp only [Prod.mk.injEq] at hview
  exact ⟨x, hview.1, hview.2.1, hview.2.2.1, hview.2.2.2,
    (registries_sound oneSlot).1 x (Reachable.of_execute hx)⟩

end TokioExecutorProofs.MarkerRegistries
