import Mathlib.Order.Lattice
import Mathlib.Order.Nat

namespace TokioExecutorProofs.ExecutorServiceLifecycleBits

/-- Lifecycle states in the order of their encoding. `terminated` is derived
from the task counts and never stored. -/
inductive ExecutorServiceLifecycle where
  | running
  | shuttingDown
  | stopping
  | terminated
  deriving DecidableEq, Repr

open ExecutorServiceLifecycle

namespace ExecutorServiceLifecycle

def rank : ExecutorServiceLifecycle → Nat
  | running => 0
  | shuttingDown => 1
  | stopping => 2
  | terminated => 3

theorem rank_injective : Function.Injective rank := by
  intro a b h
  cases a <;> cases b <;> first | rfl | simp [rank] at h

/-- `Running < ShuttingDown < Stopping < Terminated`. -/
instance : LinearOrder ExecutorServiceLifecycle := LinearOrder.lift' rank rank_injective

theorem le_iff_rank_le {a b : ExecutorServiceLifecycle} : a ≤ b ↔ a.rank ≤ b.rank :=
  Iff.rfl

def toU8 : ExecutorServiceLifecycle → UInt8
  | running => 0
  | shuttingDown => 1
  | stopping => 2
  | terminated => 3

end ExecutorServiceLifecycle

/-- Values above the encoding of `terminated` are clamped to it. -/
def fromU8 (value : UInt8) : ExecutorServiceLifecycle :=
  match (min value terminated.toU8).toNat with
  | 0 => running
  | 1 => shuttingDown
  | 2 => stopping
  | _ => terminated

@[simp] theorem fromU8_toU8 (lifecycle : ExecutorServiceLifecycle) :
    fromU8 lifecycle.toU8 = lifecycle := by
  cases lifecycle <;> rfl

/-- `load`: the decoded value of the atomic byte. -/
def load (lifecycle : UInt8) : ExecutorServiceLifecycle := fromU8 lifecycle

/-- `shutdown`: the update succeeds only on a running service. -/
def shutdown (lifecycle : UInt8) : UInt8 :=
  if fromU8 lifecycle = running then shuttingDown.toU8 else lifecycle

/-- `stop`: an unconditional store. -/
def stop (_lifecycle : UInt8) : UInt8 := stopping.toU8

@[simp] theorem load_default : load 0 = running := rfl

@[simp] theorem load_stop (lifecycle : UInt8) : load (stop lifecycle) = stopping := rfl

@[simp] theorem load_shutdown (lifecycle : UInt8) :
    load (shutdown lifecycle) =
      if load lifecycle = running then shuttingDown else load lifecycle := by
  unfold load shutdown
  split <;> simp

theorem load_shutdown_ne_running (lifecycle : UInt8) :
    load (shutdown lifecycle) ≠ running := by
  rw [load_shutdown]
  split <;> simp_all

theorem load_le_load_shutdown (lifecycle : UInt8) :
    load lifecycle ≤ load (shutdown lifecycle) := by
  rw [load_shutdown]
  split
  · rename_i hrunning
    simp [hrunning, le_iff_rank_le, rank]
  · exact le_refl _

end TokioExecutorProofs.ExecutorServiceLifecycleBits
