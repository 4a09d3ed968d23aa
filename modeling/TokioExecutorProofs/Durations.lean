import Mathlib.Algebra.Order.Floor.Div
import Mathlib.Tactic.Linarith

/-!
Spans of time with a largest value and saturating arithmetic, and waiting for a
span in slices.
-/

namespace TokioExecutorProofs.Durations

/-- The nanoseconds of the longest span: `u64::MAX` seconds and `999_999_999`
nanoseconds. -/
def maxNanos : Nat := 18446744073709551615999999999

structure Duration where
  nanos : Nat
  le_max : nanos ≤ maxNanos
  deriving DecidableEq, Repr

namespace Duration

/-- The span between two readings of a clock. -/
def ofNanos (nanos : Nat) : Duration := ⟨min nanos maxNanos, min_le_right _ _⟩

def saturatingSub (d e : Duration) : Duration :=
  ⟨d.nanos - e.nanos, (Nat.sub_le _ _).trans d.le_max⟩

instance : Min Duration := ⟨fun d e => if d.nanos ≤ e.nanos then d else e⟩

def isZero (d : Duration) : Bool := d.nanos == 0

@[simp] theorem nanos_ofNanos (nanos : Nat) : (ofNanos nanos).nanos = min nanos maxNanos := rfl

@[simp] theorem nanos_saturatingSub (d e : Duration) :
    (d.saturatingSub e).nanos = d.nanos - e.nanos := rfl

@[simp] theorem nanos_min (d e : Duration) : (min d e).nanos = min d.nanos e.nanos := by
  show (if d.nanos ≤ e.nanos then d else e).nanos = min d.nanos e.nanos
  split <;> omega

theorem isZero_iff {d : Duration} : d.isZero = true ↔ d.nanos = 0 := by
  simp [isZero]

theorem isZero_saturatingSub_ofNanos {d : Duration} {elapsed : Nat} :
    (d.saturatingSub (ofNanos elapsed)).isZero = true ↔ d.nanos ≤ elapsed := by
  have hmax := d.le_max
  rw [isZero_iff, nanos_saturatingSub, nanos_ofNanos]
  omega

theorem nanos_min_saturatingSub (d slice : Duration) (elapsed : Nat) :
    (min (d.saturatingSub (ofNanos elapsed)) slice).nanos =
      min (d.nanos - elapsed) slice.nanos := by
  have hmax := d.le_max
  rw [nanos_min, nanos_saturatingSub, nanos_ofNanos]
  omega

end Duration

/-! ### Waiting in slices -/

/-- `n` slices have elapsed, or the whole timeout. -/
def Sliced (timeout slice n elapsed : Nat) : Prop := min timeout (n * slice) ≤ elapsed

variable {timeout slice n elapsed elapsed' : Nat}

theorem sliced_zero : Sliced timeout slice 0 elapsed := by
  unfold Sliced
  omega

theorem Sliced.mono (h : Sliced timeout slice n elapsed) (hle : elapsed ≤ elapsed') :
    Sliced timeout slice n elapsed' := le_trans h hle

/-- A wait for what is left, but for at most one slice, completes a slice. -/
theorem Sliced.wait (h : Sliced timeout slice n elapsed)
    (hwait : elapsed + min (timeout - elapsed) slice ≤ elapsed') :
    Sliced timeout slice (n + 1) elapsed' := by
  unfold Sliced at *
  rw [Nat.succ_mul]
  omega

theorem Sliced.lt_ceilDiv (h : Sliced timeout slice n elapsed) (hslice : 0 < slice)
    (hleft : elapsed < timeout) : n < timeout ⌈/⌉ slice := by
  by_contra hle
  have hall : timeout ≤ n * slice := by
    rw [Nat.mul_comm]
    exact (ceilDiv_le_iff_le_mul hslice).mp (Nat.le_of_not_lt hle)
  rw [Sliced, min_eq_left hall] at h
  omega

end TokioExecutorProofs.Durations
