import TokioExecutorProofs.ExecutorServiceLifecycleBits

/-! What the blocking service and the IO service have in common. -/

namespace TokioExecutorProofs.ServiceBasics

/-- `usize::MAX` on a 64-bit target. -/
def usizeMax : Nat := 18446744073709551615

structure NonZeroUsize where
  get : Nat
  pos : 0 < get
  le_max : get ≤ usizeMax

/-- `usize::saturating_add`. -/
def saturatingAdd (a b : Nat) : Nat := min (a + b) usizeMax

/-- A task is named by the position of its submission call. -/
abbrev TaskId := Nat

/-- The sequential activities that take steps. A user thread and a pool thread
carry out several of them, one nested in the other. -/
inductive Actor where
  | submitter (t : TaskId)
  | worker (t : TaskId)
  | canceller (t : TaskId) (j : Nat)
  | closer (k : Nat)
  | waiter (w : Nat)
  deriving DecidableEq, Repr

inductive SubmissionError where
  | shutdown
  | saturated
  deriving DecidableEq, Repr

/-- `shutdown()` or `stop()`. -/
inductive CloserKind where
  | shutdown
  | stop
  deriving DecidableEq, Repr

def oneSlot : NonZeroUsize := ⟨1, by decide, by decide⟩

end TokioExecutorProofs.ServiceBasics
