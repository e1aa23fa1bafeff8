import Mathlib.Data.Option.Basic

/-! One condition bit of a task, as the diagram in `wait_signal_test.cxx` has it:

    --signal(true)-->  --signal(false)-->  --signal(false)--.
    IDLE               RUNNING             SKIP_WAIT <------'
    <------wait------  <------wait-------

A task that is not waiting keeps at most one signal for its next wait. -/

inductive Condition where
  | idle
  | running
  | skipWait
  deriving DecidableEq, Repr

namespace Condition

/-- `wait` asserts that the task is not waiting already. -/
def wait : Condition → Option Condition
  | .idle => none
  | .running => some .idle
  | .skipWait => some .running

def signal : Condition → Condition
  | .idle => .running
  | .running | .skipWait => .skipWait

theorem signal_ne_idle (c : Condition) : c.signal ≠ .idle := by cases c <;> decide

theorem wait_eq_idle {c : Condition} (h : c.wait = some .idle) : c = .running := by
  cases c with
  | running => rfl
  | idle | skipWait => cases h

end Condition
