import ExactSimplex.Checked
import ExactSimplex.Product

/-! # Helper threads

A helper takes one job at a time: a job is handed over, and its result is waited for before the next one.
Where no thread could be started, or the thread has stopped, the job is done by the caller itself. What a
thread does is not known beforehand: whether it could be started, whether it takes a job, and which of the
claims of a divided job are its own is decided by a turn.
-/
namespace ExactSimplex

/-- What happens outside of the caller while one job is done. -/
structure Turn where
  started : Bool := true
  reachable : Bool := true
  claims : List Accumulator := []
  deriving DecidableEq

structure Helper (α : Type) where
  /-- The channels to the thread are open. -/
  connected : Bool
  /-- The results on their way back, of jobs that were sent to the thread. -/
  inFlight : List (Except Failure α)
  /-- The result of a job that the caller did itself. -/
  pending : Option α

namespace Helper

variable {α : Type}

def spawn (started : Bool) : Helper α := ⟨started, [], none⟩

/-- The thread will get the next job. -/
def takes (h : Helper α) (turn : Turn) : Bool := h.connected && turn.reachable

/-- Hand over a job. A job that nobody takes is done at once. -/
def submit (h : Helper α) (turn : Turn) (job : Except Failure α) : Except Failure (Helper α) := do
  ensure (h.pending.isNone = true)
  if h.takes turn then return { h with inFlight := h.inFlight ++ [job] }
  else
    let result ← job
    return { h with connected := false, pending := some result }

/-- Wait for the result of the last job. Waiting for a job that was never handed over does not end when a
thread is there, and is not to be expected otherwise. -/
def wait (h : Helper α) : Except Failure (α × Helper α) :=
  match h.pending, h.connected, h.inFlight with
  | some result, _, _ => .ok (result, { h with pending := none })
  | none, true, result :: rest => result.map fun result => (result, { h with inFlight := rest })
  | none, true, [] => .error .exhausted
  | none, false, _ => .error .assertion

end Helper

end ExactSimplex
