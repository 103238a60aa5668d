/-!
# What is waited for

A value that follows a source once the source has been quiet for a while: every change of the source starts the quiet
period anew; when it is over, the value of the source at that moment is taken over. And jobs, of which only the latest
that has been started may deliver its outcome.
-/

namespace FormRules

/-! ## Debounced values -/

/-- A source and the value that follows it. -/
structure Debounced (α : Type) where
  source : α
  settled : α
  /-- The serial number of the timer of the quiet period that has begun, if one has. -/
  timer : Option Nat := none

namespace Debounced
variable {α : Type}

/-- The source changes, which begins a quiet period with a new timer, if there is one. -/
def change (d : Debounced α) (v : α) (timer : Option Nat) : Debounced α :=
  { d with source := v, timer }

/-- The quiet period is over: the settled value becomes that of the source. Also gives the value if it
is another one than before. -/
def settle (same : α → α → Bool) (d : Debounced α) : Debounced α × Option α :=
  if same d.settled d.source then ({ d with timer := none }, none)
  else ({ d with settled := d.source, timer := none }, some d.source)

end Debounced

/-! ## The latest of several jobs

Jobs are numbered in the order in which they are started. A job that ends may deliver its outcome only if none has been
started after it. -/

/-- The number of jobs started, and those still running. -/
structure Latest where
  generation : Nat := 0
  running : List Nat := []

namespace Latest

/-- Starts a job, whose number is the new generation. -/
def start (l : Latest) : Latest where
  generation := l.generation + 1
  running := (l.generation + 1) :: l.running

/-- Ends a running job; says whether it delivers. -/
def finish (l : Latest) (job : Nat) : Latest × Bool :=
  ({ l with running := l.running.erase job }, l.running.contains job && job = l.generation)

end Latest

end FormRules
