/-!
# Schedules

Tasks that are due at moments of a clock. They are run in the order of their moments, those of one
moment in the order in which they were scheduled; the clock moves to the moment of the task that is
run.
-/

namespace FormRules

/-- A task, the moment at which it is due, and its place among all tasks ever scheduled. -/
structure Appointment (τ : Type) where
  due : Int
  serial : Nat
  task : τ

/-- A clock in milliseconds with the tasks that are still to be run, the next one first. -/
structure Schedule (τ : Type) where
  now : Int := 0
  /-- The number of tasks scheduled so far. -/
  issued : Nat := 0
  pending : List (Appointment τ) := []

namespace Schedule
variable {τ : Type}

/-- Puts an appointment behind all that are due no later. -/
def insert (a : Appointment τ) : List (Appointment τ) → List (Appointment τ)
  | [] => [a]
  | b :: bs => if b.due ≤ a.due then b :: insert a bs else a :: b :: bs

/-- Schedules a task after a delay, which counts from now; its serial number is `issued`. -/
def after (s : Schedule τ) (delay : Int) (task : τ) : Schedule τ :=
  { s with
    issued := s.issued + 1
    pending := insert ⟨s.now + max delay 0, s.issued, task⟩ s.pending }

/-- Drops the task of a serial number. -/
def cancel (s : Schedule τ) (serial : Nat) : Schedule τ :=
  { s with pending := s.pending.filter (·.serial ≠ serial) }

/-- Drops all tasks of a kind. -/
def dropAll (s : Schedule τ) (p : τ → Bool) : Schedule τ :=
  { s with pending := s.pending.filter fun a => !p a.task }

/-- Whether a moment is reached before a limit or at it; without a limit every one is. -/
def isWithin (moment : Int) (limit : Option Int) : Bool := limit.all fun l => moment ≤ l

/-- The next task that is due within a limit; the clock moves on to it. -/
def next? (s : Schedule τ) (limit : Option Int) : Option (Appointment τ × Schedule τ) :=
  match s.pending with
  | a :: rest =>
    if isWithin a.due limit then some (a, { s with now := max s.now a.due, pending := rest })
    else none
  | [] => none

/-- The pending task of a serial number, whichever is the next one; the clock moves on to it. -/
def take? (s : Schedule τ) (serial : Nat) : Option (Appointment τ × Schedule τ) :=
  match s.pending.find? (·.serial = serial) with
  | some a =>
    some (a, { s with
      now := max s.now a.due
      pending := s.pending.eraseP (·.serial = serial) })
  | none => none

/-- Moves the clock to a moment, never back. -/
def moveTo (s : Schedule τ) (moment : Int) : Schedule τ := { s with now := max s.now moment }

end Schedule
end FormRules
