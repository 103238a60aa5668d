import FormRules.Form.Commit
import FormRules.Form.Validate

/-!
# A form in time

Timers fire and jobs go on when they are due, one task after another, while the clock of the form moves
on. A fault of a task ends that task only.
-/

namespace FormRules

namespace Live

def runTask : Task → Live Unit
  | .inquiryQuiet k => inquiryQuiet notify k
  | .inquiryStart k job => inquiryStart notify k job
  | .inquiryReply k job response => inquiryEnded notify k job response
  | .testQuiet k => testQuiet notify k
  | .streamQuiet n => streamQuiet n
  | .streamStart n job t => streamStart n job t
  | .streamReply n job c outcome => streamReply n job c outcome
  | .checkStart n => checkStart n
  | .checkReply n outcome => checkReply n outcome

/-- Runs the next task that is due within a limit; says whether there was one. -/
def step (limit : Option Int) : Live Bool := do
  let f ← get
  match f.schedule.next? limit with
  | none => return false
  | some (a, schedule) =>
    set { f with schedule }
    let _ ← attempt (runTask a.task)
    return true

/-- Runs tasks that are due within a limit until the form satisfies a condition or none is left. A
chain of tasks may go on for ever, which `fuel` bounds. -/
def runUntil (isDone : Form → Bool) (limit : Option Int) : (fuel : Nat) → Live Unit
  | 0 => return
  | fuel + 1 => do
    if isDone (← get) then return
    if ← step limit then runUntil isDone limit fuel

/-- How many tasks are run at most at once. -/
def taskLimit : Nat := 1000000

/-- Moves the clock on to a moment, and runs everything that is due until then. -/
def advanceTo (moment : Int) : Live Unit := do
  runUntil (fun _ => false) (some moment) taskLimit
  modify fun f => { f with schedule := f.schedule.moveTo moment }

/-- Moves the clock on. -/
def advance (ms : Int) : Live Unit := do advanceTo ((← get).schedule.now + ms)

/-- How long a form may take to settle, in milliseconds. -/
def settleMs : Int := 5000

/-- Waits until nothing is pending, which may take only so long; in any case twice that time passes. -/
def settle : Live Unit := do
  let start := (← get).schedule.now
  advanceTo (start + settleMs)
  let isIdle := (← get).schedule.pending.isEmpty
  advanceTo (start + 2 * settleMs)
  if !isIdle then throw (.breach .overdue)

/-- Validates the form, and waits for the checks that answer later. -/
def validateAsync : Live (List ValidationError) := do
  let root := (← get).value
  let first ← unwatched (checkNow root)
  scheduleChecks root
  runUntil Form.checksEnded none taskLimit
  let f ← get
  set { f with checks := [] }
  return first ++ f.checkErrors

end Live

/-- How much a form keeps. -/
structure FormStats where
  conditions : Nat
  inquiries : Nat
  valueExpressions : Nat
  validators : Nat
  /-- Fields at which tests have to be quiet. -/
  delayedSlots : Nat
  inquirySlots : Nat
  answers : Nat

namespace Form

/-- How much the form keeps. -/
def stats (f : Form) : FormStats where
  conditions := f.compiled.count .test
  inquiries := f.compiled.count .inquiry
  valueExpressions := f.compiled.count .value
  validators := f.compiled.validators.length
  delayedSlots := f.delayed.length
  inquirySlots := f.slots.length
  answers := f.answers.size

def isCheckTask : Task → Bool
  | .checkStart _ | .checkReply _ _ => true
  | _ => false

/-- Breaks off everything that is pending and drops everything that is remembered. -/
def dispose (f : Form) : Form :=
  { f with
    schedule := f.schedule.dropAll fun t => !isCheckTask t
    watchers := []
    compiled := f.compiled.forget
    slots := []
    delayed := []
    answers := f.answers.clear
    history := []
    tests := []
    journal := f.journal.reset }

/-- Takes the requests that have been sent since they were last taken. -/
def takeRequests (f : Form) : List Value × Form :=
  match f.service with
  | some s => (s.requests, { f with service := some { s with requests := [] } })
  | none => ([], f)

end Form
end FormRules
