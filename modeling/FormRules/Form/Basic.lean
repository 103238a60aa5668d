import FormRules.Derivation.Engine
import FormRules.Form.Compiled
import FormRules.Form.Rulebook
import FormRules.Inquiry.Answer
import FormRules.Inquiry.Slot
import FormRules.Request.Service
import FormRules.Store.Expiring
import FormRules.Time.Schedule
import FormRules.Validation.Lookup

/-!
# Forms

A form at one moment: its value, what has been attached to it, what it remembers, and the timers and
jobs that are under way. Everything that happens to a form is a computation over this state; one that
faults keeps what it has done until then.
-/

namespace FormRules

/-- A function with a slot per field, and the field. -/
structure SlotKey where
  function : String
  field : List Key
  deriving DecidableEq

/-- Something that happened to an inquiry of a form, and when. -/
structure Incident where
  slot : SlotKey
  inquiry : Inquiry
  moment : Int
  event : InquiryEvent

/-- Something that happened to a test that has to be quiet. -/
inductive TestEvent
  /-- It was computed, to be quiet for some milliseconds. -/
  | computed (holds : Bool) (quietMs : Int)
  /-- What it had settled to was answered. -/
  | answered (holds : Bool)
  deriving DecidableEq

/-- Something that happened to a test at one field, and when. -/
structure TestIncident where
  slot : SlotKey
  moment : Int
  /-- Whether there was a loop to wait on that was not late with a quiet period of the slot. -/
  onTime : Bool
  event : TestEvent
  deriving DecidableEq

/-- What a watched computation may read. -/
inductive Source
  | value
  | external
  /-- The answer of an inquiry. -/
  | answer (slot : SlotKey)
  /-- What a test that has to be quiet has settled to. -/
  | settled (slot : SlotKey)
  deriving DecidableEq

/-- A logic state of a field that is watched. -/
structure Watcher where
  field : List Key
  logic : String
  /-- The state when it was last computed. -/
  state : Option Bool := none
  version : Nat := 0
  /-- Whether the state has to be computed anew. -/
  stale : Bool := true
  /-- What the last computation read. -/
  sources : List Source := []
  /-- How many subscribers are told about changes. -/
  subscribers : Nat := 0

/-- A change of the form value. -/
inductive Update
  | set (path : List Key) (v : Value)
  | patch (delta : Value)
  | replace (v : Value)

/-- Who is told about changes of the form value, and the updates that the change is answered with. -/
structure Subscriber where
  tag : String
  react : Value → List Update := fun _ => []

/-- The form value that a derivation is to be computed from, with a number of its own. -/
structure Trigger where
  serial : Nat
  root : Value

/-- The state of a derivation whose value comes later. -/
structure Stream where
  derivation : Derivation
  reads : List String
  /-- The number of triggers so far. -/
  fired : Nat := 0
  lane : Debounced (Option Trigger) := ⟨none, none, none⟩
  jobs : Latest := {}

/-- A check that may answer later, and its error once it has ended. -/
structure PendingCheck where
  validator : CompiledValidator
  context : Context
  field : List Key
  ended : Option (Option ValidationError) := none

/-- What is scheduled. -/
inductive Task
  /-- The quiet period of an inquiry is over. -/
  | inquiryQuiet (slot : SlotKey)
  | inquiryStart (slot : SlotKey) (job : InquiryJob)
  | inquiryReply (slot : SlotKey) (job : InquiryJob) (response : Outcome Value)
  /-- The quiet period of a test is over. -/
  | testQuiet (slot : SlotKey)
  /-- The quiet period of a derivation is over. -/
  | streamQuiet (stream : Nat)
  | streamStart (stream job : Nat) (trigger : Trigger)
  | streamReply (stream job : Nat) (context : Context) (outcome : Outcome Value)
  | checkStart (check : Nat)
  | checkReply (check : Nat) (outcome : Outcome Value)

/-- Whether a task is the end of a quiet period of a test. -/
def Task.isTestQuiet (k : SlotKey) : Task → Bool
  | .testQuiet j => j = k
  | _ => false

/-- A form. -/
structure Form where
  functions : Functions := {}
  settings : Settings := Settings.defaults
  /-- Whether there is an event loop, without which timers run at once and jobs are refused. -/
  hasLoop : Bool := true
  service : Option Service := none
  value : Value := .map []
  /-- The number of changes of the value. -/
  version : Nat := 0
  external : Value := .undefined
  subscribers : List Subscriber := []
  rulebook : Rulebook := {}
  derivations : List Derivation := []
  streams : List Stream := []
  watchers : List Watcher := []
  compiled : Compiled := {}
  slots : List (SlotKey × Slot) := []
  delayed : List (SlotKey × Debounced (Option Bool)) := []
  answers : Expiring Bool := { capacity := 1000 }
  /-- What has happened to inquiries, the latest first. -/
  history : List Incident := []
  /-- What has happened to tests that have to be quiet, the latest first. -/
  tests : List TestIncident := []
  schedule : Schedule Task := {}
  checks : List PendingCheck := []
  /-- What the computation that is being watched has read so far. -/
  reading : Option (List Source) := none
  journal : Journal := { warned := some [] }
  /-- What subscribers have been told, by tag. -/
  events : List (String × Value) := []

/-- Whether there is a loop, and no quiet period of a test should have been over before now. -/
def Form.isOnTime (f : Form) (k : SlotKey) : Bool :=
  f.hasLoop && f.schedule.pending.all fun a => !a.task.isTestQuiet k || f.schedule.now ≤ a.due

/-- A computation on a form. -/
abbrev Live := ExceptT Fault (StateM Form)

namespace Live
variable {α : Type}

/-- A result or a fault as a computation. -/
def ofOutcome (o : Outcome α) : Live α := ExceptT.mk (pure o)

/-- A computation that reports into the journal of the form. -/
def ofReporting (x : Reporting α) : Live α :=
  ExceptT.mk fun f =>
    let (a, journal) := x.run f.journal
    (.ok a, { f with journal })

/-- A computation that reports and may fault. -/
def ofChecking (x : Checking α) : Live α := do ofOutcome (← ofReporting x.run)

def report (n : Notice) : Live Unit := ofReporting (Journal.report n)

/-- Runs a computation and gives its result or fault. -/
def attempt (x : Live α) : Live (Outcome α) := tryCatch (.ok <$> x) fun e => return .error e

/-- Runs a subscriber, whose fault is reported and stops nobody else. -/
def guarded (x : Live Unit) : Live Unit := tryCatch x fun _ => report .subscriberFailed

/-- Records that a source was read. -/
def track (s : Source) : Live Unit :=
  modify fun f => { f with reading := f.reading.map fun l => if l.contains s then l else l ++ [s] }

/-- Runs a computation and gives what it read, also if it faults. -/
def watching (x : Live α) : Live (Outcome α × List Source) :=
  ExceptT.mk fun f =>
    let (r, g) := x.run.run { f with reading := some [] }
    (.ok (r, g.reading.getD []), { g with reading := f.reading })

/-- Runs a computation whose reads are not recorded. -/
def unwatched (x : Live α) : Live α :=
  ExceptT.mk fun f =>
    let (r, g) := x.run.run { f with reading := none }
    (r, { g with reading := f.reading })

/-- Schedules a task and gives its serial number. -/
def schedule (delay : Int) (t : Task) : Live Nat := do
  let f ← get
  set { f with schedule := f.schedule.after delay t }
  return f.schedule.issued

/-- Drops the timer of a serial number. -/
def cancel (timer : Option Nat) : Live Unit :=
  match timer with
  | some n => modify fun f => { f with schedule := f.schedule.cancel n }
  | none => return

def tell (tag : String) (v : Value) : Live Unit :=
  modify fun f => { f with events := f.events ++ [(tag, v)] }

def send (s : Service) (request : Value) : Live (Reply Value) := do
  let (reply, service) := s.send request
  modify fun f => { f with service := some service }
  return reply

/-- Sends a request to the service that the form has by then. -/
def forward (request : Value) : Live (Reply Value) := do
  match (← get).service with
  | some s => send s request
  | none => throw (.unresolved "" none (.text "no transport configured"))

end Live
end FormRules
