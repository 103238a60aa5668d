import FormRules.Functions.Script
import FormRules.Reactive.Network
import FormRules.Time.Pending
import FormRules.Time.Schedule

/-!
# Networks in time

A network of named signals with a clock. Cells may follow a signal once it has been quiet; each change
of a signal may start a job, the latest of which delivers its outcome; and timers ring. What listeners,
jobs and timers come to are events.
-/

namespace FormRules

/-- Who is told about changes of a signal. -/
inductive Listener
  /-- Notes every value, and may raise then. -/
  | notes (tag : String) (raises : Bool)
  /-- Lets a cell follow the signal. -/
  | follows (cell : String)
  /-- Starts a job for every value. -/
  | starts (switch : String)

/-- A cell that follows a signal once that has been quiet. -/
structure Follower where
  source : String
  quietMs : Int
  timer : Option Nat := none

/-- What happens to the jobs of a switch. -/
inductive JobEvent
  | started (job : Nat) (v : Value)
  | ended (job : Nat) (result : Outcome Value)
  | delivered (job : Nat) (v : Value) (result : Outcome Value)

/-- Jobs that are started one after another, described by scripts for the texts of values; the latest
one delivers. -/
structure Switch where
  scripts : Entries
  jobs : Latest := {}
  /-- What has happened to the jobs, the last event first; nothing depends on it. -/
  history : List JobEvent := []

/-- What is noted. -/
inductive Event
  | value (v : Value)
  | time (moment : Int)
  /-- What the latest job for a value came to. -/
  | outcome (v : Value) (result : Outcome Value)

/-- What is scheduled. -/
inductive BenchTask
  /-- The source of a cell has been quiet. -/
  | quiet (cell : String)
  | jobStart (switch : String) (job : Nat) (v : Value)
  | jobReply (switch : String) (job : Nat) (v : Value) (outcome : Outcome Value)
  | ring (tag : String)
  /-- The end of a job that was broken off. -/
  | abandoned

def BenchTask.isJob : BenchTask → Bool
  | jobStart _ _ _ | jobReply _ _ _ _ | abandoned => true
  | quiet _ | ring _ => false

/-- A network in time. -/
structure Bench where
  network : Network := {}
  /-- Whether there is an event loop, without which timers run at once and jobs are refused. -/
  hasLoop : Bool := true
  schedule : Schedule BenchTask := {}
  /-- The listeners; the number of a subscriber is its position. -/
  listeners : List Listener := []
  /-- The signal and the subscriber that a tag stands for. -/
  tags : List (String × (String × Nat)) := []
  timers : List (String × Nat) := []
  followers : List (String × Follower) := []
  switches : List (String × Switch) := []
  journal : Journal := {}
  /-- What has been noted, by tag. -/
  events : List (String × Event) := []

/-- The script of the job for a value, `*` standing for any. -/
def Switch.script (s : Switch) (v : Value) : Outcome Entries :=
  match Value.field? s.scripts v.toText <|> Value.field? s.scripts "*" with
  | some d => .ok (Script.fields d)
  | none => .error (.breach .missingKey)

def Switch.reply (s : Switch) (v : Value) : Reply Value :=
  match s.script v with
  | .ok es => ⟨Script.delayOf es, (Script.ofFields es).value [("value", v)]⟩
  | .error e => ⟨0, .error e⟩

/-- Starts a job for a value. -/
def Switch.start (s : Switch) (v : Value) : Switch :=
  let jobs := s.jobs.start
  { s with jobs, history := .started jobs.generation v :: s.history }

/-- Ends the job for a value; says whether it delivers. -/
def Switch.finish (s : Switch) (job : Nat) (v : Value) (outcome : Outcome Value) : Switch × Bool :=
  let (jobs, delivers) := s.jobs.finish job
  let history := .ended job outcome :: s.history
  ({ s with jobs, history := if delivers then .delivered job v outcome :: history else history }, delivers)

/-- A computation on a bench. -/
abbrev Benched := ExceptT Fault (StateM Bench)

namespace Benched
variable {β : Type}

/-- Runs a computation on the network. -/
def onNetwork (x : Flow β) : Benched β :=
  ExceptT.mk fun b =>
    let (r, network) := x.run.run b.network
    (r, { b with network })

/-- Runs a computation and gives its result or fault. -/
def attempt (x : Benched β) : Benched (Outcome β) := tryCatch (.ok <$> x) fun e => return .error e

def report (n : Notice) : Benched Unit := modify fun b => { b with journal := b.journal.add n }

def note (tag : String) (e : Event) : Benched Unit :=
  modify fun b => { b with events := b.events ++ [(tag, e)] }

/-- Schedules a task and gives its serial number. -/
def schedule (delay : Int) (t : BenchTask) : Benched Nat := do
  let b ← get
  set { b with schedule := b.schedule.after delay t }
  return b.schedule.issued

/-- Drops the timer of a serial number. -/
def cancel (timer : Option Nat) : Benched Unit :=
  match timer with
  | some n => modify fun b => { b with schedule := b.schedule.cancel n }
  | none => return

/-- A part that has to exist. -/
def require (o : Option β) : Benched β :=
  match o with
  | some a => return a
  | none => throw (.breach .missingKey)

/-! ## Jobs -/

/-- A job has ended; the latest one delivers. -/
def jobEnded (name : String) (job : Nat) (v : Value) (outcome : Outcome Value) : Benched Unit := do
  let some s := Table.get? (← get).switches name | return
  let (s, delivers) := s.finish job v outcome
  modify fun b => { b with switches := Table.put b.switches name s }
  if delivers then note name (.outcome v outcome)

/-- A value starts a job, if there is a loop to run it. -/
def startJob (name : String) (v : Value) : Benched Unit := do
  let b ← get
  let some s := Table.get? b.switches name | return
  let s := s.start v
  set { b with switches := Table.put b.switches name s }
  if b.hasLoop then
    let _ ← schedule 0 (.jobStart name s.jobs.generation v)
  else
    jobEnded name s.jobs.generation v (.error (.raised "no running event loop to resolve asynchronously"))

/-- A job runs until its delay is over. -/
def runJob (name : String) (job : Nat) (v : Value) : Benched Unit := do
  let some s := Table.get? (← get).switches name | return
  let r := s.reply v
  let _ ← schedule r.delay (.jobReply name job v r.outcome)

/-! ## Changes -/

/-- Writes a cell, and lets everybody who is told by that react; `react` gets the subscribers told. -/
def writeWith (react : List (Nat × Value) → Benched Unit) (name : String) (v : Value) : Benched Bool := do
  let outcome ← attempt (onNetwork (Flow.write name v))
  react (← onNetwork Flow.takeTold)
  match outcome with
  | .ok changed => return changed
  | .error e => throw e

/-- The source of a cell has been quiet: the cell takes over its value. -/
def settleWith (react : List (Nat × Value) → Benched Unit) (cell : String) : Benched Unit := do
  let some f := Table.get? (← get).followers cell | return
  modify fun b => { b with followers := Table.put b.followers cell { f with timer := none } }
  let v ← onNetwork (Flow.read f.source)
  let _ ← writeWith react cell v

def hear (react : List (Nat × Value) → Benched Unit) (v : Value) : Listener → Benched Unit
  | .notes tag raises => do
    note tag (.value v)
    if raises then throw (.raised tag)
  | .starts name => startJob name v
  | .follows cell => do
    let b ← get
    let some f := Table.get? b.followers cell | return
    if b.hasLoop then
      cancel f.timer
      let timer ← schedule f.quietMs (.quiet cell)
      modify fun b =>
        { b with followers := Table.put b.followers cell { f with timer := some timer } }
    else settleWith react cell

/-- Lets subscribers that have been told values react in turn; a fault of one is reported and stops
nobody else. Cells that follow at once form no loop, so `fuel` may be their number. -/
def react : (fuel : Nat) → List (Nat × Value) → Benched Unit
  | fuel, told => told.forM fun (n, v) => do
    let some l := (← get).listeners[n]? | return
    let heard ← attempt (match fuel with
      | 0 => hear (fun _ => return) v l
      | fuel + 1 => hear (react fuel) v l)
    match heard with
    | .ok _ => return
    | .error _ => report .subscriberFailed

/-- Lets subscribers react. -/
def reactAll (told : List (Nat × Value)) : Benched Unit := do
  react (← get).followers.length told

/-- Writes a cell; says whether that is a change. -/
def write (name : String) (v : Value) : Benched Bool := writeWith reactAll name v

/-! ## Parts -/

def addSignal (name : String) (s : Signal) : Benched Unit := onNetwork (Flow.put name s)

/-- Adds a listener to a signal and gives its number. -/
def listen (name : String) (l : Listener) : Benched Nat := do
  let n := (← get).listeners.length
  onNetwork (Flow.subscribe name n)
  modify fun b => { b with listeners := b.listeners ++ [l] }
  return n

/-- Adds a listener that can be dropped by its tag. -/
def subscribe (name tag : String) (raises : Bool) : Benched Unit := do
  let n ← listen name (.notes tag raises)
  modify fun b => { b with tags := Table.put b.tags tag (name, n) }

/-- Drops the listener of a tag. -/
def unsubscribe (tag : String) : Benched Unit := do
  let (name, n) ← require (Table.get? (← get).tags tag)
  onNetwork (Flow.unsubscribe name n)

/-- Adds a cell that follows a signal. -/
def follow (name source : String) (quietMs : Int) (initial : Value) : Benched Unit := do
  let _ ← listen source (.follows name)
  modify fun b => { b with followers := Table.put b.followers name { source, quietMs } }
  addSignal name { value := initial }

/-- Starts jobs for the changes of a signal. -/
def switchTo (name source : String) (scripts : Entries) : Benched Unit := do
  let _ ← listen source (.starts name)
  modify fun b => { b with switches := Table.put b.switches name { scripts } }

/-- Sets a timer; without a loop it rings at once. -/
def setTimer (tag : String) (ms : Int) : Benched Unit := do
  let b ← get
  if b.hasLoop then
    let n ← schedule ms (.ring tag)
    modify fun b => { b with timers := Table.put b.timers tag n }
  else note tag (.time b.schedule.now)

def stopTimer (tag : String) : Benched Unit := do cancel (Table.get? (← get).timers tag)

/-! ## Time -/

def runTask : BenchTask → Benched Unit
  | .quiet cell => settleWith reactAll cell
  | .jobStart name job v => runJob name job v
  | .jobReply name job v outcome => jobEnded name job v outcome
  | .ring tag => do note tag (.time (← get).schedule.now)
  | .abandoned => return

/-- Runs the tasks that are due up to a moment, at most `fuel` of them. -/
def runDue (moment : Int) : (fuel : Nat) → Benched Unit
  | 0 => return
  | fuel + 1 => do
    let b ← get
    match b.schedule.next? (some moment) with
    | none => return
    | some (a, schedule) =>
      set { b with schedule }
      let _ ← attempt (runTask a.task)
      runDue moment fuel

/-- How many tasks are run at most at once. -/
def taskLimit : Nat := 1000000

/-- Moves the clock on, and runs everything that is due until then. -/
def advance (ms : Int) : Benched Unit := do
  let moment := (← get).schedule.now + ms
  runDue moment taskLimit
  modify fun b => { b with schedule := b.schedule.moveTo moment }

end Benched

namespace Bench

/-- Whether a timer or job is pending. -/
def isBusy (b : Bench) : Bool := !b.schedule.pending.isEmpty

/-- Stops all timers and breaks off all jobs; a job that is broken off ends when time goes on. -/
def cancelAll (b : Bench) : Bench :=
  let jobs := b.schedule.pending.filter (·.task.isJob)
  let schedule := b.schedule.dropAll fun _ => true
  { b with schedule := jobs.foldl (fun s _ => s.after 0 .abandoned) schedule }

end Bench
end FormRules
