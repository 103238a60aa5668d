import FormRules.Reactive.Bench

/-!
# What can happen to a bench

A bench starts with an empty network, and from then on changes by operations only: parts are added, cells are
written and read, and tasks fire. Tasks may fire in any order and late, and a job may end at any moment with any
result, so that nothing depends on how long a job takes or how busy the event loop is.
-/

namespace FormRules

/-- The task with which a job ends with some result, in place of one of its own. -/
def BenchTask.concluding (result : Outcome Value) : BenchTask → BenchTask
  | .jobStart switch job v | .jobReply switch job v _ => .jobReply switch job v result
  | t => t

namespace Bench

/-- Something that is done to a bench or happens to it. -/
inductive Operation
  | addSignal (name : String) (s : Signal)
  | follow (name source : String) (quietMs : Int) (initial : Value)
  | switchTo (name source : String) (scripts : Entries)
  | subscribe (name tag : String) (raises : Bool)
  | unsubscribe (tag : String)
  | dispose (name : String)
  | setTimer (tag : String) (ms : Int)
  | stopTimer (tag : String)
  | write (name : String) (v : Value)
  | read (name : String)
  /-- The source of a switch tells it a value, whatever made it change. -/
  | tell (switch : String) (v : Value)
  | advance (ms : Int)
  /-- The clock goes on while nothing gets to run. -/
  | wait (ms : Int)
  /-- A pending task is run. -/
  | fire (serial : Nat)
  /-- The job whose task is pending ends. -/
  | conclude (serial : Nat) (result : Outcome Value)
  /-- The event loop starts or stops running. -/
  | setLoop (b : Bool)

end Bench

namespace Benched

/-- Runs a pending task, or another one in its place. -/
def fireTask (serial : Nat) (instead : BenchTask → BenchTask) : Benched Unit := do
  let b ← get
  match b.schedule.take? serial with
  | none => return
  | some (a, schedule) =>
    set { b with schedule }
    let _ ← attempt (runTask (instead a.task))

/-- Does an operation, of whose result nothing is kept. -/
def perform : Bench.Operation → Benched Unit
  | .addSignal name s => addSignal name s
  | .follow name source ms initial => follow name source ms initial
  | .switchTo name source scripts => switchTo name source scripts
  | .subscribe name tag raises => subscribe name tag raises
  | .unsubscribe tag => unsubscribe tag
  | .dispose name => onNetwork (Flow.dispose name)
  | .setTimer tag ms => setTimer tag ms
  | .stopTimer tag => stopTimer tag
  | .write name v => do let _ ← write name v
  | .read name => do let _ ← onNetwork (Flow.read name)
  | .tell name v => startJob name v
  | .advance ms => advance ms
  | .wait ms => modify fun b => { b with schedule := b.schedule.moveTo (b.schedule.now + ms) }
  | .fire n => fireTask n id
  | .conclude n result => fireTask n (BenchTask.concluding result)
  | .setLoop l => modify fun b => { b with hasLoop := l }

end Benched

namespace Bench

/-- Whether nothing has happened to a bench yet. -/
def IsFresh (b : Bench) : Prop := b = { network := b.network, hasLoop := b.hasLoop }

/-- The bench after an operation, also if that faults. -/
def next (b : Bench) (o : Operation) : Bench := ((Benched.perform o).run.run b).2

/-- The bench after operations, the first one first. -/
def runAll (b : Bench) (os : List Operation) : Bench := os.foldl next b

/-- Whether a switch that an operation adds has a name of its own. -/
def Admits (b : Bench) : Operation → Prop
  | .switchTo name _ _ => Table.get? b.switches name = none
  | _ => True

/-- The benches that a fresh one can become. -/
inductive Reachable : Bench → Prop
  | fresh {b : Bench} (h : b.IsFresh) : Reachable b
  | next {b : Bench} (h : Reachable b) {o : Operation} (ho : b.Admits o) : Reachable (b.next o)

end Bench
end FormRules
