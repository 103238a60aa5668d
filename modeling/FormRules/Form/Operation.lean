import FormRules.Form.Run

/-!
# What can happen to a form

A form starts with what it is made of, and from then on changes by operations only: it is updated, rules
are attached to it, conditions are evaluated, and tasks fire. Tasks may fire in any order and late, so
that no outcome depends on when a service answers or how busy the event loop is.
-/

namespace FormRules

/-- Something that is done to a form or happens to it. -/
inductive Operation
  | update (u : Update)
  | derive (d : Derivation)
  | provide (external : Value)
  | attachValidator (path : String) (v : Validator)
  | attachLogic (path : String) (r : LogicRule)
  | applySchema (path : String) (a : SchemaApplication)
  | registerSchema (s : Schema)
  | subscribe (s : Subscriber)
  | watch (logic : String) (field : List Key)
  | listen (watcher : Nat)
  | readWatcher (watcher : Nat)
  | compile (quietMs : Option Int) (c : Condition)
  | compileValue (e : Value)
  | call (function : Nat) (root : Value) (field : List Key)
  | evaluate (quietMs : Option Int) (c : Condition) (field : List Key)
  | readState (logic : String) (field : List Key)
  | readValidators (field : List Key)
  | validate
  | validateAsync
  | advance (ms : Int)
  | settle
  /-- The clock goes on while nothing gets to run. -/
  | wait (ms : Int)
  /-- A pending task is run. -/
  | fire (serial : Nat)
  /-- The event loop starts or stops running. -/
  | setLoop (b : Bool)
  | takeRequests
  | takeReports

namespace Live

/-- Runs a pending task. -/
def fireTask (serial : Nat) : Live Unit := do
  let f ← get
  match f.schedule.take? serial with
  | none => return
  | some (a, schedule) =>
    set { f with schedule }
    let _ ← attempt (runTask a.task)

/-- Does an operation, of whose result nothing is kept. -/
def perform : Operation → Live Unit
  | .update u => do let _ ← update u
  | .derive d => do let _ ← addDerivation d
  | .provide v => setExternal v
  | .attachValidator path v => addValidator path v
  | .attachLogic path r => addLogic path r
  | .applySchema path a => applySchema path a
  | .registerSchema s => registerSchema s
  | .subscribe s => modify fun f => { f with subscribers := f.subscribers ++ [s] }
  | .watch logic field => do let _ ← watcherOf logic field
  | .listen n => modify fun f => { f with
      watchers := f.watchers.modify n fun w => { w with subscribers := w.subscribers + 1 } }
  | .readWatcher n => do let _ ← readWatcher n
  | .compile ms c => do let _ ← compile ms c
  | .compileValue e => modify fun f => { f with compiled := (f.compiled.valueExpression e).2 }
  | .call n root field => do let _ ← call notify (← functionAt n) root field
  | .evaluate ms c field => do let _ ← holdsAt notify ms c (← get).value field
  | .readState logic field => do let _ ← logicState notify logic field
  | .readValidators field => do let _ ← fieldValidators field
  | .validate => do let _ ← validate
  | .validateAsync => do let _ ← validateAsync
  | .advance ms => advance ms
  | .settle => settle
  | .wait ms => modify fun f => { f with schedule := f.schedule.moveTo (f.schedule.now + ms) }
  | .fire n => fireTask n
  | .setLoop b => modify fun f => { f with hasLoop := b }
  | .takeRequests => modify fun f => f.takeRequests.2
  | .takeReports => modify fun f => { f with
      journal := { f.journal with notices := [] }
      events := [] }

end Live

namespace Form

/-- Whether nothing has happened to a form yet. -/
def IsFresh (f : Form) : Prop :=
  f = {
    functions := f.functions
    settings := f.settings
    hasLoop := f.hasLoop
    service := f.service
    value := f.value
    external := f.external
    rulebook := { schemas := f.rulebook.schemas } }

/-- The form after an operation, also if that faults. -/
def next (f : Form) (o : Operation) : Form := ((Live.perform o).run.run f).2

/-- The form after operations, the first one first. -/
def runAll (f : Form) (os : List Operation) : Form := os.foldl next f

/-- The forms that a fresh one can become. -/
inductive Reachable : Form → Prop
  | fresh {f : Form} (h : f.IsFresh) : Reachable f
  | next {f : Form} (h : Reachable f) (o : Operation) : Reachable (f.next o)

end Form
end FormRules
