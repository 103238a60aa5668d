import FormRules.Reactive.Reading
import FormRules.Value.Equality

/-!
# Reactive networks

A network has signals: cells, whose values are written, and derived ones, whose values are computed from
others. A change makes what depends on it stale. A stale signal is computed anew when it is read; one
that has subscribers is computed anew at once, so that they can be told.
-/

namespace FormRules

/-- The computation of a derived signal. -/
structure Derived where
  compute : Reading (Outcome Value)
  /-- Whether the value has to be computed anew. -/
  stale : Bool := true
  /-- The signals that the last computation read. -/
  sources : List String := []
  /-- How often the value has been computed. -/
  runs : Nat := 0

/-- A signal. -/
structure Signal where
  value : Value := .null
  /-- The number of changes of the value. -/
  version : Nat := 0
  /-- Whether values are compared strictly to tell a change. -/
  strict : Bool := false
  /-- The derived signals that read this one. -/
  observers : List String := []
  /-- The numbers of the subscribers, the first one first. -/
  subscribers : List Nat := []
  derived : Option Derived := none

/-- Whether a new value of a signal is no change. -/
def Signal.keeps (n : Signal) (v : Value) : Bool := if n.strict then n.value.strictEq v else n.value.unchanged v

/-- A derived signal whose value has just been computed. -/
def Signal.settle (n : Signal) (v : Value) : Signal :=
  { n with
    value := v
    version := if n.keeps v then n.version else n.version + 1
    derived := n.derived.map fun d => { d with stale := false } }

/-- A network. -/
structure Network where
  signals : List (String × Signal) := []
  /-- The order in which several observers are told, which may differ each time; any permutation is as good. -/
  arrange : Nat → List String → List String := fun _ os => os
  /-- How often observers have been told. -/
  turns : Nat := 0
  /-- What a subscriber computes when it is told a value. -/
  hear : Nat → Value → Reading (Outcome Value) := fun _ v => .done (.ok v)
  /-- The subscribers told, in order, each with the new value. -/
  told : List (Nat × Value) := []

/-- A computation on a network; what it has done until it faults stays done. -/
abbrev Flow := ExceptT Fault (StateM Network)

namespace Flow
variable {β : Type}

/-- Runs a computation and gives its result or fault. -/
def attempt (x : Flow β) : Flow (Outcome β) := tryCatch (.ok <$> x) fun e => return .error e

/-- A result or a fault as a computation. -/
def ofOutcome (o : Outcome β) : Flow β := ExceptT.mk (pure o)

def signal? (name : String) : Flow (Option Signal) := do return Table.get? (← get).signals name

/-- The signal of a name, which has to exist. -/
def signal (name : String) : Flow Signal := do
  match ← signal? name with
  | some n => return n
  | none => throw (.breach .missingKey)

def put (name : String) (n : Signal) : Flow Unit :=
  modify fun w => { w with signals := Table.put w.signals name n }

/-- Changes a signal, if it exists. -/
def change (name : String) (g : Signal → Signal) : Flow Unit := do
  if let some n ← signal? name then put name (g n)

/-- Observers in the order in which they are told this time. -/
def inTurn (observers : List String) : Flow (List String) := do
  let w ← get
  set { w with turns := w.turns + 1 }
  return w.arrange w.turns observers

/-! ## Reading -/

/-- Follows a computation, `read` giving the values of signals; also gives the signals that it read with
tracking, in the order in which it first did, up to where it faulted. -/
def follow (read : String → Flow (Option Value)) :
    Reading (Outcome Value) → List String → Flow (Outcome Value × List String)
  | .done r, sources => return (r, sources)
  | .read name tracked next, sources => do
    let exists_ := (← signal? name).isSome
    let sources := if exists_ && tracked && !sources.contains name then sources ++ [name] else sources
    match ← attempt (read name) with
    | .ok v => follow read (next v) sources
    | .error e => return (.error e, sources)

/-- Makes a signal depend on exactly the given ones. -/
def rewire (name : String) (d : Derived) (sources : List String) : Flow Unit := do
  for s in d.sources do
    if !sources.contains s then
      change s fun n => { n with observers := n.observers.erase name }
  for s in sources do
    if !d.sources.contains s then
      change s fun n => { n with observers := n.observers ++ [name] }
  change name fun n => { n with derived := some { d with sources, runs := d.runs + 1 } }

/-- The value of a signal, which `compute` computes anew if it is stale. -/
def readWith (compute : String → Flow Value) (name : String) : Flow (Option Value) := do
  let some n ← signal? name | return none
  match n.derived with
  | some d => if d.stale then some <$> compute name else return some n.value
  | none => return some n.value

/-- Computes a derived signal. In a network without loops every signal computed inside of another is a
further one, so `fuel` may be the number of signals. -/
def compute : (fuel : Nat) → String → Flow Value
  | 0, _ => return .null
  | fuel + 1, name => do
    let n ← signal name
    let some d := n.derived | return n.value
    let (outcome, sources) ← follow (readWith (compute fuel)) d.compute []
    rewire name d sources
    let v ← ofOutcome outcome
    change name (·.settle v)
    return v

def size : Flow Nat := do return (← get).signals.length

/-- Computes a derived signal. -/
def recompute (name : String) : Flow Value := do compute (← size) name

/-- The value of a signal that has to exist. -/
def read (name : String) : Flow Value := do
  let _ ← signal name
  return (← readWith recompute name).getD .null

/-! ## Changes -/

/-- Tells the subscribers of a signal a value. What they read is not tracked, and a fault of one of them stops
nobody else. -/
def tell (n : Signal) (v : Value) : Flow Unit := do
  for s in n.subscribers do
    modify fun w => { w with told := w.told ++ [(s, v)] }
    let _ ← follow (readWith recompute) ((← get).hear s v) []

/-- Makes a derived signal stale after one of its sources has changed. Its observers become stale before
it is computed anew for its subscribers. A stale signal is passed over, so `fuel` may be the number of
signals. -/
def markStale : (fuel : Nat) → String → Flow Unit
  | 0, _ => return
  | fuel + 1, name => do
    let some n ← signal? name | return
    let some d := n.derived | return
    if d.stale then return
    put name { n with derived := some { d with stale := true } }
    for o in ← inTurn n.observers do
      markStale fuel o
    -- a subscriber of an observer may have had the value computed meanwhile
    let n ← signal name
    if n.subscribers.isEmpty then return
    let v ← recompute name
    if !n.keeps v then tell (← signal name) v

/-- Writes a cell; says whether that is a change. -/
def write (name : String) (v : Value) : Flow Bool := do
  let n ← signal name
  if n.derived.isSome then throw (.breach .noPart)
  if !v.hasNaN && n.keeps v then return false
  put name { n with value := v, version := n.version + 1 }
  for o in ← inTurn n.observers do
    markStale (← size) o
  tell (← signal name) v
  return true

/-- Adds a subscriber to a signal. -/
def subscribe (name : String) (subscriber : Nat) : Flow Unit := do
  let n ← signal name
  put name { n with subscribers := n.subscribers ++ [subscriber] }

/-- Drops a subscriber of a signal. -/
def unsubscribe (name : String) (subscriber : Nat) : Flow Unit :=
  change name fun n => { n with subscribers := n.subscribers.erase subscriber }

/-- Makes a derived signal depend on nothing until it is computed anew. -/
def dispose (name : String) : Flow Unit := do
  let n ← signal name
  let some d := n.derived | throw (.breach .noPart)
  for s in d.sources do
    change s fun n => { n with observers := n.observers.erase name }
  change name fun n => { n with derived := some { d with sources := [], stale := true } }

/-- Takes the subscribers that have been told something. -/
def takeTold : Flow (List (Nat × Value)) := do
  let w ← get
  set { w with told := [] }
  return w.told

end Flow
end FormRules
