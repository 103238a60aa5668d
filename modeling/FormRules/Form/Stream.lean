import FormRules.Form.Watch

/-!
# Derivations whose values come later

A change of what such a derivation reads triggers it with the form value of that moment. After a quiet
period a job asks for the value; only the latest job delivers one.
-/

namespace FormRules

namespace Stream

/-- The state of a derivation that has not been triggered. -/
def ofDerivation (d : Derivation) : Outcome Stream := do
  return { derivation := d, reads := ← d.dependencies }

def sameTrigger (a b : Option Trigger) : Bool := a.map (·.serial) = b.map (·.serial)

/-- Whether a value of the form without the target differs from another one. -/
def differsElsewhere (target : String) (previous current : Value) : Outcome Bool := do
  let keys ← Path.keys target
  let before ← (previous.setPath keys .undefined).mapError Fault.ofPath
  let after ← (current.setPath keys .undefined).mapError Fault.ofPath
  return !before.strictEq after

/-- Whether two values of the form differ at one of some paths. -/
def differsAt (previous current : Value) : List String → Outcome Bool
  | [] => return false
  | path :: paths => do
    let keys ← Path.keys path
    if (previous.getPath keys).strictEq (current.getPath keys) then differsAt previous current paths
    else return true

/-- Whether a change of the form value changes what the derivation reads. -/
def isAffected (s : Stream) (previous current : Value) : Outcome Bool :=
  if s.reads.contains allFields then differsElsewhere s.derivation.target previous current
  else differsAt previous current s.reads

/-- Triggers the derivation, with the timer of its quiet period. -/
def trigger (s : Stream) (root : Value) (timer : Option Nat) : Stream :=
  { s with fired := s.fired + 1, lane := s.lane.change (some ⟨s.fired + 1, root⟩) timer }

/-- The end of a quiet period starts a job. -/
def settle (s : Stream) : Stream × Option (Nat × Trigger) :=
  match s.lane.settle sameTrigger with
  | (lane, some (some t)) =>
    let jobs := s.jobs.start
    ({ s with lane, jobs }, some (jobs.generation, t))
  | (lane, _) => ({ s with lane }, none)

/-- Ends a job; says whether it delivers. -/
def finish (s : Stream) (job : Nat) : Stream × Bool :=
  let (jobs, delivers) := s.jobs.finish job
  ({ s with jobs }, delivers)

/-- The value that a response stands for, in the context of the target. -/
def interpret (s : Stream) (c : Context) (response : Value) : Outcome Value :=
  match s.derivation.source with
  | .http _ e => Expr.evaluateValue e (c.scopeWith [("response", response)])
  | _ => .ok response

end Stream

namespace Live

/-- The context of the target of a derivation over a value of the form. -/
def targetContext (d : Derivation) (root : Value) : Live Context := do
  track .external
  return Context.forKeys root (← ofOutcome (Path.keys d.target)) (← get).external none

def putStream (n : Nat) (s : Stream) : Live Unit :=
  modify fun f => { f with streams := f.streams.set n s }

/-- A job of a derivation has ended without a value to apply: by a fault, or because its condition
does not hold. Gives whether the job was the latest. -/
def streamEnded (n : Nat) (job : Nat) : Live Bool := do
  let some s := (← get).streams[n]? | return false
  let (s, delivers) := s.finish job
  putStream n s
  return delivers

/-- A job of a derivation has failed; the fault of the latest one is reported. -/
def streamFailed (n : Nat) (job : Nat) : Live Unit := do
  if ← streamEnded n job then report .derivationLookupFailed

/-- The quiet period of a derivation is over: its job starts, if there is a loop to run it. -/
def streamQuiet (n : Nat) : Live Unit := do
  let some s := (← get).streams[n]? | return
  let (s, job) := s.settle
  putStream n s
  let some (job, t) := job | return
  if (← get).hasLoop then
    let _ ← schedule 0 (.streamStart n job t)
  else guarded (streamFailed n job)

/-- Triggers a derivation: a quiet period begins, and one that has begun is broken off. -/
def fire (n : Nat) (root : Value) : Live Unit := do
  let f ← get
  let some s := f.streams[n]? | return
  cancel s.lane.timer
  if f.hasLoop then
    let ms := s.derivation.debounceMs.getD f.settings.debounceMs
    let timer ← schedule ms (.streamQuiet n)
    putStream n (s.trigger root timer)
  else
    putStream n (s.trigger root none)
    guarded (streamQuiet n)

/-- Triggers the derivations that a change of the form value affects. -/
def notifyStreams (previous current : Value) : Live Unit := do
  for n in List.range (← get).streams.length do
    let some s := (← get).streams[n]? | continue
    if ← ofOutcome (s.isAffected previous current) then fire n current

/-- Asks for the value of a derivation in the context of its target; no reply is awaited if its
condition does not hold. -/
def askStream (d : Derivation) (c : Context) : Live (Option (Reply Value)) := do
  let f ← get
  if !(← ofReporting (d.isOpen f.functions c)) then return none
  match d.source with
  | .http request _ =>
    match f.service with
    | none => throw (.unresolved d.target none (.text "no transport configured"))
    | some service => some <$> send service (← ofOutcome (request.resolve c))
  | .asyncFunction name =>
    let g ← ofOutcome (Functions.find f.functions.asyncDerivations .asyncDerivation name)
    return some (g c)
  | _ => return none

def streamStart (n : Nat) (job : Nat) (t : Trigger) : Live Unit := do
  let some s := (← get).streams[n]? | return
  let asked ← attempt do
    let c ← targetContext s.derivation t.root
    return (c, ← askStream s.derivation c)
  match asked with
  | .ok (c, some r) => let _ ← schedule r.delay (.streamReply n job c r.outcome)
  | .ok (_, none) => let _ ← streamEnded n job
  | .error _ => streamFailed n job

end Live
end FormRules
