import FormRules.Form.Stream
import FormRules.Value.Merge

/-!
# Changing the value of a form

Every change of the value runs the derivations that have a value at once, writes the result, tells
watchers and subscribers, and triggers the derivations whose values come later. A subscriber may
answer the change with further ones.
-/

namespace FormRules

namespace Update

/-- The value of a form after an update. -/
def apply (value : Value) : Update → Outcome Value
  | .set path v => (value.setPath path v).mapError Fault.ofPath
  | .patch (.map delta) => .ok (value.mergeDelta delta)
  | .patch _ => .error (.expectsMapping .patch)
  | .replace (.map es) => .ok (.map es)
  | .replace _ => .error (.expectsMapping .replace)

def writesNaN : Update → Bool
  | .set _ v | .patch v | .replace v => v.hasNaN

end Update

namespace Live

def derive (root : Value) : Live DerivationRun := do
  let f ← get
  ofChecking (Derivation.run f.functions f.external f.settings.maxPasses.toNat f.derivations root)

/-- Writes the value, and tells watchers and subscribers if it is another one or a NaN was written into
it; `react` makes the updates that a subscriber answers with. -/
def writeValue (react : Update → Live Unit) (wroteNaN : Bool) (v : Value) : Live Unit := do
  let f ← get
  if !wroteNaN && f.value.unchanged v then return
  set { f with value := v, version := f.version + 1 }
  notify .value
  for s in f.subscribers do
    guarded do
      tell s.tag v
      (s.react v).forM react

/-- Makes a value that of the form, told whether a NaN has been written into it; `fuel` bounds how deep
answers of subscribers to answers of subscribers go. -/
def commitWithin : (fuel : Nat) → (wroteNaN : Bool) → Value → Live DerivationRun
  | fuel, wroteNaN, v => do
    let previous := (← get).value
    let r ← derive v
    let wroteNaN := wroteNaN || r.wroteNaN
    match fuel with
    | 0 => writeValue (fun _ => return) wroteNaN r.value
    | fuel + 1 =>
      writeValue (fun u => do
        let _ ← commitWithin fuel u.writesNaN (← ofOutcome (u.apply (← get).value)))
        wroteNaN r.value
    -- the streams are told this value, although an answer may have replaced it by now
    notifyStreams previous r.value
    return r

/-- How deep answers of subscribers to answers of subscribers go. -/
def reactionDepth : Nat := 1000

/-- Makes a value that of the form, told whether a NaN has been written into it. -/
def commit (wroteNaN : Bool) (v : Value) : Live DerivationRun := commitWithin reactionDepth wroteNaN v

def update (u : Update) : Live DerivationRun := do
  commit u.writesNaN (← ofOutcome (u.apply (← get).value))

/-- Writes what a derivation came to, unless it is there already. -/
def applyDerived (target : String) (v : Value) : Live Unit := do
  let keys ← ofOutcome (Path.keys target)
  if ((← get).value.getPath keys).strictEq v then return
  let _ ← update (.set keys v)

/-- A job of a derivation gets a response. -/
def streamReply (n : Nat) (job : Nat) (c : Context) (outcome : Outcome Value) : Live Unit := do
  let some s := (← get).streams[n]? | return
  match outcome >>= s.interpret c with
  | .ok v => if ← streamEnded n job then applyDerived s.derivation.target v
  | .error _ => streamFailed n job

/-- Adds a derivation and brings the value up to date with it; one whose value comes later is
triggered. -/
def addDerivation (d : Derivation) : Live DerivationRun := do
  let f ← get
  let derivations ← ofOutcome (Derivation.add f.functions f.derivations d)
  set { f with derivations }
  if d.isAsync then
    let s ← ofOutcome (Stream.ofDerivation d)
    modify fun f => { f with streams := f.streams ++ [s] }
  let r ← commit false (← get).value
  if d.isAsync then fire ((← get).streams.length - 1) (← get).value
  return r

/-- Changes the external data. -/
def setExternal (v : Value) : Live Unit := do
  let f ← get
  if !v.hasNaN && f.external.unchanged v then return
  set { f with external := v }
  notify .external

end Live
end FormRules
