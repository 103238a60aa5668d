import FormRules.Form.Attach

/-!
# Validating a form

The pass over single fields and the pass over the whole form find the errors that can be found at once.
Checks that answer later are started together and end when their replies arrive.
-/

namespace FormRules

namespace Live

/-- A form as the host of the validators of a field: an inquiry that guards one is made like any
other, without its reads being recorded. -/
def hostAt (functions : Functions) (field : List Key) : Host Live where
  lift x := ofReporting x
  functions := functions
  inquire i _ := do unwatched (holdsAt notify none (.inquiry i) (← get).value field)
  valueOf := valueOf

/-- The context of a field as it is now, without reads of the form's value being recorded. -/
def currentContext (field : List Key) : Live Context := do
  track .external
  unwatched do fieldContext (← get).value field

/-- The context of a field over a value of the form. -/
def snapshotContext (root : Value) (field : List Key) : Live Context := do
  track .external
  return Context.forKeys root field (← get).external none

/-- The error that a validator finds at a path, in the context that the field there is given. -/
def checkIn (context : List Key → Live Context) (path : String) (config : Validator) :
    Live (Option ValidationError) := do
  let v ← compileValidator config
  let field ← ofOutcome (Path.keys path)
  let c ← context field
  v.validate (hostAt (← get).functions field) c

/-- The errors that can be found at once: those of single fields, each over the form as it is, then
those of the pass over the given value. -/
def checkNow (root : Value) : Live (List ValidationError) := do
  let (own, tree) ← splitValidators root
  let first ← own.mapM fun b => checkIn currentContext b.1 b.2
  let rest ← tree.mapM fun b => checkIn (snapshotContext root) b.1 b.2
  return (first ++ rest).filterMap id

/-- Validates the form as far as that can be done at once. -/
def validate : Live (List ValidationError) := do unwatched (checkNow (← get).value)

/-! ## Checks that answer later -/

def endCheck (n : Nat) (e : Option ValidationError) : Live Unit :=
  modify fun f => { f with checks := f.checks.modify n fun c => { c with ended := some e } }

def checkStart (n : Nat) : Live Unit := do
  let f ← get
  let some c := f.checks[n]? | return
  match ← c.validator.start (hostAt f.functions c.field) c.context (f.service.map fun _ => forward) with
  | .finished e => endCheck n e
  | .waiting r => let _ ← schedule r.delay (.checkReply n r.outcome)

def checkReply (n : Nat) (outcome : Outcome Value) : Live Unit := do
  let f ← get
  let some c := f.checks[n]? | return
  endCheck n (← c.validator.finish (hostAt f.functions c.field) c.context outcome)

/-- Schedules the checks that answer later, in order. -/
def scheduleChecks (root : Value) : Live Unit := do
  (← validators root).forM fun (path, config) => do
    let v ← compileValidator config
    if !v.config.type.isAsync then return
    let field ← ofOutcome (Path.keys path)
    let f ← get
    let check : PendingCheck := ⟨v, Context.forKeys root field f.external none, field, none⟩
    set { f with checks := f.checks ++ [check] }
    let _ ← schedule 0 (.checkStart f.checks.length)

end Live

def Form.checksEnded (f : Form) : Bool := f.checks.all (·.ended.isSome)

/-- The errors of the checks that have ended, in the order of the checks. -/
def Form.checkErrors (f : Form) : List ValidationError := f.checks.filterMap fun c => c.ended.join

end FormRules
