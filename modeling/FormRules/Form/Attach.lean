import FormRules.Form.Watch
import FormRules.Validation.Dependence

/-!
# Attaching rules to a form

Rules are compiled when they are attached, so that a malformed or unknown part faults at once. Only
schemas that are registered afterwards can bring in validators with unknown functions; those are
reported and passed over.
-/

namespace FormRules

namespace Live

def modifyRulebook (g : Rulebook → Rulebook) : Live Unit :=
  modify fun f => { f with rulebook := g f.rulebook }

def addValidator (path : String) (v : Validator) : Live Unit := do
  let path := Path.format (← ofOutcome (Path.keys path))
  let _ ← compileValidator v
  let _ ← ofOutcome (v.isCrossField (some (← get).functions) path)
  modifyRulebook fun b => { b with validators := b.validators ++ [⟨path, v, none⟩] }

def addLogic (path : String) (r : LogicRule) : Live Unit := do
  let _ ← compile r.debounceMs r.condition
  let path := Path.format (← ofOutcome (Path.keys path))
  modifyRulebook fun b => { b with logic := b.logic ++ [⟨path, r, none⟩] }

def applySchema (path : String) (a : SchemaApplication) : Live Unit := do
  ((← get).rulebook.validatorsWithin a).forM fun v => do
    let _ ← compileValidator v
  let path := Path.format (← ofOutcome (Path.keys path))
  modifyRulebook fun b => { b with applications := b.applications ++ [(path, a)] }

def registerSchema (s : Schema) : Live Unit :=
  modifyRulebook fun b => { b with schemas := b.schemas.register s }

/-- Whether a validator can be compiled; an unknown function is reported. -/
def isKnown (b : Bound Validator) : Live Bool := do
  match ← attempt (compileValidator b.rule) with
  | .ok _ => return true
  | .error (.unknownFunction kind name available) =>
    report (.validatorSkipped b.path b.schema (Fault.message (.unknownFunction kind name available)))
    return false
  | .error e => throw e

/-- The validators for a value of the form, at their paths. -/
def validators (root : Value) : Live (List (String × Validator)) := do
  let known ← (← rules root).validators.filterM isKnown
  return known.map fun b => (b.path, b.rule)

/-- The validators divided into those that read their own field and those that read others. -/
def splitValidators (root : Value) :
    Live (List (String × Validator) × List (String × Validator)) := do
  let vs ← validators root
  ofOutcome (Validator.split (← get).functions vs)

/-- The validators of a field that read nothing else. -/
def fieldValidators (field : List Key) : Live (List Validator) := do
  let (own, _) ← splitValidators (← get).value
  return (own.filter (·.1 = Path.format field)).map (·.2)

end Live
end FormRules
