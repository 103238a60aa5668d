import FormRules.Fault
import FormRules.Value.Coercion

/-!
# Notices

What the rules report while they go on: faults that were downgraded to a safe default, and rules
that look mistaken. A journal collects them in order and remembers which sites have been warned
about, if they are to be warned about only once.
-/

namespace FormRules

/-- How serious a notice is. -/
inductive Severity
  | warning
  | error
  deriving DecidableEq

/-- The part of the rules that a notice comes from. -/
inductive Subject
  | general
  | conditions
  | logic
  | remote
  | validators
  | registry
  | schemas
  | derivations
  | form
  | reactive
  | transport
  deriving DecidableEq

/-- A notice. -/
inductive Notice
  /-- A result that should be boolean is not; told once per site or every time. -/
  | nonBoolean (once : Bool)
  | conditionFailed
  | customMissing (name : String) (available : List String)
  | customFailed
  | outOfBand (kind : String)
  | valueFailed
  | predicateFailed
  | lookupFailed
  | lookupUnresolved
  | validatorFailed
  | guardUnresolved (kind path : String)
  | badPattern
  | unknownBuiltin (name : String)
  | asyncIgnored (path reason : String)
  | schemaMissing (fault : String)
  | schemaRecursive (name : String) (stack : List String)
  | derivationFailed
  | derivationsUnstable (passes : Int) (targets : List String)
  | derivationLookupFailed
  | validatorSkipped (path : String) (schema : Option String) (reason : String)
  | subscriberFailed
  | transportFailed
  deriving DecidableEq

namespace Notice

/-- A path, or a mark for the whole form. -/
def place (path : String) : String := if path = "" then "<root>" else path

/-- How serious the notice is. -/
def severity : Notice → Severity
  | .nonBoolean _ | .lookupFailed | .lookupUnresolved | .guardUnresolved _ _ | .asyncIgnored _ _
  | .derivationLookupFailed => .warning
  | _ => .error

/-- Where the notice comes from. -/
def subject : Notice → Subject
  | .nonBoolean once => if once then .general else .conditions
  | .conditionFailed | .customMissing _ _ | .customFailed | .outOfBand _ => .conditions
  | .valueFailed | .predicateFailed => .logic
  | .lookupFailed | .lookupUnresolved => .remote
  | .validatorFailed | .guardUnresolved _ _ | .badPattern | .unknownBuiltin _ => .validators
  | .asyncIgnored _ _ | .schemaMissing _ => .registry
  | .schemaRecursive _ _ => .schemas
  | .derivationFailed | .derivationsUnstable _ _ | .derivationLookupFailed => .derivations
  | .validatorSkipped _ _ _ => .form
  | .subscriberFailed => .reactive
  | .transportFailed => .transport

/-- The wording of a notice that says more than where a fault occurred. -/
def text? : Notice → Option String
  | .customMissing name available =>
    some ("Custom function '" ++ name ++ "' not found. Registered: " ++ Fault.listing available)
  | .outOfBand kind =>
    some ("'" ++ kind ++ "' conditions resolve asynchronously; compile them with LogicFactory. "
      ++ "Using pendingValue.")
  | .guardUnresolved kind path =>
    some ("'" ++ kind ++ "' guard on " ++ place path
      ++ " cannot resolve in a snapshot pass, using pendingValue")
  | .unknownBuiltin name => some ("Unknown built-in validator: " ++ name)
  | .asyncIgnored path reason =>
    some ("Async validation for " ++ place path ++ " failed, ignoring: " ++ reason)
  | .schemaMissing fault => some fault
  | .schemaRecursive name stack =>
    some ("Schema '" ++ name ++ "' applies itself recursively (" ++ " -> ".intercalate stack
      ++ "); skipping")
  | .derivationsUnstable passes targets =>
    some ("Derivations still changing after " ++ intText passes ++ " passes; stopping (possible loop "
      ++ "between " ++ Fault.commaJoined (Fault.sorted targets.eraseDups) ++ ")")
  | .validatorSkipped path schema reason =>
    some ("Skipping validator on '" ++ path ++ "' from schema '" ++ schema.getD "None" ++ "': "
      ++ reason)
  | _ => none

end Notice

/-- Notices in order, and the sites that have been warned about; without such a memory every
occurrence is reported. -/
structure Journal where
  notices : List Notice := []
  warned : Option (List String) := none

/-- A computation that may report. -/
abbrev Reporting := StateM Journal

namespace Journal

def add (n : Notice) (j : Journal) : Journal := { j with notices := j.notices ++ [n] }

def report (n : Notice) : Reporting Unit := modify (add n)

/-- Adds a warning about a site that has not been warned about. -/
def addOnce (site : String) (j : Journal) : Journal :=
  match j.warned with
  | none => j.add (.nonBoolean false)
  | some sites =>
    if sites.contains site then j
    else { j with warned := some (site :: sites), notices := j.notices ++ [.nonBoolean true] }

/-- Whether a site has been warned about. -/
def hasWarned (site : String) (j : Journal) : Bool := (j.warned.getD []).contains site

/-- Forgets which sites have been warned about. -/
def reset (j : Journal) : Journal := { j with warned := j.warned.map fun _ => [] }

end Journal

/-- A result as a boolean; another value is accepted but reported. -/
def Value.asBoolean (v : Value) (site : String) : Reporting Bool :=
  match v with
  | .bool b => return b
  | v => do
    modify (Journal.addOnce site)
    return v.truthy

end FormRules
