import FormRules.Condition.Eval
import FormRules.Validation.Error

/-!
# Registered functions

What rules refer to by name: functions that decide custom conditions, check fields, answer later, or
compute derived values. A function says what it depends on by its scope.
-/

namespace FormRules

/-- What a checking function answers. -/
inductive Verdict
  | value (v : Value)
  | error (e : ValidationError)

/-- An answer that arrives after a delay in milliseconds. -/
structure Reply (α : Type) where
  delay : Int
  outcome : Outcome α

/-- A function that decides a custom condition. -/
structure CustomFunction where
  ask : Context → Outcome Value
  scope : String

/-- A function that checks a field, given the parameters of the validator. -/
structure CheckFunction where
  check : Context → Entries → Outcome Verdict
  scope : String
  dependsOn : List Value

/-- Whether the function reads other fields. -/
def CheckFunction.isCrossField (f : CheckFunction) : Bool := f.scope = "form" || !f.dependsOn.isEmpty

/-- What becomes of the answer to a lookup. -/
structure LookupOutcome where
  onSuccess : Value → Context → Outcome Verdict
  /-- What becomes of a failure, given its text; by default it is reported and ignored. -/
  onError : Option (String → Context → Outcome Verdict)

/-- A check by an asynchronous function. -/
structure AsyncCheck where
  /-- The arguments of the call, by default the parameters of the validator. -/
  arguments : Context → Entries → Outcome Value
  run : Value → Reply Value
  outcome : LookupOutcome

/-- A check by a service; the request is `null` if there is nothing to check. -/
structure RemoteCheck where
  request : Context → Entries → Outcome Value
  outcome : LookupOutcome

/-- All registered functions, by kind and name. -/
structure Functions where
  custom : List (String × CustomFunction) := []
  checks : List (String × CheckFunction) := []
  asyncChecks : List (String × AsyncCheck) := []
  remoteChecks : List (String × RemoteCheck) := []
  /-- Functions that answer asynchronous conditions from evaluated parameters. -/
  asyncFunctions : List (String × (Value → Context → Reply Value)) := []
  derivations : List (String × (Context → Outcome Value)) := []
  asyncDerivations : List (String × (Context → Reply Value)) := []

namespace Functions

def customFunctions (fs : Functions) : CustomFunctions := fs.custom.map fun e => (e.1, e.2.ask)

def scopeOf (fs : Functions) (name : String) : Option String := (fs.custom.lookup name).map (·.scope)

def find {α : Type} (table : List (String × α)) (kind : FunctionKind) (name : Value) : Outcome α :=
  if !name.isHashable then throw .wrongKind
  else
    let found := match name with
      | .text s => table.lookup s
      | _ => none
    match found with
    | some f => .ok f
    | none => .error (.unknownFunction kind name.plainText (table.map (·.1)))

end Functions
end FormRules
