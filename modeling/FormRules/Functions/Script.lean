import FormRules.Functions
import FormRules.Request.Resolve

/-!
# Functions given as data

A script stands for a function: it raises, evaluates an expression over what the function is given,
answers a validation error, or answers a fixed value. A table of scripts describes all functions that
rules may refer to.
-/

namespace FormRules

/-- What a scripted function does. -/
inductive Script
  | raises (message : String)
  | evaluates (source : Value)
  | fails (error : ValidationError)
  | answers (v : Value)

namespace Script

/-- The error that a mapping describes. -/
def errorOf (es : Entries) : ValidationError where
  kind := Value.field es "kind"
  path := match Value.field es "path" with
    | .text s => s
    | _ => ""
  params := match Value.field es "params" with
    | .map ps => ps
    | _ => []
  message := Value.field es "message"

/-- The fields of a mapping; none of another value. -/
def fields : Value → Entries
  | .map es => es
  | _ => []

/-- The script that a mapping describes; an empty one answers `null`. -/
def ofFields (es : Entries) : Script :=
  match Value.field? es "raise", Value.field? es "expr", Value.field? es "error" with
  | some m, _, _ => .raises m.plainText
  | none, some e, _ => .evaluates e
  | none, none, some e => .fails (errorOf (fields e))
  | none, none, none => .answers (Value.field es "return")

/-- What the function answers, given the names that its expression sees. -/
def run (s : Script) (scope : Expr.Scope) : Outcome Verdict :=
  match s with
  | .raises m => .error (.raised m)
  | .evaluates e => .value <$> Expr.evaluateValue e scope
  | .fails e => .ok (.error e)
  | .answers v => .ok (.value v)

/-- The value that the function answers. -/
def value (s : Script) (scope : Expr.Scope) : Outcome Value := do
  match ← s.run scope with
  | .value v => return v
  | .error e => return .object [("kind", e.kind), ("field", .text e.path), ("params", .map e.params)]

def ofField (es : Entries) (name : String) : Script := ofFields (fields (Value.field es name))

/-- The delay of a mapping that describes an asynchronous function. -/
def delayOf (es : Entries) : Int :=
  match Value.field es "delay" with
  | .num n => n.toInt?.getD 0
  | _ => 0

/-- The scope of a mapping that describes a function. -/
def scopeName (es : Entries) (default : String) : String :=
  match Value.field es "scope" with
  | .text s => s
  | _ => default

/-- What becomes of a lookup: `onSuccess` sees the answer under a name, `onError` the text of the
error. -/
def outcomeOf (es : Entries) (name : String) : LookupOutcome where
  onSuccess v c := (ofField es "onSuccess").run (c.scopeWith [(name, v)])
  onError := (Value.field? es "onError").map fun s text c =>
    (ofFields (fields s)).run (c.scopeWith [("error", .text text)])

/-- The entries of a mapping with the texts of their keys. -/
def table {α : Type} (v : Value) (f : Entries → α) : List (String × α) :=
  (fields v).map fun e => (e.1.text, f (fields e.2))

/-- A request whose query parameters are expressions. -/
def requestOf (request : Value) (scope : Expr.Scope) : Outcome Value :=
  match request with
  | .map es =>
    match Value.field? es "queryParams" with
    | some (.map ps) => do
      return .map (Table.put es (.name "queryParams") (.map (← Expr.evaluateEntries scope ps)))
    | _ => .ok (.map es)
  | v => .ok v

end Script

open Script in
/-- The functions that a mapping of scripts describes. -/
def Functions.ofDescription (v : Value) : Functions :=
  let part (name : String) := Value.field (fields v) name
  { custom := table (part "custom") fun es =>
      ⟨fun c => (ofFields es).value c.scope, scopeName es "form"⟩
    checks := table (part "validators") fun es =>
      { check := fun c ps => (ofFields es).run (c.scopeWith [("params", .map ps)])
        scope := scopeName es "field"
        dependsOn := match Value.field es "dependsOn" with
          | .seq _ ds => ds
          | _ => [] }
    asyncChecks := table (part "asyncValidators") fun es =>
      let run := fields (Value.field es "run")
      { arguments := fun c ps => match Value.field es "params" with
          | .map es => Value.map <$> Expr.evaluateEntries (c.scopeWith [("params", .map ps)]) es
          | _ => .ok (.map ps)
        run := fun ps => ⟨delayOf run, (ofFields run).value [("params", ps)]⟩
        outcome := outcomeOf es "result" }
    remoteChecks := table (part "remoteValidators") fun es =>
      { request := fun c ps => requestOf (Value.field es "request") (c.scopeWith [("params", .map ps)])
        outcome := outcomeOf es "response" }
    asyncFunctions := table (part "asyncFunctions") fun es ps c =>
      ⟨delayOf es, (ofFields es).value (c.scopeWith [("params", ps)])⟩
    derivations := table (part "derivations") fun es c => (ofFields es).value c.scope
    asyncDerivations := table (part "asyncDerivations") fun es c =>
      ⟨delayOf es, (ofFields es).value c.scope⟩ }

end FormRules
