import FormRules.Condition.Description
import FormRules.Functions

/-!
# Validator descriptions

A validator checks one field: by a built-in rule, an expression, a registered function or a lookup.
Guards are conditions that must all hold for it to run at all.
-/

namespace FormRules

/-- The built-in rules. -/
inductive Builtin
  | required
  | email
  | min
  | max
  | minLength
  | maxLength
  | pattern
  deriving DecidableEq

def Builtin.name : Builtin → String
  | required => "required"
  | email => "email"
  | min => "min"
  | max => "max"
  | minLength => "minLength"
  | maxLength => "maxLength"
  | pattern => "pattern"

def Builtin.ofName? (s : String) : Option Builtin :=
  [required, email, min, max, minLength, maxLength, pattern].find? (·.name = s)

/-- The types of validators. -/
inductive ValidatorType
  | builtin (b : Builtin)
  | custom
  | customAsync
  | customRemote
  deriving DecidableEq

namespace ValidatorType

def name : ValidatorType → String
  | builtin b => b.name
  | custom => "custom"
  | customAsync => "customAsync"
  | customRemote => "customRemote"

/-- The type of a name; `customHttp` is another name for `customRemote`. -/
def ofName? : String → Option ValidatorType
  | "custom" => some custom
  | "customAsync" => some customAsync
  | "customRemote" | "customHttp" => some customRemote
  | s => (Builtin.ofName? s).map builtin

def ofValue (v : Value) : Outcome ValidatorType :=
  if !v.isHashable then throw .wrongKind
  else match v with
    | .text s =>
      match ofName? s with
      | some t => .ok t
      | none => .error (.shape (.validatorType v.quoted))
    | v => .error (.shape (.validatorType v.quoted))

/-- Whether validators of the type answer later. -/
def isAsync : ValidatorType → Bool
  | customAsync | customRemote => true
  | _ => false

end ValidatorType

/-- A described validator. Parts that are not set are `null`, the value `undefined`. -/
structure Validator where
  type : ValidatorType
  value : Value := .undefined
  expression : Value := .null
  /-- Conditions that must all hold, the outermost first. -/
  guards : List Condition := []
  kind : Value := .null
  message : Value := .null
  functionName : Value := .null
  params : Entries := []
  errorParams : Entries := []
  dependsOn : List Value := []

namespace Validator

/-- The guards that a value describes: none, one, or a list of conditions. -/
def parseGuards : Value → Outcome (List Condition)
  | .null => .ok []
  | .seq _ items => items.mapM Condition.parse
  | v => do return [← Condition.parse v]

/-- The validator that the fields of a mapping describe. -/
def parseFields (es : Entries) : Outcome Validator := do
  let type ← ValidatorType.ofValue (Value.field es "type")
  let functionName := Value.field es "functionName"
  let expression := Value.field es "expression"
  if type = .custom && !functionName.given && !expression.given then throw (.shape .customSource)
  if type.isAsync && !functionName.given then throw (.shape (.validatorFunction type.name))
  return {
    type, functionName, expression
    value := Value.fieldOrUndefined es "value"
    guards := ← parseGuards (Value.field es "when")
    kind := Value.field es "kind"
    message := Value.field es "message"
    params := ← (Value.field es "params").toMapping
    errorParams := ← (Value.field es "errorParams").toMapping
    dependsOn := ← (Value.field es "dependsOn").toMembers }

/-- The validator that a value describes; a text is the name of a type. -/
def parse : Value → Outcome Validator
  | .text s => parseFields [(.name "type", .text s)]
  | .map es => parseFields es
  | v => throw (.shape (.validatorKind v.kindName))

/-- The validator with a further, outermost guard. -/
def withGuard (v : Validator) (c : Condition) : Validator := { v with guards := c :: v.guards }

/-- The description of a validator, without what is unset. -/
def description (v : Validator) : Value :=
  let unlessNull (name : String) (w : Value) := if w.isNull then [] else [(name, w)]
  .object ([("type", .text v.type.name)]
    ++ (if v.value.isUndefined then [] else [("value", v.value)])
    ++ unlessNull "expression" v.expression
    ++ (if v.guards.isEmpty then [] else [("when", .list (v.guards.map Condition.description))])
    ++ unlessNull "kind" v.kind
    ++ unlessNull "message" v.message
    ++ unlessNull "functionName" v.functionName
    ++ (if v.params.isEmpty then [] else [("params", .map v.params)])
    ++ (if v.errorParams.isEmpty then [] else [("errorParams", .map v.errorParams)])
    ++ (if v.dependsOn.isEmpty then [] else [("dependsOn", .list v.dependsOn)]))

/-- The key of a validator; validators with one description share it. -/
def key (v : Validator) : String := Value.roleKey "validator" v.description

/-- The kind of error that the validator gives by default. -/
def errorKind (v : Validator) : Value :=
  if v.kind.given then v.kind
  else match v.type with
    | .builtin b => .text b.name
    | type => if v.functionName.given then v.functionName else .text type.name

/-- The validator that makes a field required where it holds. -/
def required : Validator := { type := .builtin .required }

end Validator
end FormRules
