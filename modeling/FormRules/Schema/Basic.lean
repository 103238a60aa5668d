import FormRules.Schema.Logic
import FormRules.Validation.Validator

/-!
# Schemas

A schema is a named bundle of rules for one place of a form, with applications of further schemas at
places below. An application names a registered schema or holds a definition of its own, and says
when it takes effect: always, under a condition, for values of a type, or for each item of a list.
-/

namespace FormRules

/-- When an application takes effect. -/
inductive ApplicationKind
  | always
  | whenever (condition : Condition)
  | forType
  | forEach

def ApplicationKind.name : ApplicationKind → String
  | always => "apply"
  | whenever _ => "applyWhen"
  | forType => "applyWhenValue"
  | forEach => "applyEach"

mutual

/-- A definition of a schema. -/
inductive Schema
  | mk (name : String) (description : Value) (validators : List Validator) (logic : List LogicRule)
    (subSchemas : List SchemaApplication)

/-- A schema by name or definition. -/
inductive SchemaRef
  | named (name : String)
  | inline (schema : Schema)

/-- An application of a schema at a path relative to its place. -/
inductive SchemaApplication
  | mk (kind : ApplicationKind) (schema : SchemaRef) (typePredicate path : Value)

end

namespace Schema

def name : Schema → String
  | mk n _ _ _ _ => n

/-- What the schema says about itself, `null` if nothing. -/
def description : Schema → Value
  | mk _ d _ _ _ => d

def validators : Schema → List Validator
  | mk _ _ vs _ _ => vs

def logic : Schema → List LogicRule
  | mk _ _ _ ls _ => ls

/-- The applications of further schemas. -/
def subSchemas : Schema → List SchemaApplication
  | mk _ _ _ _ as => as

end Schema

/-- The name of the schema that is meant. -/
def SchemaRef.name : SchemaRef → String
  | named n => n
  | inline s => s.name

namespace SchemaApplication

/-- When the application takes effect. -/
def kind : SchemaApplication → ApplicationKind
  | mk k _ _ _ => k

/-- The schema that is applied. -/
def schema : SchemaApplication → SchemaRef
  | mk _ s _ _ => s

/-- The type predicate, `null` if there is none. -/
def typePredicate : SchemaApplication → Value
  | mk _ _ p _ => p

def path : SchemaApplication → Value
  | mk _ _ _ p => p

/-- The application of a registered schema at its place. -/
def ofName (name : String) : SchemaApplication := mk .always (.named name) .null (.text "")

/-- The kind of application that the fields of a mapping describe. -/
def parseKind (es : Entries) (condition : Option Condition) : Outcome ApplicationKind :=
  match (Value.field? es "type").getD (.text "apply") with
  | .text "apply" => .ok .always
  | .text "applyWhen" =>
    match condition with
    | some c => .ok (.whenever c)
    | none => .error (.shape .applicationCondition)
  | .text "applyWhenValue" =>
    if (Value.field es "typePredicate").given then .ok .forType
    else .error (.shape .applicationPredicate)
  | .text "applyEach" => .ok .forEach
  | v => .error (.shape (.applicationType v.quoted))

/-- The application that the fields of a mapping describe, given its schema. -/
def parseFields (es : Entries) (schema : SchemaRef) : Outcome SchemaApplication := do
  let condition ← match (Value.field es "condition").nonNull? with
    | none => pure none
    | some v => some <$> Condition.parse v
  let kind ← parseKind es condition
  return mk kind schema (Value.field es "typePredicate")
    ((Value.field? es "path").getD (.text ""))

end SchemaApplication

/-- The members of a part of a description; nothing given is the empty list. -/
def Value.parts (v : Value) : Outcome (List Value) := if v.given then v.members else .ok []

/-- The schema of a mapping, given what comes of its applications. -/
def Schema.build (es : Entries) (subSchemas : Outcome (List SchemaApplication)) : Outcome Schema := do
  let name := Value.field es "name"
  if !name.given then throw (.shape .schemaName)
  let validators ← (← (Value.field es "validators").parts).mapM Validator.parse
  let logic ← (← (Value.field es "logic").parts).mapM LogicRule.parse
  return .mk name.plainText (Value.field es "description") validators logic (← subSchemas)

mutual

/-- The schema that all fields of a mapping describe; the list is searched for the applications. -/
def Schema.parseFields (all : Entries) : List (Key × Value) → Outcome Schema
  | [] => Schema.build all (.ok [])
  | (k, v) :: es =>
    if k = .name "subSchemas" then Schema.build all (SchemaApplication.parseParts v)
    else Schema.parseFields all es

def SchemaApplication.parseParts : Value → Outcome (List SchemaApplication)
  | .seq _ items => SchemaApplication.parseAll items
  | v => do
    match ← v.parts with
    | [] => return []
    | w :: _ => throw (.shape (.applicationKind w.kindName))

def SchemaApplication.parseAll : List Value → Outcome (List SchemaApplication)
  | [] => return []
  | v :: vs => do
    let a ← SchemaApplication.parse v
    return a :: (← SchemaApplication.parseAll vs)

def SchemaApplication.parse : Value → Outcome SchemaApplication
  | .map es => do SchemaApplication.parseFields es (← SchemaRef.parseIn es)
  | v => throw (.shape (.applicationKind v.kindName))

/-- The schema under `schema` in a mapping. -/
def SchemaRef.parseIn : List (Key × Value) → Outcome SchemaRef
  | [] => throw (.shape .applicationSchema)
  | (k, v) :: es => if k = .name "schema" then SchemaRef.parse v else SchemaRef.parseIn es

/-- The schema that a value names or describes. -/
def SchemaRef.parse : Value → Outcome SchemaRef
  | .text s => return .named s
  | .map es => do return .inline (← Schema.parseFields es es)
  | _ => throw (.shape .applicationSchema)

end

def Schema.parse : Value → Outcome Schema
  | .map es => Schema.parseFields es es
  | _ => throw (.breach .noPart)

/-- Registered schemas by name. -/
abbrev SchemaRegistry := List (String × Schema)

namespace SchemaRegistry

/-- Registers a schema; one of the same name is replaced. -/
def register (r : SchemaRegistry) (s : Schema) : SchemaRegistry := Table.put r s.name s

/-- The schemas of a list registered in turn. -/
def ofDescriptions (vs : List Value) : Outcome SchemaRegistry := do
  return (← vs.mapM Schema.parse).foldl register []

/-- The names of registered schemas, in order. -/
def names (r : SchemaRegistry) : List String := Fault.sorted (r.map (·.1))

/-- The fault of a name that is not registered. -/
def missing (r : SchemaRegistry) (name : String) : Fault := .unknownSchema name (r.map (·.1))

def get (r : SchemaRegistry) (name : String) : Outcome Schema :=
  match Table.get? r name with
  | some s => .ok s
  | none => .error (r.missing name)

end SchemaRegistry
end FormRules
