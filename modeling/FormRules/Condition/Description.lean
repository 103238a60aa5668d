import FormRules.Condition.Basic
import FormRules.Value.Canonical

/-!
# Descriptions of conditions

Conditions are described by plain data: a boolean, or a mapping with a `type`. Reading accepts
aliases and alternative names; writing gives one form per condition, and its canonical text is the
key under which equal conditions are found.
-/

namespace FormRules

/-- The types of described conditions. -/
inductive ConditionType
  | fieldValue
  | formValue
  | expression
  | custom
  | all
  | any
  | remote
  | async
  deriving DecidableEq

namespace ConditionType

/-- The type of a name; `javascript` and `http` are other names for `expression` and `remote`. -/
def ofName? : String → Option ConditionType
  | "fieldValue" => some fieldValue
  | "formValue" => some formValue
  | "expression" | "javascript" => some expression
  | "custom" => some custom
  | "and" => some all
  | "or" => some any
  | "remote" | "http" => some remote
  | "async" => some async
  | _ => none

def ofValue (v : Value) : Outcome ConditionType :=
  if !v.isHashable then throw .wrongKind
  else match v with
    | .text s =>
      match ofName? s with
      | some t => .ok t
      | none => .error (.shape (.conditionType v.quoted))
    | v => .error (.shape (.conditionType v.quoted))

end ConditionType

namespace Condition

/-- The first given field under one of two names. -/
def require (es : Entries) (name : String) (alternative : Option String) : Outcome Value :=
  match (Value.field es name).nonNull? <|> alternative.bind fun a => (Value.field es a).nonNull? with
  | some v => .ok v
  | none => .error (.shape (.requires (Value.field es "type").plainText name alternative))

def requireOperator (es : Entries) : Outcome Comparison := do
  let v ← require es "operator" none
  if !v.isHashable then throw .wrongKind
  match v with
  | .text s =>
    match Comparison.ofName? s with
    | some op => return op
    | none => throw (.shape (.operator s))
  | v => throw (.shape (.operator v.plainText))

/-- A duration in milliseconds, if one is given. -/
def optionalInt (es : Entries) (name : String) : Outcome (Option Int) :=
  match (Value.field es name).nonNull? with
  | none => .ok none
  | some v =>
    match v.toInteger with
    | .ok n => .ok (some n)
    | .error .tooLarge => .error (.breach .tooLarge)
    | .error _ => .error (.shape (.notInteger name v.quoted))

/-- The first duration that is given in one of two mappings. -/
def optionalIntIn (es fallback : Entries) (name : String) : Outcome (Option Int) := do
  match ← optionalInt es name with
  | some n => return some n
  | none => optionalInt fallback name

/-- An inquiry of a service. -/
def parseRemote (es : Entries) : Outcome Condition := do
  let raw ← require es "request" (some "http")
  let request ← Request.parse raw
  let fallback := match raw with
    | .map fs => fs
    | _ => []
  return .inquiry {
    source := .remote request (Value.field es "responseExpression")
    pending := (Value.field es "pendingValue").given
    cacheMs := ← optionalInt es "cacheDurationMs"
    debounceMs := ← optionalIntIn es fallback "debounceMs" }

/-- An inquiry of a function. -/
def parseAsync (es : Entries) : Outcome Condition := do
  let name ← require es "functionName" (some "asyncFunctionName")
  let params ← (Value.field es "params").toMapping
  return .inquiry {
    source := .async name.plainText params
    pending := (Value.field es "pendingValue").given
    cacheMs := ← optionalInt es "cacheDurationMs"
    debounceMs := ← optionalInt es "debounceMs" }

mutual

def parse : Value → Outcome Condition
  | .bool b => .ok (.test (.literal b))
  | .map es => do
    match ← ConditionType.ofValue (Value.field es "type") with
    | .fieldValue =>
      let path ← require es "fieldPath" none
      return .test (.fieldValue path.plainText (← requireOperator es) (Value.field es "value"))
    | .formValue => return .test (.formValue (← requireOperator es) (Value.field es "value"))
    | .expression =>
      let code ← require es "expression" (some "code")
      return .test (.expression code.plainText)
    | .custom =>
      let name ← require es "functionName" (some "expression")
      return .test (.custom name.plainText)
    | .all => return .test (.all (← (← parseParts "and" es).mapM (toTest "and")))
    | .any => return .test (.any (← (← parseParts "or" es).mapM (toTest "or")))
    | .remote => parseRemote es
    | .async => parseAsync es
  | v => .error (.shape (.conditionKind v.kindName))

/-- The parts that a mapping describes under `conditions`; none if there is no such field. -/
def parseParts (composite : String) : List (Key × Value) → Outcome (List Condition)
  | [] => .ok []
  | (k, v) :: es => if k = .name "conditions" then parseItems composite v else parseParts composite es

/-- The conditions of a list; nothing given is the empty list. -/
def parseItems (composite : String) : Value → Outcome (List Condition)
  | .seq _ items => parseList items
  | v => if v.given then .error (.shape (.notAList composite)) else .ok []

def parseList : List Value → Outcome (List Condition)
  | [] => .ok []
  | v :: vs => do
    let c ← parse v
    return c :: (← parseList vs)

end

end Condition

mutual

def Test.description : Test → Value
  | .literal b => .bool b
  | .fieldValue path op v =>
    .object [("type", .text "fieldValue"), ("fieldPath", .text path), ("operator", .text op.name),
      ("value", v)]
  | .formValue op v => .object [("type", .text "formValue"), ("operator", .text op.name), ("value", v)]
  | .expression code => .object [("type", .text "expression"), ("expression", .text code)]
  | .custom name => .object [("type", .text "custom"), ("functionName", .text name)]
  | .all ts => .object [("type", .text "and"), ("conditions", .list (Test.descriptions ts))]
  | .any ts => .object [("type", .text "or"), ("conditions", .list (Test.descriptions ts))]

def Test.descriptions : List Test → List Value
  | [] => []
  | t :: ts => Test.description t :: Test.descriptions ts

end

/-- The description of an inquiry, without what is unset. -/
def Inquiry.description (i : Inquiry) : Value :=
  let duration (name : String) (ms : Option Int) : List (String × Value) := match ms with
    | some n => [(name, .int n)]
    | none => []
  .object ((match i.source with
      | .remote r e =>
        [("type", .text "remote"), ("request", r.description), ("pendingValue", .bool i.pending)]
          ++ (if e.isNull then [] else [("responseExpression", e)])
      | .async f ps =>
        [("type", .text "async"), ("functionName", .text f), ("pendingValue", .bool i.pending)]
          ++ (if ps.isEmpty then [] else [("params", .map ps)]))
    ++ duration "cacheDurationMs" i.cacheMs ++ duration "debounceMs" i.debounceMs)

namespace Condition

def description : Condition → Value
  | .test t => t.description
  | .inquiry i => i.description

/-- The key of a condition; conditions with one description share it. -/
def key (c : Condition) : String := Value.roleKey "condition" c.description

end Condition
end FormRules
