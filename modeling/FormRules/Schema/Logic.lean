import FormRules.Condition.Description

/-!
# Logic rules

A logic rule makes a field hidden, disabled, read-only or required while its condition and all its
guards hold.
-/

namespace FormRules

/-- What a logic rule makes of a field. -/
inductive LogicType
  | hidden
  | disabled
  | readonly
  | required
  deriving DecidableEq

namespace LogicType

def name : LogicType → String
  | hidden => "hidden"
  | disabled => "disabled"
  | readonly => "readonly"
  | required => "required"

def ofName? (s : String) : Option LogicType := [hidden, disabled, readonly, required].find? (·.name = s)

def ofValue (v : Value) : Outcome LogicType :=
  if !v.isHashable then throw .wrongKind
  else match v with
    | .text s =>
      match ofName? s with
      | some t => .ok t
      | none => .error (.shape (.logicType v.quoted))
    | v => .error (.shape (.logicType v.quoted))

end LogicType

/-- A logic rule. -/
structure LogicRule where
  type : LogicType
  condition : Condition
  debounceMs : Option Int := none
  /-- Conditions that must hold too, the outermost first. -/
  guards : List Condition := []

namespace LogicRule

/-- The rule that a value describes; its condition holds always if none is given. -/
def parse (v : Value) : Outcome LogicRule :=
  match v with
  | .map es => do
    let condition ← Condition.parse ((Value.field? es "condition").getD (.bool true))
    let debounceMs ← match (Value.field es "debounceMs").nonNull? with
      | none => pure none
      | some ms => some <$> (ms.toInteger.mapError Fault.breach)
    let type ← LogicType.ofValue (Value.field es "type")
    return { type, condition, debounceMs }
  | v => throw (.shape (.logicKind v.kindName))

/-- The rule with a further, outermost guard. -/
def withGuard (r : LogicRule) (c : Condition) : LogicRule := { r with guards := c :: r.guards }

/-- The description of a rule, without what is unset. -/
def description (r : LogicRule) : Value :=
  .object ([("type", .text r.type.name), ("condition", r.condition.description)]
    ++ (match r.debounceMs with
      | some n => [("debounceMs", .int n)]
      | none => [])
    ++ (if r.guards.isEmpty then [] else [("guards", .list (r.guards.map Condition.description))]))

end LogicRule
end FormRules
