import FormRules.Schema.Expansion
import FormRules.Schema.Reach

/-!
# The rules of a form

Validators and logic rules attached to paths directly, and those that schema applications bring in for
a value of the form. A rule that makes a field required also brings in a validator that enforces it
under the same conditions.
-/

namespace FormRules

/-- What has been attached to a form. -/
structure Rulebook where
  schemas : SchemaRegistry := []
  validators : List (Bound Validator) := []
  logic : List (Bound LogicRule) := []
  applications : List (String × SchemaApplication) := []

/-- The validator that enforces a rule that makes a field required. -/
def LogicRule.enforcer (r : LogicRule) : Validator :=
  (r.condition :: r.guards).foldl Validator.withGuard Validator.required

/-- The validators that enforce the rules that make fields required. -/
def Rules.enforcers (r : Rules) : List (Bound Validator) :=
  (r.logic.filter (·.rule.type = .required)).map fun b => ⟨b.path, b.rule.enforcer, b.schema⟩

def Rules.enforced (r : Rules) : Rules := { r with validators := r.validators ++ r.enforcers }

namespace Rulebook

/-- All rules for a value of the form: direct ones, those of schemas, and enforcing validators. -/
def rules (b : Rulebook) (root : Value) : Checking Rules := do
  let collected ← b.schemas.collect root b.applications
  return (Rules.append ⟨b.validators, b.logic⟩ collected).enforced

/-- The validators that an application can bring in under any value of the form. -/
def validatorsWithin (b : Rulebook) (a : SchemaApplication) : List Validator :=
  (b.schemas.reachable a).flatMap Schema.validators

end Rulebook
end FormRules
