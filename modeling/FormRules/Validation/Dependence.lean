import FormRules.Condition.Dependence
import FormRules.Validation.Validator

/-!
# Validators that read other fields

A validator that reads its own field only runs with that field; any other is hoisted into the pass
over the whole form. Lookups run over a snapshot in any case.
-/

namespace FormRules

namespace Validator

/-- Whether a text, or nothing, reads another field. -/
def expressionIsCrossField : Value → Outcome Bool
  | .text s => .ok (Expr.Reference.isCrossField s)
  | v => if v.given then .error .wrongKind else .ok false

/-- Whether a value names another field than the target. -/
def namesOther (target : String) (v : Value) : Outcome Bool := do
  let fields ← v.pathKeys
  return !Path.designates fields (← Path.keys target)

/-- Whether some member has a property, the first that does ending it. -/
def anyOf {α : Type} (p : α → Outcome Bool) : List α → Outcome Bool
  | [] => return false
  | a :: as => do
    let b ← p a
    if b then return true else anyOf p as

/-- Whether a validator of the target reads another field; a registered function is asked for if
functions are given. -/
def isCrossField (fs : Option Functions) (target : String) (v : Validator) : Outcome Bool := do
  let scopeOf : ScopeLookup := match fs with
    | some fs => fs.scopeOf
    | none => fun _ => none
  if ← anyOf (namesOther target) v.dependsOn then return true
  if ← anyOf (·.isCrossField target scopeOf) v.guards then return true
  if ← anyOf expressionIsCrossField (v.errorParams.map (·.2)) then return true
  if v.type.isAsync then return false
  if v.type = .custom && v.functionName.given then
    match fs with
    | some fs => return (← Functions.find fs.checks .validator v.functionName).isCrossField
    | none => return false
  expressionIsCrossField v.expression

/-- Validators at their paths, divided into those of single fields and those of the whole form. -/
def split (fs : Functions) :
    List (String × Validator) → Outcome (List (String × Validator) × List (String × Validator))
  | [] => return ([], [])
  | (path, v) :: vs => do
    let b ← v.isCrossField (some fs) path
    let (field, tree) ← split fs vs
    return if b then (field, (path, v) :: tree) else ((path, v) :: field, tree)

end Validator
end FormRules
