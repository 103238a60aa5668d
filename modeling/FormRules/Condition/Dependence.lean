import FormRules.Condition.Basic
import FormRules.Expr.Reference

/-!
# What conditions read

Read off the shape of a condition: whether it reads fields other than the target of the rule that it
guards, and which fields of the form it reads at all.
-/

namespace FormRules

/-- The mark for a dependence on the whole form. -/
def allFields : String := "*"

/-- Whether a path names the target itself. -/
def Path.sameField (path target : String) : Outcome Bool := do
  let fields ← Path.keys path
  return Path.designates fields (← Path.keys target)

/-- The scope under which a function is registered, if it is. -/
abbrev ScopeLookup := String → Option String

mutual

/-- Whether a test reads another field than the target. -/
def Test.isCrossField (target : String) (scopeOf : ScopeLookup) : Test → Outcome Bool
  | .literal _ => .ok false
  | .fieldValue path _ _ => (!·) <$> Path.sameField path target
  | .formValue _ _ => .ok true
  | .expression code => .ok (Expr.Reference.isCrossField code)
  | .custom name => .ok (scopeOf name ≠ some "field")
  | .all ts | .any ts => Test.anyCrossField target scopeOf ts

/-- Whether one of some tests reads another field; the first that does ends it. -/
def Test.anyCrossField (target : String) (scopeOf : ScopeLookup) : List Test → Outcome Bool
  | [] => .ok false
  | t :: ts => do
    let b ← Test.isCrossField target scopeOf t
    if b then return true else Test.anyCrossField target scopeOf ts

end

/-- The expressions that an inquiry evaluates before it asks. -/
def InquirySource.expressions : InquirySource → List String
  | .remote r _ => r.expressions
  | .async _ ps => Value.texts ps

/-- Whether a condition reads another field than the target. -/
def Condition.isCrossField (target : String) (scopeOf : ScopeLookup) : Condition → Outcome Bool
  | .test t => t.isCrossField target scopeOf
  | .inquiry i => .ok (i.source.expressions.any Expr.Reference.isCrossField)

mutual

/-- The fields of the form that a test reads. -/
def Test.dependencies : Test → Outcome (List String)
  | .literal _ => .ok []
  | .fieldValue path _ _ => do
    match ← Path.keys path with
    | k :: _ => return [k.text]
    | [] => return []
  | .formValue _ _ | .custom _ => .ok [allFields]
  | .expression code => .ok (Expr.Reference.roots code)
  | .all ts | .any ts => Test.allDependencies ts

/-- The fields of the form that some tests read. -/
def Test.allDependencies : List Test → Outcome (List String)
  | [] => .ok []
  | t :: ts => do
    let first ← Test.dependencies t
    return (first ++ (← Test.allDependencies ts)).eraseDups

end

/-- The fields of the form that a condition reads before it is decided or asked. -/
def Condition.dependencies : Condition → Outcome (List String)
  | .test t => t.dependencies
  | .inquiry _ => .ok []

end FormRules
