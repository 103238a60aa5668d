import FormRules.Condition.Description
import FormRules.Context
import FormRules.Notice

/-!
# Deciding conditions

A test is decided in a context. A fault inside of it is reported and the test fails, so that a broken
condition spoils nothing around it. An inquiry cannot be decided here and answers what it answers
while it is pending.
-/

namespace FormRules

/-- The registered functions that conditions ask, by name. -/
abbrev CustomFunctions := List (String × (Context → Outcome Value))

/-- Reports a fault of a test, which then fails. -/
def settled (o : Outcome Bool) : Reporting Bool :=
  match o with
  | .ok b => return b
  | .error _ => do
    Journal.report .conditionFailed
    return false

/-- Compares the field at a path as the context sees it. -/
def Context.compareField (c : Context) (path : String) (op : Comparison) (v : Value) : Outcome Bool := do
  op.holds (c.fieldAt (← Path.keys path)) v

def CustomFunctions.ask (fs : CustomFunctions) (name : String) (c : Context) : Reporting Bool :=
  match fs.lookup name with
  | none => do
    Journal.report (.customMissing name (fs.map (·.1)))
    return false
  | some f =>
    match f c with
    | .ok v => return v.truthy
    | .error _ => do
      Journal.report .customFailed
      return false

mutual

def Test.holds (fs : CustomFunctions) (c : Context) : Test → Reporting Bool
  | .literal b => return b
  | .fieldValue path op v => settled (c.compareField path op v)
  | .formValue op v => settled (op.holds c.form v)
  | .expression code =>
    match Expr.evaluate code c.scope with
    | .ok v => v.asBoolean code
    | .error _ => do
      Journal.report .conditionFailed
      return false
  | .custom name => fs.ask name c
  | .all ts => Test.allHold fs c ts
  | .any ts => Test.anyHolds fs c ts

/-- Whether all tests hold; the first that fails ends it. -/
def Test.allHold (fs : CustomFunctions) (c : Context) : List Test → Reporting Bool
  | [] => return true
  | t :: ts => do
    let b ← Test.holds fs c t
    if b then Test.allHold fs c ts else return false

/-- Whether some test holds; the first that does ends it. -/
def Test.anyHolds (fs : CustomFunctions) (c : Context) : List Test → Reporting Bool
  | [] => return false
  | t :: ts => do
    let b ← Test.holds fs c t
    if b then return true else Test.anyHolds fs c ts

end

namespace Condition

/-- Whether a condition holds in a context, as far as that can be said at once. -/
def holds (fs : CustomFunctions) (c : Context) : Condition → Reporting Bool
  | .test t => t.holds fs c
  | .inquiry i => do
    Journal.report (.outOfBand i.source.kind)
    return i.pending

/-- Whether a described condition holds; a malformed one fails. -/
def describedHolds (fs : CustomFunctions) (c : Context) (description : Value) : Reporting Bool :=
  match parse description with
  | .ok cond => cond.holds fs c
  | .error _ => do
    Journal.report .conditionFailed
    return false

end Condition
end FormRules
