import FormRules.Fault
import FormRules.Value.Equality

/-!
# Comparison operators

The ten operators of `fieldValue` and `formValue` conditions. Order coerces both sides to numbers
and fails with a NaN; the text operators coerce both sides to text.
-/

namespace FormRules

/-- A comparison operator. -/
inductive Comparison
  | equals
  | notEquals
  | greater
  | less
  | greaterOrEqual
  | lessOrEqual
  | contains
  | startsWith
  | endsWith
  | matchesPattern
  deriving DecidableEq

namespace Comparison

/-- The name of an operator in descriptions. -/
def name : Comparison → String
  | equals => "equals"
  | notEquals => "notEquals"
  | greater => "greater"
  | less => "less"
  | greaterOrEqual => "greaterOrEqual"
  | lessOrEqual => "lessOrEqual"
  | contains => "contains"
  | startsWith => "startsWith"
  | endsWith => "endsWith"
  | matchesPattern => "matches"

def all : List Comparison :=
  [equals, notEquals, greater, less, greaterOrEqual, lessOrEqual, contains, startsWith, endsWith,
    matchesPattern]

def ofName? (s : String) : Option Comparison := all.find? (·.name = s)

/-- Whether `part` occurs in `whole`. -/
def occurs (part whole : List Char) : Bool :=
  match whole with
  | [] => part.isEmpty
  | c :: cs => part.isPrefixOf (c :: cs) || occurs part cs

/-- Compares two values as numbers; a NaN on either side fails, a number beyond binary64 cannot be
told from NaN and breaks the comparison. -/
def numeric (op : Number → Number → Bool) (actual expected : Value) : Outcome Bool := do
  let a := actual.toNumber
  let b := expected.toNumber
  if !a.fitsBinary64 then throw (.breach .tooLarge)
  else if a.isNaN then return false
  else if !b.fitsBinary64 then throw (.breach .tooLarge)
  else if b.isNaN then return false
  else return op a b

/-- Whether a text matches a pattern somewhere; a malformed pattern matches nothing. -/
def matchesText (pattern text : String) : Outcome Bool :=
  match Pattern.ofText? pattern with
  | .ok p => .ok (p.occursIn text)
  | .error .malformed => .ok false
  | .error .countTooLarge => .error (.breach .tooLarge)
  | .error .unreadable => .error .badValue

/-- Whether the operator holds between an actual and an expected value. -/
def holds (op : Comparison) (actual expected : Value) : Outcome Bool :=
  match op with
  | equals => .ok (actual.strictEq expected)
  | notEquals => .ok (!actual.strictEq expected)
  | greater => numeric (fun a b => b.lt a) actual expected
  | less => numeric (fun a b => a.lt b) actual expected
  | greaterOrEqual => numeric (fun a b => b.le a) actual expected
  | lessOrEqual => numeric (fun a b => a.le b) actual expected
  | contains =>
    match actual with
    | .seq _ items => .ok (items.any (·.strictEq expected))
    | _ => .ok (occurs expected.toText.toList actual.toText.toList)
  | startsWith => .ok (expected.toText.toList.isPrefixOf actual.toText.toList)
  | endsWith => .ok (expected.toText.toList.isSuffixOf actual.toText.toList)
  | matchesPattern => matchesText expected.toText actual.toText

end Comparison

/-- Compares by the operator of a name; an unknown one never holds. -/
def Value.compare (actual expected : Value) (operator : String) : Outcome Bool :=
  match Comparison.ofName? operator with
  | some op => op.holds actual expected
  | none => .ok false

end FormRules
