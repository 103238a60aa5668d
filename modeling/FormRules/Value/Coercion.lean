import FormRules.Value.Basic

/-!
# Coercions

How a value counts as a boolean, a text or a number where one is asked for. Containers are true,
texts read as numerals, sequences join their items by commas.
-/

namespace FormRules.Value

/-- Whether the value counts as true: not nullish, `false`, zero, NaN or the empty text. -/
def truthy : Value → Bool
  | .undefined | .null => false
  | .bool b => b
  | .num n => !(n.isZero || n.isNaN)
  | .text s => s != ""
  | .seq _ _ | .map _ => true

/-- The name of the value's type in expressions. -/
def typeName : Value → String
  | .undefined => "undefined"
  | .bool _ => "boolean"
  | .num _ => "number"
  | .text _ => "string"
  | .null | .seq _ _ | .map _ => "object"

mutual

def toText : Value → String
  | .undefined => "undefined"
  | .null => "null"
  | .bool b => if b then "true" else "false"
  | .num n => n.text
  | .text s => s
  | .seq _ items => ",".intercalate (itemTexts items)
  | .map _ => "[object Object]"

/-- The items of a sequence as texts, nullish ones empty. -/
def itemTexts : List Value → List String
  | [] => []
  | v :: vs => (if v.isNullish then "" else toText v) :: itemTexts vs

end

/-- The value as a number; NaN where there is none. -/
def toNumber : Value → Number
  | .undefined => .nan
  | .null => .int 0
  | .bool b => .int (if b then 1 else 0)
  | .num n => n
  | .text s => .ofText s
  | .seq _ [] => .int 0
  | .seq _ [v] => .ofText (if v.isNullish then "" else toText v)
  | .seq _ _ => .nan
  | .map _ => .nan

/-- An empty value fails a `required` rule: nullish, `false`, NaN, the empty text or sequence. -/
def isEmpty : Value → Bool
  | .undefined | .null | .bool false => true
  | .num n => n.isNaN
  | .text s => s = ""
  | .seq _ items => items.isEmpty
  | .bool true | .map _ => false

/-- A blank value passes every rule but `required`: nullish, the empty text or sequence. -/
def isBlank : Value → Bool
  | .undefined | .null => true
  | .text s => s = ""
  | .seq _ items => items.isEmpty
  | .bool _ | .num _ | .map _ => false

end FormRules.Value
