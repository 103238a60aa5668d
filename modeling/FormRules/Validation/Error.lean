import FormRules.Value.Conversion

/-!
# Validation errors

What a validator answers when a field fails it, and the errors of one pass together.
-/

namespace FormRules

/-- A failure of one field: its kind, parameters for a message, and a message if one is set. -/
structure ValidationError where
  kind : Value
  path : String := ""
  params : Entries := []
  message : Value := .null

/-- The failures of one pass, in the order of the validators. -/
structure ValidationResult where
  errors : List ValidationError

namespace ValidationResult

/-- Whether nothing failed. -/
def isValid (r : ValidationResult) : Bool := r.errors.isEmpty

def forField (r : ValidationResult) (path : String) : List ValidationError :=
  r.errors.filter (·.path = path)

def kinds (r : ValidationResult) : List Value := r.errors.map (·.kind)

def kindsFor (r : ValidationResult) (path : String) : List Value := (r.forField path).map (·.kind)

/-- The failures of two passes. -/
def merge (a b : ValidationResult) : ValidationResult := ⟨a.errors ++ b.errors⟩

end ValidationResult
end FormRules
