import FormRules.Value.Conversion

/-!
# Settings

Named settings with defaults: read from an environment of texts, and updated by name.
-/

namespace FormRules

/-- Settings by name. -/
abbrev Settings := List (String × Value)

namespace Settings

def defaults : Settings :=
  [("default_debounce_ms", .int 300), ("default_cache_duration_ms", .int 30000),
    ("ast_cache_max_size", .int 1000), ("http_timeout_s", .num (.float (Binary64.ofRatio false 10 1))),
    ("max_derivation_passes", .int 10), ("debug", .bool false)]

/-- An integer from a variable of the environment, the default if it is not set. -/
def readInt (env : List (String × String)) (key : String) (default : Value) : Outcome Value :=
  match env.lookup key with
  | none => .ok default
  | some text =>
    match Numeral.readInt? text.toList with
    | some n => .ok (.int n)
    | none => .error .badValue

/-- The settings of an environment, whose variables start with a common text. -/
def ofEnvironment (start : String) (env : List (String × String)) : Outcome Settings := do
  let int (key name : String) := do
    return (name, ← readInt env (start ++ key) ((defaults.lookup name).getD .null))
  let debounce ← int "DEBOUNCE_MS" "default_debounce_ms"
  let duration ← int "CACHE_DURATION_MS" "default_cache_duration_ms"
  let size ← int "AST_CACHE_SIZE" "ast_cache_max_size"
  let timeout ← match env.lookup (start ++ "HTTP_TIMEOUT") with
    | none => pure ((defaults.lookup "http_timeout_s").getD .null)
    | some text =>
      match Numeral.readBinary64? text.toList with
      | some x => pure (.num (.float x))
      | none => throw .badValue
  let passes ← int "MAX_DERIVATION_PASSES" "max_derivation_passes"
  let debug := env.lookup (start ++ "DEBUG") = some "1"
  return [debounce, duration, size, ("http_timeout_s", timeout), passes, ("debug", .bool debug)]

/-- Overwrites the settings of known names. -/
def update (s : Settings) (changes : List (String × Value)) : Settings :=
  changes.foldl (fun s e => if Table.has s e.1 then Table.put s e.1 e.2 else s) s

def int (s : Settings) (name : String) : Int :=
  match s.lookup name with
  | some v =>
    match v.toInteger with
    | .ok n => n
    | .error _ => 0
  | none => 0

/-- How long a value has to be quiet before it counts, in milliseconds. -/
def debounceMs (s : Settings) : Int := s.int "default_debounce_ms"

/-- How long an answer is kept, in milliseconds. -/
def cacheMs (s : Settings) : Int := s.int "default_cache_duration_ms"

/-- How often derivations run at most, at least once. -/
def maxPasses (s : Settings) : Int := max 1 (s.int "max_derivation_passes")

end Settings

/-! ## Levels of reports -/

/-- The level that reports are shown from; if none is asked for, that of warnings. -/
def reportLevel (asked : Option Int) : Int := asked.getD 30

/-- The full name of a source of reports below a root. -/
def reportName (root : String) (name : String) : String :=
  if name = "" then root else root ++ "." ++ name

end FormRules
