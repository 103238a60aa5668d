import FormRules.Condition.Description
import FormRules.Validation.Check

/-!
# Compiled rules

Conditions, value expressions and validators are compiled once per form. Each has a key, and what has
been compiled under a key answers for everything with that key from then on.
-/

namespace FormRules

/-- What conditions and value expressions are compiled to. -/
inductive LogicFunction
  /-- Follows a test at once. -/
  | test (t : Test)
  /-- Follows a test that has been quiet for a while; the key tells its slots apart. -/
  | delayed (key : String) (t : Test) (quietMs : Int)
  | inquiry (key : String) (i : Inquiry)
  /-- Computes a value in a context. -/
  | value (expression : Value)

/-- The kinds of compiled functions that have keys of their own. -/
inductive LogicKind
  | test
  | inquiry
  | value
  deriving DecidableEq

/-- Everything compiled so far. -/
structure Compiled where
  /-- Every function in the order in which they were compiled. -/
  functions : List LogicFunction := []
  /-- The positions of the functions known by a key. -/
  known : List ((LogicKind × String) × Nat) := []
  validators : List (String × CompiledValidator) := []

namespace Compiled

/-- The position of the function of a key; the given one is added if there is none. -/
def intern (c : Compiled) (kind : LogicKind) (key : String) (f : LogicFunction) : Nat × Compiled :=
  match Table.get? c.known (kind, key) with
  | some n => (n, c)
  | none =>
    (c.functions.length,
      { c with
        functions := c.functions ++ [f]
        known := Table.put c.known (kind, key) c.functions.length })

/-- The key of a test that has to be quiet for a while. -/
def delayedKey (key : String) (quietMs : Int) : String := key ++ "|debounce:" ++ intText quietMs

/-- Compiles a condition, possibly to be quiet for a while; an inquiry has a quiet period of its own. -/
def condition (c : Compiled) (quietMs : Option Int) (condition : Condition) : Nat × Compiled :=
  let key := condition.key
  match condition, quietMs with
  | .inquiry i, _ => c.intern .inquiry key (.inquiry key i)
  | .test t, none => c.intern .test key (.test t)
  | .test t, some ms => c.intern .test (delayedKey key ms) (.delayed (delayedKey key ms) t ms)

def valueExpression (c : Compiled) (e : Value) : Nat × Compiled :=
  c.intern .value (Value.roleKey "value" e) (.value e)

def validator (c : Compiled) (fs : Functions) (v : Validator) : Outcome (CompiledValidator × Compiled) := do
  let key := v.key
  match Table.get? c.validators key with
  | some w => return (w, c)
  | none =>
    let w ← v.compile fs
    return (w, { c with validators := Table.put c.validators key w })

/-- The number of known functions of a kind. -/
def count (c : Compiled) (kind : LogicKind) : Nat := (c.known.filter (·.1.1 = kind)).length

/-- Forgets what is known; the functions themselves stay. -/
def forget (c : Compiled) : Compiled := { functions := c.functions }

end Compiled
end FormRules
