import FormRules.Schema.Basic
import FormRules.Validation.Builtin

/-!
# Applying schemas

Applications expand, over a snapshot of the form, into rules at paths. A condition becomes a guard of
every rule that it brings in; a type predicate and the items of a list are looked at once. A schema
inside of itself is reported and left out.
-/

namespace FormRules

/-- A rule at a path, and the schema that it comes from. -/
structure Bound (α : Type) where
  path : String
  rule : α
  schema : Option String

/-- Rules at their paths. -/
structure Rules where
  validators : List (Bound Validator) := []
  logic : List (Bound LogicRule) := []

/-- The rules of both, in order. -/
def Rules.append (a b : Rules) : Rules := ⟨a.validators ++ b.validators, a.logic ++ b.logic⟩

/-- Where an expansion stands. -/
structure Place where
  keys : List Key
  /-- The conditions on the way, the outermost first. -/
  guards : List Condition := []
  /-- The names of the schemas on the way. -/
  stack : List String := []

/-! ## Type predicates -/

/-- Whether a value is of a named type; `none` if the name is that of no type. A list is an array and
no object, and neither is `null`. -/
def Value.isOfType? (v : Value) (type : String) : Option Bool :=
  match type with
  | "array" => some v.isSeq
  | "null" => some v.isNull
  | "object" => some v.isMap
  | "undefined" | "boolean" | "number" | "string" | "function" => some (v.typeName = type)
  | _ => none

/-- Whether a value satisfies a predicate: the name of a type, or an expression over `value`; a fault
of the expression is reported and counts as no. -/
def Value.satisfies (v predicate : Value) : Checking Bool := do
  if !predicate.isHashable then throw .wrongKind
  let named := match predicate with
    | .text s => v.isOfType? s
    | _ => none
  match named with
  | some b => return b
  | none =>
    match Expr.evaluateValue predicate [("value", v)] with
    | .ok w => return w.truthy
    | .error _ =>
      Journal.report .predicateFailed
      return false

/-! ## Expansion -/

namespace Place

def rulesOf (p : Place) (name : String) (vs : List Validator) (ls : List LogicRule) : Rules :=
  let path := Path.format p.keys
  { validators := vs.map fun v => ⟨path, { v with guards := p.guards ++ v.guards }, some name⟩
    logic := ls.map fun l => ⟨path, { l with guards := p.guards ++ l.guards }, some name⟩ }

/-- The places below a target that an application takes effect at. -/
def targets (p : Place) (kind : ApplicationKind) (predicate root : Value) : Checking (List Place) := do
  match kind with
  | .always => return [p]
  | .whenever c => return [{ p with guards := p.guards ++ [c] }]
  | .forType => return if ← (root.getPath p.keys).satisfies predicate then [p] else []
  | .forEach =>
    match root.getPath p.keys with
    | .seq _ items =>
      return (List.range items.length).map fun (i : Nat) => { p with keys := p.keys ++ [.index i] }
    | _ => return []

/-- Enters a definition wherever its application takes effect. -/
def enter (p : Place) (kind : ApplicationKind) (predicate path root : Value) (name : String)
    (rules : Place → Checking Rules) : Checking Rules := do
  if p.stack.contains name then
    Journal.report (.schemaRecursive name p.stack)
    return {}
  let keys ← ExceptT.mk (pure path.pathKeys)
  let targets ← ({ p with keys := p.keys ++ keys } : Place).targets kind predicate root
  let each ← targets.mapM fun t => rules { t with stack := t.stack ++ [name] }
  return each.foldl Rules.append {}

end Place

mutual

/-- The rules of a definition at a place; `named` gives those of a registered one. -/
def Schema.rules (registry : SchemaRegistry) (root : Value) (named : Schema → Place → Checking Rules) :
    Schema → Place → Checking Rules
  | .mk name _ vs ls subs, p => do
    let below ← SchemaApplication.rulesAll registry root named subs p
    return (p.rulesOf name vs ls).append below

/-- The rules of applications at a place, in order. -/
def SchemaApplication.rulesAll (registry : SchemaRegistry) (root : Value)
    (named : Schema → Place → Checking Rules) : List SchemaApplication → Place → Checking Rules
  | [], _ => return {}
  | a :: as, p => do
    let first ← SchemaApplication.rules registry root named a p
    return first.append (← SchemaApplication.rulesAll registry root named as p)

def SchemaApplication.rules (registry : SchemaRegistry) (root : Value)
    (named : Schema → Place → Checking Rules) : SchemaApplication → Place → Checking Rules
  | .mk kind ref predicate path, p => SchemaRef.rules registry root named kind predicate path ref p

/-- The rules of a schema, by name or definition, that is applied at a place. -/
def SchemaRef.rules (registry : SchemaRegistry) (root : Value) (named : Schema → Place → Checking Rules)
    (kind : ApplicationKind) (predicate path : Value) : SchemaRef → Place → Checking Rules
  | .named n, p =>
    match Table.get? registry n with
    | some s => p.enter kind predicate path root s.name (named s)
    | none => do
      Journal.report (.schemaMissing (registry.missing n).message)
      return {}
  | .inline s, p => p.enter kind predicate path root s.name fun q =>
    Schema.rules registry root named s q

end

namespace SchemaRegistry

/-- The rules of a registered definition; every registered one inside of another has a further name,
so `fuel` may be their number. -/
def rulesWithin (registry : SchemaRegistry) (root : Value) : (fuel : Nat) → Schema → Place →
    Checking Rules
  | 0, _, _ => return {}
  | fuel + 1, s, p => s.rules registry root (registry.rulesWithin root fuel) p

/-- The rules of applications at their paths, over a snapshot of the form. -/
def collect (registry : SchemaRegistry) (root : Value) :
    List (String × SchemaApplication) → Checking Rules
  | [] => return {}
  | (path, a) :: as => do
    let keys ← ExceptT.mk (pure (Path.keys path))
    let first ← a.rules registry root (registry.rulesWithin root registry.length) { keys }
    return first.append (← registry.collect root as)

end SchemaRegistry
end FormRules
