import FormRules.Schema.Expansion
import Mathlib.Data.List.Nodup

/-!
# Chains of applications

A rule that schemas bring in comes along a chain: an application of the form, then an application among the
sub-schemas of each definition that the chain has entered. A chain is admissible if each of its schemas is found,
none is entered twice, and each application takes effect on the value at its target; it brings in the rules of its
last definition. An obstacle is an application behind an admissible chain that cannot be looked at.
-/

namespace FormRules

/-- Whether an expression over a value holds; a fault counts as no. -/
def Value.upholds (v expression : Value) : Bool :=
  match Expr.evaluateValue expression [("value", v)] with
  | .ok w => w.truthy
  | .error _ => false

/-- Whether a value is of the type that a predicate names, or has the expression hold if it names none. -/
def Value.meets (v predicate : Value) : Bool :=
  match predicate with
  | .text s => (v.isOfType? s).getD (v.upholds predicate)
  | _ => v.upholds predicate

/-- Whether an application takes effect on the value at its target: there, or at one of the items. -/
def ApplicationKind.Takes (kind : ApplicationKind) (predicate v : Value) (item : Option Nat) : Prop :=
  match kind, item with
  | .always, none | .whenever _, none => True
  | .forType, none => predicate.isHashable = true ∧ v.meets predicate = true
  | .forEach, some i => ∃ kind items, v = .seq kind items ∧ i < items.length
  | _, _ => False

/-- The condition that an application adds to what it brings in. -/
def ApplicationKind.guards : ApplicationKind → List Condition
  | .whenever c => [c]
  | _ => []

/-- The definition of a schema that is given by name or definition. -/
def SchemaRef.resolve (registry : SchemaRegistry) : SchemaRef → Option Schema
  | .named n => Table.get? registry n
  | .inline s => some s

/-- Whether an application faults when it is looked at: its path or its type predicate cannot be read. -/
def SchemaApplication.Unreadable (a : SchemaApplication) (f : Fault) : Prop :=
  a.path.pathKeys = .error f ∨
    (∃ keys, a.path.pathKeys = .ok keys) ∧ a.kind = .forType ∧ a.typePredicate.isHashable = false ∧ f = .wrongKind

namespace Schema

/-- An application on a chain. -/
structure Link where
  /-- The position among the applications that it is declared with. -/
  position : Nat
  application : SchemaApplication
  /-- The definition that it enters. -/
  definition : Schema
  /-- The keys of its path. -/
  keys : List Key
  /-- The item of the value at its target, if it is for each. -/
  item : Option Nat

namespace Link

/-- The keys from the place of the application to that of the definition. -/
def path (l : Link) : List Key := l.keys ++ l.item.toList.map fun (i : Nat) => .index i

/-- An application at a place is readable, leads to the definition, and takes effect. -/
structure Holds (registry : SchemaRegistry) (root : Value) (place : List Key) (l : Link) : Prop where
  resolved : l.application.schema.resolve registry = some l.definition
  readable : l.application.path.pathKeys = .ok l.keys
  taken : l.application.kind.Takes l.application.typePredicate (root.getPath (place ++ l.keys)) l.item

end Link

/-- The names of the definitions that links enter. -/
def names (ls : List Link) : List String := ls.map (·.definition.name)

/-- Where links stand in the order of declaration, with the items in their order. -/
def trail (ls : List Link) : List Nat := ls.flatMap fun l => [l.position, l.item.getD 0]

/-- The definition that links lead to. -/
def last (s : Schema) (ls : List Link) : Schema := (ls.map (·.definition)).getLastD s

@[simp] theorem last_nil (s : Schema) : s.last [] = s := rfl

@[simp] theorem last_cons (s : Schema) (l : Link) (ls : List Link) : s.last (l :: ls) = l.definition.last ls := by
  simp only [last, List.map_cons, List.getLastD_cons]

/-- Links that lead from a definition at a place on, each declared by the definition before it. -/
inductive Leads (registry : SchemaRegistry) (root : Value) : Schema → List Key → List Link → Prop
  | here {s : Schema} {place : List Key} : Leads registry root s place []
  | link {s : Schema} {place : List Key} {l : Link} {ls : List Link}
    (declared : s.subSchemas[l.position]? = some l.application) (holds : l.Holds registry root place)
    (rest : Leads registry root l.definition (place ++ l.path) ls) : Leads registry root s place (l :: ls)

/-- Links from an application of the form at a place on. -/
structure Chain where
  base : List Key
  first : Link
  rest : List Link

namespace Chain

def links (c : Chain) : List Link := c.first :: c.rest

def definition (c : Chain) : Schema := c.first.definition.last c.rest

def path (c : Chain) : String := Path.format (c.base ++ c.links.flatMap Link.path)

/-- The conditions on the way, the outermost first. -/
def guards (c : Chain) : List Condition := c.links.flatMap fun l => l.application.kind.guards

def validators (c : Chain) : List (Bound Validator) :=
  c.definition.validators.map fun v => ⟨c.path, { v with guards := c.guards ++ v.guards }, some c.definition.name⟩

def logic (c : Chain) : List (Bound LogicRule) :=
  c.definition.logic.map fun r => ⟨c.path, { r with guards := c.guards ++ r.guards }, some c.definition.name⟩

/-- The chain starts at an application, every link of it holds, and no definition is entered twice. -/
structure Admissible (registry : SchemaRegistry) (root : Value) (applications : List (String × SchemaApplication))
    (c : Chain) : Prop where
  started : ∃ path, applications[c.first.position]? = some (path, c.first.application) ∧ Path.keys path = .ok c.base
  holds : c.first.Holds registry root c.base
  leads : Leads registry root c.first.definition (c.base ++ c.first.path) c.rest
  distinct : (names c.links).Nodup

end Chain

/-- An application is looked at behind some names, and faults. -/
def Halts (registry : SchemaRegistry) (names : List String) (a : SchemaApplication) (f : Fault) : Prop :=
  (∃ s, a.schema.resolve registry = some s ∧ s.name ∉ names) ∧ a.Unreadable f

/-- What can stop an expansion: a path that cannot be read, or an application that faults, of the form or behind an
admissible chain. -/
inductive Obstacle (registry : SchemaRegistry) (root : Value) (applications : List (String × SchemaApplication))
    (f : Fault) : Prop
  | base {path : String} {a : SchemaApplication} (mem : (path, a) ∈ applications) (fails : Path.keys path = .error f)
  | first {path : String} {a : SchemaApplication} (mem : (path, a) ∈ applications)
    (readable : ∃ keys, Path.keys path = .ok keys) (halts : Halts registry [] a f)
  | next {c : Chain} {a : SchemaApplication} (admissible : c.Admissible registry root applications)
    (mem : a ∈ c.definition.subSchemas) (halts : Halts registry (names c.links) a f)

end Schema
end FormRules
