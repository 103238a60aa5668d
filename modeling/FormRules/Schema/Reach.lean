import FormRules.Schema.Basic

/-!
# Schemas within reach

The definitions that an application can bring in, each registered one once. Names that are not
registered are passed over. Of the applications of a definition the last one is followed first.
-/

namespace FormRules

/-- The definitions found so far, and the names of the registered ones among them. -/
structure Reached where
  names : List String := []
  schemas : List Schema := []

def Reached.add (r : Reached) (s : Schema) : Reached := { r with schemas := r.schemas ++ [s] }

mutual

/-- Adds a definition and what its applications reach; `enter` follows a name. -/
def Schema.reach (enter : String → Reached → Reached) : Schema → Reached → Reached
  | .mk n d vs ls subs, r => SchemaApplication.reachAll enter subs (r.add (.mk n d vs ls subs))

/-- Follows applications, the last one first. -/
def SchemaApplication.reachAll (enter : String → Reached → Reached) :
    List SchemaApplication → Reached → Reached
  | [], r => r
  | a :: as, r => SchemaApplication.reach enter a (SchemaApplication.reachAll enter as r)

def SchemaApplication.reach (enter : String → Reached → Reached) :
    SchemaApplication → Reached → Reached
  | .mk _ ref _ _, r => SchemaRef.reach enter ref r

/-- Follows a schema by name or definition. -/
def SchemaRef.reach (enter : String → Reached → Reached) : SchemaRef → Reached → Reached
  | .named n, r => enter n r
  | .inline s, r => Schema.reach enter s r

end

namespace SchemaRegistry

/-- Follows a name unless it has been followed; every name followed inside of another is a further
registered one, so `fuel` may be their number. -/
def follow (registry : SchemaRegistry) : (fuel : Nat) → String → Reached → Reached
  | 0, _, r => r
  | fuel + 1, name, r =>
    if r.names.contains name then r
    else match Table.get? registry name with
      | none => r
      | some s => s.reach (registry.follow fuel) { r with names := name :: r.names }

/-- The definitions within reach of an application. -/
def reachable (registry : SchemaRegistry) (a : SchemaApplication) : List Schema :=
  (a.reach (registry.follow registry.length) {}).schemas

end SchemaRegistry
end FormRules
