import FormRules.Expr.Eval
import FormRules.Value.Conversion

/-!
# Evaluation contexts

What one evaluation may read: the current value, the form, the whole form, and external data. For a
path through an array item the form is that item.
-/

namespace FormRules

/-- The inputs of one evaluation. -/
structure Context where
  current : Value
  /-- The array item the path runs through, else the whole form. -/
  form : Value
  root : Value
  path : String
  external : Value
  arrayIndex : Option Int
  arrayPath : Option String

namespace Context

/-- The innermost array item on a path: its value, its index and the path of the array. -/
def arrayItem? (root : Value) (keys : List Key) : Option (Value × Int × String) :=
  go keys.reverse
where
  /-- Looks for the last index that is not the first key; the keys come last first. -/
  go : List Key → Option (Value × Int × String)
    | [] => none
    | .index n :: k :: ks =>
      let array := (k :: ks).reverse
      some (root.getPath (array ++ [.index n]), n, Path.format array)
    | _ :: ks => go ks

/-- The context of a path over plain values; the current value is by default the one at the path. -/
def forKeys (root : Value) (keys : List Key) (external : Value) (current : Option Value) : Context :=
  let current := current.getD (root.getPath keys)
  let item := arrayItem? root keys
  { current
    form := match item with
      | some (v, _, _) => if v.isUndefined then root else v
      | none => root
    root
    path := Path.format keys
    external
    arrayIndex := item.map fun i => i.2.1
    arrayPath := item.map fun i => i.2.2 }

/-- Whether the path runs through an array item. -/
def isArrayScoped (c : Context) : Bool := c.arrayIndex.isSome

/-- The names that expressions see. -/
def scope (c : Context) : Expr.Scope :=
  [("fieldValue", c.current), ("formValue", c.form), ("rootFormValue", c.root),
    ("fieldPath", .text c.path), ("externalData", c.external),
    ("arrayIndex", match c.arrayIndex with
      | some n => .int n
      | none => .undefined)]

/-- The names that expressions see, with further ones in front. -/
def scopeWith (c : Context) (extra : Expr.Scope) : Expr.Scope := extra ++ c.scope

/-- The value of a field seen from here: inside an array item that is a mapping, the item's own field
comes before the form's. -/
def fieldAt (c : Context) (keys : List Key) : Value :=
  if c.isArrayScoped && c.form.isMap then
    if c.form.hasPath keys then c.form.getPath keys else c.root.getPath keys
  else c.form.getPath keys

end Context
end FormRules
