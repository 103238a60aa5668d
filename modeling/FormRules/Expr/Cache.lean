import FormRules.Expr.Parser

/-!
# Parsed expressions in memory

Trees are kept by their trimmed text, the least recently used one making way for a new one. Every
tree that was built has a serial number.
-/

namespace FormRules.Expr

/-- A tree with the number of trees built before it. -/
structure Parsed where
  serial : Nat
  node : Node

/-- The trees in memory, the least recently used first. -/
structure ParseCache where
  entries : List (String × Parsed) := []
  built : Nat := 0

namespace ParseCache

/-- The number of trees in memory. -/
def size (c : ParseCache) : Nat := c.entries.length

/-- The texts in memory, the least recently used first. -/
def texts (c : ParseCache) : List String := c.entries.map (·.1)

/-- Moves an entry to the end. -/
def touch (c : ParseCache) (text : String) (tree : Parsed) : ParseCache :=
  { c with entries := Table.erase c.entries text ++ [(text, tree)] }

/-- Adds a tree, making room for it. -/
def add (c : ParseCache) (capacity : Nat) (text : String) (node : Node) : ParseCache where
  entries := c.entries.drop (c.entries.length + 1 - capacity) ++ [(text, ⟨c.built, node⟩)]
  built := c.built + 1

/-- The tree of a text, from memory or newly built; at most `max 1 limit` trees are kept. -/
def parse (c : ParseCache) (limit : Int) (source : String) : Outcome Parsed × ParseCache :=
  let text := source.trimBlank
  if text = "" then (.error (.noExpression .empty source 0), c)
  else
    match Table.get? c.entries text with
    | some tree => (.ok tree, c.touch text tree)
    | none =>
      match parseTrimmed text with
      | .ok node => (.ok ⟨c.built, node⟩, c.add (max 1 limit).toNat text node)
      | .error f => (.error f, c)

/-- The tree of a value, which has to be a text. -/
def parseValue (c : ParseCache) (limit : Int) (source : Value) : Outcome Parsed × ParseCache :=
  match source with
  | .text s => c.parse limit s
  | v => (.error (.noExpression (.notText v.kindName) v.quoted 0), c)

end ParseCache
end FormRules.Expr
