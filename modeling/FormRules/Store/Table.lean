/-!
# Tables in insertion order

A table is a list of entries with distinct keys. Writing an existing key keeps its place; a new key
goes to the end.
-/

namespace FormRules.Table
variable {κ α : Type} [DecidableEq κ]

/-- The value of a key. -/
def get? (t : List (κ × α)) (k : κ) : Option α := (t.find? (·.1 = k)).map (·.2)

/-- Whether the key has an entry. -/
def has (t : List (κ × α)) (k : κ) : Bool := (get? t k).isSome

/-- Writes a key. -/
def put : List (κ × α) → κ → α → List (κ × α)
  | [], k, v => [(k, v)]
  | (j, w) :: t, k, v => if j = k then (k, v) :: t else (j, w) :: put t k v

/-- Drops a key. -/
def erase (t : List (κ × α)) (k : κ) : List (κ × α) := t.filter (·.1 ≠ k)

/-- The table of the given entries; a later entry of a key overwrites the earlier in place. -/
def ofEntries (es : List (κ × α)) : List (κ × α) := es.foldl (fun t e => put t e.1 e.2) []

/-- Adds every entry of `u` to `t`. -/
def merge (t u : List (κ × α)) : List (κ × α) := u.foldl (fun t e => put t e.1 e.2) t

end FormRules.Table
