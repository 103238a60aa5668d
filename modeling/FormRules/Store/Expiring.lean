import FormRules.Store.Table

/-!
# Tables whose entries expire

Every entry is kept until a moment of its own; a clock is read when one is looked up or stored. An
expired entry is dropped when it is looked up, and the oldest one makes way when the table is full.
-/

namespace FormRules

/-- A value that is kept until a moment. -/
structure Kept (α : Type) where
  value : α
  expires : Int

/-- A table of values that are kept for a while, the oldest first. -/
structure Expiring (α : Type) where
  capacity : Nat
  entries : List (String × Kept α) := []

namespace Expiring
variable {α : Type}

/-- The number of entries, the expired ones included. -/
def size (t : Expiring α) : Nat := t.entries.length

/-- Whether the key has an entry, expired or not. -/
def contains (t : Expiring α) (key : String) : Bool := Table.has t.entries key

/-- Looks up a key, and drops its entry if it has expired. -/
def find? (t : Expiring α) (now : Int) (key : String) : Option α × Expiring α :=
  match Table.get? t.entries key with
  | none => (none, t)
  | some e =>
    if e.expires ≤ now then (none, { t with entries := Table.erase t.entries key })
    else (some e.value, t)

/-- Whether an entry can be stored at all. -/
def hasRoom (t : Expiring α) : Bool := 0 < t.capacity

/-- Stores a value for a while as the newest entry; a full table drops its oldest one. -/
def put (t : Expiring α) (now : Int) (key : String) (v : α) (lifetime : Int) : Expiring α :=
  let others := Table.erase t.entries key
  let kept := if t.capacity ≤ others.length then others.drop 1 else others
  { t with entries := kept ++ [(key, ⟨v, now + max lifetime 0⟩)] }

/-- Drops every entry. -/
def clear (t : Expiring α) : Expiring α := { t with entries := [] }

end Expiring
end FormRules
