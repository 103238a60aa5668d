import FormRules.Value.Basic

/-!
# Merging mappings

A delta overlays a mapping: where both have a mapping these are merged, any other value of the delta
takes the place of what was there.
-/

namespace FormRules.Value

mutual

/-- What a value becomes when a delta is laid over it. -/
def overlay (old : Option Value) : Value → Value
  | .map us =>
    match old with
    | some (.map es) => .map (overlayEntries es us)
    | _ => .map us
  | v => v

/-- Lays entries over a mapping one by one. -/
def overlayEntries (es : Entries) : List (Key × Value) → Entries
  | [] => es
  | (k, v) :: us => overlayEntries (Table.put es k (overlay (Table.get? es k) v)) us

end

/-- Merges the entries of a delta into a value; what is no mapping counts as an empty one. -/
def mergeDelta (base : Value) (delta : Entries) : Value :=
  match base with
  | .map es => .map (overlayEntries es delta)
  | _ => .map (overlayEntries [] delta)

end FormRules.Value
