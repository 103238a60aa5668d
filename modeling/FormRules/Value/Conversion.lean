import FormRules.Fault

/-!
# Conversions of described values

Descriptions of rules are plain data. These conversions read a part of one where an integer, a list
of keys or a mapping is expected, and break where the data has no such reading.
-/

namespace FormRules.Value

/-- Whether a part of a description is given: not nullish, false, zero or empty. -/
def given : Value → Bool
  | .undefined | .null => false
  | .bool b => b
  | .num n => !n.isZero
  | .text s => s != ""
  | .seq _ items => !items.isEmpty
  | .map es => !es.isEmpty

/-- The value, unless it is `null`. -/
def nonNull? : Value → Option Value
  | .null => none
  | v => some v

/-- The value as an integer: numbers lose their fraction, texts are read as integer numerals. -/
def toInteger : Value → Except Breach Int
  | .num (.int n) => .ok n
  | .num (.float .nan) => .error .badValue
  | .num (.float (.infinity _)) => .error .tooLarge
  | .num (.float x) => .ok (x.truncate?.getD 0)
  | .bool b => .ok (if b then 1 else 0)
  | .text s =>
    match Numeral.readInt? s.toList with
    | some n => .ok n
    | none => .error .badValue
  | .undefined | .null | .seq _ _ | .map _ => .error .wrongKind

mutual

/-- The key that a value is, if mappings can have it. Values do not tell what object a NaN is: as keys all count as one. -/
def key? : Value → Option Key
  | .undefined => some .undefined
  | .null => some .null
  | .bool b => some (.index (if b then 1 else 0))
  | .num n => some ((Key.ofNumber? n).getD (.nan 0))
  | .text s => some (.name s)
  | .seq .tuple items => (keys? items).map .tuple
  | .seq .list _ | .map _ => none

/-- The keys that all items are. -/
def keys? : List Value → Option (List Key)
  | [] => some []
  | v :: vs => do return (← key? v) :: (← keys? vs)

end

/-- A key of a mapping that a value stands for. -/
def toKey (v : Value) : Outcome Key :=
  match v.key? with
  | some k => .ok k
  | none => .error .wrongKind

mutual

/-- The value that a key is. -/
def ofKey : Key → Value
  | .name s => .text s
  | .index n => .int n
  | .float x _ => .num (.float x)
  | .nan _ => .num .nan
  | .null => .null
  | .undefined => .undefined
  | .tuple items => .seq .tuple (ofKeys items)

/-- The values that the items of a tuple are. -/
def ofKeys : List Key → List Value
  | [] => []
  | k :: ks => ofKey k :: ofKeys ks

end

/-- The members of a text, a sequence or a mapping (its keys). -/
def members : Value → Outcome (List Value)
  | .seq _ items => .ok items
  | .text s => .ok (s.toList.map fun c => .text (String.singleton c))
  | .map es => .ok (es.map fun e => ofKey e.1)
  | .undefined | .null | .bool _ | .num _ => .error .wrongKind

/-- An entry given as a pair. -/
def toEntry (v : Value) : Outcome (Key × Value) := do
  match ← v.members with
  | [k, w] => return (← k.toKey, w)
  | _ => throw .badValue

/-- A mapping, given as such or as a sequence of pairs; nothing given is the empty mapping. -/
def toMapping (v : Value) : Outcome Entries :=
  if !v.given then .ok []
  else match v with
    | .map es => .ok es
    | v => do return Table.ofEntries (← (← v.members).mapM toEntry)

/-- A list of members, given as such or as one text; nothing given is the empty list. -/
def toMembers (v : Value) : Outcome (List Value) :=
  if !v.given then .ok []
  else match v with
    | .text s => .ok [.text s]
    | v => v.members

/-- The keys of a path, given as text or as a sequence of keys; `null` is the empty path. -/
def pathKeys : Value → Outcome (List Key)
  | .text s => Path.keys s
  | .null => .ok []
  | v => do (← v.members).mapM toKey

/-- The texts among the values of a mapping. -/
def texts (es : Entries) : List String :=
  es.filterMap fun e => match e.2 with
    | .text s => some s
    | _ => none

/-- The text of an expression, which must not be of another kind; `null` is the empty text. -/
def sourceText : Value → Outcome String
  | .text s => .ok s
  | .null => .ok ""
  | _ => .error (.breach .noPart)

end FormRules.Value
