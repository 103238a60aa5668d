import FormRules.Fault
import FormRules.Value.Equality

/-!
# Canonical text

One text per value, for keys of caches: keys of mappings are sorted, integral numbers lose their
point, texts are in ASCII, and `undefined` is told from `null`. `Datum` adds sets and dates.
-/

namespace FormRules

def Number.canonical : Number → String
  | .int n => intText n
  | .float x =>
    match x with
    | .nan => "NaN"
    | .infinity s => if s then "-Infinity" else "Infinity"
    | _ =>
      match x.toInt? with
      | some n => intText n
      | none => x.text

/-- The canonical texts of entries in the order of their keys. -/
def canonicalEntries (es : List (String × String)) : String :=
  let ordered := Order.sort (fun a b => !(b.1 < a.1)) es
  "\x7b" ++ ",".intercalate (ordered.map fun e => Text.asciiQuote e.1 ++ ":" ++ e.2) ++ "\x7d"

/-- The canonical texts of items in brackets. -/
def canonicalItems (items : List String) : String := "[" ++ ",".intercalate items ++ "]"

namespace Value

mutual

def canonical : Value → String
  | .undefined => "undefined"
  | .null => "null"
  | .bool b => if b then "true" else "false"
  | .num n => n.canonical
  | .text s => Text.asciiQuote s
  | .seq _ items => canonicalItems (canonicals items)
  | .map es => canonicalEntries (canonicalFields es)

def canonicals : List Value → List String
  | [] => []
  | v :: vs => canonical v :: canonicals vs

/-- The texts of the keys with the canonical texts of the values. -/
def canonicalFields : List (Key × Value) → List (String × String)
  | [] => []
  | (k, v) :: es => (k.text, canonical v) :: canonicalFields es

end

/-- The key of a value in the role `kind`; keys of different roles differ. -/
def roleKey (kind : String) (v : Value) : String := kind ++ ":" ++ v.canonical

end Value

/-- Data that may hold sets and dates. -/
inductive Datum
  | value (v : Value)
  | date (iso : String)
  | items (members : List Datum)
  | fields (entries : List (Key × Datum))
  | set (members : List Datum)

namespace Datum

instance : Inhabited Datum := ⟨.value .undefined⟩

mutual

/-- The canonical text of a datum; the members of a set are in the order of their texts. -/
def canonical : Datum → String
  | .value v => v.canonical
  | .date iso => Text.asciiQuote iso
  | .items ds => canonicalItems (canonicals ds)
  | .fields es => canonicalEntries (canonicalFields es)
  | .set ds => canonicalItems (Fault.sorted (canonicals ds))

/-- The canonical texts of data. -/
def canonicals : List Datum → List String
  | [] => []
  | d :: ds => canonical d :: canonicals ds

/-- The texts of the keys with the canonical texts of the data. -/
def canonicalFields : List (Key × Datum) → List (String × String)
  | [] => []
  | (k, d) :: es => (k.text, canonical d) :: canonicalFields es

end

/-- Whether two members of a set are one. -/
def sameMember : Datum → Datum → Bool
  | .value a, .value b => a.sameContent b
  | .date a, .date b => a = b
  | _, _ => false

/-- The set of the given members; of equal ones the first stays. -/
def ofMembers (members : List Datum) : Datum :=
  .set (members.foldl (fun kept d => if kept.any (sameMember · d) then kept else kept ++ [d]) [])

/-- The key of a datum in the role `kind`. -/
def roleKey (kind : String) (d : Datum) : String := kind ++ ":" ++ d.canonical

end Datum
end FormRules
