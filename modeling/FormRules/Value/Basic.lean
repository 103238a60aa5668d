import FormRules.Number.Numeral
import FormRules.Store.Table
import FormRules.Text.Printable

/-!
# Form values

The data of a form: absent, null, booleans, numbers, texts, sequences and mappings. Mappings keep
their insertion order, and their keys are values without lists and mappings. Keys that are equal are
one key: `true` and `1.0` are the index `1`, but `"1"` is another key.
-/

namespace FormRules

/-- A key of a mapping, or a step of a path. -/
inductive Key
  | name (s : String)
  | index (n : Int)
  /-- A fraction or an infinity; a whole number is the index. -/
  | float (x : Binary64) (h : x.toInt? = none ∧ x.isNaN = false)
  /-- A NaN, by the number of its object: mappings find it as this object, not as what it equals. -/
  | nan (object : Nat)
  | null
  | undefined
  | tuple (items : List Key)

namespace Key

mutual

/-- Whether a mapping takes two keys for one. -/
def same : Key → Key → Bool
  | .name s, .name t => s = t
  | .index m, .index n => m = n
  | .float x _, .float y _ => x = y
  | .nan i, .nan j => i = j
  | .null, .null | .undefined, .undefined => true
  | .tuple ks, .tuple ls => sameItems ks ls
  | _, _ => false

def sameItems : List Key → List Key → Bool
  | [], [] => true
  | k :: ks, l :: ls => same k l && sameItems ks ls
  | _, _ => false

end

mutual

theorem same_iff (k l : Key) : k.same l = true ↔ k = l := by
  cases k with
  | tuple ks => cases l <;> simp [same, sameItems_iff ks]
  | _ => cases l <;> simp [same]

theorem sameItems_iff (ks ls : List Key) : sameItems ks ls = true ↔ ks = ls := by
  cases ks with
  | nil => cases ls <;> simp [sameItems]
  | cons k ks => cases ls <;> simp [sameItems, same_iff k, sameItems_iff ks]

end

instance : DecidableEq Key
  -- apart from the recursion, which is slow to unfold in proofs about given data
  | .name s, .name t => decidable_of_iff (s = t) ⟨congrArg name, name.inj⟩
  | .index m, .index n => decidable_of_iff (m = n) ⟨congrArg index, index.inj⟩
  | k, l => decidable_of_iff _ (same_iff k l)

mutual

/-- The written form of a key in messages. -/
def quoted : Key → String
  | .name s => Text.quote s
  | .index n => intText n
  | .float x _ => x.text
  | .nan _ => Binary64.text .nan
  | .null => "None"
  | .undefined => "undefined"
  | .tuple [k] => "(" ++ quoted k ++ ",)"
  | .tuple items => "(" ++ ", ".intercalate (quotedItems items) ++ ")"

/-- The written forms of the items of a tuple. -/
def quotedItems : List Key → List String
  | [] => []
  | k :: ks => quoted k :: quotedItems ks

end

def text : Key → String
  | .name s => s
  | .index n => intText n
  | k => k.quoted

/-- The key that a number is; what key a NaN is depends on its object. -/
def ofNumber? : Number → Option Key
  | .int n => some (.index n)
  | .float x =>
    if h : x.toInt? = none ∧ x.isNaN = false then some (.float x h) else x.toInt?.map .index

def isIndex : Key → Bool
  | .index _ => true
  | _ => false

def isName : Key → Bool
  | .name _ => true
  | _ => false

end Key

/-- Sequences come as growable lists or as fixed tuples. -/
inductive SeqKind
  | list
  | tuple
  deriving DecidableEq

/-- A value of a form. -/
inductive Value
  | undefined
  | null
  | bool (b : Bool)
  | num (n : Number)
  | text (s : String)
  | seq (kind : SeqKind) (items : List Value)
  | map (entries : List (Key × Value))

/-- The entries of a mapping. -/
abbrev Entries := List (Key × Value)

namespace Value

instance : Inhabited Value := ⟨.undefined⟩

def int (n : Int) : Value := .num (.int n)

def list (items : List Value) : Value := .seq .list items

/-- A mapping with names for keys. -/
def object (fields : List (String × Value)) : Value := .map (fields.map fun f => (.name f.1, f.2))

/-- Whether the value is `undefined`. -/
def isUndefined : Value → Bool
  | .undefined => true
  | _ => false

/-- Whether the value is `null`. -/
def isNull : Value → Bool
  | .null => true
  | _ => false

/-- Neither `undefined` nor `null` hold anything. -/
def isNullish : Value → Bool
  | .undefined | .null => true
  | _ => false

def isMap : Value → Bool
  | .map _ => true
  | _ => false

def isSeq : Value → Bool
  | .seq _ _ => true
  | _ => false

/-- The field of a mapping under a name; `null` and absence are told apart. -/
def field? (entries : Entries) (name : String) : Option Value := Table.get? entries (.name name)

/-- The field of a mapping under a name, `null` if absent. -/
def field (entries : Entries) (name : String) : Value := (field? entries name).getD .null

/-- The field of a mapping under a name, `undefined` if absent. -/
def fieldOrUndefined (entries : Entries) (name : String) : Value := (field? entries name).getD .undefined

/-- The name of the kind of value, as messages give it. -/
def kindName : Value → String
  | .undefined => "_Undefined"
  | .null => "NoneType"
  | .bool _ => "bool"
  | .num (.int _) => "int"
  | .num (.float _) => "float"
  | .text _ => "str"
  | .seq .list _ => "list"
  | .seq .tuple _ => "tuple"
  | .map _ => "dict"

mutual

/-- The written form of a value in messages. -/
def quoted : Value → String
  | .undefined => "undefined"
  | .null => "None"
  | .bool b => if b then "True" else "False"
  | .num n => n.plainText
  | .text s => Text.quote s
  | .seq .list items => "[" ++ ", ".intercalate (quotedItems items) ++ "]"
  | .seq .tuple [v] => "(" ++ quoted v ++ ",)"
  | .seq .tuple items => "(" ++ ", ".intercalate (quotedItems items) ++ ")"
  | .map entries => "\x7b" ++ ", ".intercalate (quotedEntries entries) ++ "\x7d"

/-- The written forms of the items of a sequence. -/
def quotedItems : List Value → List String
  | [] => []
  | v :: vs => quoted v :: quotedItems vs

/-- The written forms of the entries of a mapping. -/
def quotedEntries : List (Key × Value) → List String
  | [] => []
  | (k, v) :: es => (k.quoted ++ ": " ++ quoted v) :: quotedEntries es

end

mutual

/-- Whether the value can be looked up in a set of names: lists and mappings cannot. -/
def isHashable : Value → Bool
  | .seq .list _ | .map _ => false
  | .seq .tuple items => allHashable items
  | _ => true

/-- Whether all items can be looked up. -/
def allHashable : List Value → Bool
  | [] => true
  | v :: vs => isHashable v && allHashable vs

end

/-- The written form of a value as plain text: a text is itself. -/
def plainText : Value → String
  | .text s => s
  | v => quoted v

end Value
end FormRules
