import FormRules.Value.Coercion

/-!
# Equalities

`strictEq` compares without coercion and containers by content; `looseEq` coerces between numbers,
texts and booleans first. `sameContent` is the equality by which a cell decides that a write changes
nothing: numbers and booleans are compared by number, and lists and tuples differ.
-/

namespace FormRules.Value

mutual

/-- Equality without coercion. Integers and binary64 numbers compare exactly, a NaN equals nothing,
and mappings compare as sets of entries, a NaN that is a key being found as the object it is. -/
def strictEq : Value → Value → Bool
  | .undefined, .undefined | .null, .null => true
  | .bool a, .bool b => a = b
  | .num a, .num b => a.eq b
  | .text a, .text b => a = b
  | .seq _ as, .seq _ bs => strictEqItems as bs
  | .map as, .map bs => strictEqEntries as bs && bs.all fun e => Table.has as e.1
  | _, _ => false

def strictEqItems : List Value → List Value → Bool
  | [], [] => true
  | a :: as, b :: bs => strictEq a b && strictEqItems as bs
  | _, _ => false

/-- Every entry of the first has an equal one in the second. -/
def strictEqEntries : List (Key × Value) → List (Key × Value) → Bool
  | [], _ => true
  | (k, a) :: as, bs =>
    (match Table.get? bs k with
      | some b => strictEq a b
      | none => false) && strictEqEntries as bs

end

/-- A boolean as the number zero or one, any other value as itself. -/
def unbool : Value → Value
  | .bool b => .int (if b then 1 else 0)
  | v => v

/-- Equality with coercion: nullish values equal each other only; booleans count as numbers; texts
against numbers are read as numerals; a container on the left is compared as text. -/
def looseEq (a b : Value) : Bool :=
  if a.isNullish || b.isNullish then a.isNullish && b.isNullish
  else
    match unbool a, unbool b with
    | .num m, .text t => m.eq (.ofText t)
    | .text s, .num n => (Number.ofText s).eq n
    | .map es, .text t => toText (.map es) = t
    | .seq k vs, .text t => toText (.seq k vs) = t
    | .seq k vs, .num n => (Number.ofText (toText (.seq k vs))).eq n
    | a, b => strictEq a b

def asNumber? : Value → Option Number
  | .bool b => some (.int (if b then 1 else 0))
  | .num n => some n
  | _ => none

mutual

/-- Equality of contents inside containers: numbers and booleans by number, a NaN equals itself. -/
def sameContent : Value → Value → Bool
  | .undefined, .undefined | .null, .null => true
  | .bool a, v =>
    match v.asNumber? with
    | some n => (Number.int (if a then 1 else 0)).eq n
    | none => false
  | .num a, v =>
    match v.asNumber? with
    | some n => a.eq n || (a.isNaN && n.isNaN)
    | none => false
  | .text a, .text b => a = b
  | .seq j as, .seq k bs => j = k && sameItems as bs
  | .map as, .map bs => as.length = bs.length && sameEntries as bs
  | _, _ => false

def sameItems : List Value → List Value → Bool
  | [], [] => true
  | a :: as, b :: bs => sameContent a b && sameItems as bs
  | _, _ => false

/-- Every entry of the first has the same content in the second. -/
def sameEntries : List (Key × Value) → List (Key × Value) → Bool
  | [], _ => true
  | (k, a) :: as, bs =>
    (match Table.get? bs k with
      | some b => sameContent a b
      | none => false) && sameEntries as bs

end

mutual

/-- Whether the value is or contains a NaN, keys of mappings apart. A NaN that is written counts as a
change even where there was one before. -/
def hasNaN : Value → Bool
  | .num n => n.isNaN
  | .seq _ items => hasNaNItem items
  | .map es => hasNaNEntry es
  | .undefined | .null | .bool _ | .text _ => false

def hasNaNItem : List Value → Bool
  | [] => false
  | v :: vs => hasNaN v || hasNaNItem vs

def hasNaNEntry : List (Key × Value) → Bool
  | [] => false
  | (_, v) :: es => hasNaN v || hasNaNEntry es

end

/-- Whether replacing the first value by the second changes nothing: the same kind of value with
the same content. A NaN always counts as a change. -/
def unchanged (old new : Value) : Bool :=
  match old, new with
  | .num (.int a), .num (.int b) => a = b
  | .num (.float a), .num (.float b) => (Number.float a).eq (.float b)
  | .num _, _ | _, .num _ => false
  | .bool a, .bool b => a = b
  | .bool _, _ | _, .bool _ => false
  | a, b => sameContent a b

end FormRules.Value
