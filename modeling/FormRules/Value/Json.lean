import FormRules.Text.Printable
import FormRules.Value.Basic

/-!
# JSON text

Reading values from JSON. Integers stay exact, numbers with a point or an exponent become binary64,
the words `NaN`, `Infinity` and `-Infinity` are admitted, and the entries of a mapping keep their
order, a repeated name keeping its first place and its last value.
-/

namespace FormRules.Json

/-- Without leading blanks of JSON. -/
def skipBlank (cs : List Char) : List Char :=
  cs.dropWhile fun c => c == ' ' || c == '\t' || c == '\n' || c == '\r'

/-- Takes a word off the front. -/
def dropWord? (w : String) (cs : List Char) : Option (List Char) :=
  if w.toList.isPrefixOf cs then some (cs.drop w.length) else none

/-- The value of a hexadecimal digit. -/
def hexValue? (c : Char) : Option Nat :=
  if c.isDigit then some (c.toNat - 48)
  else if 'a' ≤ c && c ≤ 'f' then some (c.toNat - 87)
  else if 'A' ≤ c && c ≤ 'F' then some (c.toNat - 55)
  else none

/-- Four hexadecimal digits. -/
def unit? : List Char → Option (Nat × List Char)
  | a :: b :: c :: d :: cs => do
    return (((← hexValue? a) * 4096 + (← hexValue? b) * 256 + (← hexValue? c) * 16 + (← hexValue? d)), cs)
  | _ => none

/-- The character of a unit, the replacement character for half of a pair. -/
def unitChar (n : Nat) : Char := if n.isValidChar then Char.ofNat n else Char.ofNat 0xFFFD

/-- The second half of a pair as an escape. -/
def lowHalf? : List Char → Option (Nat × List Char)
  | '\\' :: 'u' :: cs =>
    match unit? cs with
    | some (n, rest) => if 0xDC00 ≤ n && n ≤ 0xDFFF then some (n, rest) else none
    | none => none
  | _ => none

/-- The character of a one-letter escape. -/
def escaped? : Char → Option Char
  | '"' => some '"'
  | '\\' => some '\\'
  | '/' => some '/'
  | 'b' => some (Char.ofNat 8)
  | 'f' => some (Char.ofNat 12)
  | 'n' => some '\n'
  | 'r' => some '\r'
  | 't' => some '\t'
  | _ => none

/-- The characters of a text up to its closing quote; each step takes a character. -/
def readText : Nat → List Char → Option (List Char × List Char)
  | 0, _ => none
  | _ + 1, [] => none
  | _ + 1, '"' :: cs => some ([], cs)
  | fuel + 1, '\\' :: 'u' :: cs => do
    let (n, rest) ← unit? cs
    let (c, rest) ←
      if 0xD800 ≤ n && n ≤ 0xDBFF then
        match lowHalf? rest with
        | some (m, after) => some (Char.ofNat (0x10000 + (n - 0xD800) * 0x400 + (m - 0xDC00)), after)
        | none => some (unitChar n, rest)
      else some (unitChar n, rest)
    let (text, rest) ← readText fuel rest
    return (c :: text, rest)
  | fuel + 1, '\\' :: e :: cs => do
    let c ← escaped? e
    let (text, rest) ← readText fuel cs
    return (c :: text, rest)
  | fuel + 1, c :: cs => do
    guard (32 ≤ c.toNat && c != '\\')
    let (text, rest) ← readText fuel cs
    return (c :: text, rest)

/-- A number: an integer without leading zeros, an optional fraction and exponent. -/
def readNumber (cs : List Char) : Option (Value × List Char) := do
  let (sign, body) := match cs with
    | '-' :: more => (['-'], more)
    | _ => ([], cs)
  let digits := body.takeWhile Char.isDigit
  let (whole, rest) := match digits with
    | '0' :: _ => (['0'], body.drop 1)
    | _ => (digits, body.dropWhile Char.isDigit)
  guard (!whole.isEmpty)
  let (fraction, rest) := match rest with
    | '.' :: more =>
      let places := more.takeWhile Char.isDigit
      if places.isEmpty then ([], rest) else ('.' :: places, more.dropWhile Char.isDigit)
    | _ => ([], rest)
  let (exponent, rest) := match rest with
    | e :: more =>
      if e = 'e' || e = 'E' then
        let (mark, body) := match more with
          | s :: after => if s = '+' || s = '-' then ([s], after) else ([], more)
          | [] => ([], [])
        let size := body.takeWhile Char.isDigit
        if size.isEmpty then ([], rest) else (e :: (mark ++ size), body.dropWhile Char.isDigit)
      else ([], rest)
    | [] => ([], rest)
  if fraction.isEmpty && exponent.isEmpty then
    return (.int (← Numeral.readInt? (sign ++ whole)), rest)
  else
    return (.num (.float (← Numeral.readDecimal? (sign ++ whole ++ fraction ++ exponent))), rest)

def readWord (cs : List Char) : Option (Value × List Char) :=
  let words : List (String × Value) :=
    [("null", .null), ("true", .bool true), ("false", .bool false), ("NaN", .num .nan),
      ("Infinity", .num (.float (.infinity false))), ("-Infinity", .num (.float (.infinity true)))]
  words.findSome? fun w => (dropWord? w.1 cs).map fun rest => (w.2, rest)

mutual

/-- A value after optional blanks; each step takes a character. -/
def readValue : Nat → List Char → Option (Value × List Char)
  | 0, _ => none
  | fuel + 1, cs =>
    match skipBlank cs with
    | '"' :: rest => (readText (rest.length + 1) rest).map fun r => (.text (String.ofList r.1), r.2)
    | '[' :: rest =>
      match skipBlank rest with
      | ']' :: rest => some (.list [], rest)
      | rest => (readItems fuel rest).map fun r => (.list r.1, r.2)
    | '\x7b' :: rest =>
      match skipBlank rest with
      | '\x7d' :: rest => some (.map [], rest)
      | rest => (readEntries fuel rest).map fun r => (.map (Table.ofEntries r.1), r.2)
    | rest => (readWord rest).or (readNumber rest)

/-- Items up to the closing bracket. -/
def readItems : Nat → List Char → Option (List Value × List Char)
  | 0, _ => none
  | fuel + 1, cs => do
    let (v, rest) ← readValue fuel cs
    match skipBlank rest with
    | ',' :: rest =>
      let (vs, rest) ← readItems fuel rest
      return (v :: vs, rest)
    | ']' :: rest => return ([v], rest)
    | _ => none

/-- Entries up to the closing brace. -/
def readEntries : Nat → List Char → Option (List (Key × Value) × List Char)
  | 0, _ => none
  | fuel + 1, cs => do
    match skipBlank cs with
    | '"' :: rest =>
      let (name, rest) ← readText (rest.length + 1) rest
      match skipBlank rest with
      | ':' :: rest =>
        let (v, rest) ← readValue fuel rest
        let entry := (Key.name (String.ofList name), v)
        match skipBlank rest with
        | ',' :: rest =>
          let (es, rest) ← readEntries fuel rest
          return (entry :: es, rest)
        | '\x7d' :: rest => return ([entry], rest)
        | _ => none
      | _ => none
    | _ => none

end

/-- The value that a whole text writes. -/
def read? (s : String) : Option Value := do
  let cs := s.toList
  let (v, rest) ← readValue (cs.length + 1) cs
  guard (skipBlank rest).isEmpty
  return v

end FormRules.Json
