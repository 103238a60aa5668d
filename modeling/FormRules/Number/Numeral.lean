import FormRules.Number.Basic
import FormRules.Text.Class

/-!
# Numerals

Reading numbers from text. Digits of every script count, single underscores may stand between
digits, and blanks may surround the numeral. An integer numeral has at most 4300 digits.
-/

namespace FormRules.Numeral
open Text

/-- The text with digits and blanks of every script in their ASCII form; other characters beyond
ASCII never occur in a numeral. -/
def toAscii (cs : List Char) : List Char :=
  cs.map fun c =>
    if c.toNat < 128 then c
    else if isBlank c then ' '
    else match digitValue? c with
      | some d => Char.ofNat (48 + d)
      | none => '?'

/-- The blanks that may surround a numeral once it is in ASCII. -/
def isAsciiBlank (c : Char) : Bool := c == ' ' || (9 ≤ c.toNat && c.toNat ≤ 13)

/-- The ASCII form without surrounding blanks. -/
def bare (cs : List Char) : List Char :=
  (((toAscii cs).dropWhile isAsciiBlank).reverse.dropWhile isAsciiBlank).reverse

/-- Removes underscores, each of which must stand between two digits. -/
def dropSeparators (previous : Char) : List Char → Option (List Char)
  | [] => if previous = '_' then none else some []
  | c :: cs =>
    if c = '_' then (if previous.isDigit then dropSeparators c cs else none)
    else if previous = '_' && !c.isDigit then none
    else (dropSeparators c cs).map (c :: ·)

def splitSign : List Char → Bool × List Char
  | '-' :: cs => (true, cs)
  | '+' :: cs => (false, cs)
  | cs => (false, cs)

/-- The number written by decimal digits. -/
def digitsValue (cs : List Char) : Nat := cs.foldl (fun n c => 10 * n + (c.toNat - 48)) 0

def readInt? (cs : List Char) : Option Int := do
  let (negative, digits) := splitSign (← dropSeparators ' ' (bare cs))
  guard (!digits.isEmpty && digits.all Char.isDigit && digits.length ≤ 4300)
  let n : Int := digitsValue digits
  return if negative then -n else n

/-- Reads an exponent part; an absent one is zero. -/
def readExponent? : List Char → Option Int
  | [] => some 0
  | c :: cs => do
    guard (c = 'e' || c = 'E')
    let (negative, digits) := splitSign cs
    guard (!digits.isEmpty && digits.all Char.isDigit)
    let n : Int := digitsValue digits
    return if negative then -n else n

/-- Reads digits with an optional point and exponent; at least one digit stands before the
exponent. -/
def readUnsigned? (negative : Bool) (cs : List Char) : Option Binary64 := do
  let whole := cs.takeWhile Char.isDigit
  let rest := cs.dropWhile Char.isDigit
  let (places, rest) := match rest with
    | '.' :: more => (more.takeWhile Char.isDigit, more.dropWhile Char.isDigit)
    | _ => ([], rest)
  guard (!(whole.isEmpty && places.isEmpty))
  let exponent ← readExponent? rest
  return Decimal.toBinary64 negative ⟨digitsValue (whole ++ places), exponent - places.length⟩

/-- Reads a decimal numeral with optional fraction and exponent. -/
def readDecimal? (cs : List Char) : Option Binary64 := do
  let (negative, body) := splitSign (← dropSeparators ' ' (bare cs))
  readUnsigned? negative body

/-- Reads a decimal numeral or one of the words for NaN and infinity, in any letter case. -/
def readBinary64? (cs : List Char) : Option Binary64 :=
  let (negative, body) := splitSign (bare cs)
  match String.ofList (body.map Char.toLower) with
  | "nan" => some .nan
  | "inf" | "infinity" => some (.infinity negative)
  | _ => readDecimal? cs

end FormRules.Numeral

namespace FormRules

/-- The number a text stands for: an empty text is zero, a text that is no numeral is NaN. -/
def Number.ofText (s : String) : Number :=
  let cs := Text.trim s.toList
  match String.ofList cs with
  | "" => .int 0
  | "Infinity" | "+Infinity" => .float (.infinity false)
  | "-Infinity" => .float (.infinity true)
  | _ =>
    match Numeral.readInt? cs with
    | some n => .int n
    | none => .float ((Numeral.readDecimal? cs).getD .nan)

end FormRules
