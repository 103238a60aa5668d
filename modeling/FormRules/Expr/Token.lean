import FormRules.Expr.Node
import FormRules.Text.Class

/-!
# Tokens of expressions

Each token is a function from the text to what it takes off its front. A word counts as reserved or
as a keyword if the longest run of word characters is that word.
-/

namespace FormRules.Expr
open Text

/-- Takes a token off the front of a text. -/
abbrev Token (α : Type) := List Char → Option (α × List Char)

namespace Token

/-- Words that never are identifiers, though they may be property names. -/
def reservedWords : List String :=
  ["true", "false", "null", "undefined", "typeof", "function", "return", "const", "let"]

/-- The longest run of word characters. -/
def wordRun (cs : List Char) : List Char := cs.takeWhile isWord

/-- A character that may open a name. -/
def opensName (c : Char) : Bool := c.isAlpha || c == '_' || c == '$'

/-- A character that may continue a name. -/
def continuesName (c : Char) : Bool := isWord c || c == '$'

/-- A property name. -/
def propertyName : Token String
  | [] => none
  | c :: cs =>
    if opensName c then
      some (String.ofList (c :: cs.takeWhile continuesName), cs.dropWhile continuesName)
    else none

/-- An identifier: a name whose leading word run is not reserved. -/
def identifier : Token String := fun cs =>
  if reservedWords.contains (String.ofList (wordRun cs)) then none else propertyName cs

/-- A given word, not continued by word characters. -/
def word (w : String) : Token Unit := fun cs =>
  if wordRun cs = w.toList then some ((), cs.drop w.length) else none

/-- Punctuation. -/
def exactly (p : String) : Token Unit := fun cs =>
  if p.toList.isPrefixOf cs then some ((), cs.drop p.length) else none

/-- The first of several tokens that fits. -/
def firstOf {α : Type} (tokens : List (Token α)) : Token α := fun cs => tokens.findSome? (· cs)

/-- A token with a fixed meaning. -/
def meaning {α : Type} (t : Token Unit) (a : α) : Token α := fun cs => (t cs).map fun r => (a, r.2)

/-- A token that is not followed by certain texts. -/
def notBefore {α : Type} (t : Token α) (bad : List Char → Bool) : Token α := fun cs =>
  match t cs with
  | some (a, rest) => if bad rest then none else some (a, rest)
  | none => none

/-- Whether a text goes on with a digit. -/
def startsWithDigit : List Char → Bool
  | [] => false
  | c :: _ => isDecimal c

/-- Whether a text goes on with one of the characters. -/
def startsWithAny (bad : List Char) : List Char → Bool
  | [] => false
  | c :: _ => bad.contains c

/-- The end of the text. -/
def ending : Token Unit
  | [] => some ((), [])
  | _ => none

/-- An optional exponent: a mark, a sign and digits, all or nothing. -/
def exponentPart (cs : List Char) : List Char × List Char :=
  match cs with
  | e :: more =>
    if e = 'e' || e = 'E' then
      let (sign, body) := match more with
        | s :: rest => if s = '+' || s = '-' then ([s], rest) else ([], more)
        | [] => ([], [])
      let digits := body.takeWhile isDecimal
      if digits.isEmpty then ([], cs) else (e :: (sign ++ digits), body.dropWhile isDecimal)
    else ([], cs)
  | [] => ([], [])

/-- A number without sign: an integer, or a float if a point or an exponent is written. -/
def number : Token Literal := fun cs =>
  let whole := cs.takeWhile isDecimal
  let rest := cs.dropWhile isDecimal
  let (places, rest) := match rest with
    | '.' :: more =>
      let digits := more.takeWhile isDecimal
      if digits.isEmpty then ([], rest) else (digits, more.dropWhile isDecimal)
    | _ => ([], rest)
  if whole.isEmpty && places.isEmpty then none
  else
    let (exponent, rest) := exponentPart rest
    if places.isEmpty && exponent.isEmpty then
      some (.int (Numeral.digitsValue (Numeral.toAscii whole)), rest)
    else
      let written := whole ++ (if places.isEmpty then [] else '.' :: places) ++ exponent
      some (.float ((Numeral.readDecimal? written).getD .nan), rest)

/-- The value of a hexadecimal digit. -/
def hexValue? (c : Char) : Option Nat :=
  if c.isDigit then some (c.toNat - 48)
  else if 'a' ≤ c && c ≤ 'f' then some (c.toNat - 87)
  else if 'A' ≤ c && c ≤ 'F' then some (c.toNat - 55)
  else none

/-- Hexadecimal digits with single underscores between them; `after` tells whether a digit or the
base mark has just been read. -/
def hexDigits? (after : Bool) (value : Nat) : List Char → Option Nat
  | [] => if after then some value else none
  | '_' :: cs => if after then hexDigits? false value cs else none
  | c :: cs => (hexValue? c).bind fun d => hexDigits? true (16 * value + d) cs

/-- Drops a base mark, with an underscore after it. -/
def dropBaseMark : List Char → List Char
  | '0' :: x :: '_' :: d :: cs => if x = 'x' || x = 'X' then d :: cs else '0' :: x :: '_' :: d :: cs
  | '0' :: x :: d :: cs => if x = 'x' || x = 'X' then d :: cs else '0' :: x :: d :: cs
  | cs => cs

/-- The number written by the four characters of a code escape: hexadecimal digits, among which
blanks around, a sign, a base mark and underscores are tolerated. -/
def escapeCode? (cs : List Char) : Option Nat := do
  let (negative, body) := Numeral.splitSign (Numeral.bare cs)
  let n ← hexDigits? false 0 (dropBaseMark body)
  if negative && n != 0 then none else some n

/-- The character of a one-letter escape; other characters stand for themselves. -/
def escaped (c : Char) : Char :=
  match c with
  | 'n' => '\n'
  | 't' => '\t'
  | 'r' => '\r'
  | 'b' => Char.ofNat 8
  | 'f' => Char.ofNat 12
  | 'v' => Char.ofNat 11
  | '0' => Char.ofNat 0
  | c => c

/-- The character of a code, the replacement character for half of a pair. -/
def codeChar (n : Nat) : Char := if n.isValidChar then Char.ofNat n else Char.ofNat 0xFFFD

/-- The text between the quotes with its escapes resolved; every step takes a character. -/
def unescape : Nat → List Char → List Char
  | 0, _ => []
  | _ + 1, [] => []
  | fuel + 1, '\\' :: 'u' :: cs =>
    match if 4 ≤ cs.length then escapeCode? (cs.take 4) else none with
    | some n => codeChar n :: unescape fuel (cs.drop 4)
    | none => 'u' :: unescape fuel cs
  | fuel + 1, '\\' :: c :: cs => escaped c :: unescape fuel cs
  | fuel + 1, c :: cs => c :: unescape fuel cs

/-- The characters up to the closing quote, as written. A backslash takes the next character along,
which must not be a line break. -/
def quotedBody (q : Char) : List Char → Option (List Char × List Char)
  | [] => none
  | [c] => if c = q then some ([], []) else none
  | c :: d :: cs =>
    if c = q then some ([], d :: cs)
    else if c = '\\' then
      if d = '\n' then none else (quotedBody q cs).map fun r => (c :: d :: r.1, r.2)
    else (quotedBody q (d :: cs)).map fun r => (c :: r.1, r.2)

/-- A text in single or double quotes. -/
def quotedText : Token Literal
  | [] => none
  | q :: cs =>
    if q = '\'' || q = '"' then
      (quotedBody q cs).map fun r => (.text (String.ofList (unescape r.1.length r.1)), r.2)
    else none

/-- A keyword that stands for a value. -/
def keyword : Token Literal :=
  firstOf [meaning (word "true") (.bool true), meaning (word "false") (.bool false),
    meaning (word "null") .null, meaning (word "undefined") .undefined]

/-- The word that opens a declaration. -/
def declarationKind : Token DeclarationKind :=
  firstOf [meaning (word "const") .const, meaning (word "let") .let]

/-- The sign of a declaration, not part of a comparison or an arrow. -/
def declares : Token Unit := notBefore (exactly "=") (startsWithAny ['=', '>'])

/-- An optional link; before a digit the question mark belongs to a conditional. -/
def optionalLink : Token Unit := notBefore (exactly "?.") startsWithDigit

/-- The question mark of a conditional. -/
def question : Token Unit :=
  notBefore (exactly "?") fun cs =>
    match cs with
    | '?' :: _ => true
    | '.' :: more => !startsWithDigit more
    | _ => false

/-- An operator before its operand. -/
def unaryOp : Token UnaryOp :=
  firstOf [meaning (word "typeof") .typeOf,
    meaning (notBefore (exactly "!") (startsWithAny ['='])) .not,
    meaning (exactly "-") .negate, meaning (exactly "+") .plus]

/-- Multiplication, division and remainder. -/
def multiplicativeOp : Token BinaryOp :=
  firstOf [meaning (exactly "*") .mul, meaning (exactly "/") .div, meaning (exactly "%") .rem]

/-- Addition and subtraction. -/
def additiveOp : Token BinaryOp :=
  firstOf [meaning (exactly "+") .add, meaning (exactly "-") .sub]

/-- Order. -/
def relationalOp : Token BinaryOp :=
  firstOf [meaning (exactly "<=") .le, meaning (exactly ">=") .ge, meaning (exactly "<") .lt,
    meaning (exactly ">") .gt]

/-- Equality. -/
def equalityOp : Token BinaryOp :=
  firstOf [meaning (exactly "===") .strictEq, meaning (exactly "!==") .strictNe,
    meaning (exactly "==") .looseEq, meaning (exactly "!=") .looseNe]

end Token
end FormRules.Expr
