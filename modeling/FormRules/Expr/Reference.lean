import FormRules.Expr.Token
import FormRules.Store.Order

/-!
# References to form fields

Reading off the text of an expression, without parsing it, which fields of the form it mentions:
`formValue.a.b`, `formValue?.a`, `formValue['a']`. Computed access is not seen.
-/

namespace FormRules.Expr.Reference
open Text

/-- Finds what `m` takes at the start of words, from left to right and without overlaps; with the
place where it starts. `skip` characters still belong to the last find. -/
def scan {α : Type} (m : List Char → Option (α × List Char)) :
    (skip place : Nat) → (inWord : Bool) → List Char → List (Nat × α)
  | _, _, _, [] => []
  | skip + 1, place, _, c :: cs => scan m skip (place + 1) (isWord c) cs
  | 0, place, inWord, c :: cs =>
    match if inWord then none else m (c :: cs) with
    | some (a, rest) => (place, a) :: scan m (cs.length - rest.length) (place + 1) (isWord c) cs
    | none => scan m 0 (place + 1) (isWord c) cs

/-- What follows a word and blanks. -/
def afterWord (w : String) (cs : List Char) : Option (List Char) :=
  if w.toList.isPrefixOf cs then some (trimLeft (cs.drop w.length)) else none

/-- A point, plain or optional, and what follows it. -/
def afterPoint : List Char → Option (List Char)
  | '.' :: cs => some cs
  | '?' :: '.' :: cs => some cs
  | _ => none

/-- A word followed by a point or a bracket. -/
def access (w : String) (cs : List Char) : Option (Unit × List Char) := do
  let rest ← afterWord w cs
  match rest with
  | '[' :: more => some ((), more)
  | _ => (afterPoint rest).map fun more => ((), more)

/-- Names joined by points, at most `fuel` of them. -/
def pointedNames : Nat → List Char → List String × List Char
  | 0, cs => ([], cs)
  | fuel + 1, cs =>
    match (afterPoint (trimLeft cs)).bind fun rest => Token.propertyName (trimLeft rest) with
    | some (name, rest) =>
      let (names, rest) := pointedNames fuel rest
      (name :: names, rest)
    | none => ([], cs)

/-- `formValue` followed by pointed names: their path. -/
def dotted (cs : List Char) : Option (String × List Char) := do
  let rest ← afterWord "formValue" cs
  match pointedNames rest.length rest with
  | ([], _) => none
  | (names, rest) => some (".".intercalate names, rest)

/-- A character of a quoted path. -/
def isPathChar (c : Char) : Bool := isWord c || c == '.' || c == '$' || c == '-'

/-- `formValue` followed by a path in quotes and brackets. -/
def bracketed (q : Char) (cs : List Char) : Option (String × List Char) := do
  let rest ← afterWord "formValue" cs
  let rest := match rest with
    | '?' :: '.' :: more => more
    | _ => rest
  match rest with
  | '[' :: more =>
    match trimLeft more with
    | c :: body =>
      let path := body.takeWhile isPathChar
      match body.dropWhile isPathChar with
      | d :: after =>
        if c = q && d = q && !path.isEmpty then
          match trimLeft after with
          | ']' :: rest => some (String.ofList path, rest)
          | _ => none
        else none
      | [] => none
    | [] => none
  | _ => none

/-- Whether the text reads something of the named value. -/
def readsFrom (w source : String) : Bool := !(scan (access w) 0 0 false source.toList).isEmpty

/-- Whether the text reads a field of the form, or of the whole form from inside an array item. -/
def isCrossField (source : String) : Bool :=
  readsFrom "formValue" source || readsFrom "rootFormValue" source

/-- The part of a path before the first point. -/
def root (path : String) : String := String.ofList (path.toList.takeWhile (· != '.'))

/-- Adds a path that is neither empty nor there already. -/
def addPath (found : List String) (path : String) : List String :=
  if path = "" || found.contains path then found else found ++ [path]

/-- Adds the root of a path and, if it is longer, the path. -/
def addWithRoot (found : List String) (path : String) : List String :=
  let found := addPath found (root path)
  if path.toList.contains '.' then addPath found path else found

/-- The paths that the text reads through `formValue`, roots included, in order of appearance. -/
def paths (source : String) : List String :=
  let cs := trim source.toList
  let finds := scan dotted 0 0 false cs ++ scan (bracketed '\'') 0 0 false cs
    ++ scan (bracketed '"') 0 0 false cs
  let ordered := Order.sort (fun a b => a.1 ≤ b.1) finds
  ordered.foldl (fun found e => addWithRoot found e.2) []

/-- The root fields that the text reads. -/
def roots (source : String) : List String := ((paths source).map root).eraseDups

end FormRules.Expr.Reference
