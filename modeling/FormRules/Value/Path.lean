import FormRules.Value.Basic

/-!
# Paths

A path names a place inside a value: `address.city`, `items[0].name`, `data['with-dash']`. Segments
made of digits are indices; a mapping without the integer key is asked for its decimal text. Keys that
are neither names nor indices lead into mappings only.
-/

namespace FormRules

/-- Why a path cannot be read or written. -/
inductive PathFault
  /-- A segment shows digits but is no numeral, or a list is asked for a name. -/
  | notANumeral
  /-- A list is written under the text of an index. -/
  | textIndex
  /-- A negative index reaches before the first item. -/
  | outOfRange
  deriving DecidableEq

namespace Path
open Text

/-- What the text of a path continues with. -/
inductive Segment
  | index (digits : List Char)
  | quoted (name : List Char)
  | plain (name : List Char)

/-- Closes a bracket after optional blanks. -/
def closeBracket (cs : List Char) : Option (List Char) :=
  match trimLeft cs with
  | ']' :: rest => some rest
  | _ => none

/-- Reads `-?digits ]`. -/
def readIndex (cs : List Char) : Option (Segment × List Char) :=
  let (sign, body) := match cs with
    | '-' :: more => (['-'], more)
    | _ => ([], cs)
  let digits := body.takeWhile isDecimal
  if digits.isEmpty then none
  else (closeBracket (body.dropWhile isDecimal)).map fun rest => (.index (sign ++ digits), rest)

/-- Reads a name up to the quote, then `]`. -/
def readQuoted (q : Char) (cs : List Char) : Option (Segment × List Char) :=
  match cs.dropWhile (· ≠ q) with
  | [] => none
  | _ :: rest => (closeBracket rest).map fun rest => (.quoted (cs.takeWhile (· ≠ q)), rest)

/-- A character of a plain segment. -/
def isPlain (c : Char) : Bool := c != '.' && c != '[' && c != ']'

/-- Reads a plain segment of at least one character. -/
def readPlain (cs : List Char) : Option (Segment × List Char) :=
  let name := cs.takeWhile isPlain
  if name.isEmpty then none else some (.plain name, cs.dropWhile isPlain)

/-- Reads the next segment. -/
def readSegment : List Char → Option (Segment × List Char)
  | '[' :: cs =>
    let body := trimLeft cs
    match body with
    | '\'' :: rest => readQuoted '\'' rest
    | '"' :: rest => readQuoted '"' rest
    | _ => readIndex body
  | '.' :: cs => readPlain cs
  | cs => readPlain cs

/-- The key of a segment; a plain segment of figures has to be a numeral. -/
def Segment.key : Segment → Except PathFault Key
  | .index digits =>
    match Numeral.readInt? digits with
    | some n => .ok (.index n)
    | none => .error .notANumeral
  | .quoted name => .ok (.name (String.ofList name))
  | .plain name =>
    if name.all isFigure then
      match Numeral.readInt? name with
      | some n => .ok (.index n)
      | none => .error .notANumeral
    else .ok (.name (String.ofList name))

/-- Reads the keys of a path; a remainder that is no segment is one literal name. Each segment
consumes a character, so `fuel` may be the length of the text. -/
def parseFrom : Nat → List Char → Except PathFault (List Key)
  | 0, _ => .ok []
  | _ + 1, [] => .ok []
  | fuel + 1, cs =>
    match readSegment cs with
    | none => .ok [.name (String.ofList cs)]
    | some (segment, rest) => do
      let key ← segment.key
      return key :: (← parseFrom fuel rest)

def parse (path : String) : Except PathFault (List Key) := parseFrom path.length path.toList

def append (out : String) : Key → String
  | .index n => out ++ "[" ++ intText n ++ "]"
  | k => if out = "" then k.text else out ++ "." ++ k.text

def format (keys : List Key) : String := keys.foldl append ""

/-- The keys behind the last index of a path, if it has one. -/
def afterLastIndex? : List Key → Option (List Key)
  | [] => none
  | k :: ks =>
    match afterLastIndex? ks with
    | some rest => some rest
    | none => if k.isIndex then some ks else none

/-- Whether a path designates the target itself: the same keys, or, inside an array item, the keys
of the target from the item on. -/
def designates (path target : List Key) : Bool :=
  !path.isEmpty && (path = target || afterLastIndex? target = some path)

end Path

namespace Value

def item? (items : List Value) (n : Int) : Option Value := if n < 0 then none else items[n.toNat]?

def step? : Value → Key → Option Value
  | .map es, k =>
    match Table.get? es k with
    | some v => some v
    | none => if k.isIndex then Table.get? es (.name k.text) else none
  | .seq _ items, .index n => item? items n
  | .seq _ items, .name s => (Numeral.readInt? s.toList).bind (item? items)
  | _, _ => none

/-- What lies under a sequence of keys. -/
def walk? : Value → List Key → Option Value
  | v, [] => some v
  | v, k :: ks => (v.step? k).bind (walk? · ks)

/-- The value at a path, `undefined` if there is none; the empty path names nothing. -/
def getPath (v : Value) (keys : List Key) : Value :=
  if keys.isEmpty then .undefined else (v.walk? keys).getD .undefined

/-- Whether the path exists; the empty path does not. -/
def hasPath (v : Value) (keys : List Key) : Bool := !keys.isEmpty && (v.walk? keys).isSome

/-- A list extended by `null` up to a position; a negative position needs no more items. -/
def padTo (items : List Value) (n : Int) : List Value :=
  items ++ List.replicate ((n + 1).toNat - items.length) .null

/-- The container that a missing or primitive child is replaced by, given the key it is asked for. -/
def freshContainer : Key → Value
  | .index _ => .list []
  | _ => .map []

/-- The child to write into: itself if it is a list or a mapping, else a fresh container. -/
def childFor (child : Value) (next : Key) : Value :=
  match child with
  | .map _ | .seq .list _ => child
  | _ => freshContainer next

/-- Replaces the item at a position, counted from the end if negative. -/
def replaceItem (items : List Value) (n : Int) (v : Value) : Except PathFault (List Value) :=
  let i := if n < 0 then n + items.length else n
  if i < 0 ∨ items.length ≤ i then .error .outOfRange else .ok (items.set i.toNat v)

/-- The value with `new` written at the path. Lists are padded with `null`, missing containers are
created, primitives on the way are replaced. -/
def setPath : Value → List Key → Value → Except PathFault Value
  | _, [], new => .ok new
  | obj, head :: rest, new =>
    let write (child : Value) : Except PathFault Value :=
      match rest with
      | [] => .ok new
      | next :: _ => setPath (childFor child next) rest new
    match obj with
    | .seq .list items =>
      let position : Option Int := match head with
        | .index n => some n
        | .name s => Numeral.readInt? s.toList
        | _ => none
      match position with
      | none => .error .notANumeral
      | some n => do
        let items := padTo items n
        let i := if n < 0 then n + items.length else n
        match item? items i with
        | none => .error .outOfRange
        | some child =>
          let written ← write child
          -- the text of an index finds the item, but no list is written under a text
          if head.isIndex then return .list (← replaceItem items n written)
          else .error .textIndex
    | .map es => do
      let child := (Table.get? es head).getD .undefined
      if child.isUndefined && head.isIndex && Table.has es (.name head.text) then
        let key := Key.name head.text
        return .map (Table.put es key (← write ((Table.get? es key).getD .undefined)))
      else return .map (Table.put es head (← write child))
    | _ =>
      match head with
      | .index n => do
        let written ← write .null
        return .list (← replaceItem (List.replicate (n + 1).toNat .null) n written)
      | _ => return .map [(head, ← write .undefined)]

end Value
end FormRules
