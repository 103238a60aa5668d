import FormRules.Number.Numeral
import FormRules.Pattern.Basic

/-!
# Reading patterns

The written form of patterns: `Pattern.ofText?` reads a whole text or says why it is none. Reading
is a descent over the characters with the groups seen so far; `fuel` bounds its depth and every step
takes a character.
-/

namespace FormRules

/-- Why a text is no pattern. -/
inductive PatternFault
  /-- The text does not have the form of a pattern. -/
  | malformed
  /-- A count of repetitions is out of range. -/
  | countTooLarge
  /-- A count has too many digits to be read, or flags exclude each other. -/
  | unreadable
  deriving DecidableEq

namespace Pattern
open Text

/-- Modes switched on by letters. -/
structure Flags where
  ignoreCase : Bool := false
  multiline : Bool := false
  dotAll : Bool := false
  verbose : Bool := false
  ascii : Bool := false
  unicode : Bool := false

/-- Modes after adding some and removing others; choosing an alphabet drops the other one. -/
def Flags.combine (f add del : Flags) : Flags :=
  let chosen := add.ascii || add.unicode
  { ignoreCase := (f.ignoreCase || add.ignoreCase) && !del.ignoreCase
    multiline := (f.multiline || add.multiline) && !del.multiline
    dotAll := (f.dotAll || add.dotAll) && !del.dotAll
    verbose := (f.verbose || add.verbose) && !del.verbose
    ascii := if chosen then add.ascii else f.ascii
    unicode := if chosen then add.unicode else f.unicode }

/-- How letters compare under the modes. -/
def Flags.casing (f : Flags) : Casing :=
  if f.ignoreCase then (if f.ascii then .asciiFold else .fold) else .exact

/-- The shortest and the longest match of a pattern, `none` if unbounded. -/
structure Width where
  least : Nat
  most : Option Nat
  deriving DecidableEq

/-- The width of a pattern, given those of the groups it refers to. -/
def width (groups : List (Nat × Width)) : Pattern → Width
  | .empty | .ahead _ _ | .behind _ _ _ | .edge _ => ⟨0, some 0⟩
  | .oneOf _ _ _ => ⟨1, some 1⟩
  | .seq p q =>
    let a := width groups p
    let b := width groups q
    ⟨a.least + b.least, do return (← a.most) + (← b.most)⟩
  | .alt p q => either (width groups p) (width groups q)
  | .repetition p least most _ =>
    let a := width groups p
    ⟨a.least * least,
      if a.most = some 0 then some 0 else do return (← a.most) * (← most)⟩
  | .capture _ p | .atomic p => width groups p
  | .reference g _ => (groups.lookup g).getD ⟨0, some 0⟩
  | .ifCaptured _ p q => either (width groups p) (width groups q)
where
  /-- The width of a choice. -/
  either (a b : Width) : Width :=
    ⟨min a.least b.least, do return max (← a.most) (← b.most)⟩

/-- What reading has come to. -/
structure Reading where
  rest : List Char
  /-- The number of the next group. -/
  groups : Nat := 1
  names : List (String × Nat) := []
  /-- The widths of the closed groups. -/
  widths : List (Nat × Width) := []
  /-- Inside a look-behind, the number of the first group opened there. -/
  behind : Option Nat := none
  /-- Groups that conditions ask for. -/
  asked : List Nat := []
  /-- Whether a look-behind has no fixed width. -/
  uneven : Bool := false
  flags : Flags := {}

/-- A step of reading. -/
abbrev Read := StateT Reading (Except PatternFault)

/-- Gives up. -/
def malformed {α : Type} : Read α := throw .malformed

/-- Fails unless the condition holds. -/
def need (b : Bool) : Read Unit := if b then pure () else malformed

/-- The next character. -/
def peek? : Read (Option Char) := return (← get).rest.head?

/-- Drops the next character. -/
def skip : Read Unit := modify fun r => { r with rest := r.rest.tail }

/-- Takes the next character. -/
def take : Read Char := do
  match ← peek? with
  | some c => skip; return c
  | none => malformed

/-- Takes the character if it is next. -/
def accept (c : Char) : Read Bool := do
  if (← peek?) == some c then skip; return true else return false

/-- Takes up to `count` characters of a kind. -/
def takeSome (kind : Char → Bool) : Nat → Read (List Char)
  | 0 => return []
  | count + 1 => do
    match ← peek? with
    | some c =>
      if kind c then
        skip
        return c :: (← takeSome kind count)
      else return []
    | none => return []

/-- Takes all next characters of a kind. -/
def takeAll (kind : Char → Bool) : Read (List Char) := do
  takeSome kind (← get).rest.length

/-- Takes the characters before the given one, and that. At least one stands before it. -/
def takeUntil (stop : Char) : Read String := do
  let name := (← get).rest.takeWhile (· ≠ stop)
  let after := (← get).rest.dropWhile (· ≠ stop)
  need (!name.isEmpty && !after.isEmpty)
  modify fun r => { r with rest := after.tail }
  return String.ofList name

/-- Takes a character, an escaped one together with its backslash. -/
def takeUnit : Read (Char × Option Char) := do
  let c ← take
  if c = '\\' then return (c, some (← take)) else return (c, none)

/-- Whether a text can name a group. -/
def isName (s : String) : Bool :=
  match s.toList with
  | [] => false
  | c :: cs => isWord c && !isDecimal c && cs.all isWord

def isHex (c : Char) : Bool := c.isDigit || ('a' ≤ c && c ≤ 'f') || ('A' ≤ c && c ≤ 'F')

def isOctal (c : Char) : Bool := '0' ≤ c && c ≤ '7'

def hexValue (c : Char) : Nat :=
  if c.isDigit then c.toNat - 48 else if 'a' ≤ c then c.toNat - 87 else c.toNat - 55

/-- The number written by digits in a base. -/
def valueIn (base : Nat) (cs : List Char) : Nat := cs.foldl (fun n c => base * n + hexValue c) 0

def controlCode? : Char → Option Nat
  | 'a' => some 7
  | 'f' => some 12
  | 'n' => some 10
  | 'r' => some 13
  | 't' => some 9
  | 'v' => some 11
  | _ => none

/-- The class of a class escape, and whether it is negated. -/
def classEscape? : Char → Option (Class × Bool)
  | 'd' => some (.digit, false)
  | 'D' => some (.digit, true)
  | 's' => some (.blank, false)
  | 'S' => some (.blank, true)
  | 'w' => some (.word, false)
  | 'W' => some (.word, true)
  | _ => none

/-- Exactly `count` hexadecimal digits. -/
def hexCode (count : Nat) : Read Nat := do
  let digits ← takeSome isHex count
  need (digits.length = count)
  return valueIn 16 digits

/-- The code of an escape that is the same inside and outside of sets, if it is one. -/
def codeEscape? (c : Char) : Read (Option Nat) := do
  match c with
  | 'x' => return some (← hexCode 2)
  | 'u' => return some (← hexCode 4)
  | 'U' =>
    let n ← hexCode 8
    need (n < 0x110000)
    return some n
  | _ =>
    if let some n := controlCode? c then return some n
    else if c.isAlpha || c.isDigit then return none
    else return some c.toNat

/-- A member of a set after a backslash. -/
def setEscape (flags : Flags) (c : Char) : Read SetItem := do
  if c = 'b' then return .range 8 8
  else if let some (cls, negated) := classEscape? c then return .class cls flags.ascii negated
  else if isOctal c then
    let n := valueIn 8 (c :: (← takeSome isOctal 2))
    need (n ≤ 0xFF)
    return .range n n
  else
    match ← codeEscape? c with
    | some n => return .range n n
    | none => malformed

/-- The code of a member that may bound a range. -/
def SetItem.single? : SetItem → Option Nat
  | .range first last => if first = last then some first else none
  | .class _ _ _ => none

/-- One member of a set, given its first unit. -/
def setMember (flags : Flags) (u : Char × Option Char) : Read SetItem :=
  match u with
  | (_, some escaped) => setEscape flags escaped
  | (c, none) => return .range c.toNat c.toNat

/-- The members of a set up to the closing bracket, latest first. -/
def setMembers (flags : Flags) : Nat → List SetItem → Read (List SetItem)
  | 0, _ => malformed
  | fuel + 1, items => do
    let u ← takeUnit
    if u = (']', none) && !items.isEmpty then return items
    let low ← setMember flags u
    if ← accept '-' then
      let v ← takeUnit
      if v = (']', none) then return .range 45 45 :: low :: items
      let high ← setMember flags v
      match low.single?, high.single? with
      | some a, some b =>
        need (a ≤ b)
        setMembers flags fuel (.range a b :: items)
      | _, _ => malformed
    else setMembers flags fuel (low :: items)

/-- A back reference: the group has to be closed, and inside a look-behind to lie before it. -/
def referTo (flags : Flags) (group : Nat) : Read Pattern := do
  let r ← get
  need ((r.widths.lookup group).isSome && r.behind.all (group < ·))
  return .reference group flags.casing

/-- A pattern after a backslash. -/
def escape (flags : Flags) (c : Char) : Read Pattern := do
  match c with
  | 'A' => return .edge .textStart
  | 'Z' => return .edge .textEnd
  | 'b' => return .edge (.wordBoundary flags.ascii)
  | 'B' => return .edge (.noWordBoundary flags.ascii)
  | '0' => return code flags.casing (valueIn 8 (← takeSome isOctal 2))
  | _ =>
    if let some (cls, negated) := classEscape? c then
      return .oneOf flags.casing false [.class cls flags.ascii negated]
    else if c.isDigit then
      match ← peek? with
      | some d =>
        if d.isDigit then
          skip
          if isOctal c && isOctal d && (← peek?).any isOctal then
            let n := valueIn 8 [c, d, ← take]
            need (n ≤ 0xFF)
            return code flags.casing n
          else referTo flags (valueIn 10 [c, d])
        else referTo flags (valueIn 10 [c])
      | none => referTo flags (valueIn 10 [c])
    else
      match ← codeEscape? c with
      | some n => return code flags.casing n
      | none => malformed

/-- The mode of a letter, if there is one. -/
def flagOf? : Char → Option Flags
  | 'i' => some { ignoreCase := true }
  | 'm' => some { multiline := true }
  | 's' => some { dotAll := true }
  | 'x' => some { verbose := true }
  | 'a' => some { ascii := true }
  | 'u' => some { unicode := true }
  | _ => none

/-- Both sets of modes. -/
def Flags.union (f g : Flags) : Flags :=
  { ignoreCase := f.ignoreCase || g.ignoreCase, multiline := f.multiline || g.multiline
    dotAll := f.dotAll || g.dotAll, verbose := f.verbose || g.verbose
    ascii := f.ascii || g.ascii, unicode := f.unicode || g.unicode }

/-- Whether some mode is in both. -/
def Flags.meets (f g : Flags) : Bool :=
  f.ignoreCase && g.ignoreCase || f.multiline && g.multiline || f.dotAll && g.dotAll
    || f.verbose && g.verbose || f.ascii && g.ascii || f.unicode && g.unicode

/-- Mode letters up to one of the stops. -/
def flagLetters (stops : List Char) : Nat → Char → Flags → Read (Flags × Char)
  | 0, _, _ => malformed
  | fuel + 1, c, acc =>
    match flagOf? c with
    | none => malformed
    | some f => do
      let acc := acc.union f
      need (!(acc.ascii && acc.unicode))
      let d ← take
      if stops.contains d then return (acc, d) else flagLetters stops fuel d acc

/-- What stands after `(?` and a mode letter or minus sign: modes for the whole pattern (`none`), or
modes to add and to remove inside the group. -/
def flagGroup (c : Char) : Read (Option (Flags × Flags)) := do
  let fuel := (← get).rest.length + 1
  let (add, stop) ← if c = '-' then pure ({}, c) else flagLetters [')', '-', ':'] fuel c {}
  if stop = ')' then
    modify fun r => { r with flags := r.flags.union add }
    return none
  else if stop = '-' then
    let (del, _) ← flagLetters [':'] fuel (← take) {}
    need (!(del.ascii || del.unicode) && !add.meets del)
    return some (add, del)
  else return some (add, {})

/-- A count in braces, or `none` where the brace is an ordinary character. -/
def braces : Read (Option (Nat × Option Nat)) := do
  let start := (← get).rest
  if (← peek?) == some '}' then return none
  let low ← takeAll Char.isDigit
  let comma ← accept ','
  let high ← if comma then takeAll Char.isDigit else pure low
  if !(← accept '}') then
    modify fun r => { r with rest := start }
    return none
  let bound (digits : List Char) : Read (Option Nat) :=
    if digits.isEmpty then return none
    else if digits.length > 4300 then throw .unreadable
    else if valueIn 10 digits ≥ 4294967295 then throw .countTooLarge
    else return some (valueIn 10 digits)
  let least ← bound low
  let most ← bound high
  need (most.all (least.getD 0 ≤ ·))
  return some (least.getD 0, most)

/-- What may be repeated: edges and repetitions may not. -/
inductive Piece
  | edge
  | repeated
  | plain
  deriving DecidableEq

/-- The pieces of a branch read so far, latest first. -/
abbrev Pieces := List (Piece × Pattern)

/-- The pieces one after another. -/
def joined (pieces : Pieces) : Pattern :=
  match pieces with
  | [] => .empty
  | (_, p) :: more => more.foldl (fun q e => .seq e.2 q) p

/-- The greed that a repetition asks for. -/
def readGreed : Read Greed := do
  if ← accept '?' then return .lazy
  if ← accept '+' then return .possessive
  return .greedy

/-- Repeats the latest piece. -/
def repeatLatest (pieces : Pieces) (least : Nat) (most : Option Nat) : Read Pieces := do
  match pieces with
  | (.plain, p) :: more =>
    return (.repeated, .repetition p least most (← readGreed)) :: more
  | _ => malformed

def skipComment (stop : Char) (mustEnd : Bool) : Nat → Read Unit
  | 0 => malformed
  | fuel + 1 => do
    if (← peek?).isNone then need (!mustEnd)
    else if (← takeUnit) = (stop, none) then return ()
    else skipComment stop mustEnd fuel

def openGroup (name : Option String) : Read Nat := do
  let r ← get
  if let some n := name then
    need (isName n && (r.names.lookup n).isNone)
    set { r with groups := r.groups + 1, names := (n, r.groups) :: r.names }
  else set { r with groups := r.groups + 1 }
  return r.groups

/-- The group that a condition asks for, by name or number. -/
def conditionGroup : Read Nat := do
  let name ← takeUntil ')'
  let r ← get
  let group ←
    if isName name then
      match r.names.lookup name with
      | some g => pure g
      | none => malformed
    else
      match Numeral.readInt? name.toList with
      | some (.ofNat (g + 1)) =>
        need (g + 1 < 1073741823)
        set { r with asked := (g + 1) :: r.asked }
        pure (g + 1)
      | _ => malformed
  if r.behind.isSome then
    need ((r.widths.lookup group).isSome && r.behind.all (group < ·))
  return group

mutual

/-- Branches separated by bars. -/
def readBranches (top : Bool) : Nat → Flags → Read Pattern
  | 0, _ => malformed
  | fuel + 1, flags => do
    let p ← readPieces top fuel flags []
    if ← accept '|' then return .alt p (← moreBranches top fuel flags)
    else return p

/-- Branches after the first. -/
def moreBranches (top : Bool) : Nat → Flags → Read Pattern
  | 0, _ => malformed
  | fuel + 1, flags => do
    let flags ← if top then pure (← get).flags else pure flags
    let p ← readPieces false fuel flags []
    if ← accept '|' then return .alt p (← moreBranches top fuel flags)
    else return p

/-- The pieces of a branch; `opening` allows modes for the whole pattern before the first piece. -/
def readPieces (opening : Bool) : Nat → Flags → Pieces → Read Pattern
  | 0, _, _ => malformed
  | fuel + 1, flags, pieces => do
    match ← peek? with
    | none => return joined pieces
    | some '|' | some ')' => return joined pieces
    | some c =>
      skip
      if flags.verbose && Class.blank.holdsAscii c.toNat then readPieces opening fuel flags pieces
      else if flags.verbose && c = '#' then
        skipComment '\n' false ((← get).rest.length + 1)
        readPieces opening fuel flags pieces
      else
        match c with
        | '\\' =>
          let p ← escape flags (← take)
          let piece : Piece := match p with
            | .edge _ => .edge
            | _ => .plain
          readPieces opening fuel flags ((piece, p) :: pieces)
        | '[' =>
          let negated ← accept '^'
          let items ← setMembers flags ((← get).rest.length + 1) []
          readPieces opening fuel flags ((.plain, .oneOf flags.casing negated items.reverse) :: pieces)
        | '*' => readPieces opening fuel flags (← repeatLatest pieces 0 none)
        | '+' => readPieces opening fuel flags (← repeatLatest pieces 1 none)
        | '?' => readPieces opening fuel flags (← repeatLatest pieces 0 (some 1))
        | '{' =>
          match ← braces with
          | some (least, most) =>
            readPieces opening fuel flags (← repeatLatest pieces least most)
          | none => readPieces opening fuel flags ((.plain, code flags.casing c.toNat) :: pieces)
        | '.' =>
          let items : List SetItem := if flags.dotAll then [] else [.range 10 10]
          readPieces opening fuel flags ((.plain, .oneOf .exact true items) :: pieces)
        | '^' =>
          let e : Edge := if flags.multiline then .lineStart else .textStart
          readPieces opening fuel flags ((.edge, .edge e) :: pieces)
        | '$' =>
          let e : Edge := if flags.multiline then .lineEnd else .lastLineEnd
          readPieces opening fuel flags ((.edge, .edge e) :: pieces)
        | '(' =>
          if ← accept '?' then
            match ← take with
            | 'P' =>
              if ← accept '<' then
                let p ← readCapture fuel flags (some (← takeUntil '>'))
                readPieces opening fuel flags ((.plain, p) :: pieces)
              else if ← accept '=' then
                match (← get).names.lookup (← takeUntil ')') with
                | some g => readPieces opening fuel flags ((.plain, ← referTo flags g) :: pieces)
                | none => malformed
              else malformed
            | ':' =>
              let p ← readGroup fuel flags
              readPieces opening fuel flags ((.plain, p) :: pieces)
            | '>' =>
              let p ← readGroup fuel flags
              readPieces opening fuel flags ((.plain, .atomic p) :: pieces)
            | '#' =>
              skipComment ')' true ((← get).rest.length + 1)
              readPieces opening fuel flags pieces
            | '=' =>
              let p ← readGroup fuel flags
              readPieces opening fuel flags ((.plain, .ahead false p) :: pieces)
            | '!' =>
              let p ← readGroup fuel flags
              readPieces opening fuel flags ((.plain, .ahead true p) :: pieces)
            | '<' =>
              let kind ← take
              need (kind = '=' || kind = '!')
              let outer := (← get).behind
              modify fun r => { r with behind := some (outer.getD r.groups) }
              let p ← readGroup fuel flags
              modify fun r => { r with behind := outer }
              let w := width (← get).widths p
              if some w.least ≠ w.most then modify fun r => { r with uneven := true }
              readPieces opening fuel flags ((.plain, .behind (kind = '!') w.least p) :: pieces)
            | '(' =>
              let group ← conditionGroup
              let yes ← readPieces false fuel flags []
              let no ← if ← accept '|' then readPieces false fuel flags [] else pure .empty
              need (← accept ')')
              readPieces opening fuel flags ((.plain, .ifCaptured group yes no) :: pieces)
            | c =>
              need (c = '-' || (flagOf? c).isSome)
              match ← flagGroup c with
              | none =>
                need (opening && pieces.isEmpty)
                readPieces opening fuel (← get).flags pieces
              | some (add, del) =>
                let p ← readGroup fuel (flags.combine add del)
                readPieces opening fuel flags ((.plain, p) :: pieces)
          else
            let p ← readCapture fuel flags none
            readPieces opening fuel flags ((.plain, p) :: pieces)
        | c => readPieces opening fuel flags ((.plain, code flags.casing c.toNat) :: pieces)

/-- Branches up to the closing parenthesis. -/
def readGroup : Nat → Flags → Read Pattern
  | 0, _ => malformed
  | fuel + 1, flags => do
    let p ← readBranches false fuel flags
    need (← accept ')')
    return p

def readCapture : Nat → Flags → Option String → Read Pattern
  | 0, _, _ => malformed
  | fuel + 1, flags, name => do
    let group ← openGroup name
    let p ← readGroup fuel flags
    modify fun r => { r with widths := (group, width r.widths p) :: r.widths }
    return .capture group p

end

def readWhole (fuel : Nat) : Read Pattern := do
  let p ← readBranches true fuel {}
  let r ← get
  if r.flags.ascii && r.flags.unicode then throw .unreadable
  need (r.rest.isEmpty && r.asked.all (· < r.groups) && !r.uneven)
  return p

def ofText? (s : String) : Except PatternFault Pattern :=
  (readWhole (4 * s.length + 8) { rest := s.toList }).map (·.1)

end Pattern
end FormRules
