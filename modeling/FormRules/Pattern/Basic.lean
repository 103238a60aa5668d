import FormRules.Text.Class
import FormRules.Text.Casing

/-!
# Patterns

Regular expressions with captures, back references, look-around, lazy and possessive repetition.
`Pattern.matchAt` finds the first match in priority order by backtracking: a pattern is run against a
continuation that decides whether the rest of the text can follow.
-/

namespace FormRules
open Text

namespace Pattern

/-- How letters of a pattern compare with letters of the text. -/
inductive Casing
  | exact
  | asciiFold
  | fold
  deriving DecidableEq

/-- The named classes of characters. -/
inductive Class
  | digit
  | blank
  | word
  deriving DecidableEq

/-- A member of a character set. -/
inductive SetItem
  | range (first last : Nat)
  | class (c : Class) (ascii negated : Bool)
  deriving DecidableEq

/-- Places between characters. -/
inductive Edge
  /-- The start of the text. -/
  | textStart
  /-- The end of the text. -/
  | textEnd
  /-- The end of the text, or before a line break that ends it. -/
  | lastLineEnd
  /-- The start of any line. -/
  | lineStart
  /-- The end of any line. -/
  | lineEnd
  /-- Between a word character and another or none. -/
  | wordBoundary (ascii : Bool)
  /-- Anywhere else. -/
  | noWordBoundary (ascii : Bool)
  deriving DecidableEq

/-- The preference among counts of a repetition. -/
inductive Greed
  | greedy
  | lazy
  | possessive
  deriving DecidableEq

end Pattern

/-- A regular expression. -/
inductive Pattern
  | empty
  | oneOf (casing : Pattern.Casing) (negated : Bool) (items : List Pattern.SetItem)
  | seq (first second : Pattern)
  | alt (first second : Pattern)
  | repetition (body : Pattern) (least : Nat) (most : Option Nat) (greed : Pattern.Greed)
  | capture (group : Nat) (body : Pattern)
  | reference (group : Nat) (casing : Pattern.Casing)
  | ahead (negated : Bool) (body : Pattern)
  | behind (negated : Bool) (width : Nat) (body : Pattern)
  | atomic (body : Pattern)
  | edge (e : Pattern.Edge)
  | ifCaptured (group : Nat) (yes no : Pattern)

namespace Pattern

/-- A character set of one code point. -/
def code (casing : Casing) (n : Nat) : Pattern := .oneOf casing false [.range n n]

def Class.holdsAscii : Class → Nat → Bool
  | .digit, n => 48 ≤ n && n ≤ 57
  | .blank, n => n == 32 || (9 ≤ n && n ≤ 13)
  | .word, n => (48 ≤ n && n ≤ 57) || (65 ≤ n && n ≤ 90) || (97 ≤ n && n ≤ 122) || n == 95

/-- Whether a code point is of the class. -/
def Class.holds (ascii : Bool) (c : Class) (n : Nat) : Bool :=
  if ascii then c.holdsAscii n
  else match c with
    | .digit => isDecimal (Char.ofNat n)
    | .blank => isBlank (Char.ofNat n)
    | .word => isWord (Char.ofNat n)

/-- The lower case form used to compare letters. -/
def Casing.lower : Casing → Nat → Nat
  | .exact, n => n
  | .asciiFold, n => asciiLowerCode n
  | .fold, n => lowerCode n

/-- The code points that compare equal to one of the text. -/
def Casing.variants : Casing → Nat → List Nat
  | .exact, n => [n]
  | .asciiFold, n => asciiCaseVariants n
  | .fold, n => caseVariants n

/-- Whether a member of a set admits a character. -/
def SetItem.admits (casing : Casing) (n : Nat) : SetItem → Bool
  | .range first last => (casing.variants n).any fun v => first ≤ v && v ≤ last
  | .class c ascii negated => c.holds ascii (casing.lower n) != negated

/-- A place in the text with the captures so far. -/
structure State where
  /-- What precedes, nearest first. -/
  before : List Char
  rest : List Char
  /-- Captured texts, latest first. -/
  captures : List (Nat × List Char)

/-- The latest capture of a group. -/
def State.capture? (s : State) (group : Nat) : Option (List Char) := s.captures.lookup group

/-- Whether the edge lies here. -/
def Edge.holds (s : State) : Edge → Bool
  | .textStart => s.before.isEmpty
  | .textEnd => s.rest.isEmpty
  | .lastLineEnd => s.rest.isEmpty || s.rest == ['\n']
  | .lineStart => s.before.isEmpty || s.before.head? == some '\n'
  | .lineEnd => s.rest.isEmpty || s.rest.head? == some '\n'
  | .wordBoundary ascii => inWord ascii s.before != inWord ascii s.rest
  | .noWordBoundary ascii =>
    !(s.before.isEmpty && s.rest.isEmpty) && inWord ascii s.before == inWord ascii s.rest
where
  /-- Whether the next character in this direction is a word character. -/
  inWord (ascii : Bool) : List Char → Bool
    | [] => false
    | c :: _ => Class.word.holds ascii c.toNat

/-- Steps over a text that equals the given one up to case. -/
def State.step? (casing : Casing) : List Char → State → Option State
  | [], s => some s
  | c :: cs, s =>
    match s.rest with
    | [] => none
    | d :: rest =>
      if casing.lower c.toNat = casing.lower d.toNat then
        step? casing cs ⟨d :: s.before, rest, s.captures⟩
      else none

/-- Moves back by a number of characters. -/
def State.back? : Nat → State → Option State
  | 0, s => some s
  | n + 1, s =>
    match s.before with
    | [] => none
    | c :: before => back? n ⟨before, c :: s.rest, s.captures⟩

/-- What must follow, with the state in which the whole match ends. -/
abbrev Next := State → Option State

/-- Repeats a body greedily or lazily. The first `least` rounds are obligatory; a further one starts
only where the round before it did not start (`last` is the number of characters left there), so
`fuel` need only exceed the obligatory rounds and the characters left. -/
def rounds (body : State → Next → Option State) (lazy : Bool) (least : Nat) (most : Option Nat) :
    Nat → Nat → Option Nat → State → Next → Option State
  | 0, _, _, _, _ => none
  | fuel + 1, done, last, s, next =>
    if done < least then body s fun t => rounds body lazy least most fuel (done + 1) last t next
    else
      let again : Unit → Option State := fun _ =>
        if most.all (done < ·) && last != some s.rest.length then
          body s fun t => rounds body lazy least most fuel (done + 1) (some s.rest.length) t next
        else none
      if lazy then (next s).or (again ()) else (again ()).or (next s)

/-- Repeats a body as often as it matches, never giving back a round. -/
def wholeRounds (body : State → Next → Option State) (least : Nat) (most : Option Nat) :
    Nat → Nat → State → Option State
  | 0, _, s => some s
  | fuel + 1, done, s =>
    if most.all (done < ·) then
      match body s some with
      | none => if done < least then none else some s
      | some t =>
        if least ≤ done && t.rest.length == s.rest.length then some t
        else wholeRounds body least most fuel (done + 1) t
    else some s

/-- Runs a pattern from a state; `next` has to accept where it ends. -/
def run : Pattern → State → Next → Option State
  | .empty, s, next => next s
  | .oneOf casing negated items, s, next =>
    match s.rest with
    | [] => none
    | c :: rest =>
      if (items.any fun i => i.admits casing c.toNat) != negated then
        next ⟨c :: s.before, rest, s.captures⟩
      else none
  | .seq p q, s, next => run p s fun t => run q t next
  | .alt p q, s, next => (run p s next).or (run q s next)
  | .repetition p least most .greedy, s, next =>
    rounds (run p) false least most (least + s.rest.length + 2) 0 none s next
  | .repetition p least most .lazy, s, next =>
    rounds (run p) true least most (least + s.rest.length + 2) 0 none s next
  | .repetition p least most .possessive, s, next =>
    (wholeRounds (run p) least most (least + s.rest.length + 2) 0 s).bind next
  | .capture group p, s, next =>
    run p s fun t =>
      let taken := (t.before.take (t.before.length - s.before.length)).reverse
      next ⟨t.before, t.rest, (group, taken) :: t.captures⟩
  | .reference group casing, s, next =>
    match s.capture? group with
    | none => none
    | some taken => (s.step? casing taken).bind next
  | .ahead negated p, s, next =>
    match run p s some with
    | some t => if negated then none else next ⟨s.before, s.rest, t.captures⟩
    | none => if negated then next s else none
  | .behind negated width p, s, next =>
    match (s.back? width).bind fun t => run p t some with
    | some t => if negated then none else next ⟨s.before, s.rest, t.captures⟩
    | none => if negated then next s else none
  | .atomic p, s, next => (run p s some).bind next
  | .edge e, s, next => if e.holds s then next s else none
  | .ifCaptured group yes no, s, next =>
    if (s.capture? group).isSome then run yes s next else run no s next

/-- Whether the pattern matches at the start of the text. -/
def opens (p : Pattern) (text : String) : Bool := (run p ⟨[], text.toList, []⟩ some).isSome

/-- Whether the pattern matches from some place on. -/
def searchFrom (p : Pattern) (before : List Char) : List Char → Bool
  | [] => (run p ⟨before, [], []⟩ some).isSome
  | c :: cs => (run p ⟨before, c :: cs, []⟩ some).isSome || searchFrom p (c :: before) cs

/-- Whether the pattern matches somewhere in the text. -/
def occursIn (p : Pattern) (text : String) : Bool := searchFrom p [] text.toList

end Pattern
end FormRules
