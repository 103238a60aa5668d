import FormRules.Number.Decimal

/-!
# Numbers

Integers of any size and binary64 numbers, kept apart but compared exactly. Mixed arithmetic goes
through binary64; an integer too large for it makes the operation fail (`none`). Integers are also
written in the bases from two to thirty-six.
-/

namespace FormRules

/-- A number of the form's data. -/
inductive Number
  | int (n : Int)
  | float (x : Binary64)
  deriving DecidableEq

namespace Number

instance : Inhabited Number := ⟨.int 0⟩

/-- Where the number stands on the extended line. -/
def standing : Number → Standing
  | .int n => .units (n * oneUnits)
  | .float x => x.standing

/-- Exact equality; a NaN equals nothing. -/
def eq (a b : Number) : Bool := a.standing.eq b.standing

/-- Exact order; a NaN is below and above nothing. -/
def lt (a b : Number) : Bool := a.standing.lt b.standing

/-- Below or equal. -/
def le (a b : Number) : Bool := a.standing.le b.standing

def nan : Number := .float .nan

def isNaN : Number → Bool
  | .int _ => false
  | .float x => x.isNaN

def isZero (a : Number) : Bool := a.standing = .units 0

/-- The nearest binary64 number, unless the integer is too large for one. -/
def toBinary64? : Number → Option Binary64
  | .float x => some x
  | .int n =>
    let x := Binary64.ofRatio (n < 0) n.natAbs 1
    if x.isInfinite then none else some x

def fitsBinary64 (a : Number) : Bool := a.toBinary64?.isSome

/-- The integer with the number's value, if there is one. -/
def toInt? : Number → Option Int
  | .int n => some n
  | .float x => x.toInt?

/-- Integral binary64 numbers of magnitude below `2 ^ 53` become integers. -/
def tidy : Number → Number
  | .int n => .int n
  | .float x =>
    match x.toInt? with
    | some n => if n.natAbs < Nat.pow 2 53 then .int n else .float x
    | none => .float x

/-- Applies a binary64 operation after conversion. -/
def viaBinary64 (f : Binary64 → Binary64 → Binary64) (a b : Number) : Option Number := do
  let x ← a.toBinary64?
  let y ← b.toBinary64?
  return .float (f x y)

def neg : Number → Number
  | .int n => .int (-n)
  | .float x => .float x.neg

def add : Number → Number → Option Number
  | .int m, .int n => some (.int (m + n))
  | a, b => viaBinary64 .add a b

def sub : Number → Number → Option Number
  | .int m, .int n => some (.int (m - n))
  | a, b => viaBinary64 .sub a b

def mul : Number → Number → Option Number
  | .int m, .int n => some (.int (m * n))
  | a, b => viaBinary64 .mul a b

/-- Quotient by a nonzero number; the quotient of two integers is rounded once and must fit. -/
def div : Number → Number → Option Number
  | .int m, .int n =>
    let x := Binary64.ofRatio (decide (m < 0) != decide (n < 0)) m.natAbs n.natAbs
    if x.isInfinite then none else some (.float x)
  | a, b => viaBinary64 .div a b

/-- Remainder of the quotient truncated toward zero, in binary64. -/
def rem (a b : Number) : Option Number := do
  let x ← a.toBinary64?
  let y ← b.toBinary64?
  return .float (← x.rem? y)

/-- The integer used as a count or position: the part before the point, NaN as zero, infinities as
`± 2 ^ 31`. -/
def toPosition : Number → Int
  | .int n => n
  | .float .nan => 0
  | .float (.infinity s) => if s then -Nat.pow 2 31 else Nat.pow 2 31
  | .float x => x.truncate?.getD 0

/-- The text of a value: integral numbers below `10 ^ 21` without point or exponent. -/
def text : Number → String
  | .int n => intText n
  | .float x =>
    match x with
    | .nan => "NaN"
    | .infinity s => if s then "-Infinity" else "Infinity"
    | _ =>
      match x.toInt? with
      | some n => if n.natAbs < Nat.pow 10 21 then intText n else x.text
      | none => x.text

/-- The text of a number as written in descriptions, telling integers and floats apart. -/
def plainText : Number → String
  | .int n => intText n
  | .float x => x.text

/-- `places` decimal places. -/
def fixedText? (a : Number) (places : Nat) : Option String := do
  let x ← a.toBinary64?
  match x with
  | .nan | .infinity _ => return a.text
  | _ => return x.fixedText places

end Number

/-- A base in which integers are written with figures and letters. -/
structure Radix where
  base : Nat
  two_le : 2 ≤ base
  le_thirtySix : base ≤ 36

namespace Radix

/-- The base of that size, if there is one. -/
def ofInt? (b : Int) : Option Radix :=
  if h : 2 ≤ b ∧ b ≤ 36 then some ⟨b.toNat, by omega, by omega⟩ else none

/-- A digit: a figure, or a lower-case letter from ten on. -/
def digit (d : Nat) : Char := if d < 10 then Char.ofNat (48 + d) else Char.ofNat (87 + d)

theorem div_lt {r : Radix} {n : Nat} (h : n / r.base ≠ 0) : n / r.base < n :=
  Nat.div_lt_self (Nat.pos_of_ne_zero fun hn => h (by rw [hn, Nat.zero_div])) r.two_le

/-- Writes a number in front of what has been written, from its last digit on; zero has a digit, too. -/
def write (r : Radix) (n : Nat) (written : List Char) : List Char :=
  let written := digit (n % r.base) :: written
  if n / r.base = 0 then written else r.write (n / r.base) written
termination_by n
decreasing_by exact div_lt ‹_›

/-- An integer in the base, negative ones behind a minus sign. -/
def text (r : Radix) (n : Int) : String :=
  let digits := r.write n.natAbs []
  String.ofList (if n < 0 then '-' :: digits else digits)

end Radix
end FormRules
