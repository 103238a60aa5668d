import FormRules.Number.Binary64

/-!
# Decimal text of binary numbers

A decimal is `digits · 10 ^ exponent`. Reading rounds it once (`Decimal.toBinary64`); writing uses
the fewest digits that read back (`Binary64.shortest`), positional while the point lies within
sixteen digits and not further left than four places, scientific otherwise; `Binary64.fixedText`
writes a given number of places, a half going to the even neighbour.
-/

namespace FormRules

/-- The decimal digits of a natural number. -/
def natText (n : Nat) : String := String.ofList (Nat.toDigits 10 n)

/-- An integer in decimal, negative ones behind a minus sign. -/
def intText (n : Int) : String := if n < 0 then "-" ++ natText n.natAbs else natText n.natAbs

/-- How many decimal digits a number has. -/
def digitCount (n : Nat) : Nat := (Nat.toDigits 10 n).length

/-- The value `digits · 10 ^ exponent`. -/
structure Decimal where
  digits : Nat
  exponent : Int
  deriving DecidableEq

namespace Decimal

/-- Numerator and denominator of the value. -/
def ratio (d : Decimal) : Nat × Nat :=
  if 0 ≤ d.exponent then (d.digits * Nat.pow 10 d.exponent.toNat, 1)
  else (d.digits, Nat.pow 10 (-d.exponent).toNat)

/-- The nearest binary number of the given sign. Magnitudes beyond every binary number, which the
exponent alone reveals, are decided without forming the power of ten. -/
def toBinary64 (negative : Bool) (d : Decimal) : Binary64 :=
  let size : Int := digitCount d.digits + d.exponent
  if d.digits = 0 then .zeroOf negative
  else if 400 < size then .infinity negative
  else if size < -400 then .zeroOf negative
  else .ofRatio negative d.ratio.1 d.ratio.2

/-- Drops trailing zeros of the digits into the exponent, at most `fuel` of them. -/
def trim : Nat → Decimal → Decimal
  | 0, d => d
  | fuel + 1, d => if d.digits ≠ 0 ∧ d.digits % 10 = 0 then trim fuel ⟨d.digits / 10, d.exponent + 1⟩ else d

end Decimal

namespace Binary64

/-- The number of decimal places from the point to the leading digit of `n` units: `n` units lie in
`[10 ^ (pointPlace n - 1), 10 ^ pointPlace n)`. -/
def pointPlace (n : Nat) : Int := (digitCount (n * Nat.pow 10 400 / oneUnits) : Int) - 400

/-- `n` units as a multiple of `10 ^ exponent`, numerator and denominator. -/
def scaled (n : Nat) (exponent : Int) : Nat × Nat :=
  if 0 ≤ exponent then (n, oneUnits * Nat.pow 10 exponent.toNat)
  else (n * Nat.pow 10 (-exponent).toNat, oneUnits)

/-- Whether the decimal rounds to `n` units. -/
def readsBack (n : Nat) (d : Decimal) : Bool :=
  roundUnits (d.ratio.1 * oneUnits) d.ratio.2 = n

/-- The decimals on the grid `10 ^ exponent` next to `n` units that read back, the nearer first, of two
equally near ones the one with even digits. -/
def neighbours (n : Nat) (exponent : Int) : List Decimal :=
  let (num, den) := scaled n exponent
  let below : Decimal := ⟨num / den, exponent⟩
  let above : Decimal := ⟨num / den + 1, exponent⟩
  let isBelow := 2 * (num % den) < den || (2 * (num % den) = den && below.digits % 2 = 0)
  let ordered := if isBelow then [below, above] else [above, below]
  ordered.filter (readsBack n)

/-- The decimal with the fewest digits, from `count` on, that reads back as `n` units; the exact
one (every unit is a finite decimal) if none of the next `fuel` counts suffices. -/
def shortestFrom (n : Nat) : Nat → Nat → Decimal
  | 0, _ => ⟨n * Nat.pow 5 1074, -1074⟩
  | fuel + 1, count =>
    (neighbours n (pointPlace n - count)).head?.getD (shortestFrom n fuel (count + 1))

/-- The decimal with the fewest digits that reads back as `n` units, no digit of it a trailing zero. -/
def shortest (n : Nat) : Decimal := (shortestFrom n 17 1).trim 400

/-- Decimal digits and place of the point, written out: `0.00ddd`, `dd.ddd`, `ddd00.0` or
`d.dde+XX`. -/
def layout (digits : List Char) (point : Int) : List Char :=
  let count : Int := digits.length
  if -4 < point ∧ point ≤ 16 then
    if point ≤ 0 then '0' :: '.' :: (List.replicate (-point).toNat '0' ++ digits)
    else if count ≤ point then digits ++ List.replicate (point - count).toNat '0' ++ ['.', '0']
    else digits.take point.toNat ++ '.' :: digits.drop point.toNat
  else
    let mantissa := match digits with
      | [] => []
      | [d] => [d]
      | d :: ds => d :: '.' :: ds
    let e := point - 1
    let size := Nat.toDigits 10 e.natAbs
    mantissa ++ 'e' :: (if e < 0 then '-' else '+') :: (if size.length < 2 then '0' :: size else size)

/-- The fewest digits that read back, with a sign, always showing a point or an exponent. -/
def text : Binary64 → String
  | .nan => "nan"
  | .infinity s => if s then "-inf" else "inf"
  | .negativeZero => "-0.0"
  | .finite n _ =>
    if n = 0 then "0.0"
    else
      let d := shortest n.natAbs
      let digits := Nat.toDigits 10 d.digits
      let body := layout digits (digits.length + d.exponent)
      String.ofList (if n < 0 then '-' :: body else body)

/-- `places` decimal places, a half going to the even neighbour; only for finite numbers. -/
def fixedText (x : Binary64) (places : Nat) : String :=
  let n := (x.units?.getD 0).natAbs
  let scaled := roundQuotient (n * Nat.pow 10 places) oneUnits
  let digits := Nat.toDigits 10 scaled
  let padded := List.replicate (places + 1 - digits.length) '0' ++ digits
  let cut := padded.length - places
  let body := padded.take cut ++ (if places = 0 then [] else '.' :: padded.drop cut)
  String.ofList (if x.isNegative then '-' :: body else body)

end Binary64
end FormRules
