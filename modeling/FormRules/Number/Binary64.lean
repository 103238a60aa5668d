/-!
# Binary floating point, counted in units

A finite binary64 number is a whole number of units of `2⁻¹⁰⁷⁴`, so it is held as that integer.
Sums, products, quotients and remainders are formed exactly and rounded once, to the nearest
representable count with ties to the even one (`roundUnits`); order and equality are those of the
integers.
-/

namespace FormRules

/-- The binary exponent, in units, from which on a number is infinite. -/
def overflowExponent : Nat := 2098

/-- The least count of units beyond the largest finite number. -/
def overflowUnits : Nat := Nat.pow 2 overflowExponent

/-- A count of units is representable if it is a 53-bit significand times a power of two and lies
below the overflow threshold. -/
def Representable (n : Nat) : Prop := n < overflowUnits ∧ ∃ m k, m < Nat.pow 2 53 ∧ n = m * Nat.pow 2 k

/-- The number one, in units. -/
def oneUnits : Nat := Nat.pow 2 1074

/-- The integer nearest to `num / den`, ties to the even one. -/
def roundQuotient (num den : Nat) : Nat :=
  let q := num / den
  let r := 2 * (num % den)
  if r < den then q else if den < r then q + 1 else q + q % 2

/-- How many low bits of `n` lie below its 53 leading ones. -/
def gridShift (n : Nat) : Nat := n.log2 - 52

/-- The representable count nearest to `num / den` (overflow aside), ties to the even significand. -/
def roundUnits (num den : Nat) : Nat :=
  let k := gridShift (num / den)
  roundQuotient num (den * Nat.pow 2 k) * Nat.pow 2 k

/-- A binary64 number; there is one NaN. -/
inductive Binary64
  | nan
  | infinity (negative : Bool)
  | negativeZero
  | finite (units : Int) (exact : Representable units.natAbs)

theorem overflowUnits_pos : 0 < overflowUnits := by
  unfold overflowUnits
  generalize overflowExponent = k
  exact Nat.two_pow_pos k

theorem representable_zero : Representable 0 := ⟨overflowUnits_pos, 0, 0, by decide, rfl⟩

theorem roundQuotient_le (num den : Nat) : roundQuotient num den ≤ num / den + 1 := by
  unfold roundQuotient
  have := Nat.mod_lt (num / den) (show 0 < 2 by decide)
  dsimp only
  split
  · omega
  · split <;> omega

theorem div_two_pow_gridShift_lt (n : Nat) : n / Nat.pow 2 (gridShift n) < Nat.pow 2 53 := by
  have h : n < Nat.pow 2 (n.log2 + 1) := Nat.lt_log2_self
  have hpos : 0 < Nat.pow 2 (gridShift n) := Nat.two_pow_pos _
  rw [Nat.div_lt_iff_lt_mul hpos]
  refine Nat.lt_of_lt_of_le h ?_
  rw [Nat.pow_eq, Nat.pow_eq, Nat.pow_eq, ← Nat.pow_add]
  exact Nat.pow_le_pow_right (by decide) (by unfold gridShift; omega)

/-- Rounding leaves a significand of at most 53 bits. -/
theorem roundUnits_grid (num den : Nat) :
    ∃ m k, m < Nat.pow 2 53 ∧ roundUnits num den = m * Nat.pow 2 k := by
  unfold roundUnits
  generalize hk : gridShift (num / den) = k
  have hq : num / (den * Nat.pow 2 k) < Nat.pow 2 53 := by
    rw [← Nat.div_div_eq_div_mul, ← hk]; exact div_two_pow_gridShift_lt _
  have hle := roundQuotient_le num (den * Nat.pow 2 k)
  rcases Nat.lt_or_ge (roundQuotient num (den * Nat.pow 2 k)) (Nat.pow 2 53) with h | h
  · exact ⟨_, k, h, rfl⟩
  · have : roundQuotient num (den * Nat.pow 2 k) = Nat.pow 2 53 := by omega
    exact ⟨1, 53 + k, by decide, by dsimp only; rw [this, Nat.one_mul, Nat.pow_eq, Nat.pow_eq, Nat.pow_eq, Nat.pow_add]⟩

namespace Binary64

instance : DecidableEq Binary64
  | .nan, .nan => isTrue rfl
  | .infinity a, .infinity b => if h : a = b then isTrue (h ▸ rfl) else isFalse (by simp [h])
  | .negativeZero, .negativeZero => isTrue rfl
  | .finite a _, .finite b _ =>
    if h : a = b then isTrue (by subst h; rfl) else isFalse (by simp [h])
  | .nan, .infinity _ | .nan, .negativeZero | .nan, .finite _ _
  | .infinity _, .nan | .infinity _, .negativeZero | .infinity _, .finite _ _
  | .negativeZero, .nan | .negativeZero, .infinity _ | .negativeZero, .finite _ _
  | .finite _ _, .nan | .finite _ _, .infinity _ | .finite _ _, .negativeZero =>
    isFalse (by simp)

/-- Positive zero. -/
def zero : Binary64 := .finite 0 representable_zero

instance : Inhabited Binary64 := ⟨zero⟩

/-- A zero of the given sign. -/
def zeroOf (negative : Bool) : Binary64 := if negative then .negativeZero else zero

/-- The nearest number to `num / den` units, of the given sign. -/
def ofUnits (negative : Bool) (num den : Nat) : Binary64 :=
  if roundUnits num den = 0 then zeroOf negative
  else if h : roundUnits num den < overflowUnits then
    if negative then .finite (-(roundUnits num den : Int)) (by
      rw [Int.natAbs_neg]; exact ⟨h, roundUnits_grid num den⟩)
    else .finite (roundUnits num den : Int) ⟨h, roundUnits_grid num den⟩
  else .infinity negative

/-- The nearest number to `num / den`, of the given sign. -/
def ofRatio (negative : Bool) (num den : Nat) : Binary64 := ofUnits negative (num * oneUnits) den

/-- The exact count of units, `none` for NaN and the infinities. -/
def units? : Binary64 → Option Int
  | .finite n _ => some n
  | .negativeZero => some 0
  | .nan | .infinity _ => none

/-- Whether the sign bit is set. -/
def isNegative : Binary64 → Bool
  | .nan => false
  | .infinity s => s
  | .negativeZero => true
  | .finite n _ => n < 0

def isNaN : Binary64 → Bool
  | .nan => true
  | _ => false

/-- Whether the number is an infinity. -/
def isInfinite : Binary64 → Bool
  | .infinity _ => true
  | _ => false

/-- The integer with this value, if there is one. -/
def toInt? (x : Binary64) : Option Int :=
  match x.units? with
  | some n => if n % oneUnits = 0 then some (n / oneUnits) else none
  | none => none

/-- The integer part, toward zero. -/
def truncate? (x : Binary64) : Option Int := x.units?.map (Int.tdiv · oneUnits)

/-- The opposite number. -/
def neg : Binary64 → Binary64
  | .nan => .nan
  | .infinity s => .infinity (!s)
  | .negativeZero => zero
  | .finite n h => if n = 0 then .negativeZero else .finite (-n) (by rwa [Int.natAbs_neg])

/-- The rounded sum. -/
def add : Binary64 → Binary64 → Binary64
  | .nan, _ | _, .nan => .nan
  | .infinity s, .infinity t => if s = t then .infinity s else .nan
  | .infinity s, _ | _, .infinity s => .infinity s
  | .negativeZero, y => y
  | x, .negativeZero => x
  | .finite m _, .finite n _ => ofUnits (m + n < 0) (m + n).natAbs 1

/-- The rounded difference. -/
def sub (x y : Binary64) : Binary64 := add x (neg y)

/-- The rounded product. -/
def mul (x y : Binary64) : Binary64 :=
  let s := x.isNegative != y.isNegative
  match x.units?, y.units? with
  | some m, some n => ofUnits s (m.natAbs * n.natAbs) oneUnits
  | some m, none => if y.isNaN || m = 0 then .nan else .infinity s
  | none, some n => if x.isNaN || n = 0 then .nan else .infinity s
  | none, none => if x.isNaN || y.isNaN then .nan else .infinity s

/-- The rounded quotient; a nonzero number over zero is an infinity. -/
def div (x y : Binary64) : Binary64 :=
  let s := x.isNegative != y.isNegative
  match x.units?, y.units? with
  | some m, some n =>
    if n = 0 then (if m = 0 then .nan else .infinity s)
    else ofUnits s (m.natAbs * oneUnits) n.natAbs
  | some _, none => if y.isNaN then .nan else zeroOf s
  | none, some _ => if x.isNaN then .nan else .infinity s
  | none, none => .nan

/-- The remainder of the quotient truncated toward zero, with the sign of the dividend; `none`
where no remainder exists (an infinite dividend, a zero divisor). -/
def rem? (x y : Binary64) : Option Binary64 :=
  if x.isNaN || y.isNaN then some .nan
  else match x.units?, y.units? with
    | some m, some n => if n = 0 then none else some (ofUnits x.isNegative (m.natAbs % n.natAbs) 1)
    | some _, none => some x
    | none, _ => none

end Binary64

/-- Where a number stands on the extended line, for exact comparison: a NaN stands nowhere. -/
inductive Standing
  | nowhere
  | bottom
  | units (n : Int)
  | top
  deriving DecidableEq

namespace Standing

/-- Equal standing of two numbers that stand somewhere. -/
def eq : Standing → Standing → Bool
  | .nowhere, _ | _, .nowhere => false
  | a, b => a = b

/-- Strictly below. -/
def lt : Standing → Standing → Bool
  | .nowhere, _ | _, .nowhere => false
  | .units m, .units n => m < n
  | .bottom, .bottom | .top, _ | .units _, .bottom => false
  | .bottom, _ | .units _, .top => true

/-- Below or equal. -/
def le (a b : Standing) : Bool := lt a b || eq a b

end Standing

def Binary64.standing : Binary64 → Standing
  | .nan => .nowhere
  | .infinity true => .bottom
  | .infinity false => .top
  | .negativeZero => .units 0
  | .finite n _ => .units n

end FormRules
