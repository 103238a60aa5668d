import FormRules.Proofs.Number.Reading
import FormRules.Proofs.Value.Equality
import Mathlib.Data.EReal.Basic

/-!
# Numbers on the extended line

The order of numbers is the order of the extended reals that they stand for: integers of any size are compared with
each other and with binary64 numbers exactly. An integer can be made a binary64 number up to the last one that is rounded
to a finite number.
-/

namespace FormRules

/-! ## Order -/

/-- The extended real at a place; NaN, which stands nowhere, is given zero. -/
noncomputable def Standing.value : Standing → EReal
  | .nowhere => 0
  | .bottom => ⊥
  | .units n => ((n / oneUnits : ℝ) : EReal)
  | .top => ⊤

theorem Standing.lt_iff {a b : Standing} (ha : a ≠ .nowhere) (hb : b ≠ .nowhere) :
    a.lt b = true ↔ a.value < b.value := by
  have hone : (0 : ℝ) < oneUnits := Nat.cast_pos.mpr oneUnits_pos
  cases a with
  | nowhere => exact absurd rfl ha
  | bottom =>
    cases b with
    | nowhere => exact absurd rfl hb
    | bottom => exact iff_of_false nofun (lt_irrefl _)
    | units n => exact iff_of_true rfl (EReal.bot_lt_coe _)
    | top => exact iff_of_true rfl bot_lt_top
  | units m =>
    cases b with
    | nowhere => exact absurd rfl hb
    | bottom => exact iff_of_false nofun not_lt_bot
    | units n =>
      rw [lt, decide_eq_true_eq, value, value, EReal.coe_lt_coe_iff, div_lt_div_iff_of_pos_right hone, Int.cast_lt]
    | top => exact iff_of_true rfl (EReal.coe_lt_top _)
  | top =>
    cases b with
    | nowhere => exact absurd rfl hb
    | bottom | units n | top => exact iff_of_false nofun not_top_lt

namespace Number
variable {a b : Number} {m n : Int}

/-- The extended real that a number stands for. -/
noncomputable def value (a : Number) : EReal := a.standing.value

theorem value_int (n : Int) : (Number.int n).value = ((n : ℝ) : EReal) := by
  have hone : (oneUnits : ℝ) ≠ 0 := (Nat.cast_pos.mpr oneUnits_pos).ne'
  rw [value, standing, Standing.value, Int.cast_mul, Int.cast_natCast, mul_div_cancel_right₀ _ hone]

theorem lt_iff (ha : a.isNaN = false) (hb : b.isNaN = false) : a.lt b = true ↔ a.value < b.value :=
  Standing.lt_iff (standing_ne_nowhere ha) (standing_ne_nowhere hb)

theorem value_int_lt_iff : (Number.int m).value < (Number.int n).value ↔ m < n := by
  rw [value_int, value_int, EReal.coe_lt_coe_iff, Int.cast_lt]

end Number

/-! ## Integers that can be made binary64 numbers -/

theorem two_pow_le_roundUnits_mul_iff {e k m : Nat} :
    2 ^ (e + k + 54) ≤ roundUnits (m * 2 ^ k) 1 ↔ 2 ^ (e + 54) - 2 ^ e ≤ m := by
  have hscale : 2 ^ (e + k + 54) - 2 ^ (e + k) = (2 ^ (e + 54) - 2 ^ e) * 2 ^ k := by
    rw [Nat.sub_mul, ← Nat.pow_add, ← Nat.pow_add, Nat.add_right_comm]
  rw [two_pow_le_roundUnits_iff, hscale, Nat.mul_le_mul_right_iff (Nat.two_pow_pos k)]

/-- An integer can be made a binary64 number unless it lies in or beyond the middle between the largest finite number
and the power of two behind it. -/
theorem Number.fitsBinary64_int_iff {n : Int} :
    (Number.int n).fitsBinary64 = true ↔ n.natAbs < 2 ^ 1024 - 2 ^ 970 := by
  -- the powers are too large to be evaluated, so that their exponents are named
  obtain ⟨k, hk, hone⟩ : ∃ k, k = 1074 ∧ oneUnits = 2 ^ k := by
    unfold oneUnits
    generalize 1074 = k
    exact ⟨k, rfl, rfl⟩
  obtain ⟨e, he⟩ : ∃ e, e = 970 := ⟨_, rfl⟩
  have hover : overflowUnits = 2 ^ (e + k + 54) := by
    unfold overflowUnits
    rw [show overflowExponent = e + k + 54 by rw [he, hk]; rfl, Nat.pow_eq]
  rw [fitsBinary64_int, hover, hone, ← Nat.not_le, ← Nat.not_le, two_pow_le_roundUnits_mul_iff, he]

end FormRules
