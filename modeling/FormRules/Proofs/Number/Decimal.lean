import FormRules.Number.Numeral
import FormRules.Proofs.Number.Rounding
import Mathlib.Tactic.Ring

/-!
# Decimals

Digits are read as the number they were written for, so that integers of different value have different
texts. A decimal that rounds to a number is read as that number, and so is every decimal of the same value.
-/

namespace FormRules

namespace Numeral
variable (as bs : List Char)

theorem digitsValue_eq : digitsValue as = Nat.ofDigitChars 10 as 0 := Nat.ofDigitChars_eq_foldl.symm

@[simp] theorem digitsValue_toDigits (n : Nat) : digitsValue (Nat.toDigits 10 n) = n := by
  rw [digitsValue_eq, Nat.ofDigitChars_ten_toDigits]

theorem digitsValue_append : digitsValue (as ++ bs) = digitsValue as * 10 ^ bs.length + digitsValue bs := by
  simp only [digitsValue_eq, Nat.ofDigitChars_append]
  rw [Nat.ofDigitChars_eq_ofDigitChars_zero, Nat.mul_comm]

theorem digitsValue_replicate (k : Nat) : digitsValue (List.replicate k '0') = 0 := by
  rw [digitsValue_eq, Nat.ofDigitChars_replicate_zero, Nat.mul_zero]

end Numeral

theorem isDigit_of_mem_toDigits {n : Nat} {c : Char} (h : c ∈ Nat.toDigits 10 n) : c.isDigit = true :=
  Nat.isDigit_of_mem_toDigits (by decide) (by decide) h

/-- The characters of an integer in decimal. -/
def intChars (n : Int) : List Char :=
  if n < 0 then '-' :: Nat.toDigits 10 n.natAbs else Nat.toDigits 10 n.natAbs

theorem intText_toList (n : Int) : (intText n).toList = intChars n := by
  unfold intText intChars natText
  split
  · simp
  · simp

theorem head_toDigits (n : Nat) : ∃ d ds, Nat.toDigits 10 n = d :: ds ∧ d.isDigit = true := by
  cases h : Nat.toDigits 10 n with
  | nil => exact absurd h Nat.toDigits_ne_nil
  | cons d ds => exact ⟨d, ds, rfl, isDigit_of_mem_toDigits (h ▸ List.mem_cons_self)⟩

/-! ## Sizes -/

theorem digitCount_pos (n : Nat) : 0 < digitCount n := Nat.length_toDigits_pos

theorem lt_pow_digitCount (n : Nat) : n < 10 ^ digitCount n :=
  (Nat.length_toDigits_le_iff (by decide) (digitCount_pos n)).mp (Nat.le_refl _)

theorem pow_digitCount_le {n : Nat} (h : n ≠ 0) : 10 ^ (digitCount n - 1) ≤ n := by
  by_cases hc : digitCount n = 1
  · rw [hc]
    omega
  · have hpos := digitCount_pos n
    by_contra hlt
    have := (Nat.length_toDigits_le_iff (b := 10) (n := n) (k := digitCount n - 1) (by decide) (by omega)).mpr
      (by omega)
    unfold digitCount at *
    omega

theorem two_pow_le_ten_pow {a b : Nat} (h : a ≤ 3 * b) : 2 ^ a ≤ 10 ^ b :=
  calc 2 ^ a ≤ 2 ^ (3 * b) := Nat.pow_le_pow_right (by decide) h
    _ = 8 ^ b := by rw [Nat.pow_mul]
    _ ≤ 10 ^ b := Nat.pow_le_pow_left (by decide) b

/-! ## Decimals of the same value -/

namespace Decimal

/-- Whether two decimals have the same value. -/
def Same (d e : Decimal) : Prop := d.ratio.1 * e.ratio.2 = e.ratio.1 * d.ratio.2

theorem ratio_of_nonneg {d : Decimal} (h : 0 ≤ d.exponent) : d.ratio = (d.digits * 10 ^ d.exponent.toNat, 1) :=
  if_pos h

theorem ratio_of_neg {d : Decimal} (h : d.exponent < 0) : d.ratio = (d.digits, 10 ^ (-d.exponent).toNat) :=
  if_neg (by omega)

theorem ratio_pos (d : Decimal) : 0 < d.ratio.2 := by
  by_cases h : 0 ≤ d.exponent
  · rw [ratio_of_nonneg h]
    exact Nat.one_pos
  · rw [ratio_of_neg (by omega)]
    exact Nat.pow_pos (by decide)

theorem Same.refl (d : Decimal) : Same d d := rfl

theorem Same.symm {d e : Decimal} (h : Same d e) : Same e d := Eq.symm h

theorem Same.trans {d e f : Decimal} (h : Same d e) (h' : Same e f) : Same d f := by
  unfold Same at *
  have hpos := ratio_pos e
  refine Nat.eq_of_mul_eq_mul_right hpos ?_
  calc d.ratio.1 * f.ratio.2 * e.ratio.2 = d.ratio.1 * e.ratio.2 * f.ratio.2 := by ring
    _ = e.ratio.1 * f.ratio.2 * d.ratio.2 := by rw [h]; ring
    _ = f.ratio.1 * d.ratio.2 * e.ratio.2 := by rw [h']; ring

/-- Zeros at the end of the digits count as places. -/
theorem same_shift (m k : Nat) (e : Int) : Same ⟨m * 10 ^ k, e⟩ ⟨m, e + k⟩ := by
  unfold Same
  by_cases he : 0 ≤ e
  · rw [ratio_of_nonneg he, ratio_of_nonneg (show 0 ≤ e + k by omega)]
    have : (e + k).toNat = k + e.toNat := by omega
    simp only [this, Nat.pow_add, Nat.mul_one, Nat.mul_assoc]
  · by_cases hk : 0 ≤ e + k
    · rw [ratio_of_neg (show e < 0 by omega), ratio_of_nonneg hk]
      have : k = (e + k).toNat + (-e).toNat := by omega
      simp only [Nat.mul_one, Nat.mul_assoc, ← Nat.pow_add, ← this]
    · rw [ratio_of_neg (show e < 0 by omega), ratio_of_neg (show e + k < 0 by omega)]
      have : (-e).toNat = k + (-(e + k)).toNat := by omega
      simp only [this, Nat.pow_add, Nat.mul_assoc]

theorem trim_same (fuel : Nat) (d : Decimal) : Same (trim fuel d) d := by
  induction fuel generalizing d with
  | zero => exact .refl d
  | succ fuel ih =>
    rw [trim]
    split
    · next hd =>
      have hshift := same_shift (d.digits / 10) 1 d.exponent
      rw [Nat.pow_one, show d.digits / 10 * 10 = d.digits by omega] at hshift
      exact (ih _).trans hshift.symm
    · exact .refl d

theorem Same.readsBack {n : Nat} {d e : Decimal} (h : Same d e) : Binary64.readsBack n d = Binary64.readsBack n e := by
  have hround : roundUnits (d.ratio.1 * oneUnits) d.ratio.2 = roundUnits (e.ratio.1 * oneUnits) e.ratio.2 := by
    rw [← roundUnits_mul _ _ (ratio_pos e), ← roundUnits_mul (e.ratio.1 * oneUnits) _ (ratio_pos d),
      Nat.mul_right_comm, h, Nat.mul_right_comm, Nat.mul_comm d.ratio.2]
  unfold Binary64.readsBack
  rw [hround]

variable {n : Nat} {d : Decimal}

theorem digits_ne_zero (h : Binary64.readsBack n d = true) (hn : n ≠ 0) : d.digits ≠ 0 := by
  intro hd
  have hz : d.ratio.1 = 0 := by
    by_cases he : 0 ≤ d.exponent
    · rw [ratio_of_nonneg he, hd, Nat.zero_mul]
    · rw [ratio_of_neg (by omega), hd]
  have hr : roundUnits (d.ratio.1 * oneUnits) d.ratio.2 = 0 :=
    roundUnits_eq_zero (by rw [hz, Nat.zero_mul]; exact ratio_pos d)
  exact hn ((of_decide_eq_true h).symm.trans hr)

-- The powers are too large to be evaluated, so that their exponents are named.
theorem exists_exponents : ∃ a k b, overflowUnits = 2 ^ (a + k) ∧ oneUnits = 2 ^ k ∧ b = 400 ∧
    2 ^ a ≤ 10 ^ b ∧ 2 ^ (k + 1) ≤ 10 ^ b := by
  obtain ⟨k, hk, hone⟩ : ∃ k, k = 1074 ∧ oneUnits = 2 ^ k := by
    unfold oneUnits
    generalize 1074 = k
    exact ⟨k, rfl, rfl⟩
  obtain ⟨a, ha⟩ : ∃ a, a = 1024 := ⟨_, rfl⟩
  have hover : overflowUnits = 2 ^ (a + k) := by
    unfold overflowUnits
    rw [show overflowExponent = a + k by rw [ha, hk]; rfl]
    rfl
  exact ⟨a, k, 400, hover, hone, rfl, two_pow_le_ten_pow (by omega), two_pow_le_ten_pow (by omega)⟩

/-- What rounds to a finite number has no more than four hundred places before the point. -/
theorem size_le (h : Binary64.readsBack n d = true) (hn : n < overflowUnits) (hd : d.digits ≠ 0) :
    digitCount d.digits + d.exponent ≤ 400 := by
  obtain ⟨a, k, b, hover, hone, hb, hpow, -⟩ := exists_exponents
  by_contra hsize
  have hle := pow_digitCount_le hd
  have hpos := digitCount_pos d.digits
  have hratio : 10 ^ b * d.ratio.2 ≤ d.ratio.1 := by
    by_cases he : 0 ≤ d.exponent
    · rw [ratio_of_nonneg he, Nat.mul_one]
      calc 10 ^ b ≤ 10 ^ (digitCount d.digits - 1 + d.exponent.toNat) :=
            Nat.pow_le_pow_right (by decide) (by omega)
        _ ≤ d.digits * 10 ^ d.exponent.toNat := by
            rw [Nat.pow_add]
            exact Nat.mul_le_mul_right _ hle
    · rw [ratio_of_neg (by omega), ← Nat.pow_add]
      exact Nat.le_trans (Nat.pow_le_pow_right (by decide) (by omega)) hle
  have hquotient : overflowUnits ≤ d.ratio.1 * oneUnits / d.ratio.2 := by
    rw [Nat.le_div_iff_mul_le (ratio_pos d), hover, hone, Nat.pow_add, Nat.mul_right_comm]
    exact Nat.mul_le_mul_right _ (Nat.le_trans (Nat.mul_le_mul_right _ hpow) hratio)
  have hr := overflowUnits_le_roundUnits hquotient
  rw [of_decide_eq_true h] at hr
  omega

/-- What does not round to zero begins within four hundred places behind the point. -/
theorem le_size (h : Binary64.readsBack n d = true) (hn : n ≠ 0) : -400 ≤ digitCount d.digits + d.exponent := by
  obtain ⟨a, k, b, -, hone, hb, -, hpow⟩ := exists_exponents
  by_contra hsize
  have hlt := lt_pow_digitCount d.digits
  have hsmall : 2 * (d.ratio.1 * oneUnits) < d.ratio.2 := by
    rw [ratio_of_neg (by omega), hone]
    calc 2 * (d.digits * 2 ^ k) = d.digits * 2 ^ (k + 1) := by ring
      _ < 10 ^ digitCount d.digits * 2 ^ (k + 1) := Nat.mul_lt_mul_of_pos_right hlt (Nat.two_pow_pos _)
      _ ≤ 10 ^ digitCount d.digits * 10 ^ b := Nat.mul_le_mul_left _ hpow
      _ ≤ 10 ^ (-d.exponent).toNat := by
          rw [← Nat.pow_add]
          exact Nat.pow_le_pow_right (by decide) (by omega)
  exact hn ((of_decide_eq_true h).symm.trans (roundUnits_eq_zero hsmall))

theorem ofUnits_of_roundUnits {u : Int} {num den : Nat} (hu : u ≠ 0) (hr : Representable u.natAbs)
    (h : roundUnits num den = u.natAbs) : Binary64.ofUnits (u < 0) num den = .finite u hr := by
  unfold Binary64.ofUnits
  rw [if_neg (by omega), dif_pos (by rw [h]; exact hr.1)]
  by_cases hneg : u < 0
  · rw [if_pos (decide_eq_true hneg)]
    congr 1
    omega
  · rw [if_neg (by simpa using hneg)]
    congr 1
    omega

/-- A decimal that rounds to the units of a number is read as the number. -/
theorem toBinary64_of_readsBack {u : Int} (hu : u ≠ 0) (hr : Representable u.natAbs)
    (h : Binary64.readsBack u.natAbs d = true) : d.toBinary64 (u < 0) = .finite u hr := by
  have hn : u.natAbs ≠ 0 := by omega
  have hd := digits_ne_zero h hn
  have hhigh := size_le h hr.1 hd
  have hlow := le_size h hn
  have hround : roundUnits (d.ratio.1 * oneUnits) d.ratio.2 = u.natAbs := of_decide_eq_true h
  unfold toBinary64
  dsimp only
  rw [if_neg hd, if_neg (by omega), if_neg (by omega)]
  exact ofUnits_of_roundUnits hu hr hround

end Decimal
end FormRules
