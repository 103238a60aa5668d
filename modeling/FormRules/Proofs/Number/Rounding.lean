import FormRules.Number.Binary64
import Mathlib.Algebra.Group.Nat.Defs
import Mathlib.Tactic.SplitIfs

/-!
# Rounding to units

Rounding depends on the quotient alone, leaves representable counts as they are, and neither drops below
the overflow threshold from above it nor makes something of less than half a unit.
-/

namespace FormRules
variable {num den n c : Nat}

theorem roundQuotient_mul (hc : 0 < c) : roundQuotient (num * c) (den * c) = roundQuotient num den := by
  have hd : num * c / (den * c) = num / den := Nat.mul_div_mul_right num den hc
  have hr : 2 * (num * c % (den * c)) = 2 * (num % den) * c := by
    rw [Nat.mul_mod_mul_right, Nat.mul_assoc]
  unfold roundQuotient
  simp only [hd, hr, Nat.mul_lt_mul_right hc]

theorem roundUnits_mul (num den : Nat) (hc : 0 < c) : roundUnits (num * c) (den * c) = roundUnits num den := by
  unfold roundUnits
  simp only [Nat.mul_div_mul_right num den hc]
  rw [Nat.mul_right_comm den c, roundQuotient_mul hc]

theorem le_roundQuotient : num / den ≤ roundQuotient num den := by
  unfold roundQuotient
  dsimp only
  split
  · exact Nat.le_refl _
  · split
    · exact Nat.le_succ _
    · exact Nat.le_add_right _ _

theorem roundQuotient_mul_self (hd : 0 < den) : roundQuotient (n * den) den = n := by
  unfold roundQuotient
  simp [Nat.mul_mod_left, Nat.mul_div_cancel n hd, hd]

theorem two_pow_gridShift_le (h : gridShift n ≠ 0) : 2 ^ (gridShift n + 52) ≤ n := by
  have hn : n ≠ 0 := by
    rintro rfl
    exact h rfl
  have hs : gridShift n + 52 = n.log2 := by
    unfold gridShift at h ⊢
    omega
  rw [hs]
  exact Nat.log2_self_le hn

/-- The grid of a representable count holds the count. -/
theorem two_pow_gridShift_dvd (h : Representable n) : 2 ^ gridShift n ∣ n := by
  obtain ⟨-, m, k, hm, rfl⟩ := h
  simp only [Nat.pow_eq] at *
  by_cases hs : gridShift (m * 2 ^ k) = 0
  · rw [hs]
    exact Nat.one_dvd _
  have hk : gridShift (m * 2 ^ k) ≤ k := by
    have hle := two_pow_gridShift_le hs
    have hlt : m * 2 ^ k < 2 ^ (53 + k) := by
      rw [Nat.pow_add]
      exact Nat.mul_lt_mul_of_pos_right hm (Nat.two_pow_pos k)
    have := (Nat.pow_lt_pow_iff_right (by decide : 1 < 2)).mp (Nat.lt_of_le_of_lt hle hlt)
    omega
  exact Nat.dvd_mul_left_of_dvd (Nat.pow_dvd_pow 2 hk) m

theorem roundUnits_of_representable (h : Representable n) : roundUnits n 1 = n := by
  obtain ⟨m, hm⟩ := two_pow_gridShift_dvd h
  unfold roundUnits
  simp only [Nat.div_one, Nat.one_mul, Nat.pow_eq]
  generalize gridShift n = s at hm ⊢
  subst hm
  rw [Nat.mul_comm (2 ^ s) m, roundQuotient_mul_self (Nat.two_pow_pos s)]

/-- Rounding does not drop below a power of two. -/
theorem two_pow_le_roundUnits {k : Nat} (h : 2 ^ k ≤ num / den) : 2 ^ k ≤ roundUnits num den := by
  unfold roundUnits
  generalize hq : num / den = q at h ⊢
  have hq0 : q ≠ 0 := Nat.ne_of_gt (Nat.lt_of_lt_of_le (Nat.two_pow_pos k) h)
  have hk : k ≤ q.log2 := (Nat.le_log2 hq0).mpr h
  have hs : gridShift q ≤ q.log2 := Nat.sub_le _ _
  have hround : 2 ^ (q.log2 - gridShift q) ≤ roundQuotient num (den * 2 ^ gridShift q) := by
    refine Nat.le_trans ?_ le_roundQuotient
    rw [← Nat.div_div_eq_div_mul, hq, Nat.le_div_iff_mul_le (Nat.two_pow_pos _), ← Nat.pow_add,
      Nat.sub_add_cancel hs]
    exact Nat.log2_self_le hq0
  calc 2 ^ k ≤ 2 ^ q.log2 := Nat.pow_le_pow_right (by decide) hk
    _ = 2 ^ (q.log2 - gridShift q) * 2 ^ gridShift q := by rw [← Nat.pow_add, Nat.sub_add_cancel hs]
    _ ≤ _ := Nat.mul_le_mul_right _ hround

theorem overflowUnits_le_roundUnits (h : overflowUnits ≤ num / den) : overflowUnits ≤ roundUnits num den := by
  unfold overflowUnits at h ⊢
  rw [Nat.pow_eq] at h ⊢
  generalize overflowExponent = k at h ⊢
  exact two_pow_le_roundUnits h

/-- Below a power of two that leaves room for one bit, rounding stays at most that power. -/
theorem roundUnits_le_two_pow {e : Nat} (h : n < 2 ^ (e + 53)) : roundUnits n 1 ≤ 2 ^ (e + 53) := by
  have hquotient : n / 2 ^ gridShift n < 2 ^ 53 := div_two_pow_gridShift_lt n
  have hshift : gridShift n ≤ e := by
    by_cases hzero : gridShift n = 0
    · omega
    · have hlt := (Nat.pow_lt_pow_iff_right (by decide : 1 < 2)).mp (Nat.lt_of_le_of_lt (two_pow_gridShift_le hzero) h)
      omega
  have hround := roundQuotient_le n (2 ^ gridShift n)
  unfold roundUnits
  simp only [Nat.div_one, Nat.one_mul, Nat.pow_eq]
  calc roundQuotient n (2 ^ gridShift n) * 2 ^ gridShift n ≤ 2 ^ 53 * 2 ^ e :=
        Nat.mul_le_mul (by omega) (Nat.pow_le_pow_right (by decide) hshift)
    _ = 2 ^ (e + 53) := by rw [← Nat.pow_add, Nat.add_comm]

/-- An even number is what is rounded to from the middle before it on: there, the even neighbour is taken. -/
theorem two_mul_le_roundQuotient_iff {m d : Nat} (hd : 0 < d) (h : n < 2 * m * (2 * d)) :
    2 * m ≤ roundQuotient n (2 * d) ↔ 2 * m * (2 * d) - d ≤ n := by
  have hn : 2 * d * (n / (2 * d)) + n % (2 * d) = n := Nat.div_add_mod n (2 * d)
  have hrest : n % (2 * d) < 2 * d := Nat.mod_lt n (by omega)
  have hquotient : n / (2 * d) < 2 * m := Nat.div_lt_of_lt_mul (by rwa [Nat.mul_comm])
  unfold roundQuotient
  dsimp only
  generalize n / (2 * d) = q at hn hquotient ⊢
  generalize n % (2 * d) = r at hn hrest ⊢
  rcases Nat.lt_or_ge (q + 1) (2 * m) with hq | hq
  · have hgap : 2 * d * (q + 2) ≤ 2 * d * (2 * m) := Nat.mul_le_mul_left _ hq
    rw [Nat.mul_add, Nat.mul_comm _ (2 * m)] at hgap
    split_ifs <;> omega
  · have hlast : 2 * d * (q + 1) = 2 * m * (2 * d) := by rw [show q + 1 = 2 * m by omega, Nat.mul_comm]
    rw [Nat.mul_add, Nat.mul_one] at hlast
    split_ifs <;> omega

/-- A count is rounded up to a power of two from the middle between the power and the grid point before it on. -/
theorem two_pow_le_roundUnits_iff {e : Nat} : 2 ^ (e + 54) ≤ roundUnits n 1 ↔ 2 ^ (e + 54) - 2 ^ e ≤ n := by
  have hhigh : 2 ^ (e + 54) = 2 * 2 ^ 52 * (2 * 2 ^ e) := by
    rw [Nat.pow_add]
    omega
  have hlow : 2 ^ (e + 53) = 2 ^ 53 * 2 ^ e := by rw [Nat.pow_add, Nat.mul_comm]
  have hpos : 0 < 2 ^ e := Nat.two_pow_pos e
  rcases Nat.lt_or_ge n (2 ^ (e + 53)) with hn | hn
  · have := roundUnits_le_two_pow hn
    omega
  rcases Nat.lt_or_ge n (2 ^ (e + 54)) with hn' | hn'
  · have hlog : n.log2 = e + 53 := (Nat.log2_eq_iff (by omega)).mpr ⟨hn, hn'⟩
    have hgrid : 2 ^ gridShift n = 2 * 2 ^ e := by
      rw [gridShift, hlog, show e + 53 - 52 = e + 1 by omega, Nat.pow_add, Nat.mul_comm]
    unfold roundUnits
    simp only [Nat.div_one, Nat.one_mul, Nat.pow_eq, hgrid]
    rw [hhigh] at hn' ⊢
    rw [Nat.mul_le_mul_right_iff (by omega), two_mul_le_roundQuotient_iff hpos hn']
  · have := two_pow_le_roundUnits (show 2 ^ (e + 54) ≤ n / 1 by rwa [Nat.div_one])
    omega

theorem roundUnits_eq_zero (h : 2 * num < den) : roundUnits num den = 0 := by
  have hq : num / den = 0 := Nat.div_eq_of_lt (by omega)
  have hr : num % den = num := Nat.mod_eq_of_lt (by omega)
  unfold roundUnits roundQuotient
  simp [hq, hr, h, gridShift]

end FormRules
