import FormRules.Expr.Eval
import FormRules.Proofs.Number.Literal
import FormRules.Proofs.Validation.Bounds

/-!
# What is taken for a number

A value that stands for no number is none anywhere: it breaks no bound and is no bound, no order holds beside it, and
arithmetic with it gives no number. A text stands for a number if it counts as one.
-/

namespace FormRules

theorem Number.eq_nan_of_isNaN {a : Number} (h : a.isNaN = true) : a = .nan := by
  cases a with
  | int n => cases h
  | float x =>
    cases x with
    | nan => rfl
    | _ => cases h

/-! ## Arithmetic with NaN -/

/-- An operation gives NaN wherever one operand is NaN and the other can be converted. -/
def Number.Absorbing (op : Number → Number → Option Number) : Prop :=
  ∀ a, op .nan a = a.toBinary64?.map (fun _ => .nan) ∧ op a .nan = a.toBinary64?.map fun _ => .nan

namespace Number

/-- What goes through binary64 wherever one operand is NaN, by an operation that keeps NaN. -/
theorem absorbing_of_viaBinary64 {op : Number → Number → Option Number} (f : Binary64 → Binary64 → Binary64)
    (hop : ∀ a, op .nan a = viaBinary64 f .nan a ∧ op a .nan = viaBinary64 f a .nan) (hleft : ∀ y, f .nan y = .nan)
    (hright : ∀ x, f x .nan = .nan) : Absorbing op := by
  intro a
  rw [(hop a).1, (hop a).2]
  unfold viaBinary64
  cases ha : a.toBinary64? with
  | none => exact ⟨rfl, rfl⟩
  | some x =>
    constructor
    · show some (Number.float (f .nan x)) = some .nan
      rw [hleft]
      rfl
    · show some (Number.float (f x .nan)) = some .nan
      rw [hright]
      rfl

theorem absorbing_add : Absorbing add :=
  absorbing_of_viaBinary64 .add (fun a => by cases a <;> exact ⟨rfl, rfl⟩) (fun _ => rfl) fun x => by cases x <;> rfl

theorem absorbing_sub : Absorbing sub :=
  absorbing_of_viaBinary64 .sub (fun a => by cases a <;> exact ⟨rfl, rfl⟩) (fun _ => rfl) fun x => by cases x <;> rfl

theorem absorbing_mul : Absorbing mul :=
  absorbing_of_viaBinary64 .mul (fun a => by cases a <;> exact ⟨rfl, rfl⟩) (fun y => by cases y <;> rfl) fun x => by
    cases x <;> rfl

theorem absorbing_div : Absorbing div :=
  absorbing_of_viaBinary64 .div (fun a => by cases a <;> exact ⟨rfl, rfl⟩) (fun y => by cases y <;> rfl) fun x => by
    cases x <;> rfl

theorem absorbing_rem : Absorbing rem := by
  intro a
  unfold rem
  cases ha : a.toBinary64? with
  | none => exact ⟨rfl, rfl⟩
  | some x => cases x <;> exact ⟨rfl, rfl⟩

end Number

/-! ## Comparisons with what is no number -/

section
variable {op : Number → Number → Bool} {v w : Value}

theorem Comparison.numeric_of_left (h : v.toNumber = .nan) : numeric op v w = .ok false := by
  simp only [numeric, h]
  rfl

/-- A number that is too large is refused before it is told that there is nothing to compare it with. -/
theorem Comparison.numeric_of_right (h : v.toNumber = .nan) :
    numeric op w v = if w.toNumber.fitsBinary64 then .ok false else .error (.breach .tooLarge) := by
  unfold numeric
  rw [h]
  dsimp only
  by_cases hfits : w.toNumber.fitsBinary64 = true
  · by_cases hnan : w.toNumber.isNaN = true
    · simp [hfits, hnan]
      rfl
    · simp [hfits, hnan]
      rfl
  · simp [hfits]
    rfl

end

namespace Expr
variable {v w : Value} {texts : String → String → Bool} {numbers : Number → Number → Bool} {op : BinaryOp}

theorem ordered_of_left (h : v.toNumber = .nan) (hw : ∀ t, w ≠ .text t) :
    ordered v w texts numbers = .ok (.bool false) := by
  unfold ordered
  split
  · exact absurd rfl (hw _)
  · simp only [h]
    rfl

theorem ordered_of_right (h : v.toNumber = .nan) (hw : ∀ t, w ≠ .text t) :
    ordered w v texts numbers = if w.toNumber.fitsBinary64 then .ok (.bool false) else .error (.cause .failed) := by
  unfold ordered
  split
  · exact absurd rfl (hw _)
  · simp only [h]
    by_cases hfits : w.toNumber.fitsBinary64 = true
    · by_cases hnan : w.toNumber.isNaN = true
      · simp [hfits, hnan]
      · simp [hfits, hnan]
        rfl
    · simp [hfits]

/-- NaN, unless the other operand is too large. -/
def nanBeside (w : Value) : Except Stop Value :=
  if w.toNumber.fitsBinary64 then .ok (.num .nan) else .error (.cause .failed)

theorem numeric_nan : numeric (w.toNumber.toBinary64?.map fun _ => .nan) = nanBeside w := by
  unfold nanBeside Number.fitsBinary64
  cases w.toNumber.toBinary64? <;> rfl

end Expr

/-- A blank value is not measured, and nothing is measured against a nullish bound. -/
theorem Builtin.check_of_skip {rule : Builtin} {v bound : Value} (hrule : rule = .min ∨ rule = .max)
    (h : ¬ (v.isBlank = false ∧ bound.isNullish = false)) : rule.check v bound = pure none := by
  rw [not_and_or, Bool.not_eq_false, Bool.not_eq_false] at h
  rcases hrule with rfl | rfl
  · rcases h with h | h <;> simp [check, failure, h]
  · rcases h with h | h <;> simp [check, failure, h]

namespace Value
variable {v : Value} {s : String}

/-- The operators that compare numbers. -/
def orderings : List Comparison := [.greater, .less, .greaterOrEqual, .lessOrEqual]

/-- A value that is nowhere taken for a number: in the rules about bounds and as a bound, in comparisons, and in
arithmetic, where a sum may still join it as a text. -/
structure Numberless (v : Value) : Prop where
  breaks : ∀ {rule : Builtin} {bound : Value}, rule = .min ∨ rule = .max → rule.check v bound = pure none
  bounds : ∀ {rule : Builtin} {w : Value}, rule = .min ∨ rule = .max → rule.check w v =
    if w.isBlank = false ∧ v.isNullish = false ∧ w.toNumber.fitsBinary64 = false then throw (.breach .tooLarge)
    else pure none
  holds : ∀ {op : Comparison} {w : Value}, op ∈ orderings → op.holds v w = .ok false ∧
    op.holds w v = if w.toNumber.fitsBinary64 then .ok false else .error (.breach .tooLarge)
  ordered : ∀ {op : BinaryOp} {w : Value}, op ∈ [.lt, .gt, .le, .ge] → (∀ t, w ≠ .text t) →
    Expr.applyBinary op v w = .ok (.bool false) ∧ Expr.applyBinary op w v =
      if w.toNumber.fitsBinary64 then .ok (.bool false) else .error (.cause .failed)
  sum : ∀ {w : Value}, (Expr.concatenates v || Expr.concatenates w) = false →
    Expr.applyBinary .add v w = Expr.nanBeside w ∧ Expr.applyBinary .add w v = Expr.nanBeside w
  joined : ∀ {w : Value}, (Expr.concatenates v || Expr.concatenates w) = true →
    Expr.applyBinary .add v w = .ok (.text (v.toText ++ w.toText)) ∧
      Expr.applyBinary .add w v = .ok (.text (w.toText ++ v.toText))
  product : ∀ {op : BinaryOp} {w : Value}, op = .sub ∨ op = .mul →
    Expr.applyBinary op v w = Expr.nanBeside w ∧ Expr.applyBinary op w v = Expr.nanBeside w
  quotient : ∀ {op : BinaryOp} {w : Value}, op = .div ∨ op = .rem →
    Expr.applyBinary op v w = (if w.toNumber.isZero then .ok .null else Expr.nanBeside w) ∧
      Expr.applyBinary op w v = Expr.nanBeside w
  signed : Expr.applyUnary .negate v = .num .nan ∧ Expr.applyUnary .plus v = .num .nan

theorem numberless_of_nan (h : v.toNumber = .nan) : v.Numberless where
  breaks := by
    intro rule bound hrule
    by_cases hskip : v.isBlank = false ∧ bound.isNullish = false
    · rw [Builtin.check_of_bound hrule hskip.1 hskip.2, Comparison.numeric_of_left h]
      rfl
    · exact Builtin.check_of_skip hrule hskip
  bounds := by
    intro rule w hrule
    by_cases hskip : w.isBlank = false ∧ v.isNullish = false
    · rw [Builtin.check_of_bound hrule hskip.1 hskip.2, Comparison.numeric_of_right h]
      cases hfits : w.toNumber.fitsBinary64 <;> simp [hskip, Builtin.failIf]
    · rw [Builtin.check_of_skip hrule hskip, if_neg fun hlarge => hskip ⟨hlarge.1, hlarge.2.1⟩]
  holds := by
    intro op w hop
    simp only [orderings, List.mem_cons, List.not_mem_nil, or_false] at hop
    rcases hop with rfl | rfl | rfl | rfl <;>
      simp only [Comparison.holds, Comparison.numeric_of_left h, Comparison.numeric_of_right h, and_self]
  ordered := by
    intro op w hop hw
    simp only [List.mem_cons, List.not_mem_nil, or_false] at hop
    rcases hop with rfl | rfl | rfl | rfl <;>
      simp only [Expr.applyBinary, Expr.ordered_of_left h hw, Expr.ordered_of_right h hw, and_self]
  sum := by
    intro w hjoin
    obtain ⟨hleft, hright⟩ := Number.absorbing_add w.toNumber
    simp only [Expr.applyBinary, hjoin, Bool.or_comm (Expr.concatenates w), h, hleft, hright, Expr.numeric_nan]
    exact ⟨rfl, rfl⟩
  joined := by
    intro w hjoin
    simp only [Expr.applyBinary, hjoin, Bool.or_comm (Expr.concatenates w), if_true, and_self]
  product := by
    intro op w hop
    rcases hop with rfl | rfl
    · obtain ⟨hleft, hright⟩ := Number.absorbing_sub w.toNumber
      simp only [Expr.applyBinary, h, hleft, hright, Expr.numeric_nan, and_self]
    · obtain ⟨hleft, hright⟩ := Number.absorbing_mul w.toNumber
      simp only [Expr.applyBinary, h, hleft, hright, Expr.numeric_nan, and_self]
  quotient := by
    intro op w hop
    have hzero : Number.nan.isZero = false := rfl
    rcases hop with rfl | rfl
    · obtain ⟨hleft, hright⟩ := Number.absorbing_div w.toNumber
      simp only [Expr.applyBinary, h, hleft, hright, Expr.numeric_nan, hzero, Bool.false_eq_true, if_false, and_self]
    · obtain ⟨hleft, hright⟩ := Number.absorbing_rem w.toNumber
      simp only [Expr.applyBinary, h, hleft, hright, Expr.numeric_nan, hzero, Bool.false_eq_true, if_false, and_self]
  signed := by
    simp only [Expr.applyUnary, h]
    exact ⟨rfl, trivial⟩

theorem numberless_iff : v.Numberless ↔ v.toNumber = .nan := by
  refine ⟨fun h => ?_, numberless_of_nan⟩
  have hplus : Value.num v.toNumber = .num .nan := h.signed.2
  exact Value.num.inj hplus

/-- Which texts stand for a number. They are the empty one, the infinities and the decimal literals, and beside these only
literals with underscores between digits or with digits of other scripts. Every other text is nowhere taken for a
number. -/
theorem toNumber_text_counts (s : String) :
    (((text s).toNumber.isNaN = false) ↔ Number.Counts Numeral.IsNumeral (Text.trim s.toList)) ∧
    (Number.Counts Numeral.IsLiteral (Text.trim s.toList) ↔
      (text s).toNumber.isNaN = false ∧ ∀ c ∈ Text.trim s.toList, Numeral.IsStrict c) ∧
    ((text s).Numberless ↔ ¬ Number.Counts Numeral.IsNumeral (Text.trim s.toList)) := by
  have hcounts : (text s).toNumber.isNaN = false ↔ Number.Counts Numeral.IsNumeral (Text.trim s.toList) :=
    Number.isNaN_ofText_iff
  refine ⟨hcounts, ?_, ?_⟩
  · rw [hcounts]
    exact Number.counts_isLiteral_iff
  · rw [numberless_iff, ← hcounts, Bool.not_eq_false]
    exact ⟨fun h => h ▸ rfl, Number.eq_nan_of_isNaN⟩

/-- An underscore between two digits counts though it occurs in no literal, and two in a row do not count. -/
theorem toNumber_text_counts_separated : (text "1_000").toNumber.isNaN = false ∧
    ¬ Number.Counts Numeral.IsLiteral (Text.trim "1_000".toList) ∧ (text "1__000").Numberless := by
  obtain ⟨-, hliteral, -⟩ := toNumber_text_counts "1_000"
  obtain ⟨hcounts, -, hnone⟩ := toNumber_text_counts "1__000"
  refine ⟨by decide +kernel, fun h => ?_, hnone.mpr fun h => ?_⟩
  · have hstrict := (hliteral.mp h).2 '_' (by decide +kernel)
    exact hstrict.1 rfl
  · have hnan := hcounts.mpr h
    exact absurd hnan (by decide +kernel)

end Value
end FormRules
