import FormRules.Form.Validate
import FormRules.Proofs.Number.Order
import FormRules.Proofs.Validation.Compile
import FormRules.Validation.Snapshot

/-!
# Bounds of numbers

The rules about the least and the largest number compare exactly, integers and texts of digits among them. An integer
that cannot be made a binary64 number makes the check fault before it has compared; the fault is reported, and the field
passes whatever its bound is.
-/

namespace FormRules
open Numeral

/-! ## Integers -/

/-- The integer that a value shows, as a number or in digits. -/
inductive Value.Shows : Value → Int → Prop
  | number (n : Int) : Shows (.int n) n
  | digits (negative : Bool) (ds : List Char) (hd : ∀ c ∈ ds, c.isDigit = true) (hne : ds ≠ [])
      (hlength : ds.length ≤ 4300) : Shows (.text (String.ofList (signed negative ds))) (signedValue negative ds)

theorem Value.Shows.toNumber {v : Value} {n : Int} (h : v.Shows n) : v.toNumber = .int n := by
  cases h with
  | number => rfl
  | digits negative ds hd hne hlength => rw [Value.toNumber, Number.ofText_signed hd hne, if_pos hlength]

/-! ## The two comparisons -/

/-- Where a number can be compared: integers must round to a finite binary64 number. -/
def Number.InRange : Number → Prop
  | .int n => n.natAbs < 2 ^ 1024 - 2 ^ 970
  | .float _ => True

theorem Number.fitsBinary64_iff {a : Number} : a.fitsBinary64 = true ↔ a.InRange := by
  cases a with
  | int n => exact fitsBinary64_int_iff
  | float x => exact iff_of_true rfl trivial

section
variable {op : Number → Number → Bool} {v w : Value}

theorem Comparison.numeric_of_inRange (hv : v.toNumber.isNaN = false) (hw : w.toNumber.isNaN = false)
    (hrange : v.toNumber.InRange ∧ w.toNumber.InRange) : numeric op v w = .ok (op v.toNumber w.toNumber) := by
  simp only [numeric, Number.fitsBinary64_iff.mpr hrange.1, Number.fitsBinary64_iff.mpr hrange.2, hv, hw]
  rfl

theorem Comparison.numeric_of_not_inRange (hv : v.toNumber.isNaN = false)
    (hrange : ¬ (v.toNumber.InRange ∧ w.toNumber.InRange)) : numeric op v w = .error (.breach .tooLarge) := by
  rw [← Number.fitsBinary64_iff, ← Number.fitsBinary64_iff, not_and, Bool.not_eq_true] at hrange
  cases hfits : v.toNumber.fitsBinary64 with
  | false => simp only [numeric, hfits]; rfl
  | true => simp only [numeric, hfits, hrange hfits, hv]; rfl

end

namespace Builtin
variable {rule : Builtin} {v bound : Value}

/-- Whether what is measured violates a bound. -/
def Breaks {α : Type} [LT α] (rule : Builtin) (x bound : α) : Prop :=
  match rule with
  | min => x < bound
  | max => bound < x
  | _ => False

/-- The comparison that a rule about a bound makes. -/
def breaks (rule : Builtin) (x bound : Number) : Bool := if rule = .min then x.lt bound else bound.lt x

theorem breaks_iff {x l : Number} (hrule : rule = .min ∨ rule = .max) (hx : x.isNaN = false) (hl : l.isNaN = false) :
    rule.breaks x l = true ↔ rule.Breaks x.value l.value := by
  rcases hrule with rfl | rfl
  · exact Number.lt_iff hx hl
  · exact Number.lt_iff hl hx

theorem breaks_int_iff {m n : Int} (hrule : rule = .min ∨ rule = .max) :
    rule.breaks (.int m) (.int n) = true ↔ rule.Breaks m n := by
  rw [breaks_iff hrule rfl rfl]
  rcases hrule with rfl | rfl <;> exact Number.value_int_lt_iff

theorem check_of_bound (hrule : rule = .min ∨ rule = .max) (hv : v.isBlank = false) (hbound : bound.isNullish = false) :
    rule.check v bound = failIf (Comparison.numeric rule.breaks v bound) (rule.boundParams bound "actual" v) := by
  rcases hrule with rfl | rfl <;> simp only [check, failure, hv, hbound] <;> rfl

end Builtin

/-! ## Validators of a bound -/

/-- What does not report does nothing. -/
def Host.Quiet {m : Type → Type} [Monad m] (h : Host m) : Prop := ∀ {α : Type} (a : α), h.lift (pure a) = pure a

theorem Host.quiet_snapshot (fs : Functions) : (Host.snapshot fs).Quiet := fun _ => rfl

theorem Host.quiet_consulting (fs : Functions) : (Host.consulting fs).Quiet := fun _ => rfl

theorem Live.quiet_hostAt (fs : Functions) (field : List Key) : (hostAt fs field).Quiet := fun _ => rfl

section
variable {m : Type → Type} [Monad m] (h : Host m) (c : Context)

/-- The bound of a validator in a context. -/
def Host.boundOf (v : Validator) : m Value := if v.expression.isNull then pure v.value else h.valueOf v.expression c

/-- What a validator with a built-in rule finds once its bound is known. -/
def Validator.judge (v : Validator) (rule : Builtin) (bound : Value) : m (Option ValidationError) := do
  match ← h.lift (rule.check c.current bound).run with
  | .ok params => return params.map fun ps => v.error c ps .null
  | .error _ =>
    h.lift (Journal.report .validatorFailed)
    return none

variable [LawfulMonad m]

theorem CompiledValidator.check_of_builtin {v : CompiledValidator} {rule : Builtin}
    (hsource : v.source = .builtin rule) : (v.check h c).run = (do
      let bound ← h.boundOf c v.config
      match ← h.lift (rule.check c.current bound).run with
      | .ok params => return .ok (params.map fun ps => v.config.error c ps .null)
      | .error f => return .error f) := by
  have rest (bound : Value) : (do
      let params ← ExceptT.mk (h.lift (rule.check c.current bound).run)
      return params.map fun ps => v.config.error c ps .null : ExceptT Fault m (Option ValidationError)).run = (do
        match ← h.lift (rule.check c.current bound).run with
        | .ok params => return .ok (params.map fun ps => v.config.error c ps .null)
        | .error f => return .error f) := by
    rw [ExceptT.run_bind]
    refine bind_congr fun o => ?_
    cases o <;> rfl
  unfold CompiledValidator.check Host.boundOf
  rw [hsource]
  dsimp only
  split
  · rw [pure_bind, pure_bind]
    exact rest _
  · rw [ExceptT.run_bind, show (liftM (h.valueOf v.config.expression c) : ExceptT Fault m Value).run =
      Except.ok <$> h.valueOf v.config.expression c from rfl, bind_map_left]
    exact bind_congr rest

theorem CompiledValidator.validate_of_builtin {v : CompiledValidator} {rule : Builtin}
    (htype : v.config.type = .builtin rule) (hsource : v.source = .builtin rule) (hguards : v.config.guards = []) :
    v.validate h c = h.boundOf c v.config >>= v.config.judge h c rule := by
  unfold CompiledValidator.validate
  rw [htype, hguards, CompiledValidator.check_of_builtin h c hsource]
  simp only [ValidatorType.isAsync, Host.guardsHold, pure_bind, bind_assoc]
  refine bind_congr fun bound => ?_
  unfold Validator.judge
  refine bind_congr fun o => ?_
  cases o with
  | ok params => exact pure_bind _ _
  | error f => exact pure_bind _ _

variable {h c} {rule : Builtin} {bound : Value}

theorem Validator.judge_of_ok {v : Validator} {params : Option Entries} (hquiet : h.Quiet)
    (hcheck : rule.check c.current bound = pure params) :
    v.judge h c rule bound = return params.map fun ps => v.error c ps .null := by
  rw [judge, hcheck, show (pure params : Checking (Option Entries)).run = pure (.ok params) from rfl, hquiet, pure_bind]

theorem Validator.judge_of_error {v : Validator} {f : Fault} (hquiet : h.Quiet)
    (hcheck : rule.check c.current bound = throw f) : v.judge h c rule bound = (do
      h.lift (Journal.report .validatorFailed)
      return none) := by
  rw [judge, hcheck, show (throw f : Checking (Option Entries)).run = pure (.error f) from rfl, hquiet, pure_bind]

/-- A validator about the least or the largest number compares exactly what is in range, and finds an error if the bound
is broken. Beyond the range it finds nothing, whatever is compared, and the fault is reported. -/
theorem CompiledValidator.validate_of_bound {fs : Functions} {config : Validator} {v : CompiledValidator}
    (hquiet : h.Quiet) (hv : config.compile fs = .ok v) (htype : config.type = .builtin rule)
    (hrule : rule = .min ∨ rule = .max) (hguards : config.guards = []) (hblank : c.current.isBlank = false)
    (hx : c.current.toNumber.isNaN = false) :
    v.validate h c = h.boundOf c config >>= config.judge h c rule ∧
      ∀ bound : Value, bound.isNullish = false → bound.toNumber.isNaN = false →
        (c.current.toNumber.InRange ∧ bound.toNumber.InRange → ∃ found : Bool,
          config.judge h c rule bound =
            (return if found then some (config.error c (rule.boundParams bound "actual" c.current) .null) else none) ∧
          (found = true ↔ rule.Breaks c.current.toNumber.value bound.toNumber.value) ∧
          ∀ k l, c.current.Shows k → bound.Shows l → (found = true ↔ rule.Breaks k l)) ∧
        (¬ (c.current.toNumber.InRange ∧ bound.toNumber.InRange) → config.judge h c rule bound = (do
          h.lift (Journal.report .validatorFailed)
          return none)) := by
  have hconfig := Validator.config_of_compile hv
  have hsource : v.source = .builtin rule := by
    rw [Validator.compile, htype] at hv
    cases hv
    rfl
  constructor
  · rw [validate_of_builtin h c (hconfig ▸ htype) hsource (hconfig ▸ hguards), hconfig]
  intro bound hbound hl
  have hcheck := Builtin.check_of_bound hrule hblank hbound
  constructor
  · intro hrange
    rw [Comparison.numeric_of_inRange hx hl hrange] at hcheck
    refine ⟨rule.breaks c.current.toNumber bound.toNumber, ?_, Builtin.breaks_iff hrule hx hl, fun k l hk hl => ?_⟩
    · rw [Validator.judge_of_ok hquiet hcheck]
      cases rule.breaks c.current.toNumber bound.toNumber <;> rfl
    · rw [hk.toNumber, hl.toNumber, Builtin.breaks_int_iff hrule]
  · intro hrange
    rw [Comparison.numeric_of_not_inRange hx hrange] at hcheck
    exact Validator.judge_of_error hquiet hcheck

end

/-- A field `amount` that holds a value. -/
def amount (v : Value) : Context := Context.forKeys (.object [("amount", v)]) [.name "amount"] .undefined none

/-- Twelve, in digits, is beyond ten; an integer of more than four hundred digits passes. -/
theorem CompiledValidator.validate_of_bound_ten :
    let config : Validator := { type := .builtin .max, value := .int 10 }
    let v : CompiledValidator := ⟨config, .builtin .max⟩
    v.validate (Host.snapshot {}) (amount (.text "12")) = (return some (config.error (amount (.text "12"))
      [(.name "max", .int 10), (.name "actual", .text "12")] .null)) ∧
    v.validate (Host.snapshot {}) (amount (.int (10 ^ 400 : Nat))) = (do
      Journal.report .validatorFailed
      return none) := by
  intro config v
  have hv : config.compile {} = .ok v := rfl
  have hbound (c : Context) : (Host.snapshot {}).boundOf c config = pure (.int 10) := rfl
  constructor
  · obtain ⟨hjudge, hverdict⟩ := validate_of_bound (c := amount (.text "12")) (Host.quiet_snapshot {}) hv rfl
      (.inr rfl) rfl (by decide) (by decide)
    have hshows : (amount (.text "12")).current.Shows 12 :=
      .digits false ['1', '2'] (List.all_eq_true.mp rfl) (by decide) (by decide)
    obtain ⟨found, hfound, -, hints⟩ := (hverdict (.int 10) rfl rfl).1
      ⟨Number.fitsBinary64_iff.mp (by decide +kernel), Number.fitsBinary64_iff.mp (by decide +kernel)⟩
    have hbreaks : Builtin.max.Breaks (12 : Int) 10 := show (10 : Int) < 12 by decide
    rw [hjudge, hbound, pure_bind, hfound, (hints 12 10 hshows (.number 10)).mpr hbreaks]
    rfl
  · have beyond (n : Nat) (hn : 2 ^ 1024 ≤ n) : v.validate (Host.snapshot {}) (amount (.int n)) = (do
        Journal.report .validatorFailed
        return none) := by
      obtain ⟨hjudge, hverdict⟩ := validate_of_bound (c := amount (.int n)) (Host.quiet_snapshot {}) hv rfl (.inr rfl)
        rfl rfl rfl
      have hrange : ¬ (Number.int n).InRange := Nat.not_lt.mpr (Nat.le_trans (Nat.sub_le _ _) hn)
      rw [hjudge, hbound, pure_bind]
      exact (hverdict (.int 10) rfl rfl).2 fun h => hrange h.1
    exact beyond (10 ^ 400) (two_pow_le_ten_pow (by decide))

end FormRules
