import FormRules.Expr.Eval
import FormRules.Proofs.Number.Order

/-!
# Integers in other bases

An integer is written in a base from its last digit on, until nothing is left. In every round, reading what has been
written behind what is left gives the number that the loop began with, so that the whole text is a numeral for it. It is the
only one without a zero in front of other digits and without a sign in front of zero.
-/

namespace FormRules

namespace Radix
variable {r : Radix} {c : Char} {cs ds : List Char} {d m n : Nat}

/-! ## Reading numerals -/

/-- The digits of all bases, by what they stand for. -/
def figures : List Char := "0123456789abcdefghijklmnopqrstuvwxyz".toList

/-- What a character stands for as a digit of the base. -/
def digitValue? (r : Radix) (c : Char) : Option Nat := (figures.idxOf? c).filter (· < r.base)

/-- Reads digits behind a number that has been read. -/
def readFrom? (r : Radix) (n : Nat) : List Char → Option Nat
  | [] => some n
  | c :: cs => (r.digitValue? c).bind fun d => r.readFrom? (r.base * n + d) cs

/-- Reads a numeral without a sign; it has at least one digit. -/
def readNat? (r : Radix) (cs : List Char) : Option Nat := if cs = [] then none else r.readFrom? 0 cs

/-- Whether a minus sign stands in front, and what is behind it. -/
def splitMinus : List Char → Bool × List Char
  | '-' :: ds => (true, ds)
  | ds => (false, ds)

/-- Reads a numeral, which may have a minus sign in front. -/
def readInt? (r : Radix) (cs : List Char) : Option Int :=
  (r.readNat? (splitMinus cs).2).map fun n : Nat => if (splitMinus cs).1 then -(n : Int) else n

/-- Nothing in front of the numeral could be left out: if its digits begin with a zero, they are this zero alone, and it
has no sign. -/
def IsReduced (cs : List Char) : Prop := (splitMinus cs).2.head? = some '0' → cs = ['0']

instance : Decidable (IsReduced cs) := inferInstanceAs (Decidable (_ → _))

/-! ## Bases and digits -/

theorem base_pos (r : Radix) : 0 < r.base := Nat.lt_of_lt_of_le Nat.two_pos r.two_le

theorem ofInt?_base (r : Radix) : ofInt? r.base = some r := by
  have hbase : 2 ≤ (r.base : Int) ∧ (r.base : Int) ≤ 36 :=
    ⟨Int.ofNat_le.mpr r.two_le, Int.ofNat_le.mpr r.le_thirtySix⟩
  rw [ofInt?, dif_pos hbase]
  rfl

theorem digitValue?_digit (h : d < r.base) : r.digitValue? (digit d) = some d := by
  have all : ∀ d < 36, figures.idxOf? (digit d) = some d := by decide
  rw [digitValue?, all d (Nat.lt_of_lt_of_le h r.le_thirtySix), Option.filter_some, if_pos (decide_eq_true h)]

theorem of_digitValue? (h : r.digitValue? c = some d) : c = digit d ∧ d < r.base := by
  have all : ∀ d < 36, figures[d]? = some (digit d) := by decide
  obtain ⟨hidx, hlt⟩ := Option.filter_eq_some_iff.mp h
  have hlt : d < r.base := of_decide_eq_true hlt
  obtain ⟨hd, hc, -⟩ := List.idxOf?_eq_some_iff.mp hidx
  have hfigure := all d hd
  rw [List.getElem?_eq_getElem hd, hc] at hfigure
  exact ⟨Option.some.inj hfigure, hlt⟩

theorem digit_eq_zero_iff (h : d < r.base) : digit d = '0' ↔ d = 0 := by
  refine ⟨fun hd => ?_, fun hd => hd ▸ rfl⟩
  have hzero : r.digitValue? '0' = some 0 := digitValue?_digit r.base_pos
  rw [← hd, digitValue?_digit h] at hzero
  exact Option.some.inj hzero

/-! ## Writing -/

theorem write_digit (h : d < r.base) : r.write d ds = digit d :: ds := by
  rw [write, if_pos (Nat.div_eq_of_lt h), Nat.mod_eq_of_lt h]

theorem write_mul_add (h : d < r.base) (hm : m ≠ 0) :
    r.write (r.base * m + d) ds = r.write m (digit d :: ds) := by
  have hdiv : (r.base * m + d) / r.base = m := by
    rw [Nat.mul_add_div r.base_pos, Nat.div_eq_of_lt h, Nat.add_zero]
  rw [write, hdiv, if_neg hm, Nat.mul_add_mod, Nat.mod_eq_of_lt h]

/-- One round of the loop: the digit that it writes says what it takes from what is left. -/
theorem readFrom?_div_mod (n : Nat) (ds : List Char) :
    r.readFrom? (n / r.base) (digit (n % r.base) :: ds) = r.readFrom? n ds := by
  rw [readFrom?, digitValue?_digit (Nat.mod_lt n r.base_pos), Option.bind_some, Nat.div_add_mod]

/-- The whole loop: reading from nothing what has been written is reading on behind the number. -/
theorem readFrom?_write (n : Nat) (ds : List Char) : r.readFrom? 0 (r.write n ds) = r.readFrom? n ds := by
  fun_induction write r n ds with
  | case1 n ds written hstop => rw [← hstop, readFrom?_div_mod]
  | case2 n ds written hnext ih => rw [ih, readFrom?_div_mod]

theorem write_eq_cons (hn : n ≠ 0) (ds : List Char) : ∃ d es, d ≠ 0 ∧ d < r.base ∧ r.write n ds = digit d :: es := by
  fun_induction write r n ds with
  | case1 n ds written hstop =>
    have hlt : n < r.base := (Nat.div_eq_zero_iff_lt r.base_pos).mp hstop
    exact ⟨n % r.base, ds, by rwa [Nat.mod_eq_of_lt hlt], Nat.mod_lt n r.base_pos, rfl⟩
  | case2 n ds written hnext ih => exact ih hnext

theorem write_zero (ds : List Char) : r.write 0 ds = '0' :: ds := write_digit r.base_pos

theorem readNat?_write (n : Nat) : r.readNat? (r.write n []) = some n := by
  have hne : r.write n [] ≠ [] := by
    by_cases hn : n = 0
    · simp [hn, write_zero]
    · obtain ⟨d, es, -, -, hw⟩ := write_eq_cons (r := r) hn []
      simp [hw]
  rw [readNat?, if_neg hne, readFrom?_write, readFrom?]

/-- Digits that have been read behind a number are what the loop writes before it comes to that number. -/
theorem write_of_readFrom? (hm : m ≠ 0) (h : r.readFrom? m cs = some n) (ds : List Char) :
    r.write n ds = r.write m (cs ++ ds) := by
  induction cs generalizing m with
  | nil => rw [Option.some.inj h, List.nil_append]
  | cons c cs ih =>
    obtain ⟨d, hd, hrest⟩ := Option.bind_eq_some_iff.mp h
    obtain ⟨rfl, hlt⟩ := of_digitValue? hd
    -- what has been read never gets back to zero, so that the loop does not stop in front of these digits
    have hnext : r.base * m + d ≠ 0 := by
      have := Nat.mul_ne_zero r.base_pos.ne' hm
      omega
    rw [ih hnext hrest, write_mul_add hlt hm, List.cons_append]

/-- A numeral without a sign, and without a zero that could be left out, is what is written. -/
theorem eq_write_of_readNat? (h : r.readNat? cs = some n) (hzero : cs.head? = some '0' → cs = ['0']) :
    cs = r.write n [] := by
  cases cs with
  | nil => cases h
  | cons c cs =>
    rw [readNat?, if_neg (List.cons_ne_nil c cs), readFrom?] at h
    obtain ⟨d, hd, hrest⟩ := Option.bind_eq_some_iff.mp h
    obtain ⟨rfl, hlt⟩ := of_digitValue? hd
    rw [Nat.mul_zero, Nat.zero_add] at hrest
    by_cases hd0 : d = 0
    · subst hd0
      cases hzero rfl
      cases hrest
      exact (write_zero []).symm
    · rw [write_of_readFrom? hd0 hrest, List.append_nil, write_digit hlt]

/-! ## Signs -/

theorem splitMinus_eq (cs : List Char) : cs = Numeral.signed (splitMinus cs).1 (splitMinus cs).2 := by
  unfold splitMinus
  split <;> rfl

theorem splitMinus_signed {negative : Bool} (h : r.readNat? ds = some n) :
    splitMinus (Numeral.signed negative ds) = (negative, ds) := by
  have hminus : ∀ es, ds ≠ '-' :: es := by
    rintro es rfl
    cases h
  cases negative with
  | true => rfl
  | false =>
    show splitMinus ds = (false, ds)
    unfold splitMinus
    split
    · exact absurd rfl (hminus _)
    · rfl

theorem readInt?_signed {negative : Bool} (h : r.readNat? ds = some n) :
    r.readInt? (Numeral.signed negative ds) = some (if negative then -(n : Int) else n) := by
  rw [readInt?, splitMinus_signed h, h, Option.map_some]

theorem toList_text (n : Int) : (r.text n).toList = Numeral.signed (n < 0) (r.write n.natAbs []) := by
  simp only [text, Numeral.signed, decide_eq_true_eq, String.toList_ofList]

theorem readInt?_text (n : Int) : r.readInt? (r.text n).toList = some n := by
  rw [toList_text, readInt?_signed (readNat?_write n.natAbs)]
  congr 1
  split_ifs with h <;> simp only [decide_eq_true_eq] at h <;> omega

theorem isReduced_text (n : Int) : IsReduced (r.text n).toList := by
  rw [IsReduced, toList_text, splitMinus_signed (readNat?_write n.natAbs)]
  intro hzero
  by_cases hn : n = 0
  · rw [hn]
    exact write_zero []
  · obtain ⟨d, es, hd, hlt, hw⟩ := write_eq_cons (r := r) (Int.natAbs_ne_zero.mpr hn) []
    rw [hw] at hzero
    exact absurd ((digit_eq_zero_iff hlt).mp (Option.some.inj hzero)) hd

/-- No other text is such a numeral. -/
theorem eq_text_of_readInt? {n : Int} (h : r.readInt? cs = some n) (hcs : IsReduced cs) : cs = (r.text n).toList := by
  obtain ⟨m, hm, rfl⟩ := Option.map_eq_some_iff.mp h
  have hzero : (splitMinus cs).2.head? = some '0' → (splitMinus cs).2 = ['0'] := fun hhead => by
    rw [hcs hhead]
    rfl
  have hds := eq_write_of_readNat? hm hzero
  -- behind a sign there is no zero, or else the sign could be left out
  have hsign : (splitMinus cs).1 = true → m ≠ 0 := by
    rintro hminus rfl
    rw [write_zero] at hds
    rw [hcs (by rw [hds]; rfl)] at hminus
    cases hminus
  rw [toList_text]
  conv_lhs => rw [splitMinus_eq cs, hds]
  cases hminus : (splitMinus cs).1 with
  | true =>
    have hm0 := hsign hminus
    rw [if_pos rfl, Int.natAbs_neg, Int.natAbs_natCast, decide_eq_true (by omega)]
  | false =>
    rw [if_neg Bool.false_ne_true, Int.natAbs_natCast, decide_eq_false (by omega)]

end Radix

/-! ## The method -/

namespace Method
variable {r : Radix} {x : Number} {n : Int} {v : Value}

theorem numberText_of_radix (hx : x.toInt? = some n) (hn : n.natAbs < 2 ^ 1024 - 2 ^ 970)
    (hradix : position v 0 = r.base) (hten : r.base ≠ 10) : numberText x v = .ok (.text (r.text n)) := by
  have hfits : x.fitsBinary64 = true := by
    cases x with
    | int k =>
      cases hx
      exact Number.fitsBinary64_int_iff.mpr hn
    | float y => rfl
  have hother : ¬ (v.isUndefined = true ∨ (r.base : Int) = 10) := by
    rintro (hundefined | heq)
    · cases v with
      | undefined =>
        have hzero : (0 : Int) = r.base := hradix
        have := r.base_pos
        omega
      | _ => cases hundefined
    · exact hten (Int.ofNat.inj heq)
  simp only [numberText, hradix, if_neg hother, Radix.ofInt?_base, hfits, hx]
  rfl

end Method

namespace Expr
variable {m : Type → Type} [Monad m] [LawfulMonad m] {lookup : String → m (Option Value)} {locals : Scope} {o arg : Node}
  {x : Number} {v : Value}

theorem eval_toString (optionalMember optional : Bool) (ho : eval lookup locals o = pure (.num x))
    (harg : eval lookup locals arg = pure v) :
    eval lookup locals (.call (.member o "toString" optionalMember) [arg] optional) =
      ExceptT.mk (pure ((Method.numberText x v).mapError .cause)) := by
  have hallowed : (ExceptT.mk (pure (admitMethod (.num x) "toString")) : ExceptT Stop m Unit) = pure () := rfl
  have hargs : evalAll lookup locals [arg] = pure [v] := by
    rw [evalAll, harg, pure_bind, evalAll, pure_bind]
  rw [eval, ho, pure_bind]
  show (do
    ExceptT.mk (pure (admitMethod (.num x) "toString"))
    let values ← evalAll lookup locals [arg]
    ExceptT.mk (pure (callMethod (.num x) "toString" values))) = _
  rw [hallowed, hargs, pure_bind, pure_bind]
  rfl

/-- A number with an integral value, within the range of binary64 numbers, is written in every base but ten as a numeral
for this value. No other numeral for it is without zeros in front of its digits, and without a sign in front of zero. -/
theorem eval_toString_radix (r : Radix) {n : Int} (optionalMember optional : Bool)
    (ho : eval lookup locals o = pure (.num x)) (harg : eval lookup locals arg = pure v)
    (hx : x.toInt? = some n) (hn : n.natAbs < 2 ^ 1024 - 2 ^ 970)
    (hradix : Method.position v 0 = r.base) (hten : r.base ≠ 10) :
    ∃ s : String, eval lookup locals (.call (.member o "toString" optionalMember) [arg] optional) = pure (.text s) ∧
      r.readInt? s.toList = some n ∧ Radix.IsReduced s.toList ∧
      ∀ t : String, r.readInt? t.toList = some n → Radix.IsReduced t.toList → t = s := by
  refine ⟨r.text n, ?_, Radix.readInt?_text n, Radix.isReduced_text n, fun t ht hreduced => ?_⟩
  · rw [eval_toString optionalMember optional ho harg, Method.numberText_of_radix hx hn hradix hten]
    rfl
  · exact String.toList_inj.mp (Radix.eq_text_of_readInt? ht hreduced)

/-- A negative integer in base sixteen, and negative zero in base two. -/
theorem eval_toString_radix_signed :
    let lookup (_ : String) : Id (Option Value) := pure none
    let locals : Scope := [("n", .int (-255)), ("zero", .num (.float .negativeZero))]
    eval lookup locals (.call (.member (.identifier "n") "toString" false) [.literal (.int 16)] false) =
        pure (.text "-ff") ∧
      eval lookup locals (.call (.member (.identifier "zero") "toString" false) [.literal (.int 2)] false) =
        pure (.text "0") := by
  intro lookup locals
  have hn : eval lookup locals (.identifier "n") = pure (.int (-255)) := rfl
  have hsixteen : eval lookup locals (.literal (.int 16)) = pure (.int 16) := rfl
  have hzero : eval lookup locals (.identifier "zero") = pure (.num (.float .negativeZero)) := rfl
  have htwo : eval lookup locals (.literal (.int 2)) = pure (.int 2) := rfl
  obtain ⟨s, hs, -, -, honly⟩ := eval_toString_radix ⟨16, by decide, by decide⟩ false false hn hsixteen rfl
    (by decide +kernel) rfl (by decide)
  obtain ⟨t, ht, -, -, hzeroOnly⟩ := eval_toString_radix ⟨2, by decide, by decide⟩ false false hzero htwo
    (by decide +kernel : Number.toInt? (.float .negativeZero) = some 0) (by decide +kernel) rfl (by decide)
  rw [hs, ht, ← honly "-ff" (by decide) (by decide), ← hzeroOnly "0" (by decide) (by decide)]
  exact ⟨rfl, rfl⟩

end Expr
end FormRules
