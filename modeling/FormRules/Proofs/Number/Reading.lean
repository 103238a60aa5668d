import FormRules.Proofs.Number.Canonical
import FormRules.Proofs.Text.Blank

/-!
# Texts of numbers are read as numbers

The text of a number is read as a number that stands at the same place, whether the text shows an exponent or
not. A text with a comma, which is what a sequence of several items is written as, is read as no number. Where
a number stands also decides whether it fits binary64.
-/

namespace FormRules

namespace Numeral
variable {c : Char} {cs ds : List Char} {negative : Bool}

theorem mem_splitSign (h : c ∈ cs) (hminus : c ≠ '-') (hplus : c ≠ '+') : c ∈ (splitSign cs).2 := by
  unfold splitSign
  split
  · exact (List.mem_cons.mp h).resolve_left hminus
  · exact (List.mem_cons.mp h).resolve_left hplus
  · exact h

/-! ## Plain texts -/

theorem IsPlain.not_blank (h : IsPlain c) : Text.isBlank c = false := by
  have all : ∀ n ∈ Text.runCodes false 0 Text.blankRuns, n ≤ 32 ∨ 128 ≤ n := by decide +kernel
  refine Bool.eq_false_iff.mpr fun hb => ?_
  have hc := all (0 + c.toNat) (Text.mem_runCodes hb)
  have := h.ascii
  omega

theorem trim_of_plain (h : ∀ c ∈ cs, IsPlain c) : Text.trim cs = cs := by
  obtain ⟨lead, trail, hcs, hlead, htrail⟩ := Text.trim_between cs
  have none_blank {l : List Char} (hl : ∀ c ∈ l, Text.isBlank c = true) (hmem : ∀ c ∈ l, c ∈ cs) : l = [] :=
    List.eq_nil_iff_forall_not_mem.mpr fun c hc => by
      have hb := hl c hc
      rw [(h c (hmem c hc)).not_blank] at hb
      cases hb
  have hlead := none_blank hlead fun c hc => by
    rw [hcs]
    exact List.mem_append_left _ (List.mem_append_left _ hc)
  have htrail := none_blank htrail fun c hc => by
    rw [hcs]
    exact List.mem_append_right _ hc
  rw [hlead, htrail, List.nil_append, List.append_nil] at hcs
  exact hcs.symm

/-- A number is read from the digits alone. -/
theorem readInt?_of_plain (h : ∀ c ∈ cs, IsPlain c) : readInt? cs =
    if !(splitSign cs).2.isEmpty && (splitSign cs).2.all Char.isDigit && (splitSign cs).2.length ≤ 4300 then
      some (if (splitSign cs).1 then -(digitsValue (splitSign cs).2 : Int) else digitsValue (splitSign cs).2)
    else none := by
  unfold readInt?
  rw [bare_of_plain h, dropSeparators_of_plain (by decide) h]
  simp only [Option.bind_eq_bind, Option.bind_some, guard]
  split
  · rfl
  · rfl

/-- What shows a point or an exponent is no integer. -/
theorem readInt?_of_mark (h : ∀ c ∈ cs, IsPlain c) (hm : '.' ∈ cs ∨ 'e' ∈ cs) : readInt? cs = none := by
  have hmark : ∃ c ∈ (splitSign cs).2, c.isDigit = false := by
    rcases hm with hm | hm
    · exact ⟨'.', mem_splitSign hm (by decide) (by decide), rfl⟩
    · exact ⟨'e', mem_splitSign hm (by decide) (by decide), rfl⟩
  rw [readInt?_of_plain h, if_neg]
  obtain ⟨c, hc, hd⟩ := hmark
  simp only [Bool.and_eq_true, List.all_eq_true, not_and]
  intro h
  exact absurd (h.2 c hc) (by simp [hd])

/-! ## Digits -/

/-- Digits, behind a minus sign if they show a negative number. -/
def signed (negative : Bool) (ds : List Char) : List Char := if negative then '-' :: ds else ds

/-- The integer that such digits show. -/
def signedValue (negative : Bool) (ds : List Char) : Int := if negative then -(digitsValue ds : Int) else digitsValue ds

theorem splitSign_signed (hd : ∀ c ∈ ds, c.isDigit = true) (hne : ds ≠ []) :
    splitSign (signed negative ds) = (negative, ds) := by
  cases negative with
  | true => rfl
  | false =>
    obtain ⟨d, rest, rfl⟩ := List.exists_cons_of_ne_nil hne
    exact splitSign_of_digit (hd d List.mem_cons_self)

theorem signed_plain (hd : ∀ c ∈ ds, c.isDigit = true) : ∀ c ∈ signed negative ds, IsPlain c := by
  have hplain : ∀ c ∈ ds, IsPlain c := fun c hc => .of_digit (hd c hc)
  cases negative with
  | true => exact List.forall_mem_cons.mpr ⟨.inr (by decide), hplain⟩
  | false => exact hplain

theorem signed_ne_nil (hne : ds ≠ []) : signed negative ds ≠ [] := by
  cases negative with
  | true => exact List.cons_ne_nil _ _
  | false => exact hne

theorem readInt?_signed (hd : ∀ c ∈ ds, c.isDigit = true) (hne : ds ≠ []) :
    readInt? (signed negative ds) = if ds.length ≤ 4300 then some (signedValue negative ds) else none := by
  have hdigits : ds.all Char.isDigit = true := List.all_eq_true.mpr hd
  rw [readInt?_of_plain (signed_plain hd), splitSign_signed hd hne]
  simp [hdigits, hne, signedValue]

theorem readDecimal?_digits (hd : ∀ c ∈ ds, c.isDigit = true) (hne : ds ≠ []) :
    readDecimal? (signed negative ds) = some (Decimal.toBinary64 negative ⟨digitsValue ds, 0⟩) := by
  obtain ⟨d, rest, rfl⟩ := List.exists_cons_of_ne_nil hne
  refine readDecimal?_signed negative (fun c hc => .of_digit (hd c hc)) ⟨d, rest, rfl, hd d List.mem_cons_self⟩ ?_
  have htake : (d :: rest).takeWhile Char.isDigit = d :: rest := List.takeWhile_eq_self_iff.mpr hd
  have hdrop : (d :: rest).dropWhile Char.isDigit = [] := List.dropWhile_eq_nil_iff.mpr hd
  simp [readUnsigned?, htake, hdrop, readExponent?, guard]

theorem intChars_eq (n : Int) : intChars n = signed (n < 0) (Nat.toDigits 10 n.natAbs) := by
  simp only [intChars, signed, decide_eq_true_eq]

theorem signedValue_toDigits (n : Int) : signedValue (n < 0) (Nat.toDigits 10 n.natAbs) = n := by
  simp only [signedValue, digitsValue_toDigits, decide_eq_true_eq]
  split <;> omega

theorem readInt?_intChars {n : Int} (h : digitCount n.natAbs ≤ 4300) : readInt? (intChars n) = some n := by
  have hdigits : ∀ c ∈ Nat.toDigits 10 n.natAbs, c.isDigit = true := fun c hc => isDigit_of_mem_toDigits hc
  have hlength : (Nat.toDigits 10 n.natAbs).length ≤ 4300 := h
  rw [intChars_eq, readInt?_signed hdigits Nat.toDigits_ne_nil, if_pos hlength, signedValue_toDigits]

/-! ## Texts with a comma -/

theorem mem_toAscii (h : ',' ∈ cs) : ',' ∈ toAscii cs :=
  List.mem_map.mpr ⟨',', h, by decide⟩

theorem mem_dropWhile {p : Char → Bool} (h : c ∈ cs) (hp : p c = false) : c ∈ cs.dropWhile p := by
  rcases List.mem_append.mp ((List.takeWhile_append_dropWhile (p := p) (l := cs)).symm ▸ h) with hm | hm
  · exact absurd (List.mem_takeWhile_imp hm) (by simp [hp])
  · exact hm

theorem mem_bare (h : ',' ∈ cs) : ',' ∈ bare cs := by
  have hblank : isAsciiBlank ',' = false := by decide
  exact List.mem_reverse.mpr (mem_dropWhile (List.mem_reverse.mpr (mem_dropWhile (mem_toAscii h) hblank)) hblank)

theorem mem_dropSeparators {previous : Char} (hs : dropSeparators previous cs = some ds) (h : c ∈ cs) (hc : c ≠ '_') :
    c ∈ ds := by
  induction cs generalizing previous ds with
  | nil => cases h
  | cons a cs ih =>
    rw [dropSeparators] at hs
    split at hs
    · next ha =>
      split at hs
      · exact ih hs ((List.mem_cons.mp h).resolve_left (ha ▸ hc))
      · cases hs
    · split at hs
      · cases hs
      · obtain ⟨es, hes, rfl⟩ := Option.map_eq_some_iff.mp hs
        rcases List.mem_cons.mp h with rfl | h
        · exact List.mem_cons_self
        · exact List.mem_cons_of_mem _ (ih hes h)

theorem readExponent?_of_comma (h : ',' ∈ cs) : readExponent? cs = none := by
  cases cs with
  | nil => cases h
  | cons a cs =>
    unfold readExponent?
    by_cases ha : a = ','
    · subst ha
      rfl
    · have hmem : ',' ∈ (splitSign cs).2 :=
        mem_splitSign ((List.mem_cons.mp h).resolve_left (Ne.symm ha)) (by decide) (by decide)
      have hall : (splitSign cs).2.all Char.isDigit = false :=
        List.all_eq_false.mpr ⟨',', hmem, by decide⟩
      simp [guard, hall]

theorem readUnsigned?_of_comma (h : ',' ∈ cs) : readUnsigned? negative cs = none := by
  have hcomma {l : List Char} (hl : ',' ∈ l) : ',' ∈ l.dropWhile Char.isDigit := mem_dropWhile hl (by decide)
  have hrest := hcomma h
  unfold readUnsigned?
  dsimp only
  generalize cs.dropWhile Char.isDigit = rest at hrest ⊢
  split
  · next more =>
    have hmore := hcomma ((List.mem_cons.mp hrest).resolve_left (by decide))
    simp only [readExponent?_of_comma hmore, Option.bind_eq_bind, Option.bind_none, Option.bind_fun_none]
  · simp only [readExponent?_of_comma hrest, Option.bind_eq_bind, Option.bind_none, Option.bind_fun_none]

theorem not_all_isDigit (h : ',' ∈ ds) : ¬ (splitSign ds).2.all Char.isDigit = true := fun hall =>
  absurd (List.all_eq_true.mp hall _ (mem_splitSign h (by decide) (by decide))) (by decide)

theorem readInt?_of_comma (h : ',' ∈ cs) : readInt? cs = none := by
  unfold readInt?
  cases hs : dropSeparators ' ' (bare cs) with
  | none => rfl
  | some ds =>
    have hall := not_all_isDigit (mem_dropSeparators hs (mem_bare h) (by decide))
    simp only [Option.bind_eq_bind, Option.bind_some, guard]
    rw [if_neg fun hg => hall (Bool.and_eq_true_iff.mp (Bool.and_eq_true_iff.mp hg).1).2]
    rfl

theorem readDecimal?_of_comma (h : ',' ∈ cs) : readDecimal? cs = none := by
  unfold readDecimal?
  cases hs : dropSeparators ' ' (bare cs) with
  | none => rfl
  | some ds =>
    have hmem : ',' ∈ (splitSign ds).2 :=
      mem_splitSign (mem_dropSeparators hs (mem_bare h) (by decide)) (by decide) (by decide)
    exact readUnsigned?_of_comma hmem

end Numeral

namespace Number
open Numeral
variable {a b : Number} {s : String}

/-- A text that is none of the words is read as an integer, or else as a decimal numeral. -/
theorem ofText_of_no_word (h : String.ofList (Text.trim s.toList) ∉ ["", "Infinity", "+Infinity", "-Infinity"]) :
    ofText s = (readInt? (Text.trim s.toList)).elim
      (.float ((readDecimal? (Text.trim s.toList)).getD .nan)) .int := by
  simp only [List.mem_cons, List.not_mem_nil, or_false, not_or] at h
  unfold ofText
  dsimp only
  split
  · next he => exact absurd he h.1
  · next he => exact absurd he h.2.1
  · next he => exact absurd he h.2.2.1
  · next he => exact absurd he h.2.2.2
  · split
    · next hn => rw [hn, Option.elim_some]
    · next hn => rw [hn, Option.elim_none]

theorem ofText_of_comma (h : ',' ∈ s.toList) : ofText s = .nan := by
  have hmem : ',' ∈ Text.trim s.toList := by
    obtain ⟨lead, trail, hs, hlead, htrail⟩ := Text.trim_between s.toList
    rw [hs, List.mem_append, List.mem_append] at h
    rcases h with (h | h) | h
    · exact absurd (hlead _ h) (by decide)
    · exact h
    · exact absurd (htrail _ h) (by decide)
  rw [ofText_of_no_word, readInt?_of_comma hmem, readDecimal?_of_comma hmem]
  · rfl
  · intro hw
    have hwords : ∀ w ∈ ["", "Infinity", "+Infinity", "-Infinity"], ',' ∉ w.toList := by decide
    exact hwords _ hw (by rwa [String.toList_ofList])

theorem ofText_of_plain (h : ∀ c ∈ s.toList, IsPlain c) (hne : s ≠ "") : ofText s =
    (readInt? s.toList).elim (.float ((readDecimal? s.toList).getD .nan)) .int := by
  have htrim := trim_of_plain h
  rw [ofText_of_no_word, htrim]
  rw [htrim, String.ofList_toList]
  simp only [List.mem_cons, List.not_mem_nil, or_false, not_or]
  have word {w : String} (hw : 'I' ∈ w.toList) : s ≠ w := by
    rintro rfl
    exact absurd (h _ hw) (by simp [IsPlain])
  exact ⟨hne, word (by decide), word (by decide), word (by decide)⟩

/-! ## Reading back -/

theorem representable_of_toInt? {x : Binary64} {n : Int} (h : x.toInt? = some n) :
    Representable (n.natAbs * oneUnits) := by
  have hu := Binary64.units_of_toInt? h
  cases x with
  | nan => cases hu
  | infinity s => cases hu
  | negativeZero =>
    have hzero : 0 = n * (oneUnits : Int) := Option.some.inj hu
    have hpos := oneUnits_pos
    rw [(Int.mul_eq_zero.mp hzero.symm).resolve_right (by omega), Int.natAbs_zero, Nat.zero_mul]
    exact representable_zero
  | finite u hr =>
    have hmul : u = n * oneUnits := Option.some.inj hu
    rwa [hmul, Int.natAbs_mul, Int.natAbs_natCast] at hr

theorem digitCount_of_toInt? {x : Binary64} {n : Int} (h : x.toInt? = some n) : digitCount n.natAbs ≤ 4300 := by
  by_cases hn : n.natAbs = 0
  · rw [hn]
    decide
  have hlt : n.natAbs < overflowUnits :=
    Nat.lt_of_le_of_lt (Nat.le_mul_of_pos_right _ oneUnits_pos) (representable_of_toInt? h).1
  -- the powers are too large to be evaluated, so that the exponents are named
  obtain ⟨b, hb, hpow⟩ : ∃ b, b ≤ 4299 ∧ overflowUnits ≤ 10 ^ b := by
    have hexponent : overflowExponent ≤ 3 * 4299 := by decide
    unfold overflowUnits
    generalize overflowExponent = k at hexponent
    exact ⟨4299, Nat.le_refl _, two_pow_le_ten_pow hexponent⟩
  have hsize : digitCount n.natAbs - 1 < b := (Nat.pow_lt_pow_iff_right (by decide : 1 < 10)).mp
    (Nat.lt_of_le_of_lt (pow_digitCount_le hn) (Nat.lt_of_lt_of_le hlt hpow))
  omega

/-- Digits are read exactly if there are not too many of them, and else as the nearest binary64 number. -/
theorem ofText_signed {negative : Bool} {ds : List Char} (hd : ∀ c ∈ ds, c.isDigit = true) (hne : ds ≠ []) :
    ofText (String.ofList (signed negative ds)) = if ds.length ≤ 4300 then .int (signedValue negative ds)
      else .float (Decimal.toBinary64 negative ⟨digitsValue ds, 0⟩) := by
  have htext : (String.ofList (signed negative ds)).toList = signed negative ds := String.toList_ofList
  have hnonempty : String.ofList (signed negative ds) ≠ "" := fun hempty =>
    signed_ne_nil hne (by rw [← htext, hempty]; rfl)
  rw [ofText_of_plain (by rw [htext]; exact signed_plain hd) hnonempty, htext, readInt?_signed hd hne,
    readDecimal?_digits hd hne]
  split <;> rfl

theorem ofText_intText {n : Int} (h : digitCount n.natAbs ≤ 4300) : ofText (intText n) = .int n := by
  have hdigits : ∀ c ∈ Nat.toDigits 10 n.natAbs, c.isDigit = true := fun c hc => isDigit_of_mem_toDigits hc
  have htext : intText n = String.ofList (signed (n < 0) (Nat.toDigits 10 n.natAbs)) := by
    rw [← intChars_eq, ← intText_toList, String.ofList_toList]
  have hlength : (Nat.toDigits 10 n.natAbs).length ≤ 4300 := h
  rw [htext, ofText_signed hdigits Nat.toDigits_ne_nil, if_pos hlength, signedValue_toDigits]

/-- A text with a point or an exponent is read as the binary64 number that it was written for. -/
theorem ofText_text_float {u : Int} {hr : Representable u.natAbs} (hu : u ≠ 0) :
    ofText (Binary64.finite u hr).text = .float (.finite u hr) := by
  obtain ⟨hplain, hmark, c, cs, hc, -⟩ := @Binary64.text_marked u hr hu
  have hne : (Binary64.finite u hr).text ≠ "" := by
    intro hempty
    rw [hempty] at hc
    cases hc
  rw [ofText_of_plain hplain hne, readInt?_of_mark hplain hmark, Binary64.readDecimal?_text rfl]
  rfl

/-- A finite number is written as an integer, or with a point or an exponent. -/
theorem text_finite_cases (u : Int) (hr : Representable u.natAbs) :
    (∃ n, (Binary64.finite u hr).toInt? = some n ∧ (Number.float (.finite u hr)).text = intText n) ∨
      u ≠ 0 ∧ (Number.float (.finite u hr)).text = (Binary64.finite u hr).text := by
  have hzero (hu : u = 0) : (Binary64.finite u hr).toInt? = some 0 :=
    Binary64.toInt?_of_zero (congrArg some hu)
  unfold Number.text
  dsimp only
  cases hi : (Binary64.finite u hr).toInt? with
  | none =>
    refine .inr ⟨fun hu => ?_, rfl⟩
    rw [hzero hu] at hi
    cases hi
  | some n =>
    by_cases hn : n.natAbs < Nat.pow 10 21
    · exact .inl ⟨n, rfl, if_pos hn⟩
    · refine .inr ⟨fun hu => hn ?_, if_neg hn⟩
      rw [hzero hu] at hi
      cases hi
      decide

/-- The text of a binary64 number is read as a number at its place. -/
theorem standing_ofText_float (x : Binary64) : (ofText (Number.float x).text).standing = x.standing := by
  cases x with
  | nan => decide +kernel
  | infinity s => cases s <;> decide +kernel
  | negativeZero => decide +kernel
  | finite u hr =>
    rcases text_finite_cases u hr with ⟨n, hn, ht⟩ | ⟨hu, ht⟩
    · rw [ht, ofText_intText (digitCount_of_toInt? hn)]
      exact (Binary64.standing_of_units (Binary64.units_of_toInt? hn)).symm
    · rw [ht, ofText_text_float hu]
      rfl

theorem toInt?_of_standing {n : Int} {x : Binary64} (h : (Number.int n).standing = (Number.float x).standing) :
    x.toInt? = some n :=
  Binary64.toInt?_of_units (Binary64.units_of_standing h.symm)

theorem int_of_standing {m n : Int} (h : (Number.int m).standing = (Number.int n).standing) : m = n := by
  have hmul : m * (oneUnits : Int) = n * oneUnits := Standing.units.inj h
  exact Int.eq_of_mul_eq_mul_right (by have := oneUnits_pos; omega) hmul

/-- The texts of numbers at one place are read as numbers at one place. -/
theorem standing_ofText_congr (h : a.standing = b.standing) :
    (ofText a.text).standing = (ofText b.text).standing := by
  have mixed {n : Int} {x : Binary64} (h : (Number.int n).standing = (Number.float x).standing) :
      (ofText (intText n)).standing = (ofText (Number.float x).text).standing := by
    rw [ofText_intText (digitCount_of_toInt? (toInt?_of_standing h)), standing_ofText_float]
    exact h
  cases a with
  | int m =>
    cases b with
    | int n => rw [int_of_standing h]
    | float y => exact mixed h
  | float x =>
    cases b with
    | int n => exact (mixed h.symm).symm
    | float y =>
      rw [standing_ofText_float, standing_ofText_float]
      exact h

theorem isInfinite_ofUnits_iff (negative : Bool) {num den : Nat} :
    (Binary64.ofUnits negative num den).isInfinite = true ↔ overflowUnits ≤ roundUnits num den := by
  have hpos := overflowUnits_pos
  unfold Binary64.ofUnits
  split_ifs with hzero hlt hnegative
  · have hfinite : (Binary64.zeroOf negative).isInfinite = false := by cases negative <;> rfl
    rw [hfinite, hzero]
    exact iff_of_false nofun (Nat.not_le.mpr hpos)
  · exact iff_of_false nofun (Nat.not_le.mpr hlt)
  · exact iff_of_false nofun (Nat.not_le.mpr hlt)
  · exact iff_of_true rfl (Nat.not_lt.mp hlt)

theorem fitsBinary64_int {n : Int} :
    (Number.int n).fitsBinary64 = true ↔ roundUnits (n.natAbs * oneUnits) 1 < overflowUnits := by
  rw [← Nat.not_le, ← isInfinite_ofUnits_iff (n < 0), fitsBinary64, toBinary64?, Binary64.ofRatio]
  split_ifs with h <;> simp [h]

theorem fitsBinary64_of_toInt? {n : Int} {x : Binary64} (h : x.toInt? = some n) :
    (Number.int n).fitsBinary64 = true := by
  have hr := representable_of_toInt? h
  rw [fitsBinary64_int, roundUnits_of_representable hr]
  exact hr.1

/-- Where a number stands decides whether it fits binary64. -/
theorem fitsBinary64_congr (h : a.standing = b.standing) : a.fitsBinary64 = b.fitsBinary64 := by
  cases a with
  | int m =>
    cases b with
    | int n => rw [int_of_standing h]
    | float y => exact fitsBinary64_of_toInt? (toInt?_of_standing h)
  | float x =>
    cases b with
    | int n => exact (fitsBinary64_of_toInt? (toInt?_of_standing h.symm)).symm
    | float y => rfl

end Number
end FormRules
