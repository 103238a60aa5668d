import FormRules.Proofs.Number.Text
import FormRules.Value.Canonical

/-!
# Canonical texts of numbers

Two numbers have the same canonical text just if they stand at the same place of the extended line: the
place can be told from the text.
-/

namespace FormRules
open Numeral

theorem oneUnits_pos : 0 < oneUnits := by
  unfold oneUnits
  generalize 1074 = k
  exact Nat.two_pow_pos k

theorem Binary64.units_of_toInt? {x : Binary64} {n : Int} (h : x.toInt? = some n) : x.units? = some (n * oneUnits) := by
  unfold toInt? at h
  cases hu : x.units? with
  | none =>
    rw [hu] at h
    cases h
  | some u =>
    rw [hu] at h
    dsimp only at h
    split at h
    · next hmod =>
      cases h
      rw [Int.ediv_mul_cancel (Int.dvd_of_emod_eq_zero hmod)]
    · cases h

theorem Binary64.toInt?_of_units {x : Binary64} {n : Int} (h : x.units? = some (n * oneUnits)) : x.toInt? = some n := by
  have hpos : (oneUnits : Int) ≠ 0 := by have := oneUnits_pos; omega
  unfold toInt?
  rw [h]
  dsimp only
  rw [if_pos (Int.mul_emod_left ..), Int.mul_ediv_cancel _ hpos]

theorem Binary64.toInt?_of_zero {x : Binary64} (h : x.units? = some 0) : x.toInt? = some 0 :=
  toInt?_of_units (by rw [h, Int.zero_mul])

theorem Binary64.standing_of_units {x : Binary64} {u : Int} (h : x.units? = some u) : x.standing = .units u := by
  cases x with
  | nan => cases h
  | infinity s => cases h
  | negativeZero => cases h; rfl
  | finite n hr => cases h; rfl

theorem Binary64.units_of_standing {x : Binary64} {u : Int} (h : x.standing = .units u) : x.units? = some u := by
  cases x with
  | nan => cases h
  | infinity s => cases s <;> cases h
  | negativeZero => cases h; rfl
  | finite n hr => cases h; rfl

/-! ## Characters -/

theorem plain_intChars (n : Int) : ∀ c ∈ intChars n, c.isDigit = true ∨ c = '-' := by
  intro c hc
  unfold intChars at hc
  split at hc
  · rcases List.mem_cons.mp hc with rfl | hc
    · exact .inr rfl
    · exact .inl (isDigit_of_mem_toDigits hc)
  · exact .inl (isDigit_of_mem_toDigits hc)

theorem head_intChars (n : Int) : ∃ c cs, intChars n = c :: cs ∧ (c.isDigit = true ∨ c = '-') := by
  cases h : intChars n with
  | nil =>
    obtain ⟨d, ds, hd, -⟩ := head_toDigits n.natAbs
    unfold intChars at h
    split at h
    · cases h
    · rw [hd] at h
      cases h
  | cons c cs => exact ⟨c, cs, rfl, plain_intChars n c (h ▸ List.mem_cons_self)⟩

theorem splitSign_intChars (n : Int) : splitSign (intChars n) = (decide (n < 0), Nat.toDigits 10 n.natAbs) := by
  unfold intChars
  by_cases hn : n < 0
  · rw [if_pos hn, decide_eq_true hn]
    rfl
  · rw [if_neg hn, decide_eq_false hn]
    obtain ⟨d, ds, hd, hdigit⟩ := head_toDigits n.natAbs
    rw [hd]
    exact splitSign_of_digit hdigit

theorem intChars_injective : Function.Injective intChars := by
  intro m n h
  have hsplit := congrArg splitSign h
  rw [splitSign_intChars, splitSign_intChars, Prod.mk.injEq, decide_eq_decide] at hsplit
  have hdigits := congrArg digitsValue hsplit.2
  rw [digitsValue_toDigits, digitsValue_toDigits] at hdigits
  omega

theorem intText_injective : Function.Injective intText := by
  intro m n h
  have hchars := congrArg String.toList h
  rw [intText_toList, intText_toList] at hchars
  exact intChars_injective hchars

namespace Binary64

/-- The shortest text of a number other than zero shows a point or an exponent. -/
theorem text_marked {u : Int} {hr : Representable u.natAbs} (hu : u ≠ 0) :
    (∀ c ∈ (finite u hr).text.toList, IsPlain c) ∧
      ('.' ∈ (finite u hr).text.toList ∨ 'e' ∈ (finite u hr).text.toList) ∧
      ∃ c cs, (finite u hr).text.toList = c :: cs ∧ (c.isDigit = true ∨ c = '-') := by
  rw [text_finite hu]
  have hmark : '.' ∈ written (shortest u.natAbs) ∨ 'e' ∈ written (shortest u.natAbs) := mark_mem_layout
  split
  · refine ⟨List.forall_mem_cons.mpr ⟨.inr (by decide), plain_written _⟩, ?_, _, _, rfl, .inr rfl⟩
    exact hmark.imp (List.mem_cons_of_mem _) (List.mem_cons_of_mem _)
  · obtain ⟨c, cs, hc, hdigit⟩ := head_written (shortest u.natAbs)
    exact ⟨plain_written _, hmark, c, cs, hc, .inl hdigit⟩

/-- The text of a number that is no integer: it shows a point or an exponent. -/
theorem text_broken {x : Binary64} (hx : x.units?.isSome = true) (hi : x.toInt? = none) :
    (∀ c ∈ x.text.toList, IsPlain c) ∧ ('.' ∈ x.text.toList ∨ 'e' ∈ x.text.toList) ∧
      ∃ c cs, x.text.toList = c :: cs ∧ (c.isDigit = true ∨ c = '-') := by
  cases x with
  | nan => cases hx
  | infinity s => cases hx
  | negativeZero => exact absurd ((toInt?_of_zero rfl).symm.trans hi) nofun
  | finite u hr =>
    refine text_marked ?_
    rintro rfl
    exact absurd ((toInt?_of_zero rfl).symm.trans hi) nofun

end Binary64

/-- The place that a canonical text of a number tells. -/
def Standing.ofCanonical (cs : List Char) : Standing :=
  if cs = ['N', 'a', 'N'] then .nowhere
  else if 'y' ∈ cs then (if '-' ∈ cs then .bottom else .top)
  else if '.' ∈ cs ∨ 'e' ∈ cs then (readDecimal? cs).elim .nowhere Binary64.standing
  else
    let (negative, digits) := splitSign cs
    .units ((if negative then -(digitsValue digits : Int) else digitsValue digits) * oneUnits)

namespace Number

theorem canonical_of_units {x : Binary64} (hx : x.units?.isSome = true) :
    (Number.float x).canonical = x.toInt?.elim x.text intText := by
  have hnan : x ≠ .nan := by
    rintro rfl
    cases hx
  have hinf (s : Bool) : x ≠ .infinity s := by
    rintro rfl
    cases hx
  rw [canonical]
  · cases x.toInt? <;> rfl
  · exact hnan
  · exact hinf

/-- The kinds of canonical texts of numbers. -/
theorem canonical_cases (a : Number) :
    (a.standing = .nowhere ∧ a.canonical.toList = ['N', 'a', 'N']) ∨
    (a.standing = .bottom ∧ a.canonical.toList = '-' :: "Infinity".toList) ∨
    (a.standing = .top ∧ a.canonical.toList = "Infinity".toList) ∨
    (∃ n, a.standing = .units (n * oneUnits) ∧ a.canonical.toList = intChars n) ∨
    ∃ x : Binary64, a = .float x ∧ x.units?.isSome = true ∧ x.toInt? = none ∧ a.canonical = x.text := by
  cases a with
  | int n => exact .inr (.inr (.inr (.inl ⟨n, rfl, intText_toList n⟩)))
  | float x =>
    cases hu : x.units? with
    | none =>
      cases x with
      | nan => exact .inl ⟨rfl, rfl⟩
      | infinity s =>
        cases s with
        | true => exact .inr (.inl ⟨rfl, rfl⟩)
        | false => exact .inr (.inr (.inl ⟨rfl, rfl⟩))
      | negativeZero => cases hu
      | finite u hr => cases hu
    | some u =>
      have hx : x.units?.isSome = true := by rw [hu]; rfl
      have hc := canonical_of_units hx
      cases hi : x.toInt? with
      | some n =>
        rw [hi] at hc
        refine .inr (.inr (.inr (.inl ⟨n, Binary64.standing_of_units (Binary64.units_of_toInt? hi), ?_⟩)))
        rw [hc]
        exact intText_toList n
      | none =>
        rw [hi] at hc
        exact .inr (.inr (.inr (.inr ⟨x, rfl, hx, hi, hc⟩)))

/-- The canonical text of a number tells where the number stands. -/
theorem ofCanonical_canonical (a : Number) : Standing.ofCanonical a.canonical.toList = a.standing := by
  rcases canonical_cases a with ⟨ha, hc⟩ | ⟨ha, hc⟩ | ⟨ha, hc⟩ | ⟨n, ha, hc⟩ | ⟨x, rfl, hx, hi, hc⟩
  · rw [hc, ha]
    rfl
  · rw [hc, ha]
    rfl
  · rw [hc, ha]
    rfl
  · have hplain := plain_intChars n
    have hnot (c : Char) (hd : c.isDigit = false) (hm : c ≠ '-') : c ∉ intChars n := fun h =>
      (hplain c h).elim (by simp [hd]) hm
    rw [hc, ha, Standing.ofCanonical, if_neg, if_neg (hnot 'y' rfl (by decide)), if_neg, splitSign_intChars]
    · dsimp only
      rw [digitsValue_toDigits]
      congr 2
      split
      · next h =>
        have := of_decide_eq_true h
        omega
      · next h =>
        have := of_decide_eq_false (Bool.eq_false_iff.mpr h)
        omega
    · exact not_or.mpr ⟨hnot '.' rfl (by decide), hnot 'e' rfl (by decide)⟩
    · intro h
      exact hnot 'N' rfl (by decide) (h ▸ List.mem_cons_self)
  · obtain ⟨hplain, hmark, -⟩ := Binary64.text_broken hx hi
    have hnot (c : Char) (hd : ¬ IsPlain c) : c ∉ x.text.toList := fun h => hd (hplain c h)
    have hword : x.text.toList ≠ ['N', 'a', 'N'] := fun h =>
      hnot 'N' (by simp [IsPlain]) (h ▸ List.mem_cons_self)
    rw [hc, Standing.ofCanonical, if_neg hword, if_neg (hnot 'y' (by simp [IsPlain])),
      if_pos hmark, Binary64.readDecimal?_text hx]
    rfl

theorem canonical_of_whole {a : Number} {n : Int} (h : a.standing = .units (n * oneUnits)) :
    a.canonical = intText n := by
  cases a with
  | int m =>
    have hmul : m * (oneUnits : Int) = n * oneUnits := Standing.units.inj h
    rw [Int.eq_of_mul_eq_mul_right (by have := oneUnits_pos; omega) hmul]
    rfl
  | float x =>
    have hu : x.units? = some (n * oneUnits) := Binary64.units_of_standing h
    rw [canonical_of_units (by rw [hu]; rfl), Binary64.toInt?_of_units hu, Option.elim_some]

/-- A number that is no integer is the only one at its place. -/
theorem eq_of_standing {a b : Number} (h : a.standing = b.standing)
    (hw : ∀ n : Int, a.standing ≠ .units (n * oneUnits)) : a = b := by
  cases a with
  | int m => exact absurd rfl (hw m)
  | float x =>
    cases b with
    | int n => exact absurd h (hw n)
    | float y =>
      congr 1
      have hzero : Number.standing (.float x) ≠ .units 0 := Int.zero_mul (oneUnits : Int) ▸ hw 0
      cases x with
      | nan =>
        cases y with
        | nan => rfl
        | infinity t => cases t <;> cases h
        | negativeZero => cases h
        | finite v hv => cases h
      | infinity s =>
        cases y with
        | infinity t => cases s <;> cases t <;> first | rfl | cases h
        | nan => cases s <;> cases h
        | negativeZero => cases s <;> cases h
        | finite v hv => cases s <;> cases h
      | negativeZero => exact absurd rfl hzero
      | finite u hu =>
        cases y with
        | nan => cases h
        | infinity t => cases t <;> cases h
        | negativeZero => exact absurd h hzero
        | finite v hv =>
          cases Standing.units.inj h
          rfl

/-- Where a number stands decides its canonical text. -/
theorem canonical_of_standing {a b : Number} (h : a.standing = b.standing) : a.canonical = b.canonical := by
  by_cases hw : ∃ n : Int, a.standing = .units (n * oneUnits)
  · obtain ⟨n, hn⟩ := hw
    rw [canonical_of_whole hn, canonical_of_whole (h.symm.trans hn)]
  · rw [eq_of_standing h (not_exists.mp hw)]

theorem canonical_eq_iff {a b : Number} : a.canonical = b.canonical ↔ a.standing = b.standing := by
  refine ⟨fun h => ?_, canonical_of_standing⟩
  rw [← ofCanonical_canonical a, h, ofCanonical_canonical]

theorem isNaN_iff (a : Number) : a.isNaN = true ↔ a.standing = .nowhere := by
  cases a with
  | int n => exact iff_of_false nofun nofun
  | float x =>
    cases x with
    | nan => exact iff_of_true rfl rfl
    | infinity s => cases s <;> exact iff_of_false nofun nofun
    | negativeZero => exact iff_of_false nofun nofun
    | finite n h => exact iff_of_false nofun nofun

theorem standing_eq_iff (a b : Number) : a.standing = b.standing ↔ (a.eq b || (a.isNaN && b.isNaN)) = true := by
  rw [Bool.or_eq_true, Bool.and_eq_true, isNaN_iff, isNaN_iff, eq]
  cases a.standing <;> cases b.standing <;> simp [Standing.eq]

/-! ## The characters of canonical texts -/

/-- A canonical text of a number begins with a digit, a sign or the letter of a word. -/
theorem head_canonical (a : Number) :
    ∃ c cs, a.canonical.toList = c :: cs ∧ (c.isDigit = true ∨ c ∈ ['-', 'N', 'I']) := by
  rcases canonical_cases a with ⟨-, hc⟩ | ⟨-, hc⟩ | ⟨-, hc⟩ | ⟨n, -, hc⟩ | ⟨x, -, hx, hi, hc⟩
  · exact ⟨_, _, hc, .inr (by decide)⟩
  · exact ⟨_, _, hc, .inr (by decide)⟩
  · exact ⟨_, _, hc, .inr (by decide)⟩
  · obtain ⟨c, cs, hcs, hd⟩ := head_intChars n
    exact ⟨c, cs, hc.trans hcs, hd.imp_right fun (h : c = '-') => h ▸ List.mem_cons_self⟩
  · obtain ⟨-, -, c, cs, hcs, hd⟩ := Binary64.text_broken hx hi
    exact ⟨c, cs, hc ▸ hcs, hd.imp_right fun (h : c = '-') => h ▸ List.mem_cons_self⟩

/-- No character of a canonical text of a number ends a value. -/
theorem not_mem_canonical (a : Number) {c : Char} (hc : c ∈ [',', ']', '\x7d']) : c ∉ a.canonical.toList := by
  have hwords : c ∉ ['N', 'a', 'N'] ∧ c ∉ "Infinity".toList ∧ c ≠ '-' := by
    simp only [List.mem_cons, List.not_mem_nil, or_false] at hc
    rcases hc with rfl | rfl | rfl <;> decide
  have hplain : c.isDigit = false ∧ ¬ IsPlain c := by
    simp only [List.mem_cons, List.not_mem_nil, or_false] at hc
    rcases hc with rfl | rfl | rfl <;> simp [IsPlain]
  rcases canonical_cases a with ⟨-, h⟩ | ⟨-, h⟩ | ⟨-, h⟩ | ⟨n, -, h⟩ | ⟨x, -, hx, hi, h⟩
  · exact h ▸ hwords.1
  · rw [h, List.mem_cons, not_or]
    exact ⟨hwords.2.2, hwords.2.1⟩
  · exact h ▸ hwords.2.1
  · rw [h]
    intro hm
    exact (plain_intChars n c hm).elim (by simp [hplain.1]) hwords.2.2
  · rw [h]
    exact fun hm => hplain.2 ((Binary64.text_broken hx hi).1 c hm)

end Number
end FormRules
