import FormRules.Proofs.Number.Reading
import Mathlib.Data.List.Chain

/-!
# What is read as a number

A decimal literal has an optional sign, digits with or without a point, and an optional exponent. A text counts as a
number if, blanks around it aside, it is empty, an infinity or such a literal. In a literal the digits of every script
count as the ASCII ones, and an underscore may stand between any two digits.
-/

namespace FormRules

theorem Binary64.isNaN_zeroOf (negative : Bool) : (zeroOf negative).isNaN = false := by cases negative <;> rfl

theorem Decimal.isNaN_toBinary64 (negative : Bool) (d : Decimal) : (d.toBinary64 negative).isNaN = false := by
  unfold toBinary64 Binary64.ofRatio Binary64.ofUnits
  dsimp only
  split_ifs <;> first | rfl | exact Binary64.isNaN_zeroOf negative

namespace Numeral
variable {c previous : Char} {cs ds ws ps sign body m e : List Char} {negative : Bool}

/-! ## Literals -/

/-- An optional sign. -/
def IsSign (cs : List Char) : Prop := cs = [] ∨ cs = ['+'] ∨ cs = ['-']

/-- Digits, with or without a point. -/
inductive IsMantissa : List Char → Prop
  | whole {ws : List Char} (hw : ∀ c ∈ ws, c.isDigit = true) (hne : ws ≠ []) : IsMantissa ws
  | pointed {ws ps : List Char} (hw : ∀ c ∈ ws, c.isDigit = true) (hp : ∀ c ∈ ps, c.isDigit = true)
    (hne : ¬ (ws = [] ∧ ps = [])) : IsMantissa (ws ++ '.' :: ps)

/-- An optional exponent. -/
inductive IsExponent : List Char → Prop
  | absent : IsExponent []
  | power {mark : Char} {sign ds : List Char} (hmark : mark = 'e' ∨ mark = 'E') (hs : IsSign sign)
    (hd : ∀ c ∈ ds, c.isDigit = true) (hne : ds ≠ []) : IsExponent (mark :: (sign ++ ds))

/-- A decimal literal. -/
inductive IsLiteral : List Char → Prop
  | mk {sign m e : List Char} (hs : IsSign sign) (hm : IsMantissa m) (he : IsExponent e) : IsLiteral (sign ++ (m ++ e))

theorem isSign_splitSign (cs : List Char) : ∃ sign, IsSign sign ∧ cs = sign ++ (splitSign cs).2 := by
  unfold splitSign
  split
  · exact ⟨['-'], .inr (.inr rfl), rfl⟩
  · exact ⟨['+'], .inr (.inl rfl), rfl⟩
  · exact ⟨[], .inl rfl, rfl⟩

theorem splitSign_append (hs : IsSign sign) (hbody : ∀ c ∈ body.head?, c ≠ '-' ∧ c ≠ '+') :
    (splitSign (sign ++ body)).2 = body := by
  rcases hs with rfl | rfl | rfl
  · rw [List.nil_append]
    unfold splitSign
    split
    · exact absurd rfl (hbody '-' rfl).1
    · exact absurd rfl (hbody '+' rfl).2
    · rfl
  · rfl
  · rfl

/-- Digits do not begin with a sign. -/
theorem head_digits (hd : ∀ c ∈ ds, c.isDigit = true) : ∀ c ∈ ds.head?, c ≠ '-' ∧ c ≠ '+' := by
  intro c hc
  have hdigit := hd c (List.mem_of_head? hc)
  refine ⟨?_, ?_⟩
  · rintro rfl
    cases hdigit
  · rintro rfl
    cases hdigit

theorem IsMantissa.head (hm : IsMantissa m) (rest : List Char) : ∀ c ∈ (m ++ rest).head?, c ≠ '-' ∧ c ≠ '+' := by
  cases hm with
  | whole hw hne =>
    obtain ⟨d, ws, rfl⟩ := List.exists_cons_of_ne_nil hne
    rintro c ⟨⟩
    exact head_digits hw d rfl
  | @pointed ws ps hw hp hne =>
    cases ws with
    | nil =>
      rintro c ⟨⟩
      decide
    | cons d ws =>
      rintro c ⟨⟩
      exact head_digits hw d rfl

theorem all_digits_iff : (!ds.isEmpty && ds.all Char.isDigit) = true ↔ ds ≠ [] ∧ ∀ c ∈ ds, c.isDigit = true := by
  simp

theorem readExponent?_isSome_iff : (readExponent? cs).isSome = true ↔ IsExponent cs := by
  constructor
  · intro h
    cases cs with
    | nil => exact .absent
    | cons mark cs =>
      obtain ⟨sign, hs, hcs⟩ := isSign_splitSign cs
      unfold readExponent? at h
      by_cases hmark : mark = 'e' ∨ mark = 'E'
      · by_cases hd : (!(splitSign cs).2.isEmpty && (splitSign cs).2.all Char.isDigit) = true
        · obtain ⟨hne, hdigits⟩ := all_digits_iff.mp hd
          rw [hcs]
          exact .power hmark hs hdigits hne
        · simp [guard, hmark, hd] at h
      · simp [guard, hmark] at h
  · intro h
    cases h with
    | absent => rfl
    | @power mark sign ds hmark hs hd hne =>
      have hguard := all_digits_iff.mpr ⟨hne, hd⟩
      have hsplit := splitSign_append hs (head_digits hd)
      unfold readExponent?
      simp [guard, hmark, hsplit, hguard]

theorem IsExponent.head {e : List Char} (he : IsExponent e) : ∀ c ∈ e.head?, c.isDigit = false ∧ c ≠ '.' := by
  cases he with
  | absent => nofun
  | @power mark sign ds hmark hs hd hne =>
    rintro c ⟨⟩
    rcases hmark with rfl | rfl
    · decide
    · decide

/-- The digits in front end where something else begins. -/
theorem span_digits {rest : List Char} (hd : ∀ c ∈ ds, c.isDigit = true) (hrest : ∀ c ∈ rest.head?, c.isDigit = false) :
    (ds ++ rest).takeWhile Char.isDigit = ds ∧ (ds ++ rest).dropWhile Char.isDigit = rest := by
  cases rest with
  | nil =>
    rw [List.append_nil]
    exact ⟨List.takeWhile_eq_self_iff.mpr hd, List.dropWhile_eq_nil_iff.mpr hd⟩
  | cons c rest => exact takeWhile_digits rest hd (hrest c rfl)

/-- A reading behind a check gives something if the check holds and what is read first is there. -/
theorem isSome_guarded {α β : Type} {b : Bool} {o : Option α} {f : α → β} :
    (do guard (b = true); let a ← o; return f a : Option β).isSome = true ↔ b = true ∧ o.isSome = true := by
  cases b with
  | false => exact iff_of_false nofun fun h => nomatch h.1
  | true =>
    cases o with
    | none => exact iff_of_false nofun fun h => nomatch h.2
    | some a => exact iff_of_true rfl ⟨rfl, rfl⟩

theorem exists_of_readUnsigned? (h : (readUnsigned? negative cs).isSome = true) :
    ∃ m e, cs = m ++ e ∧ IsMantissa m ∧ IsExponent e := by
  have hwhole : ∀ c ∈ cs.takeWhile Char.isDigit, c.isDigit = true := fun c hc => List.mem_takeWhile_imp hc
  have hcs : cs.takeWhile Char.isDigit ++ cs.dropWhile Char.isDigit = cs := List.takeWhile_append_dropWhile
  unfold readUnsigned? at h
  dsimp only at h
  generalize cs.takeWhile Char.isDigit = ws at h hwhole hcs
  generalize cs.dropWhile Char.isDigit = rest at h hcs
  split at h
  · next more =>
    have hplaces : ∀ c ∈ more.takeWhile Char.isDigit, c.isDigit = true := fun c hc => List.mem_takeWhile_imp hc
    have hmore : more.takeWhile Char.isDigit ++ more.dropWhile Char.isDigit = more := List.takeWhile_append_dropWhile
    generalize more.takeWhile Char.isDigit = ps at h hplaces hmore
    generalize more.dropWhile Char.isDigit = e at h hmore
    obtain ⟨hsome, he⟩ := isSome_guarded.mp h
    refine ⟨ws ++ '.' :: ps, e, ?_, .pointed hwhole hplaces (not_and_or.mpr ?_), readExponent?_isSome_iff.mp he⟩
    · rw [← hcs, ← hmore, List.append_assoc, List.cons_append]
    · simpa using hsome
  · obtain ⟨hsome, he⟩ := isSome_guarded.mp h
    exact ⟨ws, rest, hcs.symm, .whole hwhole (by simpa using hsome), readExponent?_isSome_iff.mp he⟩

theorem readUnsigned?_append (hm : IsMantissa m) (he : IsExponent e) :
    (readUnsigned? negative (m ++ e)).isSome = true := by
  have hread := readExponent?_isSome_iff.mpr he
  have hdigit : ∀ c ∈ e.head?, c.isDigit = false := fun c hc => (he.head c hc).1
  cases hm with
  | whole hw hne =>
    obtain ⟨htake, hdrop⟩ := span_digits hw hdigit
    unfold readUnsigned?
    simp only [htake, hdrop]
    split
    · exact absurd rfl (he.head '.' rfl).2
    · exact isSome_guarded.mpr ⟨by simp [hne], hread⟩
  | @pointed ws ps hw hp hne =>
    obtain ⟨htake, hdrop⟩ := takeWhile_digits (ps ++ e) hw (by decide : '.'.isDigit = false)
    obtain ⟨hptake, hpdrop⟩ := span_digits hp hdigit
    rw [List.append_assoc, List.cons_append]
    unfold readUnsigned?
    simp only [htake, hdrop, hptake, hpdrop]
    exact isSome_guarded.mpr ⟨by simpa using not_and_or.mp hne, hread⟩

theorem readSigned?_isSome_iff :
    (readUnsigned? (splitSign cs).1 (splitSign cs).2).isSome = true ↔ IsLiteral cs := by
  constructor
  · intro h
    obtain ⟨m, e, hcs, hm, he⟩ := exists_of_readUnsigned? h
    obtain ⟨sign, hs, hsign⟩ := isSign_splitSign cs
    rw [hsign, hcs]
    exact .mk hs hm he
  · rintro ⟨hs, hm, he⟩
    rw [splitSign_append hs (hm.head _)]
    exact readUnsigned?_append hm he

/-! ## Separators -/

/-- An underscore stands beside digits only. -/
def Beside (a b : Char) : Prop := (a = '_' → b.isDigit = true) ∧ (b = '_' → a.isDigit = true)

/-- Every underscore stands between two digits. -/
structure IsSeparated (cs : List Char) : Prop where
  beside : cs.IsChain Beside
  head : '_' ∉ cs.head?
  last : '_' ∉ cs.getLast?

/-- The text without its underscores. -/
def joined (cs : List Char) : List Char := cs.filter (· ≠ '_')

theorem beside_separator : Beside previous '_' ↔ previous.isDigit = true := by
  refine ⟨fun h => h.2 rfl, fun h => ⟨?_, fun _ => h⟩⟩
  rintro rfl
  cases h

theorem beside_of_ne (hc : c ≠ '_') : Beside previous c ↔ (previous = '_' → c.isDigit = true) :=
  and_iff_left fun h => absurd h hc

/-- Separators are dropped if each has a digit on either side, the character read before the text among them. -/
theorem dropSeparators_eq_some_iff : dropSeparators previous cs = some ds ↔
    (previous :: cs).IsChain Beside ∧ '_' ∉ (previous :: cs).getLast? ∧ ds = joined cs := by
  induction cs generalizing previous ds with
  | nil =>
    by_cases hp : previous = '_'
    · simp [dropSeparators, hp]
    · simp [dropSeparators, hp, joined, eq_comm]
  | cons c cs ih =>
    rw [List.isChain_cons_cons, List.getLast?_cons_cons, dropSeparators]
    by_cases hc : c = '_'
    · subst hc
      rw [if_pos rfl, beside_separator]
      by_cases hp : previous.isDigit = true
      · rw [if_pos hp, ih, and_iff_right hp]
        rfl
      · simp [hp]
    · have hjoin : joined (c :: cs) = c :: joined cs := List.filter_cons_of_pos (by simp [hc])
      rw [if_neg hc, beside_of_ne hc, hjoin]
      by_cases hp : previous = '_' → c.isDigit = true
      · have hguard : ¬ (decide (previous = '_') && !c.isDigit) = true := by simpa using hp
        simp only [if_neg hguard, Option.map_eq_some_iff, ih, and_iff_right hp]
        constructor
        · rintro ⟨es, ⟨hchain, hlast, rfl⟩, rfl⟩
          exact ⟨hchain, hlast, rfl⟩
        · rintro ⟨hchain, hlast, rfl⟩
          exact ⟨_, ⟨hchain, hlast, rfl⟩, rfl⟩
      · have hguard : (decide (previous = '_') && !c.isDigit) = true := by simpa using hp
        rw [if_pos hguard]
        exact iff_of_false (Option.some_ne_none ds).symm fun h => hp h.1.1

theorem dropSeparators_blank : dropSeparators ' ' cs = some ds ↔ IsSeparated cs ∧ ds = joined cs := by
  rw [dropSeparators_eq_some_iff, ← and_assoc]
  refine and_congr_left' ?_
  cases cs with
  | nil => exact iff_of_true ⟨.singleton _, by decide⟩ ⟨.nil, nofun, nofun⟩
  | cons c cs =>
    rw [List.isChain_cons_cons, List.getLast?_cons_cons]
    constructor
    · rintro ⟨⟨hbeside, hchain⟩, hlast⟩
      refine ⟨hchain, ?_, hlast⟩
      rintro ⟨⟩
      exact absurd (hbeside.2 rfl) (by decide)
    · rintro ⟨hchain, hhead, hlast⟩
      exact ⟨⟨⟨nofun, fun hc => absurd (congrArg some hc) hhead⟩, hchain⟩, hlast⟩

/-! ## Digits of every script -/

/-- A digit of any script as an ASCII digit; any other character stays. -/
def asDigit (c : Char) : Char :=
  match Text.digitValue? c with
  | some d => Char.ofNat (48 + d)
  | none => c

/-- What is a decimal literal once its underscores, which must stand between digits, are dropped. -/
structure IsGrouped (cs : List Char) : Prop where
  separated : IsSeparated cs
  literal : IsLiteral (joined cs)

/-- A decimal literal with the digits of any script, and underscores between digits. -/
def IsNumeral (cs : List Char) : Prop := IsGrouped (cs.map asDigit)

theorem isDigit_ofNat {d : Nat} (h : d < 10) : (Char.ofNat (48 + d)).isDigit = true := by
  have all : ∀ d < 10, (Char.ofNat (48 + d)).isDigit = true := by decide
  exact all d h

theorem digitValue?_lt {d : Nat} (h : Text.digitValue? c = some d) : d < 10 := by
  unfold Text.digitValue? at h
  split_ifs at h with hdigit hascii
  · obtain ⟨hlow, hhigh⟩ := Char.isDigit_iff_toNat.mp hdigit
    have h9 : '9'.toNat = 57 := rfl
    have hd := Option.some.inj h
    omega
  · obtain ⟨z, hz, hd⟩ := Option.map_eq_some_iff.mp h
    have hrow : z ≤ c.toNat ∧ c.toNat < z + 10 := by simpa using List.find?_some hz
    omega

theorem asDigit_of_ascii (h : c.toNat < 128) : asDigit c = c := by
  unfold asDigit Text.digitValue?
  by_cases hdigit : c.isDigit = true
  · have hlow : '0'.toNat ≤ c.toNat := (Char.isDigit_iff_toNat.mp hdigit).1
    have h0 : '0'.toNat = 48 := rfl
    rw [if_pos hdigit]
    dsimp only
    rw [show 48 + (c.toNat - 48) = c.toNat by omega, Char.ofNat_toNat]
  · rw [if_neg hdigit, if_pos h]

theorem digitValue?_blank (h : Text.isBlank c = true) : Text.digitValue? c = none := by
  have all : ∀ n ∈ Text.runCodes false 0 Text.blankRuns, Text.digitValue? (Char.ofNat n) = none := by decide +kernel
  have hc := all (0 + c.toNat) (Text.mem_runCodes h)
  rwa [Nat.zero_add, Char.ofNat_toNat] at hc

/-- The characters of literals. -/
def IsShown (c : Char) : Prop := IsPlain c ∨ c = 'E'

/-- The characters that may occur in a literal with separators. -/
def IsMark (c : Char) : Prop := IsShown c ∨ c = '_'

theorem IsShown.ascii (h : IsShown c) : 32 < c.toNat ∧ c.toNat < 128 ∧ c ≠ '_' ∧ c ≠ '?' := by
  rcases h with h | rfl
  · obtain ⟨hlow, hhigh, hne⟩ := h.ascii
    refine ⟨hlow, hhigh, hne, ?_⟩
    rintro rfl
    exact absurd h (by simp [IsPlain])
  · decide

theorem IsMark.ascii (h : IsMark c) : 32 < c.toNat ∧ c.toNat < 128 ∧ c ≠ '?' := by
  rcases h with h | rfl
  · exact ⟨h.ascii.1, h.ascii.2.1, h.ascii.2.2.2⟩
  · decide

theorem IsSign.shown (h : IsSign sign) : ∀ c ∈ sign, IsShown c := by
  rcases h with rfl | rfl | rfl
  · nofun
  · exact List.forall_mem_singleton.mpr (.inl (.inr (by decide)))
  · exact List.forall_mem_singleton.mpr (.inl (.inr (by decide)))

theorem shown_of_digits (h : ∀ c ∈ ds, c.isDigit = true) : ∀ c ∈ ds, IsShown c := fun c hc => .inl (.of_digit (h c hc))

theorem IsMantissa.shown (h : IsMantissa m) : ∀ c ∈ m, IsShown c := by
  cases h with
  | whole hw hne => exact shown_of_digits hw
  | pointed hw hp hne =>
    exact List.forall_mem_append.mpr ⟨shown_of_digits hw,
      List.forall_mem_cons.mpr ⟨.inl (.inr (by decide)), shown_of_digits hp⟩⟩

theorem IsExponent.shown (h : IsExponent e) : ∀ c ∈ e, IsShown c := by
  cases h with
  | absent => nofun
  | power hmark hs hd hne =>
    refine List.forall_mem_cons.mpr ⟨?_, List.forall_mem_append.mpr ⟨hs.shown, shown_of_digits hd⟩⟩
    rcases hmark with rfl | rfl
    · exact .inl (.inr (by decide))
    · exact .inr rfl

theorem IsLiteral.shown (h : IsLiteral cs) : ∀ c ∈ cs, IsShown c := by
  cases h with
  | mk hs hm he => exact List.forall_mem_append.mpr ⟨hs.shown, List.forall_mem_append.mpr ⟨hm.shown, he.shown⟩⟩

theorem IsGrouped.marks (h : IsGrouped cs) : ∀ c ∈ cs, IsMark c := by
  intro c hc
  by_cases hu : c = '_'
  · exact .inr hu
  · exact .inl (h.literal.shown c (List.mem_filter.mpr ⟨hc, by simpa using hu⟩))

/-- The ASCII form of a character. -/
def asciiForm (c : Char) : Char :=
  if c.toNat < 128 then c
  else if Text.isBlank c then ' '
  else match Text.digitValue? c with
    | some d => Char.ofNat (48 + d)
    | none => '?'

theorem toAscii_eq : toAscii cs = cs.map asciiForm := rfl

theorem asciiForm_of_mark (h : IsMark (asciiForm c) ∨ IsMark (asDigit c)) : asciiForm c = asDigit c := by
  unfold asciiForm at *
  split_ifs at h ⊢ with hascii hblank
  · exact (asDigit_of_ascii hascii).symm
  · rcases h with h | h
    · exact absurd h.ascii.1 (by decide)
    · have hc : asDigit c = c := by rw [asDigit, digitValue?_blank hblank]
      exact absurd (hc ▸ h.ascii.2.1) hascii
  · unfold asDigit at *
    cases hd : Text.digitValue? c with
    | some d => rfl
    | none =>
      simp only [hd] at h
      rcases h with h | h
      · exact absurd rfl h.ascii.2.2
      · exact absurd h.ascii.2.1 hascii

theorem isGrouped_toAscii : IsGrouped (toAscii cs) ↔ IsNumeral cs := by
  have hform (h : ∀ c ∈ cs, IsMark (asciiForm c) ∨ IsMark (asDigit c)) : toAscii cs = cs.map asDigit :=
    List.map_congr_left fun c hc => asciiForm_of_mark (h c hc)
  constructor
  · intro h
    rwa [hform fun c hc => .inl (h.marks _ (List.mem_map_of_mem hc))] at h
  · intro h
    rw [hform fun c hc => .inr (IsGrouped.marks h _ (List.mem_map_of_mem hc))]
    exact h

/-- A character of a literal as such: neither a separator nor a digit of another script. -/
def IsStrict (c : Char) : Prop := c ≠ '_' ∧ (Text.isDecimal c = true → c.isDigit = true)

theorem IsStrict.of_ascii (hascii : c.toNat < 128) (hc : c ≠ '_') : IsStrict c := by
  refine ⟨hc, fun h => ?_⟩
  by_contra hdigit
  rw [Text.isDecimal, Text.digitValue?, if_neg hdigit, if_pos hascii] at h
  cases h

theorem IsShown.strict (h : IsShown c) : IsStrict c := .of_ascii h.ascii.2.1 h.ascii.2.2.1

theorem IsStrict.asDigit (h : IsStrict c) : asDigit c = c := by
  by_cases hdecimal : Text.isDecimal c = true
  · have hdigit := (IsPlain.of_digit (h.2 hdecimal)).ascii
    exact asDigit_of_ascii hdigit.2.1
  · rw [Text.isDecimal, Option.not_isSome_iff_eq_none] at hdecimal
    rw [Numeral.asDigit, hdecimal]

theorem IsSeparated.of_none (h : ∀ c ∈ cs, c ≠ '_') : IsSeparated cs where
  beside := (List.pairwise_of_forall_mem_list fun a ha b hb =>
    ⟨fun hu => absurd hu (h a ha), fun hu => absurd hu (h b hb)⟩).isChain
  head hc := h _ (List.mem_of_head? hc) rfl
  last hc := h _ (List.mem_of_getLast? hc) rfl

/-- The literals are the numerals without separators and digits of other scripts. -/
theorem isLiteral_iff : IsLiteral cs ↔ IsNumeral cs ∧ ∀ c ∈ cs, IsStrict c := by
  have hsame (h : ∀ c ∈ cs, IsStrict c) : cs.map asDigit = cs ∧ joined cs = cs :=
    ⟨(List.map_congr_left fun c hc => (h c hc).asDigit).trans (List.map_id' cs),
      List.filter_eq_self.mpr fun c hc => decide_eq_true (h c hc).1⟩
  constructor
  · intro h
    have hstrict : ∀ c ∈ cs, IsStrict c := fun c hc => (h.shown c hc).strict
    obtain ⟨hmap, hjoin⟩ := hsame hstrict
    refine ⟨?_, hstrict⟩
    rw [IsNumeral, hmap]
    exact ⟨.of_none fun c hc => (hstrict c hc).1, hjoin.symm ▸ h⟩
  · rintro ⟨h, hstrict⟩
    obtain ⟨hmap, hjoin⟩ := hsame hstrict
    rw [IsNumeral, hmap] at h
    exact hjoin ▸ h.literal

/-! ## Reading -/

theorem isAsciiBlank_of_digit (h : c.isDigit = true) : isAsciiBlank c = false := by
  have hlow : '0'.toNat ≤ c.toNat := (Char.isDigit_iff_toNat.mp h).1
  have h0 : '0'.toNat = 48 := rfl
  have hblank : c ≠ ' ' := by
    rintro rfl
    cases h
  simp only [isAsciiBlank, Bool.or_eq_false_iff, beq_eq_false_iff_ne, Bool.and_eq_false_iff, decide_eq_false_iff_not]
  exact ⟨hblank, .inr (by omega)⟩

theorem isAsciiBlank_asciiForm (h : Text.isBlank c = false) : isAsciiBlank (asciiForm c) = false := by
  unfold asciiForm
  split_ifs with hascii hblank
  · have all : ∀ n < 128, Text.isBlank (Char.ofNat n) = false → isAsciiBlank (Char.ofNat n) = false := by decide
    have hc := all c.toNat hascii
    rw [Char.ofNat_toNat] at hc
    exact hc h
  · rw [h] at hblank
    cases hblank
  · cases hd : Text.digitValue? c with
    | some d => exact isAsciiBlank_of_digit (isDigit_ofNat (digitValue?_lt hd))
    | none => decide

theorem dropWhile_of_head {p : Char → Bool} (h : ∀ c ∈ cs.head?, p c = false) : cs.dropWhile p = cs := by
  cases cs with
  | nil => rfl
  | cons c cs => exact List.dropWhile_cons_of_neg (by simp [h c rfl])

/-- Around a trimmed text there are no blanks in its ASCII form either. -/
theorem bare_trim : bare (Text.trim cs) = toAscii (Text.trim cs) := by
  have hhead : ∀ c ∈ (toAscii (Text.trim cs)).head?, isAsciiBlank c = false := by
    intro c hc
    rw [toAscii_eq, List.head?_map] at hc
    obtain ⟨d, hd, rfl⟩ := Option.map_eq_some_iff.mp hc
    exact isAsciiBlank_asciiForm (Text.head_trim d hd)
  have hlast : ∀ c ∈ (toAscii (Text.trim cs)).reverse.head?, isAsciiBlank c = false := by
    intro c hc
    rw [toAscii_eq, List.head?_reverse, List.getLast?_map] at hc
    obtain ⟨d, hd, rfl⟩ := Option.map_eq_some_iff.mp hc
    exact isAsciiBlank_asciiForm (Text.last_trim d hd)
  rw [bare, dropWhile_of_head hhead, dropWhile_of_head hlast, List.reverse_reverse]

theorem readDecimal?_isSome_iff : (readDecimal? (Text.trim cs)).isSome = true ↔ IsNumeral (Text.trim cs) := by
  rw [← isGrouped_toAscii, ← bare_trim]
  unfold readDecimal?
  cases hs : dropSeparators ' ' (bare (Text.trim cs)) with
  | none =>
    refine iff_of_false nofun fun h => ?_
    rw [dropSeparators_blank.mpr ⟨h.separated, rfl⟩] at hs
    cases hs
  | some ds =>
    obtain ⟨hsep, rfl⟩ := dropSeparators_blank.mp hs
    exact readSigned?_isSome_iff.trans ⟨fun h => ⟨hsep, h⟩, fun h => h.literal⟩

/-- An integer numeral is a decimal one without a point and an exponent. -/
theorem readDecimal?_of_readInt? {n : Int} (h : readInt? cs = some n) : (readDecimal? cs).isSome = true := by
  unfold readInt? at h
  unfold readDecimal?
  cases hs : dropSeparators ' ' (bare cs) with
  | none =>
    rw [hs] at h
    cases h
  | some ds =>
    simp only [hs, Option.bind_eq_bind, Option.bind_some, guard] at h
    split at h
    · next hg =>
      obtain ⟨hne, hdigits⟩ := all_digits_iff.mp (Bool.and_eq_true_iff.mp hg).1
      have hwhole : (readUnsigned? (splitSign ds).1 ((splitSign ds).2 ++ [])).isSome = true :=
        readUnsigned?_append (.whole hdigits hne) .absent
      rwa [List.append_nil] at hwhole
    · cases h

theorem not_isNaN_of_readUnsigned? {x : Binary64} (h : readUnsigned? negative cs = some x) : x.isNaN = false := by
  obtain ⟨-, -, h⟩ := Option.bind_eq_some_iff.mp h
  obtain ⟨e, -, h⟩ := Option.bind_eq_some_iff.mp h
  rw [← Option.some.inj h]
  exact Decimal.isNaN_toBinary64 _ _

theorem not_isNaN_of_readDecimal? {x : Binary64} (h : readDecimal? cs = some x) : x.isNaN = false := by
  obtain ⟨ds, -, hread⟩ := Option.bind_eq_some_iff.mp h
  exact not_isNaN_of_readUnsigned? hread

end Numeral

namespace Number
open Numeral
variable {s : String} {sign : List Char}

/-- The trimmed texts that count as numbers: nothing at all, an infinity, or what is a literal in some sense. -/
inductive Counts (literal : List Char → Prop) : List Char → Prop
  | empty : Counts literal []
  | infinity {sign : List Char} (hs : IsSign sign) : Counts literal (sign ++ "Infinity".toList)
  | numeral {cs : List Char} (h : literal cs) : Counts literal cs

theorem counts_isLiteral_iff {cs : List Char} : Counts IsLiteral cs ↔ Counts IsNumeral cs ∧ ∀ c ∈ cs, IsStrict c := by
  constructor
  · intro h
    cases h with
    | empty => exact ⟨.empty, nofun⟩
    | infinity hs =>
      have hletters : "Infinity".toList.all (fun c => decide (c.toNat < 128 ∧ c ≠ '_')) = true := by decide
      refine ⟨.infinity hs, List.forall_mem_append.mpr ⟨fun c hc => (hs.shown c hc).strict, fun c hc => ?_⟩⟩
      have hletter := of_decide_eq_true (List.all_eq_true.mp hletters c hc)
      exact .of_ascii hletter.1 hletter.2
    | numeral h => exact ⟨.numeral (isLiteral_iff.mp h).1, (isLiteral_iff.mp h).2⟩
  · rintro ⟨h, hstrict⟩
    cases h with
    | empty => exact .empty
    | infinity hs => exact .infinity hs
    | numeral h => exact .numeral (isLiteral_iff.mpr ⟨h, hstrict⟩)

theorem word_of_sign (hs : IsSign sign) : String.ofList (sign ++ "Infinity".toList) ∈
    ["", "Infinity", "+Infinity", "-Infinity"] := by
  rcases hs with rfl | rfl | rfl <;> decide

/-- The words count. -/
theorem counts_of_word (h : String.ofList (Text.trim s.toList) ∈ ["", "Infinity", "+Infinity", "-Infinity"]) :
    (ofText s).isNaN = false ∧ Counts IsNumeral (Text.trim s.toList) := by
  have htrim {w : String} (hw : String.ofList (Text.trim s.toList) = w) : Text.trim s.toList = w.toList := by
    rw [← hw, String.toList_ofList]
  unfold ofText
  dsimp only
  simp only [List.mem_cons, List.not_mem_nil, or_false] at h
  rcases h with h | h | h | h
  · rw [h]
    exact ⟨rfl, htrim h ▸ .empty⟩
  · rw [h]
    exact ⟨rfl, htrim h ▸ .infinity (.inl rfl)⟩
  · rw [h]
    exact ⟨rfl, htrim h ▸ .infinity (.inr (.inl rfl))⟩
  · rw [h]
    exact ⟨rfl, htrim h ▸ .infinity (.inr (.inr rfl))⟩

/-- A text stands for a number if it counts as one. -/
theorem isNaN_ofText_iff : (ofText s).isNaN = false ↔ Counts IsNumeral (Text.trim s.toList) := by
  by_cases hword : String.ofList (Text.trim s.toList) ∈ ["", "Infinity", "+Infinity", "-Infinity"]
  · obtain ⟨hn, hc⟩ := counts_of_word hword
    exact iff_of_true hn hc
  have hcounts : Counts IsNumeral (Text.trim s.toList) ↔ IsNumeral (Text.trim s.toList) := by
    refine ⟨fun h => ?_, .numeral⟩
    generalize Text.trim s.toList = cs at h hword
    cases h with
    | empty => exact absurd (by decide) hword
    | infinity hs => exact absurd (word_of_sign hs) hword
    | numeral h => exact h
  rw [ofText_of_no_word hword, hcounts, ← readDecimal?_isSome_iff]
  cases hint : readInt? (Text.trim s.toList) with
  | some n => exact iff_of_true rfl (readDecimal?_of_readInt? hint)
  | none =>
    cases hread : readDecimal? (Text.trim s.toList) with
    | none => exact iff_of_false nofun nofun
    | some x => exact iff_of_true (not_isNaN_of_readDecimal? hread) rfl

end Number
end FormRules
