import FormRules.Proofs.Expr.Legible
import FormRules.Proofs.Expr.Printer
import FormRules.Proofs.Number.Text

/-!
# Tokens are read back

What is written for a token is taken off the front of a text as that token, if what is behind it does not run on.
-/

namespace FormRules.Expr
open Text Token

/-- Whether neither a word nor a numeral runs on into the text. -/
def Cut : List Char → Prop
  | [] => True
  | c :: cs => continuesName c = false ∧ isDecimal c = false ∧ (c = '.' → startsWithDigit cs = false)

namespace Cut
variable {cs rest : List Char} {c : Char}

theorem takeWhile {p : Char → Bool} (h : Cut rest) (hp : ∀ c, p c = true → continuesName c = true ∨ isDecimal c = true) :
    rest.takeWhile p = [] := by
  cases rest with
  | nil => rfl
  | cons c cs =>
    refine List.takeWhile_cons_of_neg fun hc => ?_
    rcases hp c hc with hname | hdigit
    · rw [h.1] at hname
      cases hname
    · rw [h.2.1] at hdigit
      cases hdigit

theorem dropWhile {p : Char → Bool} (h : Cut rest) (hp : ∀ c, p c = true → continuesName c = true ∨ isDecimal c = true) :
    rest.dropWhile p = rest := by
  have heq := List.takeWhile_append_dropWhile (p := p) (l := rest)
  rwa [h.takeWhile hp] at heq

theorem isWord_or (c : Char) (h : isWord c = true) : continuesName c = true ∨ isDecimal c = true :=
  .inl (by rw [continuesName, h, Bool.true_or])

theorem wordRun (h : Cut rest) : Token.wordRun (cs ++ rest) = Token.wordRun cs := by
  induction cs with
  | nil => exact h.takeWhile isWord_or
  | cons c cs ih =>
    unfold Token.wordRun at ih ⊢
    rw [List.cons_append, List.takeWhile_cons, List.takeWhile_cons, ih]

end Cut

namespace Token
variable {cs rest : List Char} {c : Char} {w : String}

/-! ## Words -/

theorem of_isSpelled (h : isSpelled w = true) : ∃ c cs, w.toList = c :: cs ∧ opensName c = true ∧
    ∀ d ∈ cs, continuesName d = true := by
  unfold isSpelled at h
  split at h
  · cases h
  · next c cs hw => exact ⟨c, cs, hw, by simpa using h⟩

theorem propertyName_written (h : isSpelled w = true) (hrest : Cut rest) :
    propertyName (w.toList ++ rest) = some (w, rest) := by
  obtain ⟨c, cs, hw, hc, hcs⟩ := of_isSpelled h
  rw [hw, List.cons_append, propertyName, if_pos hc, List.takeWhile_append_of_pos hcs, List.dropWhile_append_of_pos hcs,
    hrest.takeWhile fun _ => .inl, hrest.dropWhile fun _ => .inl, List.append_nil, ← hw, String.ofList_toList]

theorem identifier_written (h : isIdentifier w = true) (hrest : Cut rest) :
    identifier (w.toList ++ rest) = some (w, rest) := by
  rw [isIdentifier, Bool.and_eq_true, Bool.not_eq_true'] at h
  rw [identifier, hrest.wordRun, h.2, if_neg (by decide), propertyName_written h.1 hrest]

/-! ## Numbers -/

theorem isDecimal_of_isDigit (h : c.isDigit = true) : isDecimal c = true := by
  rw [isDecimal, digitValue?, if_pos h]
  rfl

theorem takeWhile_digits {ds : List Char} (h : ∀ c ∈ ds, c.isDigit = true) (hrest : rest.takeWhile isDecimal = []) :
    (ds ++ rest).takeWhile isDecimal = ds := by
  rw [List.takeWhile_append_of_pos fun c hc => isDecimal_of_isDigit (h c hc), hrest, List.append_nil]

theorem dropWhile_digits {ds : List Char} (h : ∀ c ∈ ds, c.isDigit = true) (hrest : rest.takeWhile isDecimal = []) :
    (ds ++ rest).dropWhile isDecimal = rest := by
  have heq := List.takeWhile_append_dropWhile (p := isDecimal) (l := ds ++ rest)
  rw [takeWhile_digits h hrest] at heq
  exact List.append_cancel_left heq

/-- Behind a numeral there is no exponent. -/
theorem exponentPart_cut (h : Cut rest) : exponentPart rest = ([], rest) := by
  cases rest with
  | nil => rfl
  | cons c cs =>
    have hc : ¬(c = 'e' || c = 'E') = true := by
      rintro heq
      simp only [Bool.or_eq_true, decide_eq_true_eq] at heq
      rcases heq with rfl | rfl
      · exact absurd h.1 (by decide)
      · exact absurd h.1 (by decide)
    simp only [exponentPart, hc]
    rfl

/-- An exponent that is written out. -/
theorem exponentPart_written {s : Char} {ds : List Char} (hs : s = '-' ∨ s = '+') (hd : ∀ c ∈ ds, c.isDigit = true)
    (hne : ds ≠ []) (hrest : Cut rest) : exponentPart ('e' :: s :: (ds ++ rest)) = ('e' :: s :: ds, rest) := by
  have hcut : rest.takeWhile isDecimal = [] := hrest.takeWhile fun _ => .inr
  have hempty : ds.isEmpty = false := by simpa using hne
  rcases hs with rfl | rfl
  · simp [exponentPart, takeWhile_digits hd hcut, dropWhile_digits hd hcut, hempty]
  · simp [exponentPart, takeWhile_digits hd hcut, dropWhile_digits hd hcut, hempty]

/-- Digits, and an exponent or none. -/
theorem number_plain {ws es mid : List Char} (hw : ∀ c ∈ ws, c.isDigit = true) (hne : ws ≠ [])
    (hmid : mid.takeWhile isDecimal = []) (hpoint : ∀ more, mid = '.' :: more → more.takeWhile isDecimal = [])
    (he : exponentPart mid = (es, rest)) : number (ws ++ mid) =
      if es.isEmpty then some (.int (Numeral.digitsValue (Numeral.toAscii ws)), rest)
      else some (.float ((Numeral.readDecimal? (ws ++ es)).getD .nan), rest) := by
  have hempty : ws.isEmpty = false := by simpa using hne
  unfold number
  simp only [takeWhile_digits hw hmid, dropWhile_digits hw hmid, hempty]
  split
  · next more =>
    simp [hpoint more rfl, he]
  · simp [he]

/-- Digits, a point, places, and an exponent or none. -/
theorem number_pointed {ws ps es mid : List Char} (hw : ∀ c ∈ ws, c.isDigit = true) (hp : ∀ c ∈ ps, c.isDigit = true)
    (hne : ps ≠ []) (hmid : mid.takeWhile isDecimal = []) (he : exponentPart mid = (es, rest)) :
    number (ws ++ '.' :: (ps ++ mid)) =
      some (.float ((Numeral.readDecimal? (ws ++ '.' :: ps ++ es)).getD .nan), rest) := by
  have hempty : ps.isEmpty = false := by simpa using hne
  have hpoint : ('.' :: (ps ++ mid)).takeWhile isDecimal = [] := rfl
  unfold number
  simp only [takeWhile_digits hw hpoint, dropWhile_digits hw hpoint, takeWhile_digits hp hmid, dropWhile_digits hp hmid,
    hempty, Bool.false_eq_true, if_false, he]
  simp

theorem number_int (n : Nat) (hrest : Cut rest) : number (Nat.toDigits 10 n ++ rest) = some (.int n, rest) := by
  have hd : ∀ c ∈ Nat.toDigits 10 n, c.isDigit = true := fun c hc => isDigit_of_mem_toDigits hc
  have hascii : Numeral.toAscii (Nat.toDigits 10 n) = Nat.toDigits 10 n :=
    Numeral.toAscii_of_plain fun c hc => .of_digit (hd c hc)
  have hpoint : ∀ more, rest = '.' :: more → more.takeWhile isDecimal = [] := by
    rintro more rfl
    cases more with
    | nil => rfl
    | cons c cs => exact List.takeWhile_cons_of_neg (by simpa [startsWithDigit] using hrest.2.2 rfl)
  rw [number_plain hd Nat.toDigits_ne_nil (hrest.takeWhile fun _ => .inr) hpoint (exponentPart_cut hrest), hascii,
    Numeral.digitsValue_toDigits]
  rfl

/-- A numeral that shows a point or an exponent, with digits at all of its places. -/
inductive Fractional : List Char → Prop
  | places (ws ps : List Char) (hw : ∀ c ∈ ws, c.isDigit = true) (hp : ∀ c ∈ ps, c.isDigit = true) (hne : ps ≠ []) :
    Fractional (ws ++ '.' :: ps)
  | exponent (ws es : List Char) {s : Char} (hw : ∀ c ∈ ws, c.isDigit = true) (hne : ws ≠ []) (hs : s = '-' ∨ s = '+')
    (he : ∀ c ∈ es, c.isDigit = true) (hne' : es ≠ []) : Fractional (ws ++ 'e' :: s :: es)
  | scientific (ws ps es : List Char) {s : Char} (hw : ∀ c ∈ ws, c.isDigit = true) (hp : ∀ c ∈ ps, c.isDigit = true)
    (hne : ps ≠ []) (hs : s = '-' ∨ s = '+') (he : ∀ c ∈ es, c.isDigit = true) (hne' : es ≠ []) :
    Fractional (ws ++ '.' :: (ps ++ 'e' :: s :: es))

theorem number_fractional (h : Fractional cs) (hrest : Cut rest) :
    number (cs ++ rest) = some (.float ((Numeral.readDecimal? cs).getD .nan), rest) := by
  have hcut : rest.takeWhile isDecimal = [] := hrest.takeWhile fun _ => .inr
  have hmark (more : List Char) : ('e' :: more).takeWhile isDecimal = [] := rfl
  cases h with
  | places ws ps hw hp hne =>
    rw [List.append_assoc, List.cons_append, number_pointed hw hp hne hcut (exponentPart_cut hrest), List.append_nil]
  | exponent ws es hw hne hs he hne' =>
    rw [List.append_assoc, List.cons_append, List.cons_append,
      number_plain hw hne (hmark _) nofun (exponentPart_written hs he hne' hrest)]
    rfl
  | scientific ws ps es hw hp hne hs he hne' =>
    have hexponent := exponentPart_written hs he hne' hrest
    rw [List.append_assoc, List.cons_append, List.append_assoc, List.cons_append, List.cons_append,
      number_pointed hw hp hne (hmark _) hexponent, List.append_assoc, List.cons_append]

/-- Digits that are laid out show a point or an exponent. -/
theorem fractional_layout {ds : List Char} (point : Int) (hd : ∀ c ∈ ds, c.isDigit = true) (hne : ds ≠ []) :
    Fractional (Binary64.layout ds point) := by
  have hzeros (k : Nat) : ∀ c ∈ List.replicate k '0', c.isDigit = true := fun _ hc =>
    Binary64.isDigit_of_mem_replicate hc
  unfold Binary64.layout
  dsimp only
  split
  · split
    · exact .places ['0'] _ (by simp) (List.forall_mem_append.mpr ⟨hzeros _, hd⟩) (by simp [hne])
    · split
      · exact .places _ _ (List.forall_mem_append.mpr ⟨hd, hzeros _⟩) (by simp) (by simp)
      · next hpoint =>
        refine .places _ _ (fun c hc => hd c (List.mem_of_mem_take hc)) (fun c hc => hd c (List.mem_of_mem_drop hc)) ?_
        rw [ne_eq, List.drop_eq_nil_iff]
        omega
  · have hsign : (if point - 1 < 0 then '-' else '+') = '-' ∨ (if point - 1 < 0 then '-' else '+') = '+' := by
      split
      · exact .inl rfl
      · exact .inr rfl
    have hdigits : ∀ c ∈ Nat.toDigits 10 (point - 1).natAbs, c.isDigit = true := fun _ hc => isDigit_of_mem_toDigits hc
    obtain ⟨es, hes, he, hnil⟩ : ∃ es, (if (Nat.toDigits 10 (point - 1).natAbs).length < 2 then
        '0' :: Nat.toDigits 10 (point - 1).natAbs else Nat.toDigits 10 (point - 1).natAbs) = es ∧
        (∀ c ∈ es, c.isDigit = true) ∧ es ≠ [] := by
      refine ⟨_, rfl, ?_⟩
      split
      · exact ⟨List.forall_mem_cons.mpr ⟨rfl, hdigits⟩, List.cons_ne_nil _ _⟩
      · exact ⟨hdigits, Nat.toDigits_ne_nil⟩
    rw [hes]
    match ds with
    | [] => exact absurd rfl hne
    | [d] => exact .exponent _ _ hd hne hsign he hnil
    | d :: d' :: ds =>
      obtain ⟨hhead, htail⟩ := List.forall_mem_cons.mp hd
      exact .scientific [d] _ _ (by simpa using hhead) htail (List.cons_ne_nil _ _) hsign he hnil

theorem number_float {u : Int} {hr : Representable u.natAbs} (hu : 0 ≤ u) (hrest : Cut rest) :
    number ((Binary64.finite u hr).text.toList ++ rest) = some (.float (.finite u hr), rest) := by
  have hfractional : Fractional (Binary64.finite u hr).text.toList := by
    by_cases hzero : u = 0
    · rw [Binary64.text, if_pos hzero]
      exact .places ['0'] ['0'] (by simp) (by simp) (by simp)
    · rw [Binary64.text_finite hzero, if_neg (by omega)]
      exact fractional_layout _ (fun _ hc => isDigit_of_mem_toDigits hc) Nat.toDigits_ne_nil
  rw [number_fractional hfractional hrest, Binary64.readDecimal?_text rfl]
  rfl

/-! ## Texts -/

variable {text : List Char}

theorem quotedBody_written :
    quotedBody '\'' (text.flatMap quotedChar ++ '\'' :: rest) = some (text.flatMap quotedChar, rest) := by
  induction text with
  | nil => exact quotedBody_close
  | cons c text ih =>
    rw [List.flatMap_cons, List.append_assoc, quotedChar]
    split
    · next hc =>
      have hline : c ≠ '\n' := by rcases hc with rfl | rfl <;> decide
      rw [List.cons_append, List.singleton_append, quotedBody, if_neg (by decide), if_pos rfl, if_neg hline, ih]
      rfl
    · next hc =>
      rw [not_or] at hc
      rw [List.singleton_append, quotedBody_cons hc.1 hc.2, ih]
      rfl

theorem unescape_written {fuel : Nat} (hfuel : (text.flatMap quotedChar).length ≤ fuel) :
    unescape fuel (text.flatMap quotedChar) = text := by
  induction text generalizing fuel with
  | nil => cases fuel <;> rfl
  | cons c text ih =>
    rw [List.flatMap_cons, quotedChar] at hfuel ⊢
    split at hfuel
    · next hc =>
      obtain ⟨fuel, rfl⟩ : ∃ k, fuel = k + 1 := ⟨fuel - 1, by simp at hfuel; omega⟩
      have ih : unescape fuel (text.flatMap quotedChar) = text := ih (by simp at hfuel ⊢; omega)
      rw [if_pos hc]
      rcases hc with rfl | rfl
      · simp [unescape, escaped, ih]
      · simp [unescape, escaped, ih]
    · next hc =>
      obtain ⟨fuel, rfl⟩ : ∃ k, fuel = k + 1 := ⟨fuel - 1, by simp at hfuel; omega⟩
      have ih : unescape fuel (text.flatMap quotedChar) = text := ih (by simp at hfuel ⊢; omega)
      rw [not_or] at hc
      rw [if_neg (not_or.mpr hc), List.singleton_append, unescape, ih]
      · rintro _ rfl
        exact absurd rfl hc.2
      · rintro _ _ rfl
        exact absurd rfl hc.2

theorem quotedText_written (s : String) :
    quotedText (Literal.written (.text s) ++ rest) = some (.text s, rest) := by
  have hbody : unescape (s.toList.flatMap quotedChar).length (s.toList.flatMap quotedChar) = s.toList :=
    unescape_written (Nat.le_refl _)
  unfold Literal.written
  dsimp only
  rw [List.cons_append, List.append_assoc, List.singleton_append, quotedText, if_pos (by decide), quotedBody_written,
    Option.map_some]
  dsimp only
  rw [hbody, String.ofList_toList]

end Token
end FormRules.Expr
