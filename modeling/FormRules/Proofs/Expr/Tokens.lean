import FormRules.Proofs.Expr.Parser
import FormRules.Proofs.Text.Blank

/-!
# Where words begin in a text

A token leaves an end of the text behind. Where a mark or a whole word has been taken, no word runs on and no
point is in front, so that a name that is read there begins a word and is no property.
-/

namespace FormRules.Expr
open Text

/-- Whether no word runs from the first part on into the second. -/
def Border (before after : List Char) : Prop :=
  ∀ a ∈ before.getLast?, ∀ c ∈ after.head?, isWord a = true → isWord c = false

/-- Whether the text, blanks aside, ends neither in a point, behind which a property stands, nor in a dollar sign,
which belongs to names. -/
def Clear (before : List Char) : Prop := ∀ c ∈ (before.filter (!isBlank ·)).getLast?, c ≠ '.' ∧ c ≠ '$'

/-- Whether the rest is an end of the text. -/
def Within (text rest : List Char) : Prop := ∃ before, before ++ rest = text

/-- Whether the rest is an end of the text at which no word runs on and no property stands. -/
def Fresh (text rest : List Char) : Prop := ∃ before, before ++ rest = text ∧ Border before rest ∧ Clear before

variable {text cs rest : List Char}

/-- In front of a word there is no other one. -/
theorem Border.not_isWord {before : List Char} {a c : Char} (h : Border before cs) (hc : c ∈ cs.head?)
    (hword : isWord c = true) (ha : a ∈ before.getLast?) : isWord a = false := by
  by_contra hnot
  rw [h a ha c hc (Bool.not_eq_false _ ▸ hnot)] at hword
  cases hword

theorem Fresh.within (h : Fresh text cs) : Within text cs := by
  obtain ⟨before, h, -⟩ := h
  exact ⟨before, h⟩

theorem Fresh.start : Fresh text text := ⟨[], rfl, nofun, nofun⟩

theorem Within.suffix (h : Within text cs) (hs : rest <:+ cs) : Within text rest := by
  obtain ⟨before, rfl⟩ := h
  obtain ⟨more, rfl⟩ := hs
  exact ⟨before ++ more, List.append_assoc ..⟩

theorem isBlank_space {c : Char} (h : Parser.isSpace c = true) : isBlank c = true := by
  simp only [Parser.isSpace, Bool.or_eq_true, beq_iff_eq] at h
  rcases h with ((rfl | rfl) | rfl) | rfl <;> decide

theorem border_of_last {taken : List Char} {a : Char} (h : taken.getLast? = some a) (ha : isWord a = false) :
    Border taken rest := by
  intro b hb _ _ hword
  rw [h] at hb
  cases hb
  rw [ha] at hword
  cases hword

/-- Whether a name may stand behind the character. -/
def Closes (c : Char) : Prop := isBlank c = false ∧ c ≠ '.' ∧ c ≠ '$'

theorem closes_word {c : Char} (h : isWord c = true) : Closes c := by
  refine ⟨?_, ?_, ?_⟩
  · by_contra hblank
    rw [not_isWord_blank (Bool.not_eq_false _ ▸ hblank)] at h
    cases h
  · rintro rfl
    exact absurd h (by decide)
  · rintro rfl
    exact absurd h (by decide)

/-- Behind something that ends in no word that runs on. -/
theorem Within.fresh {taken : List Char} (h : Within text (taken ++ rest)) (hne : taken ≠ [])
    (hborder : Border taken rest) (hlast : ∀ c ∈ taken.getLast?, Closes c) : Fresh text rest := by
  obtain ⟨before, rfl⟩ := h
  obtain ⟨init, b, rfl⟩ : ∃ init b, taken = init ++ [b] :=
    ⟨taken.dropLast, taken.getLast hne, (List.dropLast_concat_getLast hne).symm⟩
  have hb : Closes b := hlast b (by simp)
  refine ⟨before ++ (init ++ [b]), List.append_assoc .., fun a ha => hborder a ?_, fun c hc => ?_⟩
  · simpa using ha
  · have hkeep : (before ++ (init ++ [b])).filter (!isBlank ·) = (before ++ init).filter (!isBlank ·) ++ [b] := by
      simp [hb.1]
    rw [hkeep, List.getLast?_concat] at hc
    cases hc
    exact hb.2

/-- Blanks in front of a token are no part of a word. -/
theorem Fresh.skip (h : Fresh text cs) : Fresh text (cs.dropWhile Parser.isSpace) := by
  induction cs with
  | nil => exact h
  | cons c cs ih =>
    rw [List.dropWhile_cons]
    split
    · next hspace =>
      obtain ⟨before, htext, -, hclear⟩ := h
      have hblank := isBlank_space hspace
      refine ih ⟨before ++ [c], by rw [← htext, List.append_assoc]; rfl, ?_, fun a ha => hclear a ?_⟩
      · intro a ha _ _ hword
        rw [List.getLast?_concat] at ha
        cases ha
        rw [not_isWord_blank hblank] at hword
        cases hword
      · simpa [hblank] using ha
    · exact h

theorem Within.skip (h : Within text cs) : Within text (cs.dropWhile Parser.isSpace) :=
  h.suffix (List.dropWhile_suffix _)

namespace Token
variable {α : Type} {t : Token α}

/-- Whether the token leaves an end of the text behind. -/
def Takes (t : Token α) : Prop := ∀ cs a rest, t cs = some (a, rest) → rest <:+ cs

/-- Whether a name may stand behind the token, since no word runs on there. -/
def Breaks (t : Token α) : Prop := ∀ cs a rest, t cs = some (a, rest) →
  ∃ taken, taken ≠ [] ∧ taken ++ rest = cs ∧ Border taken rest ∧ ∀ c ∈ taken.getLast?, Closes c

theorem Breaks.takes (h : t.Breaks) : t.Takes := by
  intro cs a rest ht
  obtain ⟨taken, -, rfl, -⟩ := h cs a rest ht
  exact List.suffix_append taken rest

/-- A character in which a mark may end. -/
def endsMark (c : Char) : Bool := !isWord c && !isBlank c && c != '.' && c != '$'

theorem takes_exactly (p : String) : (exactly p).Takes := by
  intro cs u rest h
  unfold exactly at h
  split at h
  · cases h
    exact List.drop_suffix _ _
  · cases h

theorem breaks_exactly {p : String} {a : Char} (hp : p.toList.getLast? = some a) (ha : endsMark a = true) :
    (exactly p).Breaks := by
  simp only [endsMark, Bool.and_eq_true, Bool.not_eq_true', bne_iff_ne] at ha
  intro cs u rest h
  unfold exactly at h
  split at h
  · next hprefix =>
    cases h
    obtain ⟨more, rfl⟩ := List.isPrefixOf_iff_prefix.mp hprefix
    refine ⟨p.toList, ?_, ?_, border_of_last hp ha.1.1.1, fun c hc => ?_⟩
    · rintro hnil
      rw [hnil] at hp
      cases hp
    · rw [← String.length_toList, List.drop_left]
    · rw [hp] at hc
      cases hc
      exact ⟨ha.1.1.2, ha.1.2, ha.2⟩
  · cases h

theorem breaks_word {w : String} (hw : w ≠ "") : (word w).Breaks := by
  intro cs u rest h
  unfold word at h
  split at h
  · next hrun =>
    cases h
    have hsplit : w.toList ++ cs.dropWhile isWord = cs := hrun ▸ List.takeWhile_append_dropWhile
    have hdrop : cs.drop w.length = cs.dropWhile isWord := by
      rw [← String.length_toList]
      exact (congrArg (List.drop _) hsplit.symm).trans List.drop_left
    refine ⟨w.toList, ?_, ?_, ?_, fun c hc => closes_word ?_⟩
    · simpa using hw
    · rw [hdrop, hsplit]
    · intro a _ c hc _
      have hnot := List.head?_dropWhile_not isWord cs
      rw [hdrop] at hc
      rwa [hc] at hnot
    · rw [← hrun] at hc
      exact List.mem_takeWhile_imp (List.mem_of_getLast? hc)
  · cases h

theorem Breaks.meaning {t : Token Unit} {a : α} (h : t.Breaks) : (meaning t a).Breaks := by
  intro cs b rest hb
  obtain ⟨⟨u, rest'⟩, ht, heq⟩ := Option.map_eq_some_iff.mp hb
  obtain ⟨-, rfl⟩ := Prod.mk.inj heq
  exact h cs u rest' ht

theorem of_notBefore {bad : List Char → Bool} {r : α × List Char} (h : notBefore t bad cs = some r) : t cs = some r := by
  unfold notBefore at h
  split at h
  · next ht =>
    split at h
    · cases h
    · rw [ht, h]
  · cases h

theorem Breaks.notBefore {bad : List Char → Bool} (h : t.Breaks) : (notBefore t bad).Breaks :=
  fun cs a rest ha => h cs a rest (of_notBefore ha)

theorem Takes.notBefore {bad : List Char → Bool} (h : t.Takes) : (notBefore t bad).Takes :=
  fun cs a rest ha => h cs a rest (of_notBefore ha)

theorem breaks_firstOf {ts : List (Token α)} (h : ∀ t ∈ ts, t.Breaks) : (firstOf ts).Breaks := by
  intro cs a rest ha
  obtain ⟨t, ht, hrun⟩ := List.exists_of_findSome?_eq_some ha
  exact h t ht cs a rest hrun

theorem breaks_keyword : keyword.Breaks := by
  refine breaks_firstOf ?_
  simp only [List.forall_mem_cons]
  exact ⟨(breaks_word (by decide)).meaning, (breaks_word (by decide)).meaning, (breaks_word (by decide)).meaning,
    (breaks_word (by decide)).meaning, nofun⟩

theorem breaks_declarationKind : declarationKind.Breaks := by
  refine breaks_firstOf ?_
  simp only [List.forall_mem_cons]
  exact ⟨(breaks_word (by decide)).meaning, (breaks_word (by decide)).meaning, nofun⟩

theorem breaks_unaryOp : unaryOp.Breaks := by
  refine breaks_firstOf ?_
  simp only [List.forall_mem_cons]
  exact ⟨(breaks_word (by decide)).meaning, (breaks_exactly rfl rfl).notBefore.meaning,
    (breaks_exactly rfl rfl).meaning, (breaks_exactly rfl rfl).meaning, nofun⟩

theorem breaks_multiplicativeOp : multiplicativeOp.Breaks := by
  refine breaks_firstOf ?_
  simp only [List.forall_mem_cons]
  exact ⟨(breaks_exactly rfl rfl).meaning, (breaks_exactly rfl rfl).meaning, (breaks_exactly rfl rfl).meaning, nofun⟩

theorem breaks_additiveOp : additiveOp.Breaks := by
  refine breaks_firstOf ?_
  simp only [List.forall_mem_cons]
  exact ⟨(breaks_exactly rfl rfl).meaning, (breaks_exactly rfl rfl).meaning, nofun⟩

theorem breaks_relationalOp : relationalOp.Breaks := by
  refine breaks_firstOf ?_
  simp only [List.forall_mem_cons]
  exact ⟨(breaks_exactly rfl rfl).meaning, (breaks_exactly rfl rfl).meaning, (breaks_exactly rfl rfl).meaning,
    (breaks_exactly rfl rfl).meaning, nofun⟩

theorem breaks_equalityOp : equalityOp.Breaks := by
  refine breaks_firstOf ?_
  simp only [List.forall_mem_cons]
  exact ⟨(breaks_exactly rfl rfl).meaning, (breaks_exactly rfl rfl).meaning, (breaks_exactly rfl rfl).meaning,
    (breaks_exactly rfl rfl).meaning, nofun⟩

/-! ## Literals and names -/

theorem exponentPart_suffix (cs : List Char) : (exponentPart cs).2 <:+ cs := by
  match cs with
  | [] => exact List.suffix_rfl
  | [e] =>
    by_cases he : (e = 'e' || e = 'E') = true
    · simp only [exponentPart, he, if_true]
      exact List.suffix_rfl
    · simp only [exponentPart, he]
      exact List.suffix_rfl
  | e :: s :: more =>
    by_cases he : (e = 'e' || e = 'E') = true
    · by_cases hs : (s = '+' || s = '-') = true
      · by_cases hd : (more.takeWhile isDecimal).isEmpty = true
        · simp only [exponentPart, he, hs, hd, if_true]
          exact List.suffix_rfl
        · simp only [exponentPart, he, hs, hd, if_true]
          exact (List.dropWhile_suffix _).trans ((List.suffix_cons s more).trans (List.suffix_cons e _))
      · by_cases hd : ((s :: more).takeWhile isDecimal).isEmpty = true
        · simp only [exponentPart, he, hs, hd, if_true, Bool.false_eq_true, if_false]
          exact List.suffix_rfl
        · simp only [exponentPart, he, hs, hd, if_true, Bool.false_eq_true, if_false]
          exact (List.dropWhile_suffix _).trans (List.suffix_cons e _)
    · simp only [exponentPart, he]
      exact List.suffix_rfl

theorem takes_number : number.Takes := by
  intro cs l rest h
  have tail {b c : Bool} {x y : Literal} {mid : List Char}
      (h : (if b then none else if c then some (x, (exponentPart mid).2) else some (y, (exponentPart mid).2)) =
        some (l, rest)) : rest <:+ mid := by
    cases b <;> cases c <;> cases h <;> exact exponentPart_suffix mid
  unfold number at h
  dsimp only at h
  split at h
  · next more hmore =>
    have hdrop := List.dropWhile_suffix (l := cs) isDecimal
    rw [hmore] at hdrop
    by_cases hplaces : (more.takeWhile isDecimal).isEmpty = true
    · simp only [hplaces, if_true] at h
      rw [hmore] at h
      exact (tail h).trans hdrop
    · simp only [hplaces] at h
      exact (tail h).trans ((List.dropWhile_suffix _).trans ((List.suffix_cons '.' more).trans hdrop))
  · exact (tail h).trans (List.dropWhile_suffix _)

theorem quotedBody_suffix {q : Char} {cs : List Char} {r : List Char × List Char} (h : quotedBody q cs = some r) :
    r.2 <:+ cs := by
  induction cs using quotedBody.induct q generalizing r with
  | case1 => cases h
  | case2 =>
    rw [quotedBody, if_pos rfl] at h
    cases h
    exact List.nil_suffix
  | case3 c hc =>
    rw [quotedBody, if_neg hc] at h
    cases h
  | case4 d cs =>
    rw [quotedBody, if_pos rfl] at h
    cases h
    exact List.suffix_cons q _
  | case5 cs hq =>
    rw [quotedBody, if_neg hq, if_pos rfl, if_pos rfl] at h
    cases h
  | case6 d cs hd hq ih =>
    rw [quotedBody, if_neg hq, if_pos rfl, if_neg hd] at h
    obtain ⟨r', hr', rfl⟩ := Option.map_eq_some_iff.mp h
    exact (ih hr').trans ((List.suffix_cons d cs).trans (List.suffix_cons _ _))
  | case7 c d cs hq hc ih =>
    rw [quotedBody, if_neg hq, if_neg hc] at h
    obtain ⟨r', hr', rfl⟩ := Option.map_eq_some_iff.mp h
    exact (ih hr').trans (List.suffix_cons c _)

theorem takes_quotedText : quotedText.Takes := by
  intro cs l rest h
  cases cs with
  | nil => cases h
  | cons q cs =>
    rw [quotedText] at h
    split at h
    · obtain ⟨r, hr, heq⟩ := Option.map_eq_some_iff.mp h
      obtain ⟨-, rfl⟩ := Prod.mk.inj heq
      exact (quotedBody_suffix hr).trans (List.suffix_cons q cs)
    · cases h

theorem takes_propertyName : propertyName.Takes := by
  intro cs name rest h
  cases cs with
  | nil => cases h
  | cons c cs =>
    rw [propertyName] at h
    split at h
    · cases h
      exact (List.dropWhile_suffix _).trans (List.suffix_cons c cs)
    · cases h

theorem takes_identifier : identifier.Takes := by
  intro cs name rest h
  unfold identifier at h
  split at h
  · cases h
  · exact takes_propertyName cs name rest h

end Token
end FormRules.Expr
