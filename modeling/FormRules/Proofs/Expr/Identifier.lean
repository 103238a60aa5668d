import FormRules.Proofs.Expr.RoundTrip

/-!
# Names and reserved words

A text is a name if it is spelled as one and does not begin with a reserved word, be it the whole text or followed by
a dollar sign: a dollar sign belongs to names, but a word ends in front of it.
-/

namespace FormRules.Expr
open Text Token FormRules.Expr.Parser
variable {cs rest ws : List Char} {s w : String} {node : Node}

/-! ## Words -/

/-- The leading word of a name is all of it, or there is a dollar sign behind. -/
theorem Token.wordRun_eq_iff (hcs : ∀ c ∈ cs, continuesName c = true) (hws : ∀ c ∈ ws, isWord c = true) :
    wordRun cs = ws ↔ cs = ws ∨ ws ++ ['$'] <+: cs := by
  constructor
  · rintro rfl
    have hsplit : wordRun cs ++ cs.dropWhile isWord = cs := List.takeWhile_append_dropWhile
    have hhead := List.head?_dropWhile_not isWord cs
    cases hrest : cs.dropWhile isWord with
    | nil =>
      rw [hrest, List.append_nil] at hsplit
      exact .inl hsplit.symm
    | cons c rest =>
      rw [hrest] at hsplit hhead
      have hname := hcs c (hsplit ▸ List.mem_append_right _ List.mem_cons_self)
      have hnot : isWord c = false := hhead
      rw [continuesName, hnot, Bool.false_or, beq_iff_eq] at hname
      subst hname
      exact .inr ⟨rest, by rw [List.append_assoc]; exact hsplit⟩
  · rintro (rfl | ⟨rest, rfl⟩)
    · exact List.takeWhile_eq_self_iff.mpr hws
    · rw [wordRun, List.append_assoc, List.takeWhile_append_of_pos hws]
      exact List.append_nil ws

theorem continuesName_of_isSpelled (h : isSpelled s = true) : ∀ c ∈ s.toList, continuesName c = true := by
  obtain ⟨c, cs, hs, hc, hcs⟩ := of_isSpelled h
  rw [hs]
  exact List.forall_mem_cons.mpr ⟨continuesName_of_opensName hc, hcs⟩

theorem isWord_of_reserved (h : w ∈ reservedWords) : ∀ c ∈ w.toList, isWord c = true := by
  have all : ∀ w ∈ reservedWords, w.toList.all isWord = true := by decide
  exact List.all_eq_true.mp (all w h)

/-- A name is free of reserved words unless one of them is the whole of it, or stands in front of a dollar sign. -/
theorem isIdentifier_iff : isIdentifier s = true ↔
    isSpelled s = true ∧ s ∉ reservedWords ∧ ∀ w ∈ reservedWords, ¬ (w ++ "$").toList <+: s.toList := by
  rw [isIdentifier, Bool.and_eq_true, Bool.not_eq_true']
  refine and_congr_right fun hs => ?_
  have hrun (w : String) (hw : w ∈ reservedWords) :
      String.ofList (wordRun s.toList) = w ↔ s = w ∨ (w ++ "$").toList <+: s.toList := by
    have hdollar : (w ++ "$").toList = w.toList ++ ['$'] := String.toList_append
    rw [hdollar, ← @String.toList_inj s, ← wordRun_eq_iff (continuesName_of_isSpelled hs) (isWord_of_reserved hw),
      ← String.toList_inj, String.toList_ofList]
  rw [Bool.eq_false_iff, ne_eq, List.contains_iff_mem]
  constructor
  · intro h
    refine ⟨fun hmem => h ?_, fun w hw hprefix => h ?_⟩
    · rwa [(hrun s hmem).mpr (.inl rfl)]
    · rwa [(hrun w hw).mpr (.inr hprefix)]
  · rintro ⟨hmem, hprefix⟩ hw
    rcases (hrun _ hw).mp rfl with heq | hdollar
    · exact hmem (heq ▸ hw)
    · exact hprefix _ hw hdollar

/-! ## What is read -/

theorem Token.wordRun_append (h : ∀ c ∈ rest.head?, isWord c = false) : wordRun (ws ++ rest) = wordRun ws := by
  induction ws with
  | nil =>
    cases rest with
    | nil => rfl
    | cons c rest => exact List.takeWhile_cons_of_neg (by simp [h c rfl])
  | cons c ws ih =>
    unfold wordRun at ih ⊢
    rw [List.cons_append, List.takeWhile_cons, List.takeWhile_cons, ih]

theorem isSpelled_of_propertyName (h : propertyName cs = some (w, rest)) : isSpelled w = true := by
  cases cs with
  | nil => cases h
  | cons c cs =>
    rw [propertyName] at h
    split at h
    · next hc =>
      cases h
      have hall : (cs.takeWhile continuesName).all continuesName = true :=
        List.all_eq_true.mpr fun d hd => List.mem_takeWhile_imp hd
      rw [isSpelled, String.toList_ofList]
      dsimp only
      rw [hc, hall, Bool.and_self]
    · cases h

/-- What is read as a name is one. -/
theorem isIdentifier_of_identifier (h : identifier cs = some (w, rest)) : isIdentifier w = true := by
  obtain ⟨rfl, hrest⟩ := of_identifier h
  have hword : ∀ c ∈ rest.head?, isWord c = false := fun c hc =>
    (Bool.or_eq_false_iff.mp (hrest c hc)).1
  rw [identifier, wordRun_append hword] at h
  split at h
  · cases h
  · next hfree => rw [isIdentifier, isSpelled_of_propertyName h, Bool.eq_false_iff.mpr hfree, Bool.not_false, Bool.and_self]

theorem isIdentifier_of_mentions (h : parse s = .ok node) (hw : node.mentions w = true) : isIdentifier w = true := by
  obtain ⟨cs, rest, -, hid⟩ := named_of_parse h w hw
  exact isIdentifier_of_identifier hid

theorem parse_identifier (h : isIdentifier s = true) : parse s = .ok (.identifier s) := by
  have hwhole : IsWhole 0 (.identifier s) := ((follows (.identifier s) h).2 rfl).whole h
  have htext : (Node.identifier s).text 0 = s := String.ofList_toList
  have hparse := parse_of_whole hwhole (solid_bare (.identifier s) h)
  rwa [htext] at hparse

/-- No name stands in a reserved word. -/
theorem not_mentions_of_reserved (h : s.trimBlank ∈ reservedWords) (hp : parse s = .ok node) (w : String) :
    node.mentions w = false := by
  have htrim : s.trimBlank.toList = trim s.toList := String.toList_ofList
  rw [Bool.eq_false_iff]
  intro hw
  obtain ⟨cs, rest, ⟨before, htext, hborder, -⟩, hid⟩ := named_of_parse hp w hw
  rw [← htrim] at htext
  have hword : ∀ c ∈ before ++ cs, isWord c = true := htext ▸ isWord_of_reserved h
  cases hlast : before.getLast? with
  | none =>
    have hnone : ∀ r ∈ reservedWords, identifier r.toList = none := by decide
    rw [List.getLast?_eq_none_iff.mp hlast, List.nil_append] at htext
    rw [htext, hnone _ h] at hid
    cases hid
  | some a =>
    -- a name that begins inside of the word has a letter in front
    cases cs with
    | nil => cases hid
    | cons c cs =>
      have hc := hborder a hlast c rfl (hword a (List.mem_append_left _ (List.mem_of_getLast? hlast)))
      rw [hword c (List.mem_append_right _ List.mem_cons_self)] at hc
      cases hc

/-- A text is the name that it spells unless it is a reserved word, or one stands in it in front of a dollar sign; and
a reserved word alone is no name. -/
theorem parse_eq_identifier_iff (s : String) :
    (parse s = .ok (.identifier s) ↔
      isSpelled s = true ∧ s ∉ reservedWords ∧ ∀ w ∈ reservedWords, ¬ (w ++ "$").toList <+: s.toList) ∧
    (s.trimBlank ∈ reservedWords → ∀ name, parse s ≠ .ok (.identifier name)) := by
  rw [← isIdentifier_iff]
  refine ⟨⟨fun h => isIdentifier_of_mentions h (decide_eq_true rfl), parse_identifier⟩, fun h name hp => ?_⟩
  have hnot := not_mentions_of_reserved h hp name
  rw [Node.mentions, decide_eq_true rfl] at hnot
  cases hnot

/-- A name that goes on behind the word, one in which a dollar sign follows it, and the word between blanks. -/
theorem parse_eq_identifier_iff_null : parse "nullable$" = .ok (.identifier "nullable$") ∧
    parse "null$able" ≠ .ok (.identifier "null$able") ∧ ∀ name, parse " null " ≠ .ok (.identifier name) := by
  refine ⟨(parse_eq_identifier_iff "nullable$").1.mpr ⟨by decide, by decide, by decide⟩, fun h => ?_,
    (parse_eq_identifier_iff " null ").2 (by decide)⟩
  exact ((parse_eq_identifier_iff "null$able").1.mp h).2.2 "null" (by decide) (by decide)

end FormRules.Expr
