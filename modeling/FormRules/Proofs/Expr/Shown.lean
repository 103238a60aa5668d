import FormRules.Proofs.Expr.Scan
import FormRules.Proofs.Store.Order

/-!
# Fields that the text shows

Where the name of the form is followed by a field, behind a point or in quotes and brackets, the paths that are
read off the text hold that field, unless the name is a property itself.
-/

namespace FormRules.Expr.Reference
open Text

/-! ## Fields -/

/-- A field in quotes, with a bracket behind it. -/
def quotedField : List Char → Option String
  | q :: body =>
    match body.dropWhile isPathChar with
    | d :: after =>
      if (q = '\'' || q = '"') && d = q && !(body.takeWhile isPathChar).isEmpty &&
          (after.dropWhile Parser.isSpace).head? = some ']' then
        some (String.ofList (body.takeWhile isPathChar))
      else none
    | [] => none
  | [] => none

/-- The field that a text shows behind a name: behind a point, or in quotes and brackets. -/
def field? (cs : List Char) : Option String :=
  match cs.dropWhile Parser.isSpace with
  | '[' :: more => quotedField (more.dropWhile Parser.isSpace)
  | '?' :: '.' :: '[' :: more => quotedField (more.dropWhile Parser.isSpace)
  | rest => (afterPoint rest).bind fun more => (Token.propertyName (more.dropWhile Parser.isSpace)).map (·.1)

/-- A text that shows a field in quotes. -/
structure Quoted (cs : List Char) (p : String) (after : List Char) : Prop where
  quoted : ∃ q, (q = '\'' ∨ q = '"') ∧ cs.dropWhile Parser.isSpace = q :: (p.toList ++ q :: after)
  chars : ∀ c ∈ p.toList, isPathChar c = true
  notEmpty : p ≠ ""
  closed : ∃ rest, after.dropWhile Parser.isSpace = ']' :: rest

/-- How a text shows a field. -/
inductive Shows (cs : List Char) (p : String) : Prop
  | pointed {more rest : List Char} (hpoint : afterPoint (cs.dropWhile Parser.isSpace) = some more)
      (hname : Token.propertyName (more.dropWhile Parser.isSpace) = some (p, rest))
  | bracketed {more after : List Char} (hopen : cs.dropWhile Parser.isSpace = '[' :: more ∨
      cs.dropWhile Parser.isSpace = '?' :: '.' :: '[' :: more) (hquoted : Quoted more p after)

theorem Shows.ne_nil {cs : List Char} {p : String} (h : Shows cs p) : cs ≠ [] := by
  rintro rfl
  cases h with
  | pointed hpoint hname => cases hpoint
  | bracketed hopen hquoted => rcases hopen with hopen | hopen <;> cases hopen

theorem of_quotedField {cs : List Char} {p : String} (h : quotedField (cs.dropWhile Parser.isSpace) = some p) :
    ∃ after, Quoted cs p after := by
  unfold quotedField at h
  split at h
  · next q body hbody =>
    split at h
    · next d after hclose =>
      split at h
      · next hall =>
        cases h
        simp only [Bool.and_eq_true, Bool.or_eq_true, decide_eq_true_iff] at hall
        obtain ⟨⟨⟨hq, rfl⟩, hne⟩, hend⟩ := hall
        refine ⟨after, ⟨d, hq, ?_⟩, fun c hc => ?_, ?_, List.head?_eq_some_iff.mp hend⟩
        · rw [hbody, String.toList_ofList, ← hclose, List.takeWhile_append_dropWhile]
        · rw [String.toList_ofList] at hc
          exact List.mem_takeWhile_imp hc
        · simpa using hne
      · cases h
    · cases h
  · cases h

theorem shows_of_field? {cs : List Char} {p : String} (h : field? cs = some p) : Shows cs p := by
  unfold field? at h
  split at h
  · next more hopen =>
    obtain ⟨after, hquoted⟩ := of_quotedField h
    exact .bracketed (.inl hopen) hquoted
  · next more hopen =>
    obtain ⟨after, hquoted⟩ := of_quotedField h
    exact .bracketed (.inr hopen) hquoted
  · obtain ⟨more, hpoint, hname⟩ := Option.bind_eq_some_iff.mp h
    obtain ⟨⟨p', rest⟩, hfirst, rfl⟩ := Option.map_eq_some_iff.mp hname
    exact .pointed hpoint hfirst

/-! ## The paths of a text -/

theorem mem_addPath {found : List String} {p q : String} (h : p ∈ found ∨ p = q) (hne : p ≠ "") : p ∈ addPath found q := by
  unfold addPath
  split
  · next hskip =>
    rcases h with h | rfl
    · exact h
    · simpa [hne] using hskip
  · exact List.mem_append.mpr (h.imp_right fun heq => List.mem_singleton.mpr heq)

theorem root_eq_self {p : String} (h : '.' ∉ p.toList) : root p = p := by
  have hall : ∀ c ∈ p.toList, (c != '.') = true := fun c hc => bne_iff_ne.mpr (ne_of_mem_of_not_mem hc h)
  rw [root, List.takeWhile_eq_self_iff.mpr hall, String.ofList_toList]

theorem mem_addWithRoot {found : List String} {p q : String} (h : p ∈ found ∨ p = root q ∨ p = q) (hne : p ≠ "") :
    p ∈ addWithRoot found q := by
  unfold addWithRoot
  dsimp only
  split
  · refine mem_addPath ?_ hne
    rcases h with h | h | h
    · exact .inl (mem_addPath (.inl h) hne)
    · exact .inl (mem_addPath (.inr h) hne)
    · exact .inr h
  · next hdot =>
    rw [root_eq_self (by simpa using hdot)] at h ⊢
    exact mem_addPath (h.imp_right or_self_iff.mp) hne

theorem mem_foldl_addWithRoot {finds : List (Nat × String)} {found : List String} {p : String}
    (h : p ∈ found ∨ ∃ e ∈ finds, p = root e.2 ∨ p = e.2) (hne : p ≠ "") :
    p ∈ finds.foldl (fun found e => addWithRoot found e.2) found := by
  induction finds generalizing found with
  | nil => exact h.elim id fun ⟨_, he, _⟩ => absurd he List.not_mem_nil
  | cons e finds ih =>
    refine ih ?_
    rcases h with h | ⟨f, hf, hp⟩
    · exact .inl (mem_addWithRoot (.inl h) hne)
    · rcases List.mem_cons.mp hf with rfl | hf
      · exact .inl (mem_addWithRoot (.inr hp) hne)
      · exact .inr ⟨f, hf, hp⟩

/-- What is found in a text is among its paths, and the part in front of a point is. -/
theorem mem_paths {source : String} {e : Nat × String} {p : String} (he : e ∈ scan dotted 0 0 false (trim source.toList) ∨
    e ∈ scan (bracketed '\'') 0 0 false (trim source.toList) ∨ e ∈ scan (bracketed '"') 0 0 false (trim source.toList))
    (hp : p = root e.2 ∨ p = e.2) (hne : p ≠ "") : p ∈ paths source := by
  refine mem_foldl_addWithRoot (.inr ⟨e, (Order.sort_perm _).mem_iff.mpr ?_, hp⟩) hne
  simpa [or_assoc] using he

theorem afterWord_append (w : String) (cs : List Char) : afterWord w (w.toList ++ cs) = some (trimLeft cs) := by
  rw [afterWord, if_pos (List.isPrefixOf_iff_prefix.mpr (List.prefix_append _ _)), ← String.length_toList, List.drop_left]

theorem root_intercalate {p : String} {names : List String} (h : '.' ∉ p.toList) :
    root (".".intercalate (p :: names)) = p := by
  cases names with
  | nil => rw [String.intercalate_singleton, root_eq_self h]
  | cons q names =>
    have hall : ∀ c ∈ p.toList, (c != '.') = true := fun c hc => bne_iff_ne.mpr (ne_of_mem_of_not_mem hc h)
    rw [String.intercalate_cons_cons, root, String.toList_append, String.toList_append, List.append_assoc,
      List.takeWhile_append_of_pos hall]
    simp

section
variable {cs more rest : List Char} {p : String}

theorem of_afterPoint (h : afterPoint cs = some more) : ∃ c l, cs = c :: l ∧ isBlank c = false := by
  unfold afterPoint at h
  split at h
  · exact ⟨'.', _, rfl, by decide⟩
  · exact ⟨'?', _, rfl, by decide⟩
  · cases h

theorem not_isBlank_of_opensName {c : Char} (h : Token.opensName c = true) : isBlank c = false := by
  by_contra hblank
  have hc := Token.continuesName_of_opensName h
  rw [Token.continuesName_blank (Bool.not_eq_false _ ▸ hblank)] at hc
  cases hc

theorem of_propertyName (h : Token.propertyName cs = some (p, rest)) :
    (∃ c l, cs = c :: l ∧ Token.opensName c = true) ∧ p ≠ "" ∧ '.' ∉ p.toList := by
  cases cs with
  | nil => cases h
  | cons c cs =>
    rw [Token.propertyName] at h
    split at h
    · next hopens =>
      cases h
      have hpoint : Token.continuesName '.' = false := by decide
      refine ⟨⟨c, cs, rfl, hopens⟩, by simp, ?_⟩
      rw [String.toList_ofList, List.mem_cons, not_or]
      refine ⟨fun heq => ?_, fun hmem => ?_⟩
      · rw [heq, Token.continuesName_of_opensName hopens] at hpoint
        cases hpoint
      · rw [List.mem_takeWhile_imp hmem] at hpoint
        cases hpoint
    · cases h

/-- A field behind a point begins a path. -/
theorem dotted_of_pointed (hpoint : afterPoint (cs.dropWhile Parser.isSpace) = some more)
    (hname : Token.propertyName (more.dropWhile Parser.isSpace) = some (p, rest)) :
    ∃ names rest', dotted ("formValue".toList ++ cs) = some (".".intercalate (p :: names), rest') := by
  obtain ⟨c, l, hl, hc⟩ := of_afterPoint hpoint
  obtain ⟨⟨d, m, hm, hd⟩, -⟩ := of_propertyName hname
  have hcs : trimLeft cs = c :: l := trimLeft_of_skip hl hc
  have hmore : trimLeft more = d :: m := trimLeft_of_skip hm (not_isBlank_of_opensName hd)
  have htrim : trimLeft (c :: l) = c :: l := trimLeft_append (y := []) hc
  rw [hl] at hpoint
  rw [hm] at hname
  have hfirst : pointedNames (c :: l).length (c :: l) =
      (p :: (pointedNames l.length rest).1, (pointedNames l.length rest).2) := by
    rw [List.length_cons, pointedNames, htrim, hpoint, Option.bind_some, hmore, hname]
  refine ⟨(pointedNames l.length rest).1, (pointedNames l.length rest).2, ?_⟩
  unfold dotted
  rw [afterWord_append, hcs, Option.bind_eq_bind, Option.bind_some, hfirst]

theorem isPathChar_quote {q : Char} (hq : q = '\'' ∨ q = '"') : isPathChar q = false := by
  rcases hq with rfl | rfl <;> decide

theorem isBlank_quote {q : Char} (hq : q = '\'' ∨ q = '"') : isBlank q = false := by
  rcases hq with rfl | rfl <;> decide

theorem isPathChar_blank {c : Char} (h : isBlank c = true) : isPathChar c = false := by
  have hne (d : Char) (hd : isBlank d = false) : (c == d) = false := beq_eq_false_iff_ne.mpr fun heq => by
    rw [heq, hd] at h
    cases h
  rw [isPathChar, not_isWord_blank h, hne '.' (by decide), hne '$' (by decide), hne '-' (by decide)]
  rfl

/-- A field in quotes is a path. -/
theorem bracketed_of_quoted {after : List Char} (hopen : cs.dropWhile Parser.isSpace = '[' :: more ∨
      cs.dropWhile Parser.isSpace = '?' :: '.' :: '[' :: more) (hquoted : Quoted more p after) :
    ∃ q, (q = '\'' ∨ q = '"') ∧ ∃ rest', bracketed q ("formValue".toList ++ cs) = some (p, rest') := by
  obtain ⟨q, hq, hbody⟩ := hquoted.quoted
  obtain ⟨rest', hend⟩ := hquoted.closed
  have hmore : trimLeft more = q :: (p.toList ++ q :: after) := trimLeft_of_skip hbody (isBlank_quote hq)
  have hafter : trimLeft after = ']' :: rest' := trimLeft_of_skip hend (by decide)
  have hpath : (p.toList ++ q :: after).takeWhile isPathChar = p.toList := by
    rw [List.takeWhile_append_of_pos hquoted.chars, List.takeWhile_cons_of_neg (by simp [isPathChar_quote hq]),
      List.append_nil]
  have hclose : (p.toList ++ q :: after).dropWhile isPathChar = q :: after := by
    rw [List.dropWhile_append_of_pos hquoted.chars, List.dropWhile_cons_of_neg (by simp [isPathChar_quote hq])]
  have hcs : trimLeft cs = '[' :: more ∨ trimLeft cs = '?' :: '.' :: '[' :: more :=
    hopen.imp (trimLeft_of_skip · (by decide)) (trimLeft_of_skip · (by decide))
  refine ⟨q, hq, rest', ?_⟩
  unfold bracketed
  rw [afterWord_append, Option.bind_eq_bind, Option.bind_some]
  rcases hcs with hcs | hcs
  · simp [hcs, hmore, hclose, hpath, hafter, hquoted.notEmpty]
  · simp [hcs, hmore, hclose, hpath, hafter, hquoted.notEmpty]

/-- In front of a bracket there is no quote. -/
theorem next_of_bracket {q : Char} (hopen : cs.dropWhile Parser.isSpace = '[' :: more ∨
      cs.dropWhile Parser.isSpace = '?' :: '.' :: '[' :: more) (hq : q = '\'' ∨ q = '"') :
    ∀ d ∈ cs.head?, isPathChar d = false ∧ d ≠ q := by
  intro d hd
  obtain ⟨cs', rfl⟩ := List.head?_eq_some_iff.mp hd
  rw [List.dropWhile_cons] at hopen
  split at hopen
  · next hspace =>
    have hblank := isBlank_space hspace
    refine ⟨?_, fun heq => ?_⟩
    · exact isPathChar_blank hblank
    · rw [heq, isBlank_quote hq] at hblank
      cases hblank
  · rcases hopen with hopen | hopen
    · cases hopen
      exact ⟨by decide, by rintro rfl; exact absurd hq (by decide)⟩
    · cases hopen
      exact ⟨by decide, by rintro rfl; exact absurd hq (by decide)⟩

end

section
variable {source : String} {before rest : List Char} {p : String}

theorem formValue_append (rest : List Char) : ∃ c cs, "formValue".toList ++ rest = c :: cs ∧ isWord c = true :=
  ⟨'f', "ormValue".toList ++ rest, rfl, by decide⟩

theorem not_inWord_of_border (hborder : Border before ("formValue".toList ++ rest)) :
    (before.getLast?.map isWord).getD false = false := by
  obtain ⟨c, cs, hcs, hc⟩ := formValue_append rest
  cases hl : before.getLast? with
  | none => rfl
  | some a => exact hborder.not_isWord (by rw [hcs]; rfl) hc hl

/-- Where the name of the form stands in the text with a quoted field behind it, the field is found. -/
theorem mem_scan_of_quoted {more after : List Char} (htext : before ++ ("formValue".toList ++ rest) = trim source.toList)
    (hborder : Border before ("formValue".toList ++ rest)) (hopen : rest.dropWhile Parser.isSpace = '[' :: more ∨
      rest.dropWhile Parser.isSpace = '?' :: '.' :: '[' :: more) (hquoted : Quoted more p after) :
    ∃ q, (q = '\'' ∨ q = '"') ∧ (0 + before.length, p) ∈ scan (bracketed q) 0 0 false (trim source.toList) := by
  obtain ⟨q, hq, rest', hfind⟩ := bracketed_of_quoted hopen hquoted
  obtain ⟨c, cs, hcs, hc⟩ := formValue_append rest
  have hb := not_inWord_of_border hborder
  rw [hcs] at hfind htext hborder
  have hmem : (0 + before.length, p) ∈ scan (bracketed q) 0 0 false (before ++ c :: cs) :=
    mem_scan hfind (List.cons_ne_nil _ _) hb (fun y hy hne b rest'' hm =>
      bracketed_stops (by rcases hq with rfl | rfl <;> decide) hcs (next_of_bracket hopen hq) (hborder.suffix hy) hne hm)
      (Nat.zero_le _)
  rw [htext] at hmem
  exact ⟨q, hq, hmem⟩

/-- Where the name of the form stands in the text with a field behind it, the field is among the paths. -/
theorem mem_paths_of_shows (htext : before ++ ("formValue".toList ++ rest) = trim source.toList)
    (hborder : Border before ("formValue".toList ++ rest)) (hclear : Clear before) (h : Shows rest p) : p ∈ paths source := by
  cases h with
  | pointed hpoint hname =>
    obtain ⟨-, hne, hdot⟩ := of_propertyName hname
    obtain ⟨names, rest', hfind⟩ := dotted_of_pointed hpoint hname
    obtain ⟨c, cs, hcs, hc⟩ := formValue_append rest
    have hb := not_inWord_of_border hborder
    rw [hcs] at hfind htext hborder
    have hmem : (0 + before.length, ".".intercalate (p :: names)) ∈ scan dotted 0 0 false (before ++ c :: cs) :=
      mem_scan hfind (List.cons_ne_nil _ _) hb (fun y hy hne b rest'' hm =>
        dotted_stops hc (hborder.suffix hy) (hclear.suffix hy) hne hm) (Nat.zero_le _)
    rw [htext] at hmem
    exact mem_paths (.inl hmem) (.inl (root_intercalate hdot).symm) hne
  | bracketed hopen hquoted =>
    obtain ⟨q, hq, hmem⟩ := mem_scan_of_quoted htext hborder hopen hquoted
    refine mem_paths (e := (0 + before.length, p)) ?_ (.inr rfl) hquoted.notEmpty
    rcases hq with rfl | rfl
    · exact .inr (.inl hmem)
    · exact .inr (.inr hmem)

end

end FormRules.Expr.Reference
