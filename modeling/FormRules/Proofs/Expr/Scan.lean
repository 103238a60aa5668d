import FormRules.Proofs.Expr.Reference

/-!
# What scanning a text finds

A scan goes on behind what it has found, so that it finds what stands at a place only if nothing that it finds before
reaches beyond the place. Paths that begin in front of a name end there, unless the name is a property of theirs.
-/

namespace FormRules.Expr
open Text

/-! ## Places -/

theorem mem_getLast?_of_suffix {α : Type} {l m : List α} {a : α} (hs : l <:+ m) (h : a ∈ l.getLast?) : a ∈ m.getLast? := by
  obtain ⟨front, rfl⟩ := hs
  rw [List.getLast?_append, h]
  rfl

theorem Border.suffix {y z cs : List Char} (h : Border y cs) (hs : z <:+ y) : Border z cs :=
  fun a ha => h a (mem_getLast?_of_suffix hs ha)

theorem Clear.suffix {y z : List Char} (h : Clear y) (hs : z <:+ y) : Clear z :=
  fun a ha => h a (mem_getLast?_of_suffix (hs.filter _) ha)

/-- Behind a point there is something, or the text is not clear. -/
theorem Clear.not_point {y z : List Char} (h : Clear y) (hs : '.' :: z <:+ y) : trimLeft z ≠ [] := by
  intro hz
  have hblank : ∀ c ∈ z, isBlank c = true := List.dropWhile_eq_nil_iff.mp hz
  have hfilter : ('.' :: z).filter (!isBlank ·) = ['.'] := by
    rw [List.filter_cons_of_pos (by decide), List.filter_eq_nil_iff.mpr fun c hc => by simp [hblank c hc]]
  exact (h.suffix hs '.' (by rw [hfilter]; rfl)).1 rfl

/-- No name runs on from a clear text into a word. -/
theorem not_continuesName_of_clear {y cs : List Char} {a c : Char} (hborder : Border y (c :: cs)) (hclear : Clear y)
    (hc : isWord c = true) (ha : a ∈ y.getLast?) : Token.continuesName a = false := by
  by_contra hname
  rw [Bool.not_eq_false, Token.continuesName, Bool.or_eq_true, beq_iff_eq] at hname
  rcases hname with hword | rfl
  · rw [hborder.not_isWord rfl hc ha] at hword
    cases hword
  · have hs : ['$'] <:+ y := by
      obtain ⟨ys, rfl⟩ := List.getLast?_eq_some_iff.mp ha
      exact List.suffix_append ys _
    exact (hclear.suffix hs '$' (by decide)).2 rfl

theorem toNat_of_isAlpha {c : Char} (h : c.isAlpha = true) : 64 < c.toNat ∧ c.toNat < 128 := by
  have bounds {low high : UInt32} (hl : 64 < low.toNat) (hh : high.toNat < 128) (hc : low ≤ c.val ∧ c.val ≤ high) :
      64 < c.toNat ∧ c.toNat < 128 :=
    ⟨hl.trans_le (UInt32.le_iff_toNat_le.mp hc.1), (UInt32.le_iff_toNat_le.mp hc.2).trans_lt hh⟩
  rcases (Bool.or_eq_true _ _).mp h with hupper | hlower
  · exact bounds (show 64 < 'A'.val.toNat by decide) (show 'Z'.val.toNat < 128 by decide) (of_decide_eq_true hupper)
  · have hlower := (Bool.and_eq_true _ _).mp hlower
    exact bounds (show 64 < 'a'.val.toNat by decide) (show 'z'.val.toNat < 128 by decide)
      ⟨of_decide_eq_true hlower.1, of_decide_eq_true hlower.2⟩

theorem Token.continuesName_of_opensName {c : Char} (h : opensName c = true) : continuesName c = true := by
  simp only [opensName, Bool.or_eq_true, beq_iff_eq] at h
  rcases h with (halpha | rfl) | rfl
  · rw [continuesName, isWord, if_pos (toNat_of_isAlpha halpha).2, Char.isAlphanum, halpha]
    rfl
  · decide
  · decide

theorem trimLeft_append {y cs : List Char} {c : Char} (hc : isBlank c = false) :
    trimLeft (y ++ c :: cs) = trimLeft y ++ c :: cs := by
  induction y with
  | nil => exact List.dropWhile_cons_of_neg (by simp [hc])
  | cons b y ih =>
    unfold trimLeft at ih ⊢
    rw [List.cons_append, List.dropWhile_cons, List.dropWhile_cons]
    split
    · exact ih
    · rfl

theorem trimLeft_suffix (y : List Char) : trimLeft y <:+ y := List.dropWhile_suffix _

/-- Where no other blanks stand, the spaces in front of a token are all blanks. -/
theorem trimLeft_of_skip {cs rest : List Char} {c : Char} (h : cs.dropWhile Parser.isSpace = c :: rest)
    (hc : isBlank c = false) : trimLeft cs = c :: rest := by
  have hall : ∀ d ∈ cs.takeWhile Parser.isSpace, isBlank d = true := fun d hd =>
    isBlank_space (List.mem_takeWhile_imp hd)
  rw [← List.takeWhile_append_dropWhile (p := Parser.isSpace) (l := cs), h, trimLeft_append hc, trimLeft,
    List.dropWhile_eq_nil_iff.mpr hall, List.nil_append]

namespace Reference

/-! ## Scanning -/

/-- What is taken at a place is found there, if nothing that is taken before reaches beyond the place. -/
theorem mem_scan {α : Type} {m : List Char → Option (α × List Char)} {before cs rest : List Char} {place skip : Nat}
    {inWord : Bool} {a : α} (hm : m cs = some (a, rest)) (hcs : cs ≠ [])
    (hb : (before.getLast?.map isWord).getD inWord = false)
    (hends : ∀ y, y <:+ before → y ≠ [] → ∀ b rest', m (y ++ cs) = some (b, rest') → cs.length ≤ rest'.length)
    (hskip : skip ≤ before.length) : (place + before.length, a) ∈ scan m skip place inWord (before ++ cs) := by
  induction before generalizing place skip inWord with
  | nil =>
    obtain rfl := Nat.le_zero.mp hskip
    cases cs with
    | nil => exact absurd rfl hcs
    | cons c cs =>
      have hword : inWord = false := hb
      rw [List.nil_append, scan, hword, if_neg (by decide), hm]
      exact List.mem_cons_self
  | cons b before ih =>
    have hplace : place + (b :: before).length = (place + 1) + before.length := by
      rw [List.length_cons]
      omega
    have hb' : (before.getLast?.map isWord).getD (isWord b) = false := by
      rw [List.getLast?_cons] at hb
      cases hl : before.getLast? with
      | none => simpa [hl] using hb
      | some a => simpa [hl] using hb
    have hends' : ∀ y, y <:+ before → y ≠ [] → ∀ b rest', m (y ++ cs) = some (b, rest') → cs.length ≤ rest'.length :=
      fun y hy => hends y (hy.trans (List.suffix_cons b before))
    rw [hplace, List.cons_append]
    cases skip with
    | succ skip => exact ih hb' hends' (Nat.le_of_succ_le_succ hskip)
    | zero =>
      rw [scan]
      split
      · next x r hx =>
        have hr : m ((b :: before) ++ cs) = some (x, r) := by
          split at hx
          · cases hx
          · exact hx
        have hlength := hends (b :: before) List.suffix_rfl (List.cons_ne_nil _ _) x r hr
        refine List.mem_cons_of_mem _ (ih hb' hends' ?_)
        rw [List.length_append]
        omega
      · exact ih hb' hends' (Nat.zero_le _)

/-- A word is followed by what the text has behind it, or there is no border inside of it. -/
theorem of_afterWord {w : String} {y cs r : List Char} (hw : ∀ c ∈ w.toList, isWord c = true) {c : Char}
    (hc : isWord c = true) (hborder : Border y (c :: cs)) (hy : y ≠ [])
    (h : afterWord w (y ++ c :: cs) = some r) : ∃ z, z <:+ y ∧ r = trimLeft (z ++ c :: cs) := by
  unfold afterWord at h
  split at h
  · next hprefix =>
    cases h
    have hpre : w.toList <+: y ++ c :: cs := List.isPrefixOf_iff_prefix.mp hprefix
    by_cases hlength : w.toList.length ≤ y.length
    · obtain ⟨z, rfl⟩ := List.prefix_of_prefix_length_le hpre (List.prefix_append y _) hlength
      refine ⟨z, List.suffix_append _ z, ?_⟩
      rw [List.append_assoc, ← String.length_toList, List.drop_left]
    · have hshort : y <+: w.toList :=
        List.prefix_of_prefix_length_le (List.prefix_append y _) hpre (Nat.le_of_not_le hlength)
      have hlast : y.getLast hy ∈ y.getLast? := List.getLast?_eq_some_getLast hy
      have hword := hw _ (hshort.subset (List.getLast_mem hy))
      rw [hborder.not_isWord rfl hc hlast] at hword
      cases hword
  · cases h

section
variable {y cs rest : List Char} {c q : Char} {path : String}

/-- A mark in front of a word stands in what is in front of the word. -/
theorem of_append_eq_cons {d : Char} {more : List Char} (hd : isWord d = false) (hc : isWord c = true)
    (h : y ++ c :: cs = d :: more) : ∃ z, y = d :: z ∧ more = z ++ c :: cs := by
  rcases List.append_eq_cons_iff.mp h with ⟨-, heq⟩ | h
  · rw [(List.cons.inj heq).1, hd] at hc
    cases hc
  · exact h

/-- A point in front of a word stands in what is in front of the word. -/
theorem afterPoint_append {more : List Char} (hc : isWord c = true) (h : afterPoint (y ++ c :: cs) = some more) :
    ∃ z, '.' :: z <:+ y ∧ more = z ++ c :: cs := by
  have hpoint : isWord '.' = false := by decide
  unfold afterPoint at h
  split at h
  · next heq =>
    cases h
    obtain ⟨z, rfl, rfl⟩ := of_append_eq_cons hpoint hc heq
    exact ⟨z, List.suffix_rfl, rfl⟩
  · next heq =>
    cases h
    obtain ⟨x, rfl, hx⟩ := of_append_eq_cons (by decide) hc heq
    obtain ⟨z, rfl, rfl⟩ := of_append_eq_cons hpoint hc hx.symm
    exact ⟨z, List.suffix_cons _ _, rfl⟩
  · cases h

/-- A name in front of a word ends in front of it. -/
theorem propertyName_append {name : String} (hc : isWord c = true) (hborder : Border y (c :: cs)) (hclear : Clear y)
    (hy : y ≠ []) (h : Token.propertyName (y ++ c :: cs) = some (name, rest)) :
    ∃ z, z <:+ y ∧ rest = z ++ c :: cs := by
  cases y with
  | nil => exact absurd rfl hy
  | cons b y =>
    rw [List.cons_append, Token.propertyName] at h
    split at h
    · next hopens =>
      cases h
      rw [List.dropWhile_append]
      split
      · next hend =>
        have hall : ∀ d ∈ b :: y, Token.continuesName d = true := List.forall_mem_cons.mpr
          ⟨Token.continuesName_of_opensName hopens, List.dropWhile_eq_nil_iff.mp (List.isEmpty_iff.mp hend)⟩
        have hlast := not_continuesName_of_clear hborder hclear hc (List.getLast?_eq_some_getLast hy)
        rw [hall _ (List.getLast_mem hy)] at hlast
        cases hlast
      · exact ⟨_, (List.dropWhile_suffix _).trans (List.suffix_cons b y), rfl⟩
    · cases h

/-- Names joined by points end in front of a name that stands behind a clear text. -/
theorem pointedNames_stops (hc : isWord c = true) (fuel : Nat) (hborder : Border y (c :: cs)) (hclear : Clear y) :
    (c :: cs).length ≤ (pointedNames fuel (y ++ c :: cs)).2.length := by
  have hall : (c :: cs).length ≤ (y ++ c :: cs).length := by simp
  have hblank : isBlank c = false := (closes_word hc).1
  induction fuel generalizing y with
  | zero => exact hall
  | succ fuel ih =>
    rw [pointedNames, trimLeft_append hblank]
    split
    · next name rest h =>
      obtain ⟨more, hmore, hname⟩ := Option.bind_eq_some_iff.mp h
      obtain ⟨z, hz, rfl⟩ := afterPoint_append hc hmore
      have hz := hz.trans (trimLeft_suffix y)
      have hsuffix : trimLeft z <:+ y := (trimLeft_suffix z).trans ((List.suffix_cons _ z).trans hz)
      rw [trimLeft_append hblank] at hname
      obtain ⟨x, hx, rfl⟩ := propertyName_append hc (hborder.suffix hsuffix) (hclear.suffix hsuffix)
        (hclear.not_point hz) hname
      exact ih (hborder.suffix (hx.trans hsuffix)) (hclear.suffix (hx.trans hsuffix)) (by simp)
    · exact hall

theorem isWord_formValue : ∀ c ∈ "formValue".toList, isWord c = true := List.all_eq_true.mp (by decide)

/-- A path of pointed names ends in front of a name that stands behind a clear text. -/
theorem dotted_stops (hc : isWord c = true) (hborder : Border y (c :: cs)) (hclear : Clear y) (hy : y ≠ [])
    (h : dotted (y ++ c :: cs) = some (path, rest)) : (c :: cs).length ≤ rest.length := by
  obtain ⟨r, hr, h⟩ := Option.bind_eq_some_iff.mp h
  obtain ⟨z, hz, rfl⟩ := of_afterWord isWord_formValue hc hborder hy hr
  split at h
  · cases h
  · next names rest' hne hnames =>
    cases h
    rw [trimLeft_append (closes_word hc).1] at hnames
    have hsuffix := (trimLeft_suffix z).trans hz
    have hstops := pointedNames_stops hc (trimLeft z ++ c :: cs).length (hborder.suffix hsuffix) (hclear.suffix hsuffix)
    rwa [hnames] at hstops

/-- The parts of a path in quotes and brackets. -/
theorem of_bracketed (h : bracketed q cs = some (path, rest)) : ∃ r more body after, afterWord "formValue" cs = some r ∧
    (r = '[' :: more ∨ r = '?' :: '.' :: '[' :: more) ∧ trimLeft more = q :: body ∧
      body.dropWhile isPathChar = q :: after ∧ trimLeft after = ']' :: rest := by
  obtain ⟨r, hr, hfound⟩ := Option.bind_eq_some_iff.mp h
  dsimp only at hfound
  split at hfound
  · next more hopen =>
    have hbracket : r = '[' :: more ∨ r = '?' :: '.' :: '[' :: more := by
      split at hopen
      · exact .inr (by rw [hopen])
      · exact .inl hopen
    split at hfound
    · next c body hquote =>
      split at hfound
      · next d after hclose =>
        split at hfound
        · next hquotes =>
          simp only [Bool.and_eq_true, decide_eq_true_iff] at hquotes
          obtain ⟨⟨rfl, rfl⟩, -⟩ := hquotes
          split at hfound
          · next hend =>
            cases hfound
            exact ⟨r, more, body, after, hr, hbracket, hquote, hclose, hend⟩
          · cases hfound
        · cases hfound
      · cases hfound
    · cases hfound
  · cases hfound

/-- A path in brackets ends in front of the name of the form, if that is not followed by a quote. -/
theorem bracketed_stops (hq : isWord q = false) {more : List Char} (hmore : "formValue".toList ++ more = c :: cs)
    (hnext : ∀ d ∈ more.head?, isPathChar d = false ∧ d ≠ q) (hborder : Border y (c :: cs)) (hy : y ≠ [])
    (h : bracketed q (y ++ c :: cs) = some (path, rest)) : (c :: cs).length ≤ rest.length := by
  have hc : isWord c = true := by
    refine isWord_formValue c (List.mem_of_mem_head? ?_)
    have hhead : c ∈ ("formValue".toList ++ more).head? := by rw [hmore]; rfl
    exact hhead
  have hblank := (closes_word hc).1
  obtain ⟨r, bracket, body, after, hr, hbracket, hquote, hclose, hend⟩ := of_bracketed h
  obtain ⟨z, -, rfl⟩ := of_afterWord isWord_formValue hc hborder hy hr
  rw [trimLeft_append hblank] at hbracket
  obtain ⟨x, rfl⟩ : ∃ x, bracket = x ++ c :: cs := by
    rcases hbracket with heq | heq
    · obtain ⟨x, -, hx⟩ := of_append_eq_cons (by decide) hc heq
      exact ⟨x, hx⟩
    · obtain ⟨x₁, -, h₁⟩ := of_append_eq_cons (by decide) hc heq
      obtain ⟨x₂, -, h₂⟩ := of_append_eq_cons (by decide) hc h₁.symm
      obtain ⟨x₃, -, h₃⟩ := of_append_eq_cons (by decide) hc h₂.symm
      exact ⟨x₃, h₃⟩
  rw [trimLeft_append hblank] at hquote
  obtain ⟨x', -, rfl⟩ := of_append_eq_cons hq hc hquote
  rw [List.dropWhile_append] at hclose
  split at hclose
  · -- a path that runs on through the name of the form does not end in a quote behind it
    have hname : ∀ d ∈ "formValue".toList, isPathChar d = true := List.all_eq_true.mp (by decide)
    rw [← hmore, List.dropWhile_append_of_pos hname] at hclose
    cases more with
    | nil => cases hclose
    | cons d more =>
      obtain ⟨hd, hne⟩ := hnext d rfl
      rw [List.dropWhile_cons_of_neg (by simp [hd])] at hclose
      exact absurd (List.cons.inj hclose).1 hne
  · obtain ⟨x₂, -, rfl⟩ := of_append_eq_cons hq hc hclose
    rw [trimLeft_append hblank] at hend
    obtain ⟨x₃, -, rfl⟩ := of_append_eq_cons (by decide) hc hend
    simp

end

end Reference
end FormRules.Expr
