import FormRules.Expr.Reference
import FormRules.Proofs.Expr.Grammar
import FormRules.Proofs.Expr.Mention
import FormRules.Proofs.Text.Blank

/-!
# What the text says about reads of the form

Every name that a parsed expression mentions has been read somewhere in the text, at a place where no word runs on from
the left. An expression whose text reads nothing of the form, nor has the form standing alone where the expression
mentions it, has the same outcome whatever the form holds.
-/

namespace FormRules

theorem Node.anyMentions_eq (w : String) (es : List Node) : Node.anyMentions w es = es.any (Node.mentions w) := by
  induction es with
  | nil => rfl
  | cons e es ih => rw [Node.anyMentions, ih, List.any_cons]

namespace Expr

/-! ## The names that are mentioned -/

section
variable {text : List Char}

/-- Whether a name is read somewhere in the text, where no word runs on. -/
def Occurs (text : List Char) (w : String) : Prop :=
  ∃ cs rest, Fresh text cs ∧ Token.identifier cs = some (w, rest)

/-- Whether all names that an expression mentions are read somewhere in the text. -/
def Named (text : List Char) (e : Node) : Prop := ∀ w, e.mentions w = true → Occurs text w

theorem named_array {es : List Node} (h : ∀ e ∈ es, Named text e) : Named text (.array es) := by
  intro w hw
  rw [Node.mentions, Node.anyMentions_eq, List.any_eq_true] at hw
  obtain ⟨e, he, hm⟩ := hw
  exact h e he w hm

theorem named_of_or {e l r : Node} (he : ∀ w, e.mentions w = (l.mentions w || r.mentions w)) (hl : Named text l)
    (hr : Named text r) : Named text e := by
  intro w hw
  rw [he, Bool.or_eq_true] at hw
  exact hw.elim (hl w) (hr w)

theorem named_invoked {ds : List (DeclarationKind × String × Node)} {result : Node}
    (hds : ∀ d ∈ ds, Named text d.2.2) (hresult : Named text result) :
    Named text (.invoked (ds.foldr (fun d rest => .declare d.1 d.2.1 d.2.2 rest) (.result result))) := by
  induction ds with
  | nil => exact hresult
  | cons d ds ih =>
    obtain ⟨hd, hds⟩ := List.forall_mem_cons.mp hds
    intro w hw
    rw [List.foldr_cons, Node.mentions, Body.mentions, Bool.or_eq_true, Bool.and_eq_true] at hw
    exact hw.elim (hd w) fun h => ih hds w h.2

theorem closed_named : Closed (Named text) where
  literal _ := nofun
  array _ h := named_array h
  attach receiver l hr hl := by
    cases l with
    | member p optional => exact hr
    | index i optional => exact named_of_or (fun _ => rfl) hr hl
    | call as optional => exact named_of_or (fun _ => rfl) hr (named_array hl)
  chain _ h := h
  unary _ _ h := h
  binary _ _ _ hl hr := named_of_or (fun _ => rfl) hl hr
  logical _ _ _ hl hr := named_of_or (fun _ => rfl) hl hr
  conditional t c a ht hc ha := by
    intro w hw
    rw [Node.mentions, Bool.or_eq_true, Bool.or_eq_true] at hw
    exact hw.elim (fun h => h.elim (ht w) (hc w)) (ha w)
  invoked _ _ hds hresult := named_invoked hds hresult

/-- The names of a parsed expression stand in its text. -/
theorem named_of_parseTrimmed {s : String} {node : Node} (h : parseTrimmed s = .ok node) : Named s.toList node :=
  of_parseTrimmed closed_named.toFormed (fun _ he => Parser.gives_postfixLevel he closed_named.toFormed
    (fun cs _ rest hcs hid _ hv => of_decide_eq_true hv ▸ ⟨cs, rest, hcs, hid⟩)
    fun _ _ hr hl => closed_named.attachAll hr hl) h

end

open Text

/-! ## Names in the text -/

namespace Token
variable {cs rest : List Char} {w : String}

theorem of_identifier (h : identifier cs = some (w, rest)) :
    cs = w.toList ++ rest ∧ ∀ c ∈ rest.head?, continuesName c = false := by
  unfold identifier at h
  split at h
  · cases h
  · cases cs with
    | nil => cases h
    | cons c cs =>
      rw [propertyName] at h
      split at h
      · cases h
        rw [String.toList_ofList, List.cons_append, List.takeWhile_append_dropWhile]
        refine ⟨rfl, fun d hd => ?_⟩
        have hnot := List.head?_dropWhile_not continuesName cs
        rwa [hd] at hnot
      · cases h

theorem continuesName_blank {c : Char} (h : isBlank c = true) : continuesName c = false := by
  have hdollar : c ≠ '$' := by
    rintro rfl
    exact absurd h (by decide)
  rw [continuesName, not_isWord_blank h, Bool.false_or]
  simpa using hdollar

end Token

namespace Reference

/-- What is taken at the start of a word is found. -/
theorem scan_ne_nil {α : Type} {m : List Char → Option (α × List Char)} {before cs : List Char} {place : Nat}
    {inWord : Bool} (hm : (m cs).isSome = true) (hcs : cs ≠ [])
    (hb : (before.getLast?.map isWord).getD inWord = false) : scan m 0 place inWord (before ++ cs) ≠ [] := by
  induction before generalizing place inWord with
  | nil =>
    cases cs with
    | nil => exact absurd rfl hcs
    | cons c cs =>
      obtain ⟨r, hr⟩ := Option.isSome_iff_exists.mp hm
      have hword : inWord = false := hb
      rw [List.nil_append, scan, hword, if_neg (by decide), hr]
      exact List.cons_ne_nil _ _
  | cons b before ih =>
    rw [List.cons_append, scan]
    split
    · exact List.cons_ne_nil _ _
    · refine ih ?_
      cases hl : before.getLast? with
      | none =>
        rw [List.getLast?_eq_none_iff.mp hl] at hb
        exact hb
      | some a =>
        rw [List.getLast?_cons, hl] at hb
        exact hb

/-- A word that is not continued, nor followed by a point or a bracket. -/
def alone (w : String) (cs : List Char) : Option (Unit × List Char) :=
  if w.toList.isPrefixOf cs && !(cs.drop w.length).head?.any Token.continuesName && (access w cs).isNone then
    some ((), cs.drop w.length)
  else none

/-- Whether the named value stands alone somewhere in the text, so that nothing is read of it there. -/
def standsAlone (w source : String) : Bool := !(scan (alone w) 0 0 false source.toList).isEmpty

/-- A name of the trimmed text has, in the text, no word on its left and no name running on. -/
theorem place_of_occurs {w source : String} (hw : w.toList.head?.any isWord = true)
    (h : Occurs (trim source.toList) w) : ∃ before after, source.toList = before ++ (w.toList ++ after) ∧
      (before.getLast?.map isWord).getD false = false ∧ after.head?.any Token.continuesName = false := by
  obtain ⟨cs, rest, ⟨before, htext, hborder, -⟩, hid⟩ := h
  obtain ⟨rfl, hrest⟩ := Token.of_identifier hid
  obtain ⟨lead, trail, hsource, hlead, htrail⟩ := trim_between source.toList
  refine ⟨lead ++ before, rest ++ trail, ?_, ?_, ?_⟩
  · rw [hsource, ← htext]
    simp only [List.append_assoc]
  · cases hl : before.getLast? with
    | some a =>
      obtain ⟨c, hc, hword⟩ := (Option.any_eq_true _ _).mp hw
      have hhead : c ∈ (w.toList ++ rest).head? := by
        rw [List.head?_append, hc]
        rfl
      rw [List.getLast?_append, hl]
      exact hborder.not_isWord hhead hword hl
    | none =>
      rw [List.getLast?_eq_none_iff.mp hl, List.append_nil]
      cases hlast : lead.getLast? with
      | none => rfl
      | some a => exact not_isWord_blank (hlead a (List.mem_of_getLast? hlast))
  · cases rest with
    | cons c rest => exact hrest c rfl
    | nil =>
      cases trail with
      | nil => rfl
      | cons c trail => exact Token.continuesName_blank (htrail c List.mem_cons_self)

/-- A name of the text is followed by a point or a bracket, or stands alone. -/
theorem reads_or_alone {w source : String} (hw : w.toList.head?.any isWord = true)
    (h : Occurs (trim source.toList) w) : readsFrom w source = true ∨ standsAlone w source = true := by
  obtain ⟨before, after, hsource, hbefore, hafter⟩ := place_of_occurs hw h
  have hne : w.toList ++ after ≠ [] := by
    cases hl : w.toList with
    | nil =>
      rw [hl] at hw
      cases hw
    | cons c cs => exact List.cons_ne_nil _ _
  have found {α : Type} {m : List Char → Option (α × List Char)} (hm : (m (w.toList ++ after)).isSome = true) :
      (!(scan m 0 0 false source.toList).isEmpty) = true := by
    rw [hsource, Bool.not_eq_true', List.isEmpty_eq_false_iff]
    exact scan_ne_nil hm hne hbefore
  by_cases ha : (access w (w.toList ++ after)).isSome = true
  · exact .inl (found ha)
  · refine .inr (found ?_)
    have hprefix : w.toList.isPrefixOf (w.toList ++ after) = true :=
      List.isPrefixOf_iff_prefix.mpr (List.prefix_append _ _)
    have hdrop : (w.toList ++ after).drop w.length = after := by
      rw [← String.length_toList, List.drop_left]
    have hnone : (access w (w.toList ++ after)).isNone = true := by simpa using ha
    rw [alone, hprefix, hdrop, hafter, hnone]
    rfl

/-- The names under which an expression reads the form, and the whole form from inside an array item. -/
def formNames : List String := ["formValue", "rootFormValue"]

theorem not_readsFrom {w source : String} (hw : w ∈ formNames) (h : isCrossField source = false) :
    readsFrom w source = false := by
  rw [isCrossField, Bool.or_eq_false_iff] at h
  simp only [formNames, List.mem_cons, List.not_mem_nil, or_false] at hw
  rcases hw with rfl | rfl
  · exact h.1
  · exact h.2

end Reference

theorem named_of_parse {source : String} {node : Node} (h : parse source = .ok node) :
    Named (trim source.toList) node := by
  have hnamed : parseTrimmed source.trimBlank = .ok node → Named source.trimBlank.toList node := named_of_parseTrimmed
  rw [String.trimBlank, String.toList_ofList] at hnamed
  unfold parse at h
  split at h
  · cases h
  · exact hnamed h

theorem valueIn_congr {node : Node} {s t : Scope} (h : ∀ w, node.mentions w = true → s.lookup w = t.lookup w) :
    valueIn s node = valueIn t node := by
  have heval : eval (m := Id) (fun name => pure (s.lookup name)) [] node =
      eval (m := Id) (fun name => pure (t.lookup name)) [] node := by
    refine eval_congr node [] fun w hw => ?_
    simp only [readName, h w hw]
  unfold valueIn evalWhole
  rw [heval]

open Reference in
/-- A text that reads nothing of the form has the same outcome whatever the form holds, unless the form
stands alone in it and the expression mentions it. -/
theorem evaluate_congr_of_not_isCrossField (source : String) (s t : Scope)
    (hagree : ∀ name, name ∉ formNames → s.lookup name = t.lookup name)
    (hread : isCrossField source = false)
    (halone : ∀ node, parse source = .ok node → ∀ w ∈ formNames, node.mentions w = true →
      standsAlone w source = false) :
    evaluate source s = evaluate source t := by
  unfold evaluate
  cases hp : parse source with
  | error f => rfl
  | ok node =>
    refine valueIn_congr fun w hw => hagree w fun hform => ?_
    have hword : ∀ w ∈ formNames, w.toList.head?.any isWord = true := by decide
    rcases reads_or_alone (hword w hform) (named_of_parse hp w hw) with h | h
    · rw [not_readsFrom hform hread] at h
      cases h
    · rw [halone node hp w hform hw] at h
      cases h

open Reference in
/-- A text that only quotes the name of the form. -/
theorem evaluate_congr_quoted :
    isCrossField "fieldValue === 'formValue'" = false ∧ standsAlone "formValue" "fieldValue === 'formValue'" = true ∧
      evaluate "fieldValue === 'formValue'" [("fieldValue", .int 1), ("formValue", .map [])] =
        evaluate "fieldValue === 'formValue'" [("fieldValue", .int 1), ("formValue", .null)] := by
  have hnames : ∀ w ∈ formNames,
      (parse "fieldValue === 'formValue'").toOption.any (Node.mentions w) = false := by decide +kernel
  refine ⟨by decide, by decide, evaluate_congr_of_not_isCrossField _ _ _ (fun name hname => ?_) (by decide) ?_⟩
  · have hne : (name == "formValue") = false := beq_eq_false_iff_ne.mpr fun h => hname (h ▸ by decide)
    simp only [List.lookup_cons, hne]
  · intro node hp w hw hm
    have hnot := hnames w hw
    rw [hp] at hnot
    exact absurd (hm.symm.trans hnot) (by decide)

-- In parentheses the form is read all the same, but the text does not show it.
open Reference in
example : isCrossField "(formValue).b" = false ∧ standsAlone "formValue" "(formValue).b" = true := by decide

end Expr
end FormRules
