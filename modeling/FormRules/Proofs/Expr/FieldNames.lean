import FormRules.Condition.Dependence
import FormRules.Proofs.Expr.Legible
import FormRules.Proofs.Value.PathText

/-!
# Fields whose names are their paths

What a text shows behind the name of the form is compared as a path. It designates the field that the expression reads
if the name is read from a path as itself, which a name behind a point always is; a quoted name with a point in it, or
made of figures, is not.
-/

namespace FormRules.Expr
open Text

namespace Reference

/-- The paths in quotes and brackets that a text shows. -/
def quotedPaths (source : String) : List String :=
  (scan (bracketed '\'') 0 0 false (trim source.toList) ++ scan (bracketed '"') 0 0 false (trim source.toList)).map (·.2)

/-- Whether a name is read as itself where it is taken for a path. -/
def isFieldName (n : String) : Bool := n.toList.all isPathChar && !n.toList.contains '.' && !n.toList.all isFigure

/-- Whether a text shows the fields of the form that it reads, each by a name that is a path of its own. -/
def showsNames (source : String) : Bool := showsFields [] source && (quotedPaths source).all isFieldName

variable {source p n : String} {cs rest : List Char} {names : List String}

/-! ## The paths of a text -/

theorem isPathChar_of_continuesName {c : Char} (h : Token.continuesName c = true) : isPathChar c = true := by
  rw [Token.continuesName, Bool.or_eq_true] at h
  rw [isPathChar]
  rcases h with h | h <;> simp [h]

theorem isFigure_of_opensName {c : Char} (h : Token.opensName c = true) : isFigure c = false := by
  simp only [Token.opensName, Bool.or_eq_true, beq_iff_eq] at h
  rcases h with (halpha | rfl) | rfl
  · obtain ⟨hlow, hascii⟩ := toNat_of_isAlpha halpha
    rw [isFigure, if_pos hascii]
    by_contra hdigit
    simp only [Bool.not_eq_false, Char.isDigit, Bool.and_eq_true, decide_eq_true_eq] at hdigit
    have hhigh : c.toNat ≤ 57 := UInt32.le_iff_toNat_le.mp hdigit.2
    omega
  · decide
  · decide

theorem isFieldName_iff : isFieldName n = true ↔ (∀ c ∈ n.toList, isPathChar c = true) ∧ '.' ∉ n.toList ∧
    n.toList.all isFigure = false := by
  simp only [isFieldName, Bool.and_eq_true, List.all_eq_true, Bool.not_eq_true', List.contains_iff_mem, ← Bool.not_eq_true,
    and_assoc]

theorem isPlain_of_isFieldName (h : isFieldName n = true) : (Key.name n).IsPlain := by
  obtain ⟨hchars, hpoint, hfigures⟩ := isFieldName_iff.mp h
  refine ⟨?_, List.all_eq_true.mpr fun c hc => ?_, hfigures⟩
  · rintro rfl
    cases hfigures
  · have hchar := hchars c hc
    simp only [Path.isPlain, Bool.and_eq_true, bne_iff_ne]
    refine ⟨⟨?_, ?_⟩, ?_⟩
    · rintro rfl
      exact hpoint hc
    · rintro rfl
      exact absurd hchar (by decide)
    · rintro rfl
      exact absurd hchar (by decide)

/-- A name behind a point is a path. -/
theorem isFieldName_of_propertyName (h : Token.propertyName cs = some (n, rest)) : isFieldName n = true := by
  obtain ⟨⟨c, l, rfl, hopens⟩, -, hpoint⟩ := of_propertyName h
  rw [Token.propertyName, if_pos hopens] at h
  cases h
  refine isFieldName_iff.mpr ⟨fun d hd => ?_, hpoint, ?_⟩
  · rw [String.toList_ofList, List.mem_cons] at hd
    rcases hd with rfl | hd
    · exact isPathChar_of_continuesName (Token.continuesName_of_opensName hopens)
    · exact isPathChar_of_continuesName (List.mem_takeWhile_imp hd)
  · rw [String.toList_ofList, List.all_cons, isFigure_of_opensName hopens, Bool.false_and]

theorem of_mem_scan {α : Type} {m : List Char → Option (α × List Char)} {skip place : Nat} {inWord : Bool} {e : Nat × α}
    (h : e ∈ scan m skip place inWord cs) : ∃ l rest, m l = some (e.2, rest) := by
  induction cs generalizing skip place inWord with
  | nil => rw [scan] at h; cases h
  | cons c cs ih =>
    cases skip with
    | succ skip => exact ih h
    | zero =>
      rw [scan] at h
      split at h
      · next a rest hm =>
        rcases List.mem_cons.mp h with rfl | h
        · split at hm
          · cases hm
          · exact ⟨_, _, hm⟩
        · exact ih h
      · exact ih h

theorem of_mem_addPath {found : List String} {q : String} (h : p ∈ addPath found q) : p ∈ found ∨ p = q := by
  unfold addPath at h
  split at h
  · exact .inl h
  · simpa using h

theorem of_mem_addWithRoot {found : List String} {q : String} (h : p ∈ addWithRoot found q) :
    p ∈ found ∨ p = root q ∨ p = q := by
  unfold addWithRoot at h
  dsimp only at h
  split at h
  · rcases of_mem_addPath h with h | h
    · exact (of_mem_addPath h).imp_right .inl
    · exact .inr (.inr h)
  · exact (of_mem_addPath h).imp_right .inl

theorem of_mem_paths (h : p ∈ paths source) : ∃ e, (p = root e ∨ p = e) ∧
    ((∃ l rest, dotted l = some (e, rest)) ∨ e ∈ quotedPaths source) := by
  have all {finds : List (Nat × String)} {found : List String}
      (h : p ∈ finds.foldl (fun found e => addWithRoot found e.2) found) :
      p ∈ found ∨ ∃ e ∈ finds, p = root e.2 ∨ p = e.2 := by
    induction finds generalizing found with
    | nil => exact .inl h
    | cons e finds ih =>
      rcases ih h with h | ⟨f, hf, hp⟩
      · exact (of_mem_addWithRoot h).imp_right fun hp => ⟨e, List.mem_cons_self, hp⟩
      · exact .inr ⟨f, List.mem_cons_of_mem _ hf, hp⟩
  obtain ⟨e, he, hp⟩ := (all h).resolve_left List.not_mem_nil
  rw [(Order.sort_perm _).mem_iff, List.append_assoc, List.mem_append] at he
  refine ⟨e.2, hp, he.imp of_mem_scan fun he => List.mem_map_of_mem he⟩

theorem of_pointedNames {fuel : Nat} (h : pointedNames fuel cs = (names, rest)) : ∀ n ∈ names, isFieldName n = true := by
  induction fuel generalizing cs names rest with
  | zero =>
    cases h
    exact nofun
  | succ fuel ih =>
    rw [pointedNames] at h
    split at h
    · next name more hname =>
      cases h
      obtain ⟨more, -, hname⟩ := Option.bind_eq_some_iff.mp hname
      exact List.forall_mem_cons.mpr ⟨isFieldName_of_propertyName hname, ih rfl⟩
    · cases h
      exact nofun

theorem of_dotted (h : dotted cs = some (p, rest)) :
    ∃ n names, (∀ m ∈ n :: names, isFieldName m = true) ∧ p = ".".intercalate (n :: names) := by
  obtain ⟨r, -, h⟩ := Option.bind_eq_some_iff.mp h
  split at h
  · cases h
  · next names rest' hne hnames =>
    cases h
    cases names with
    | nil => exact (hne rfl).elim
    | cons n names => exact ⟨n, names, of_pointedNames hnames, rfl⟩

/-- A path is one name, or several joined by points. -/
theorem of_mem_paths_of_showsNames (h : showsNames source = true) (hp : p ∈ paths source) :
    ∃ n names, (∀ m ∈ n :: names, isFieldName m = true) ∧ p = ".".intercalate (n :: names) := by
  have single {n : String} (hn : isFieldName n = true) :
      ∃ m names, (∀ i ∈ m :: names, isFieldName i = true) ∧ n = ".".intercalate (m :: names) :=
    ⟨n, [], List.forall_mem_cons.mpr ⟨hn, nofun⟩, (String.intercalate_singleton).symm⟩
  obtain ⟨e, hpe, ⟨l, rest, he⟩ | he⟩ := of_mem_paths hp
  · obtain ⟨n, names, hnames, rfl⟩ := of_dotted he
    rcases hpe with rfl | rfl
    · have hn := hnames n List.mem_cons_self
      rw [root_intercalate (isFieldName_iff.mp hn).2.1]
      exact single hn
    · exact ⟨n, names, hnames, rfl⟩
  · have hname : isFieldName e = true := List.all_eq_true.mp (Bool.and_eq_true_iff.mp h).2 e he
    rw [root_eq_self (isFieldName_iff.mp hname).2.1, or_self] at hpe
    rw [hpe]
    exact single hname

theorem foldl_append_names {out : String} (hout : out ≠ "") (names : List String) :
    (names.map Key.name).foldl Path.append out = ".".intercalate (out :: names) := by
  induction names generalizing out with
  | nil => exact (String.intercalate_singleton).symm
  | cons n names ih =>
    have hnext : out ++ "." ++ n ≠ "" := by simp
    rw [List.map_cons, List.foldl_cons, Path.append_name, if_neg hout, ih hnext, String.intercalate_cons_cons]
    cases names with
    | nil => rw [String.intercalate_singleton, String.intercalate_singleton]
    | cons m names => simp [String.intercalate_cons_cons, String.append_assoc]

/-- Names joined by points are read as themselves. -/
theorem keys_of_names (h : ∀ m ∈ n :: names, isFieldName m = true) :
    Path.keys (".".intercalate (n :: names)) = .ok ((n :: names).map Key.name) := by
  have hn := (isPlain_of_isFieldName (h n List.mem_cons_self)).1
  have hformat : Path.format ((n :: names).map Key.name) = ".".intercalate (n :: names) := by
    rw [Path.format, List.map_cons, List.foldl_cons, Path.append_name, if_pos rfl, foldl_append_names hn]
  have hparse : Path.parse (".".intercalate (n :: names)) = .ok ((n :: names).map Key.name) := by
    rw [← hformat, Path.parse_format_iff]
    refine .inl fun k hk => ?_
    obtain ⟨m, hm, rfl⟩ := List.mem_map.mp hk
    exact isPlain_of_isFieldName (h m hm)
  rw [Path.keys, hparse]
  rfl

theorem keys_of_isFieldName (h : isFieldName n = true) : Path.keys n = .ok [.name n] := by
  have hkeys : Path.keys (".".intercalate [n]) = .ok [.name n] := keys_of_names (List.forall_mem_cons.mpr ⟨h, nofun⟩)
  rwa [String.intercalate_singleton] at hkeys

/-- No field that such a text names stands for all fields. -/
theorem allFields_not_mem_paths (h : showsNames source = true) : allFields ∉ paths source := by
  intro hp
  obtain ⟨n, names, hnames, heq⟩ := of_mem_paths_of_showsNames h hp
  have hkeys := keys_of_names hnames
  rw [← heq] at hkeys
  have hparse : Path.parse allFields = .ok [.name allFields] := by decide +kernel
  have hall : Path.keys allFields = .ok [.name allFields] := by
    rw [Path.keys, hparse]
    rfl
  obtain ⟨hn, -⟩ := List.cons.inj (Except.ok.inj (hall.symm.trans hkeys))
  have hname := hnames n List.mem_cons_self
  rw [← Key.name.inj hn] at hname
  exact absurd hname (by decide)

/-- The field behind the name of the form is a path. -/
theorem isFieldName_of_shows {before : List Char} (h : showsNames source = true)
    (htext : before ++ ("formValue".toList ++ rest) = trim source.toList)
    (hborder : Border before ("formValue".toList ++ rest)) (hp : Shows rest p) : isFieldName p = true := by
  cases hp with
  | pointed hpoint hname => exact isFieldName_of_propertyName hname
  | bracketed hopen hquoted =>
    obtain ⟨q, hq, hmem⟩ := mem_scan_of_quoted htext hborder hopen hquoted
    refine List.all_eq_true.mp (Bool.and_eq_true_iff.mp h).2 p (List.mem_map.mpr ⟨(0 + before.length, p), ?_, rfl⟩)
    rcases hq with rfl | rfl
    · exact List.mem_append_left _ hmem
    · exact List.mem_append_right _ hmem

end Reference

/-- What an expression reads of the form are fields that its text names. -/
theorem keepsTo_of_showsNames {source : String} {node : Node} (h : Reference.showsNames source = true)
    (hp : parse source = .ok node) : node.keepsTo "formValue"
      (fun p => (Reference.paths source).contains p && Reference.isFieldName p)
      (fun name => !(["formValue", "rootFormValue"].contains name)) = true := by
  refine keepsTo_of_names (fun cs w rest hcs hid => ?_) hp
  refine (Reference.shown_or_apart (Bool.and_eq_true_iff.mp h).1 hcs hid).imp_right ?_
  rintro ⟨rfl, p, hp, hmem⟩
  obtain ⟨before, htext, hborder, -⟩ := hcs
  obtain ⟨rfl, -⟩ := Token.of_identifier hid
  exact ⟨rfl, p, hp, Bool.and_eq_true_iff.mpr ⟨hmem, Reference.isFieldName_of_shows h htext hborder hp⟩⟩

end FormRules.Expr
