import FormRules.Proofs.Number.Canonical
import FormRules.Proofs.Store.Order
import FormRules.Proofs.Text.Quoted
import FormRules.Proofs.Value.Equality

/-!
# Canonical texts tell values apart

Where a value ends, its canonical text can be told from what follows, so that the texts of items and of
entries are found again in the text of the whole. Two values have the same canonical text just if they are
alike.
-/

namespace FormRules

/-- Whether what follows a value inside of another one begins here. -/
def Ends (r : List Char) : Prop := ∀ c ∈ r.head?, c ∈ [',', ']', '\x7d']

theorem ends_cons {c : Char} {r : List Char} (h : c ∈ [',', ']', '\x7d']) : Ends (c :: r) := by
  rintro _ ⟨⟩
  exact h

/-- Whether a text can be told from those of a kind wherever one of them ends. -/
def Separates (T : String → Prop) (t : String) : Prop :=
  ∀ u, T u → ∀ r s, Ends r → Ends s → t.toList ++ r = u.toList ++ s → t = u ∧ r = s

/-- Texts without the characters that end a value. -/
theorem append_cancel {as bs r s : List Char} (ha : ∀ c ∈ [',', ']', '\x7d'], c ∉ as)
    (hb : ∀ c ∈ [',', ']', '\x7d'], c ∉ bs) (hr : Ends r) (hs : Ends s) (h : as ++ r = bs ++ s) :
    as = bs ∧ r = s := by
  induction as generalizing bs with
  | nil =>
    cases bs with
    | nil => exact ⟨rfl, h⟩
    | cons b bs =>
      have hmem := hr b (by rw [← List.nil_append r, h]; rfl)
      exact absurd List.mem_cons_self (hb b hmem)
  | cons a as ih =>
    cases bs with
    | nil =>
      have hmem := hs a (by rw [← List.nil_append s, ← h]; rfl)
      exact absurd List.mem_cons_self (ha a hmem)
    | cons b bs =>
      obtain ⟨rfl, htail⟩ := List.cons.inj h
      obtain ⟨rfl, rfl⟩ := ih (fun c hc hm => ha c hc (List.mem_cons_of_mem _ hm))
        (fun c hc hm => hb c hc (List.mem_cons_of_mem _ hm)) htail
      exact ⟨rfl, rfl⟩

theorem append_nil_congr {t u : String} (h : t = u) : t.toList ++ [] = u.toList ++ [] := by
  rw [h]

/-! ## Texts between commas -/

section
variable {T : String → Prop} {ts us : List String} {e : Char} {r s : List Char}

theorem intercalate_toList (t : String) (ts : List String) :
    (",".intercalate (t :: ts)).toList = t.toList ++ ts.flatMap fun u => ',' :: u.toList := by
  induction ts generalizing t with
  | nil => simp
  | cons u ts ih => rw [String.intercalate_cons_cons, String.toList_append, ih]; simp

theorem ends_flatMap (he : e ∈ [']', '\x7d']) : Ends ((ts.flatMap fun u => ',' :: u.toList) ++ e :: r) := by
  cases ts with
  | nil => exact ends_cons (List.mem_cons_of_mem _ he)
  | cons t ts => exact ends_cons List.mem_cons_self

theorem flatMap_cancel (he : e ∈ [']', '\x7d']) (ht : ∀ t ∈ ts, Separates T t) (hu : ∀ u ∈ us, T u)
    (h : (ts.flatMap fun u => ',' :: u.toList) ++ e :: r = (us.flatMap fun u => ',' :: u.toList) ++ e :: s) :
    ts = us ∧ r = s := by
  have hcomma : e ≠ ',' := by
    rintro rfl
    exact absurd he (by decide)
  induction ts generalizing us with
  | nil =>
    cases us with
    | nil => exact ⟨rfl, (List.cons.inj h).2⟩
    | cons u us => exact absurd (List.cons.inj h).1 hcomma
  | cons t ts ih =>
    cases us with
    | nil => exact absurd (List.cons.inj h).1.symm hcomma
    | cons u us =>
      obtain ⟨ht, hts⟩ := List.forall_mem_cons.mp ht
      obtain ⟨hu, hus⟩ := List.forall_mem_cons.mp hu
      simp only [List.flatMap_cons, List.cons_append, List.append_assoc] at h
      obtain ⟨rfl, htail⟩ := ht u hu _ _ (ends_flatMap he) (ends_flatMap he) (List.cons.inj h).2
      obtain ⟨rfl, rfl⟩ := ih hts hus htail
      exact ⟨rfl, rfl⟩

/-- Texts between commas are found again. -/
theorem intercalate_cancel (he : e ∈ [']', '\x7d'])
    (hT : ∀ t, T t → ∃ c cs, t.toList = c :: cs ∧ c ∉ [',', ']', '\x7d'])
    (ht : ∀ t ∈ ts, T t ∧ Separates T t) (hu : ∀ u ∈ us, T u)
    (h : (",".intercalate ts).toList ++ e :: r = (",".intercalate us).toList ++ e :: s) : ts = us ∧ r = s := by
  have hend : e ∈ [',', ']', '\x7d'] := List.mem_cons_of_mem _ he
  cases ts with
  | nil =>
    cases us with
    | nil => exact ⟨rfl, (List.cons.inj h).2⟩
    | cons u us =>
      obtain ⟨c, cs, hc, hne⟩ := hT u (hu u List.mem_cons_self)
      rw [intercalate_toList, hc] at h
      cases (List.cons.inj h).1
      exact absurd hend hne
  | cons t ts =>
    obtain ⟨⟨hT', ht⟩, hts⟩ := List.forall_mem_cons.mp ht
    cases us with
    | nil =>
      obtain ⟨c, cs, hc, hne⟩ := hT t hT'
      rw [intercalate_toList, hc] at h
      cases (List.cons.inj h).1
      exact absurd hend hne
    | cons u us =>
      obtain ⟨hu, hus⟩ := List.forall_mem_cons.mp hu
      rw [intercalate_toList, intercalate_toList, List.append_assoc, List.append_assoc] at h
      obtain ⟨rfl, htail⟩ := ht u hu _ _ (ends_flatMap he) (ends_flatMap he) h
      obtain ⟨rfl, rfl⟩ := flatMap_cancel he (fun t ht => (hts t ht).2) hus htail
      exact ⟨rfl, rfl⟩

end

namespace Value

theorem canonicals_eq (items : List Value) : canonicals items = items.map canonical := by
  induction items with
  | nil => rfl
  | cons v vs ih => rw [canonicals, ih]; rfl

theorem canonicalFields_eq (es : Entries) : canonicalFields es = es.map fun e => (e.1.text, e.2.canonical) := by
  induction es with
  | nil => rfl
  | cons e es ih => rw [canonicalFields, ih]; rfl

/-- The character that the canonical texts of values of a kind begin with; that of a number varies. -/
def mark : Value → Option Char
  | .undefined => some 'u'
  | .null => some 'n'
  | .bool b => some (if b then 't' else 'f')
  | .num _ => none
  | .text _ => some '"'
  | .seq _ _ => some '['
  | .map _ => some '\x7b'

theorem canonicalItems_toList (items : List String) :
    (canonicalItems items).toList = '[' :: ((",".intercalate items).toList ++ [']']) := by
  simp [canonicalItems]

/-- The text of an entry with the given text of its value. -/
def entryText (e : String × String) : String := Text.asciiQuote e.1 ++ ":" ++ e.2

theorem entryText_toList (e : String × String) :
    (entryText e).toList = (Text.asciiQuote e.1).toList ++ ':' :: e.2.toList := by
  simp [entryText]

theorem entryText_cancel {e f : String × String} {r s : List Char}
    (h : (entryText e).toList ++ r = (entryText f).toList ++ s) : e.1 = f.1 ∧ e.2.toList ++ r = f.2.toList ++ s := by
  rw [entryText_toList, entryText_toList, List.append_assoc, List.append_assoc] at h
  obtain ⟨hk, ht⟩ := Text.asciiQuote_cancel h
  exact ⟨hk, (List.cons.inj ht).2⟩

/-- The texts of the entries of a mapping, in order. -/
def entryTexts (fields : List (String × String)) : List String :=
  (Order.sort (fun a b => !(b.1 < a.1)) fields).map entryText

theorem canonicalEntries_toList (fields : List (String × String)) :
    (canonicalEntries fields).toList = '\x7b' :: ((",".intercalate (entryTexts fields)).toList ++ ['\x7d']) := by
  have h : canonicalEntries fields = "\x7b" ++ ",".intercalate (entryTexts fields) ++ "\x7d" := rfl
  simp [h]

/-- The first character of a canonical text tells the kind of the value, and ends none. -/
theorem head_canonical (v : Value) : ∃ c cs, v.canonical.toList = c :: cs ∧ c ∉ [',', ']', '\x7d'] ∧
    v.mark = if c ∈ ['u', 'n', 't', 'f', '"', '[', '\x7b'] then some c else none := by
  cases v with
  | undefined => exact ⟨_, _, rfl, by decide, rfl⟩
  | null => exact ⟨_, _, rfl, by decide, rfl⟩
  | bool b => cases b <;> exact ⟨_, _, rfl, by decide, rfl⟩
  | text s => exact ⟨_, _, Text.asciiQuote_toList s, by decide, rfl⟩
  | seq kind items => exact ⟨_, _, canonicalItems_toList _, by decide, rfl⟩
  | map es => exact ⟨_, _, canonicalEntries_toList _, by decide, rfl⟩
  | num n =>
    obtain ⟨c, cs, hc, hd⟩ := n.head_canonical
    have hnot (d : Char) (hdigit : d.isDigit = false) (hw : d ∉ ['-', 'N', 'I']) : c ≠ d := by
      rintro rfl
      exact hd.elim (by simp [hdigit]) hw
    refine ⟨c, cs, hc, ?_, (if_neg ?_).symm⟩
    · simp [hnot ',' rfl, hnot ']' rfl, hnot '\x7d' rfl]
    · simp [hnot 'u' rfl, hnot 'n' rfl, hnot 't' rfl, hnot 'f' rfl, hnot '"' rfl, hnot '[' rfl, hnot '\x7b' rfl]

variable {v w : Value} {r s : List Char}

theorem mark_eq (h : v.canonical.toList ++ r = w.canonical.toList ++ s) : v.mark = w.mark := by
  obtain ⟨c, cs, hv, -, hm⟩ := v.head_canonical
  obtain ⟨d, ds, hw, -, hm'⟩ := w.head_canonical
  rw [hv, hw] at h
  rw [hm, hm', (List.cons.inj h).1]

/-- Values of the same kind; each boolean is a kind of its own. -/
inductive SameKind : Value → Value → Prop
  | undefined : SameKind .undefined .undefined
  | null : SameKind .null .null
  | bool (b : Bool) : SameKind (.bool b) (.bool b)
  | num (a b : Number) : SameKind (.num a) (.num b)
  | text (a b : String) : SameKind (.text a) (.text b)
  | seq (j k : SeqKind) (as bs : List Value) : SameKind (.seq j as) (.seq k bs)
  | map (es fs : Entries) : SameKind (.map es) (.map fs)

theorem sameKind_of_mark (h : v.mark = w.mark) : SameKind v w := by
  cases v with
  | undefined =>
    cases w with
    | undefined => exact .undefined
    | bool b => cases b <;> simp [mark] at h
    | _ => simp [mark] at h
  | null =>
    cases w with
    | null => exact .null
    | bool b => cases b <;> simp [mark] at h
    | _ => simp [mark] at h
  | bool a =>
    cases w with
    | bool b => cases a <;> cases b <;> first | exact .bool _ | simp [mark] at h
    | _ => cases a <;> simp [mark] at h
  | num a =>
    cases w with
    | num b => exact .num a b
    | _ => simp [mark] at h
  | text a =>
    cases w with
    | text b => exact .text a b
    | bool b => cases b <;> simp [mark] at h
    | _ => simp [mark] at h
  | seq j as =>
    cases w with
    | seq k bs => exact .seq j k as bs
    | bool b => cases b <;> simp [mark] at h
    | _ => simp [mark] at h
  | map es =>
    cases w with
    | map fs => exact .map es fs
    | bool b => cases b <;> simp [mark] at h
    | _ => simp [mark] at h

/-- Whether a text is canonical. -/
def IsCanonical (t : String) : Prop := ∃ w : Value, t = w.canonical

/-- Whether a text is that of an entry. -/
def IsEntry (t : String) : Prop := ∃ (k : String) (w : Value), t = entryText (k, w.canonical)

theorem head_isCanonical {t : String} (h : IsCanonical t) : ∃ c cs, t.toList = c :: cs ∧ c ∉ [',', ']', '\x7d'] := by
  obtain ⟨w, rfl⟩ := h
  obtain ⟨c, cs, hc, hne, -⟩ := w.head_canonical
  exact ⟨c, cs, hc, hne⟩

theorem head_isEntry {t : String} (h : IsEntry t) : ∃ c cs, t.toList = c :: cs ∧ c ∉ [',', ']', '\x7d'] := by
  obtain ⟨k, w, rfl⟩ := h
  rw [entryText_toList, Text.asciiQuote_toList]
  exact ⟨_, _, rfl, by decide⟩

/-- An entry can be told if its value can. -/
theorem separates_entry {t : String} (k : String) (h : Separates IsCanonical t) :
    Separates IsEntry (entryText (k, t)) := by
  rintro u ⟨l, w, rfl⟩ r s hr hs heq
  obtain ⟨hk, htail⟩ := entryText_cancel heq
  obtain ⟨ht, rfl⟩ := h w.canonical ⟨w, rfl⟩ r s hr hs htail
  dsimp only at hk
  exact ⟨by rw [hk, ht], rfl⟩

theorem mem_entryTexts {es : Entries} {t : String} (h : t ∈ entryTexts (canonicalFields es)) :
    ∃ e ∈ es, t = entryText (e.1.text, e.2.canonical) := by
  obtain ⟨f, hf, rfl⟩ := List.mem_map.mp h
  have hmem := (Order.sort_perm (canonicalFields es)).mem_iff.mp hf
  rw [canonicalFields_eq] at hmem
  obtain ⟨e, he, rfl⟩ := List.mem_map.mp hmem
  exact ⟨e, he, rfl⟩

theorem isEntry_of_mem {es : Entries} : ∀ t ∈ entryTexts (canonicalFields es), IsEntry t := by
  intro t ht
  obtain ⟨e, -, rfl⟩ := mem_entryTexts ht
  exact ⟨_, _, rfl⟩

theorem isCanonical_of_mem {items : List Value} : ∀ t ∈ canonicals items, IsCanonical t := by
  intro t ht
  rw [canonicals_eq] at ht
  obtain ⟨v, -, rfl⟩ := List.mem_map.mp ht
  exact ⟨v, rfl⟩

theorem items_cancel {vs ws : List Value} (hv : ∀ v ∈ vs, Separates IsCanonical v.canonical)
    (h : (canonicalItems (canonicals vs)).toList ++ r = (canonicalItems (canonicals ws)).toList ++ s) :
    canonicals vs = canonicals ws ∧ r = s := by
  rw [canonicalItems_toList, canonicalItems_toList, List.cons_append, List.cons_append, List.append_assoc,
    List.append_assoc] at h
  refine intercalate_cancel (by decide) (fun _ => head_isCanonical) (fun t ht => ⟨isCanonical_of_mem t ht, ?_⟩)
    isCanonical_of_mem (List.cons.inj h).2
  rw [canonicals_eq] at ht
  obtain ⟨v, hmem, rfl⟩ := List.mem_map.mp ht
  exact hv v hmem

theorem entries_cancel {es fs : Entries} (he : ∀ e ∈ es, Separates IsCanonical e.2.canonical)
    (h : (canonicalEntries (canonicalFields es)).toList ++ r = (canonicalEntries (canonicalFields fs)).toList ++ s) :
    entryTexts (canonicalFields es) = entryTexts (canonicalFields fs) ∧ r = s := by
  rw [canonicalEntries_toList, canonicalEntries_toList, List.cons_append, List.cons_append, List.append_assoc,
    List.append_assoc] at h
  refine intercalate_cancel (by decide) (fun _ => head_isEntry) (fun t ht => ⟨isEntry_of_mem t ht, ?_⟩)
    isEntry_of_mem (List.cons.inj h).2
  obtain ⟨e, hmem, rfl⟩ := mem_entryTexts ht
  exact separates_entry _ (he e hmem)

/-- Only values of the same kind need to be told apart. -/
theorem separates_of_kind (h : ∀ w, SameKind v w → ∀ r s, Ends r → Ends s →
    v.canonical.toList ++ r = w.canonical.toList ++ s → v.canonical = w.canonical ∧ r = s) :
    Separates IsCanonical v.canonical := by
  rintro _ ⟨w, rfl⟩ r s hr hs heq
  exact h w (sameKind_of_mark (mark_eq heq)) r s hr hs heq

/-- Wherever a value ends, its canonical text can be told from what follows. -/
theorem separates (v : Value) : Separates IsCanonical v.canonical := by
  induction v using induct with
  | undefined =>
    refine separates_of_kind fun w hk r s _ _ h => ?_
    cases hk
    exact ⟨rfl, List.append_cancel_left h⟩
  | null =>
    refine separates_of_kind fun w hk r s _ _ h => ?_
    cases hk
    exact ⟨rfl, List.append_cancel_left h⟩
  | bool b =>
    refine separates_of_kind fun w hk r s _ _ h => ?_
    cases hk
    exact ⟨rfl, List.append_cancel_left h⟩
  | num a =>
    refine separates_of_kind fun w hk r s hr hs h => ?_
    cases hk with
    | num _ b =>
      obtain ⟨hab, hrs⟩ := append_cancel (fun _ => a.not_mem_canonical) (fun _ => b.not_mem_canonical) hr hs h
      exact ⟨String.toList_inj.mp hab, hrs⟩
  | text a =>
    refine separates_of_kind fun w hk r s _ _ h => ?_
    cases hk with
    | text _ b =>
      obtain ⟨rfl, hrs⟩ := Text.asciiQuote_cancel h
      exact ⟨rfl, hrs⟩
  | seq kind items ih =>
    refine separates_of_kind fun w hk r s _ _ h => ?_
    cases hk with
    | seq _ k _ ws =>
      obtain ⟨hitems, hrs⟩ := items_cancel ih h
      exact ⟨congrArg canonicalItems hitems, hrs⟩
  | map es ih =>
    refine separates_of_kind fun w hk r s _ _ h => ?_
    cases hk with
    | map _ fs =>
      obtain ⟨hentries, hrs⟩ := entries_cancel ih h
      refine ⟨String.toList_inj.mp ?_, hrs⟩
      rw [canonical, canonical, canonicalEntries_toList, canonicalEntries_toList, hentries]

/-! ## Alike values -/

theorem alikeItems_of_canonicals {vs ws : List Value}
    (hv : ∀ v ∈ vs, ∀ w ∈ ws, v.canonical = w.canonical → v.alike w = true) (h : canonicals vs = canonicals ws) :
    alikeItems vs ws = true := by
  induction vs generalizing ws with
  | nil =>
    cases ws with
    | nil => rfl
    | cons w ws => cases h
  | cons v vs ih =>
    cases ws with
    | nil => cases h
    | cons w ws =>
      obtain ⟨hhead, htail⟩ := List.cons.inj h
      rw [alikeItems, hv v List.mem_cons_self w List.mem_cons_self hhead,
        ih (fun v hm w hm' => hv v (List.mem_cons_of_mem _ hm) w (List.mem_cons_of_mem _ hm')) htail, Bool.and_self]

theorem entryText_injective : Function.Injective entryText := by
  intro e f h
  obtain ⟨hk, ht⟩ := entryText_cancel (append_nil_congr h)
  rw [List.append_nil, List.append_nil] at ht
  exact Prod.ext hk (String.toList_inj.mp ht)

theorem canonicalFields_perm {es fs : Entries} (h : (Value.map es).canonical = (Value.map fs).canonical) :
    (canonicalFields es).Perm (canonicalFields fs) := by
  obtain ⟨htexts, -⟩ := entries_cancel (fun e _ => separates e.2) (append_nil_congr h)
  have hsort := List.map_injective_iff.mpr entryText_injective htexts
  have hp : (Order.sort (fun a b => !(b.1 < a.1)) (canonicalFields es)).Perm (canonicalFields es) :=
    Order.sort_perm _
  rw [hsort] at hp
  exact hp.symm.trans (Order.sort_perm _)

theorem name_of_text {k l : Key} (hk : k.isName = true) (hl : l.isName = true) (h : k.text = l.text) : k = l := by
  obtain ⟨a, rfl⟩ := Key.isName_iff.mp hk
  obtain ⟨b, rfl⟩ := Key.isName_iff.mp hl
  exact congrArg Key.name h

theorem sameKind_of_canonical (h : v.canonical = w.canonical) : SameKind v w :=
  sameKind_of_mark (mark_eq (append_nil_congr h))

theorem alikeEntries_of_canonical {es fs : Entries}
    (he : ∀ e ∈ es, ∀ w : Value, w.isJson = true → e.2.canonical = w.canonical → e.2.alike w = true)
    (hes : entriesJson es = true) (hfs : (Value.map fs).isJson = true)
    (h : (Value.map es).canonical = (Value.map fs).canonical) : (Value.map es).alike (.map fs) = true := by
  have hp := canonicalFields_perm h
  rw [canonicalFields_eq, canonicalFields_eq] at hp
  have hlength : es.length = fs.length := by simpa using hp.length_eq
  rw [isJson, Bool.and_eq_true, decide_eq_true_iff, entriesJson_iff] at hfs
  rw [alike, Bool.and_eq_true, decide_eq_true_iff, alikeEntries_iff]
  refine ⟨hlength, fun e hmem => ?_⟩
  have hmem' := hp.mem_iff.mp (List.mem_map.mpr ⟨e, hmem, rfl⟩)
  obtain ⟨f, hf, heq⟩ := List.mem_map.mp hmem'
  obtain ⟨hk, hc⟩ := Prod.mk.inj heq
  obtain ⟨hkey, hjson⟩ := hfs.2 f hf
  have hname : f.1 = e.1 := name_of_text hkey (entriesJson_iff.mp hes e hmem).1 hk
  exact ⟨f.2, hname ▸ Table.get?_of_mem hfs.1 hf, he e hmem f.2 hjson hc.symm⟩

/-- JSON data of the same canonical text are alike. -/
theorem alike_of_canonical (v : Value) (hv : v.isJson = true) : ∀ w : Value, w.isJson = true →
    v.canonical = w.canonical → v.alike w = true := by
  induction v using induct with
  | undefined =>
    intro w _ h
    cases sameKind_of_canonical h
    rfl
  | null =>
    intro w _ h
    cases sameKind_of_canonical h
    rfl
  | bool b =>
    intro w _ h
    cases sameKind_of_canonical h
    rw [alike, decide_eq_true rfl]
  | num a =>
    intro w _ h
    cases sameKind_of_canonical h with
    | num _ b =>
      rw [alike, ← Number.standing_eq_iff, ← Number.canonical_eq_iff]
      exact h
  | text a =>
    intro w _ h
    cases sameKind_of_canonical h with
    | text _ b =>
      have hquote : Text.asciiQuote a = Text.asciiQuote b := h
      rw [alike, (Text.asciiQuote_cancel (append_nil_congr hquote)).1, decide_eq_true rfl]
  | seq kind items ih =>
    intro w hw h
    cases sameKind_of_canonical h with
    | seq _ k _ ws =>
      rw [isJson, Bool.and_eq_true, decide_eq_true_iff, allJson_iff] at hv hw
      obtain ⟨hitems, -⟩ := items_cancel (fun v _ => separates v) (append_nil_congr h)
      rw [alike, hv.1, hw.1, decide_eq_true rfl, Bool.true_and]
      exact alikeItems_of_canonicals (fun v hm w hm' => ih v hm (hv.2 v hm) w (hw.2 w hm')) hitems
  | map es ih =>
    intro w hw h
    cases sameKind_of_canonical h with
    | map _ fs =>
      rw [isJson, Bool.and_eq_true] at hv
      have hes := entriesJson_iff.mp hv.2
      exact alikeEntries_of_canonical (fun e hm => ih e hm (hes e hm).2) hv.2 hw h

theorem canonicals_of_alike {vs ws : List Value}
    (hv : ∀ v ∈ vs, ∀ w ∈ ws, v.alike w = true → v.canonical = w.canonical) (h : alikeItems vs ws = true) :
    canonicals vs = canonicals ws := by
  induction vs generalizing ws with
  | nil =>
    cases ws with
    | nil => rfl
    | cons w ws => simp [alikeItems] at h
  | cons v vs ih =>
    cases ws with
    | nil => simp [alikeItems] at h
    | cons w ws =>
      rw [alikeItems, Bool.and_eq_true] at h
      rw [canonicals, canonicals, hv v List.mem_cons_self w List.mem_cons_self h.1,
        ih (fun v hm w hm' => hv v (List.mem_cons_of_mem _ hm) w (List.mem_cons_of_mem _ hm')) h.2]

theorem nodup_canonicalFields {es : Entries} (hd : (es.map (·.1)).Nodup) (hn : ∀ e ∈ es, e.1.isName = true) :
    ((canonicalFields es).map (·.1)).Nodup := by
  have hmap : (canonicalFields es).map (·.1) = (es.map (·.1)).map Key.text := by
    simp [canonicalFields_eq]
  rw [hmap]
  refine hd.map_on fun k hk l hl h => ?_
  obtain ⟨e, he, rfl⟩ := List.mem_map.mp hk
  obtain ⟨f, hf, rfl⟩ := List.mem_map.mp hl
  exact name_of_text (hn e he) (hn f hf) h

theorem canonicalEntries_of_alike {es fs : Entries}
    (he : ∀ e ∈ es, ∀ w : Value, w.isJson = true → e.2.alike w = true → e.2.canonical = w.canonical)
    (hes : (Value.map es).isJson = true) (hfs : (Value.map fs).isJson = true)
    (h : (Value.map es).alike (.map fs) = true) : (Value.map es).canonical = (Value.map fs).canonical := by
  rw [isJson, Bool.and_eq_true, decide_eq_true_iff, entriesJson_iff] at hes hfs
  rw [alike, Bool.and_eq_true, decide_eq_true_iff, alikeEntries_iff] at h
  have hnodup := nodup_canonicalFields hes.1 fun e hm => (hes.2 e hm).1
  have hsubset : canonicalFields es ⊆ canonicalFields fs := by
    intro f hf
    rw [canonicalFields_eq] at hf ⊢
    obtain ⟨e, hm, rfl⟩ := List.mem_map.mp hf
    obtain ⟨b, hb, halike⟩ := h.2 e hm
    have hmem := Table.mem_of_get? hb
    rw [he e hm b (hfs.2 _ hmem).2 halike]
    exact List.mem_map.mpr ⟨_, hmem, rfl⟩
  have hlength : (canonicalFields fs).length ≤ (canonicalFields es).length := by
    rw [canonicalFields_eq, canonicalFields_eq, List.length_map, List.length_map, h.1]
  have hp := (List.subperm_of_subset (List.Nodup.of_map _ hnodup) hsubset).perm_of_length_le hlength
  refine String.toList_inj.mp ?_
  rw [canonical, canonical, canonicalEntries_toList, canonicalEntries_toList, entryTexts, entryTexts,
    Order.sort_eq_of_perm hp hnodup]

/-- JSON data that are alike have the same canonical text. -/
theorem canonical_of_alike (v : Value) (hv : v.isJson = true) : ∀ w : Value, w.isJson = true →
    v.alike w = true → v.canonical = w.canonical := by
  induction v using induct with
  | undefined =>
    intro w _ h
    cases w with
    | undefined => rfl
    | _ => simp [alike] at h
  | null =>
    intro w _ h
    cases w with
    | null => rfl
    | _ => simp [alike] at h
  | bool a =>
    intro w _ h
    cases w with
    | bool b =>
      rw [alike, decide_eq_true_iff] at h
      rw [h]
    | _ => simp [alike] at h
  | num a =>
    intro w _ h
    cases w with
    | num b =>
      rw [alike, ← Number.standing_eq_iff] at h
      exact Number.canonical_of_standing h
    | _ => simp [alike] at h
  | text a =>
    intro w _ h
    cases w with
    | text b =>
      rw [alike, decide_eq_true_iff] at h
      rw [h]
    | _ => simp [alike] at h
  | seq kind items ih =>
    intro w hw h
    cases w with
    | seq k ws =>
      rw [isJson, Bool.and_eq_true, allJson_iff] at hv hw
      rw [alike, Bool.and_eq_true] at h
      exact congrArg canonicalItems (canonicals_of_alike (fun v hm w hm' => ih v hm (hv.2 v hm) w (hw.2 w hm')) h.2)
    | _ => simp [alike] at h
  | map es ih =>
    intro w hw h
    cases w with
    | map fs =>
      have hes := hv
      rw [isJson, Bool.and_eq_true, entriesJson_iff] at hes
      exact canonicalEntries_of_alike (fun e hm => ih e hm (hes.2 e hm).2) hv hw h
    | _ => simp [alike] at h

/-- Canonical texts tell JSON data apart just if they are not alike. -/
theorem canonical_eq_iff_alike (v w : Value) (hv : v.isJson = true) (hw : w.isJson = true) :
    v.canonical = w.canonical ↔ v.alike w = true :=
  ⟨alike_of_canonical v hv w hw, canonical_of_alike v hv w hw⟩

/-- A zero of either kind and the order of entries make no difference, a boolean and a number do. -/
theorem canonical_eq_iff_alike_reordered :
    (object [("size", .num (.float .zero)), ("rest", list [.num .nan, .undefined])]).canonical =
      (object [("rest", list [.num .nan, .undefined]), ("size", int 0)]).canonical ∧
    (list [.bool true, .text ""]).canonical ≠ (list [int 1, .text ""]).canonical := by
  refine ⟨(canonical_eq_iff_alike _ _ (by decide) (by decide)).mpr (by decide +kernel), fun h => ?_⟩
  exact absurd ((canonical_eq_iff_alike _ _ (by decide) (by decide)).mp h) (by decide)

end Value
end FormRules
