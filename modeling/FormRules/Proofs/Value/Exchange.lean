import FormRules.Proofs.Number.Reading
import FormRules.Proofs.Value.Canonical
import FormRules.Value.Comparison

/-!
# Expected values with one canonical text

What an operator reads of the value that it compares with is not always in the canonical text. Numbers are
read by where they stand, which the text tells. Equality looks keys up, and the text tells a name from an
integer key only if there are names alone. The text of a number tells integers from binary64 numbers where
whole numbers get an exponent.
-/

namespace FormRules

namespace Number
variable {a b : Number}

/-- Whether the number is written without an exponent if it is whole. -/
def writtenPlainly : Number → Bool
  | .int _ => true
  | .float x => x.toInt?.all fun n => n.natAbs < Nat.pow 10 21

theorem text_of_whole {n : Int} (ha : a.writtenPlainly = true) (h : (Number.int n).standing = a.standing) :
    a.text = intText n := by
  cases a with
  | int m =>
    rw [int_of_standing h]
    rfl
  | float x =>
    have hn := toInt?_of_standing h
    rw [writtenPlainly, hn] at ha
    have hsmall : n.natAbs < Nat.pow 10 21 := of_decide_eq_true ha
    cases x with
    | nan => cases hn
    | infinity s => cases hn
    | negativeZero => simp only [text, hn, if_pos hsmall]
    | finite u hr => simp only [text, hn, if_pos hsmall]

/-- Numbers at one place are written alike, unless one has an exponent where the other has none. -/
theorem text_congr (ha : a.writtenPlainly = true) (hb : b.writtenPlainly = true)
    (h : a.standing = b.standing) : a.text = b.text := by
  by_cases hw : ∃ n : Int, a.standing = .units (n * oneUnits)
  · obtain ⟨n, hn⟩ := hw
    rw [text_of_whole ha hn.symm, text_of_whole hb (hn.symm.trans h)]
  · rw [eq_of_standing h (not_exists.mp hw)]

end Number

namespace Value

mutual

/-- Whether every mapping inside the value has names for keys, no two of them the same. -/
def hasNamedKeys : Value → Bool
  | .seq _ items => allNamedKeys items
  | .map es => (es.map (·.1)).Nodup && entriesNamedKeys es
  | .undefined | .null | .bool _ | .num _ | .text _ => true

/-- Whether this holds of all items. -/
def allNamedKeys : List Value → Bool
  | [] => true
  | v :: vs => hasNamedKeys v && allNamedKeys vs

/-- Whether the keys are names, and this holds of the values. -/
def entriesNamedKeys : List (Key × Value) → Bool
  | [] => true
  | (k, v) :: es => k.isName && hasNamedKeys v && entriesNamedKeys es

end

mutual

/-- Whether no number that the text of the value shows is whole and has an exponent. -/
def writtenPlainly : Value → Bool
  | .num n => n.writtenPlainly
  | .seq _ items => allWrittenPlainly items
  | .undefined | .null | .bool _ | .text _ | .map _ => true

/-- Whether this holds of all items. -/
def allWrittenPlainly : List Value → Bool
  | [] => true
  | v :: vs => writtenPlainly v && allWrittenPlainly vs

end

variable {v w : Value} {vs ws : List Value} {es fs : Entries}

theorem entriesNamedKeys_iff :
    entriesNamedKeys es = true ↔ ∀ e ∈ es, e.1.isName = true ∧ e.2.hasNamedKeys = true := by
  induction es with
  | nil => simp [entriesNamedKeys]
  | cons e es ih => simp [entriesNamedKeys, ih]

theorem canonicals_of_canonical {j k : SeqKind} (h : (Value.seq j vs).canonical = (Value.seq k ws).canonical) :
    canonicals vs = canonicals ws :=
  (items_cancel (fun v _ => separates v) (append_nil_congr h)).1

theorem standing_of_canonical {a b : Number} (h : (Value.num a).canonical = (Value.num b).canonical) :
    a.standing = b.standing :=
  Number.canonical_eq_iff.mp h

theorem text_of_canonical {s t : String} (h : (Value.text s).canonical = (Value.text t).canonical) : s = t :=
  (Text.asciiQuote_cancel (append_nil_congr h)).1

/-- The key of a role tells the canonical text. -/
theorem canonical_of_roleKey {role : String} (h : roleKey role v = roleKey role w) : v.canonical = w.canonical := by
  have hl : (role ++ ":").toList ++ v.canonical.toList = (role ++ ":").toList ++ w.canonical.toList := by
    rw [← String.toList_append, ← String.toList_append]
    exact congrArg String.toList h
  exact String.toList_inj.mp (List.append_cancel_left hl)

theorem isNullish_of_canonical (h : v.canonical = w.canonical) : v.isNullish = w.isNullish := by
  cases sameKind_of_canonical h <;> rfl

/-- Sequences with the same canonical texts have no item, one each, or several. -/
theorem canonicals_cases (h : canonicals vs = canonicals ws) : vs = [] ∧ ws = [] ∨
    (∃ v w, vs = [v] ∧ ws = [w] ∧ v.canonical = w.canonical) ∨
      (∃ u v us, vs = u :: v :: us) ∧ ∃ x w xs, ws = x :: w :: xs := by
  match vs, ws with
  | [], [] => exact .inl ⟨rfl, rfl⟩
  | [v], [w] => exact .inr (.inl ⟨v, w, rfl, rfl, (List.cons.inj h).1⟩)
  | u :: v :: us, x :: w :: xs => exact .inr (.inr ⟨⟨u, v, us, rfl⟩, x, w, xs, rfl⟩)
  | [], _ :: _ => cases h
  | _ :: _, [] => cases h
  | [_], _ :: _ :: _ => cases (List.cons.inj h).2
  | _ :: _ :: _, [_] => cases (List.cons.inj h).2

/-- Described mappings with one canonical text have fields with one canonical text. -/
theorem field_of_canonical {fields gs : List (String × Value)} (name : String)
    (h : (object fields).canonical = (object gs).canonical) (hv : (name, v) ∈ fields)
    (hw : ∀ x, (name, x) ∈ gs → x = w) : v.canonical = w.canonical := by
  have hp := canonicalFields_perm h
  rw [canonicalFields_eq, canonicalFields_eq, List.map_map, List.map_map] at hp
  obtain ⟨g, hg, heq⟩ := List.mem_map.mp (hp.mem_iff.mp (List.mem_map.mpr ⟨_, hv, rfl⟩))
  obtain ⟨hname, hc⟩ := Prod.mk.inj heq
  have hname : g.1 = name := hname
  rw [← hw g.2 (hname ▸ hg)]
  exact hc.symm

/-! ## Texts -/

theorem itemTexts_of_canonicals (hp : allWrittenPlainly vs = true) (hq : allWrittenPlainly ws = true)
    (hv : ∀ v ∈ vs, ∀ w : Value, v.writtenPlainly = true → w.writtenPlainly = true → v.canonical = w.canonical →
      v.toText = w.toText) (h : canonicals vs = canonicals ws) : itemTexts vs = itemTexts ws := by
  induction vs generalizing ws with
  | nil =>
    cases ws with
    | nil => rfl
    | cons w ws => cases h
  | cons v vs ih =>
    cases ws with
    | nil => cases h
    | cons w ws =>
      obtain ⟨hhead, htail⟩ := List.cons.inj h
      rw [allWrittenPlainly, Bool.and_eq_true] at hp hq
      obtain ⟨hv, hvs⟩ := List.forall_mem_cons.mp hv
      rw [itemTexts, itemTexts, isNullish_of_canonical hhead, hv w hp.1 hq.1 hhead, ih hp.2 hq.2 hvs htail]

/-- The text of a plainly written value is told by the canonical text. -/
theorem toText_of_canonical (v : Value) : ∀ w : Value, v.writtenPlainly = true → w.writtenPlainly = true →
    v.canonical = w.canonical → v.toText = w.toText := by
  induction v using induct with
  | undefined =>
    intro w _ _ h
    cases sameKind_of_canonical h
    rfl
  | null =>
    intro w _ _ h
    cases sameKind_of_canonical h
    rfl
  | bool b =>
    intro w _ _ h
    cases sameKind_of_canonical h
    rfl
  | num a =>
    intro w hp hq h
    cases sameKind_of_canonical h with
    | num _ b => exact Number.text_congr hp hq (standing_of_canonical h)
  | text s =>
    intro w _ _ h
    cases sameKind_of_canonical h with
    | text _ t => exact text_of_canonical h
  | seq kind items ih =>
    intro w hp hq h
    cases sameKind_of_canonical h with
    | seq _ k _ ws =>
      exact congrArg (",".intercalate ·) (itemTexts_of_canonicals hp hq ih (canonicals_of_canonical h))
  | map es =>
    intro w _ _ h
    cases sameKind_of_canonical h
    rfl

/-! ## Numbers -/

theorem toText_single (kind : SeqKind) (v : Value) :
    (Value.seq kind [v]).toText = if v.isNullish then "" else v.toText := by
  simp [toText, itemTexts]

/-- The texts of several items have a comma between them. -/
theorem ofText_several (kind : SeqKind) (u v : Value) (vs : List Value) :
    Number.ofText (Value.seq kind (u :: v :: vs)).toText = .nan := by
  refine Number.ofText_of_comma ?_
  rw [toText, itemTexts, itemTexts, intercalate_toList]
  simp

/-- Where the number stands that the text of a value is read as. -/
theorem standing_ofText_of_canonical (v : Value) : ∀ w : Value, v.canonical = w.canonical →
    (Number.ofText v.toText).standing = (Number.ofText w.toText).standing := by
  induction v using induct with
  | undefined =>
    intro w h
    cases sameKind_of_canonical h
    rfl
  | null =>
    intro w h
    cases sameKind_of_canonical h
    rfl
  | bool b =>
    intro w h
    cases sameKind_of_canonical h
    rfl
  | num a =>
    intro w h
    cases sameKind_of_canonical h with
    | num _ b => exact Number.standing_ofText_congr (standing_of_canonical h)
  | text s =>
    intro w h
    cases sameKind_of_canonical h with
    | text _ t => rw [text_of_canonical h]
  | seq kind items ih =>
    intro w h
    cases sameKind_of_canonical h with
    | seq _ k _ ws =>
      -- a sequence of one item is read as that item, one of several items as no number
      rcases canonicals_cases (canonicals_of_canonical h) with
        ⟨rfl, rfl⟩ | ⟨v, w, rfl, rfl, hvw⟩ | ⟨⟨u, v, us, rfl⟩, x, w, xs, rfl⟩
      · rfl
      · rw [toText_single, toText_single, isNullish_of_canonical hvw]
        split
        · rfl
        · exact ih v List.mem_cons_self w hvw
      · rw [ofText_several, ofText_several]
  | map es =>
    intro w h
    cases sameKind_of_canonical h
    rfl

/-- The canonical text tells where the value stands as a number. -/
theorem standing_toNumber_of_canonical (h : v.canonical = w.canonical) :
    v.toNumber.standing = w.toNumber.standing := by
  cases sameKind_of_canonical h with
  | undefined => rfl
  | null => rfl
  | bool b => rfl
  | num a b => exact standing_of_canonical h
  | text s t => rw [text_of_canonical h]
  | map es fs => rfl
  | seq j k vs ws =>
    rcases canonicals_cases (canonicals_of_canonical h) with
      ⟨rfl, rfl⟩ | ⟨v, w, rfl, rfl, hvw⟩ | ⟨⟨u, v, us, rfl⟩, x, w, xs, rfl⟩
    · rfl
    · rw [toNumber, toNumber, isNullish_of_canonical hvw]
      split
      · rfl
      · exact standing_ofText_of_canonical v w hvw
    · rfl

/-! ## Equality -/

/-- What equality looks up in a mapping of names is told by the canonical text. -/
theorem get?_of_canonical (hes : (Value.map es).hasNamedKeys = true) (hfs : (Value.map fs).hasNamedKeys = true)
    (h : (Value.map es).canonical = (Value.map fs).canonical) {k : Key} {x : Value} (hx : Table.get? es k = some x) :
    ∃ y, Table.get? fs k = some y ∧ x.canonical = y.canonical ∧ x.hasNamedKeys = true ∧ y.hasNamedKeys = true := by
  have hp := canonicalFields_perm h
  rw [canonicalFields_eq, canonicalFields_eq] at hp
  rw [hasNamedKeys, Bool.and_eq_true, decide_eq_true_iff, entriesNamedKeys_iff] at hes hfs
  have hmem := Table.mem_of_get? hx
  obtain ⟨f, hf, heq⟩ := List.mem_map.mp (hp.mem_iff.mp (List.mem_map.mpr ⟨_, hmem, rfl⟩))
  obtain ⟨hk, hc⟩ := Prod.mk.inj heq
  obtain ⟨hkey, hy⟩ := hfs.2 f hf
  obtain ⟨hkey', hx'⟩ := hes.2 _ hmem
  have hname : f.1 = k := name_of_text hkey hkey' hk
  exact ⟨f.2, hname ▸ Table.get?_of_mem hfs.1 hf, hc.symm, hx', hy⟩

theorem get?_none_of_canonical (hes : (Value.map es).hasNamedKeys = true) (hfs : (Value.map fs).hasNamedKeys = true)
    (h : (Value.map es).canonical = (Value.map fs).canonical) {k : Key} (hk : Table.get? es k = none) :
    Table.get? fs k = none := by
  cases hy : Table.get? fs k with
  | none => rfl
  | some y =>
    obtain ⟨x, hx, -⟩ := get?_of_canonical hfs hes h.symm hy
    rw [hk] at hx
    cases hx

theorem strictEqItems_of_canonicals {as : List Value} (hp : allNamedKeys vs = true) (hq : allNamedKeys ws = true)
    (ha : ∀ a ∈ as, ∀ v w : Value, v.hasNamedKeys = true → w.hasNamedKeys = true → v.canonical = w.canonical →
      a.strictEq v = a.strictEq w) (h : canonicals vs = canonicals ws) :
    strictEqItems as vs = strictEqItems as ws := by
  induction as generalizing vs ws with
  | nil =>
    match vs, ws, h with
    | [], [], _ => rfl
    | _ :: _, _ :: _, _ => rfl
  | cons a as ih =>
    match vs, ws, h with
    | [], [], _ => rfl
    | v :: vs, w :: ws, h =>
      obtain ⟨hhead, htail⟩ := List.cons.inj h
      rw [allNamedKeys, Bool.and_eq_true] at hp hq
      obtain ⟨ha, has⟩ := List.forall_mem_cons.mp ha
      rw [strictEqItems, strictEqItems, ha v w hp.1 hq.1 hhead, ih hp.2 hq.2 has htail]

theorem strictEqEntries_of_canonical {as : Entries} (hes : (Value.map es).hasNamedKeys = true)
    (hfs : (Value.map fs).hasNamedKeys = true) (h : (Value.map es).canonical = (Value.map fs).canonical)
    (ha : ∀ a ∈ as, ∀ v w : Value, v.hasNamedKeys = true → w.hasNamedKeys = true → v.canonical = w.canonical →
      a.2.strictEq v = a.2.strictEq w) : strictEqEntries as es = strictEqEntries as fs := by
  induction as with
  | nil => rfl
  | cons a as ih =>
    obtain ⟨k, a⟩ := a
    obtain ⟨ha, has⟩ := List.forall_mem_cons.mp ha
    rw [strictEqEntries, strictEqEntries, ih has]
    cases hx : Table.get? es k with
    | none => rw [get?_none_of_canonical hes hfs h hx]
    | some x =>
      obtain ⟨y, hy, hc, hx', hy'⟩ := get?_of_canonical hes hfs h hx
      rw [hy]
      dsimp only
      rw [ha x y hx' hy' hc]

theorem all_has_of_canonical {as : Entries} (hes : (Value.map es).hasNamedKeys = true)
    (hfs : (Value.map fs).hasNamedKeys = true) (h : (Value.map es).canonical = (Value.map fs).canonical)
    (ha : (es.all fun e => Table.has as e.1) = true) : (fs.all fun e => Table.has as e.1) = true := by
  rw [List.all_eq_true] at ha ⊢
  intro f hf
  have hdistinct := hfs
  rw [hasNamedKeys, Bool.and_eq_true, decide_eq_true_iff] at hdistinct
  obtain ⟨x, hx, -⟩ := get?_of_canonical hfs hes h.symm (k := f.1) (Table.get?_of_mem hdistinct.1 hf)
  exact ha (f.1, x) (Table.mem_of_get? hx)

/-- What equals a value whose mappings have names for keys is told by the canonical text. -/
theorem strictEq_of_canonical (a : Value) : ∀ v w : Value, v.hasNamedKeys = true → w.hasNamedKeys = true →
    v.canonical = w.canonical → a.strictEq v = a.strictEq w := by
  induction a using induct with
  | undefined =>
    intro v w _ _ h
    cases sameKind_of_canonical h <;> rfl
  | null =>
    intro v w _ _ h
    cases sameKind_of_canonical h <;> rfl
  | bool b =>
    intro v w _ _ h
    cases sameKind_of_canonical h <;> rfl
  | num n =>
    intro v w _ _ h
    cases sameKind_of_canonical h with
    | num a b => rw [strictEq, strictEq, Number.eq, Number.eq, standing_of_canonical h]
    | _ => rfl
  | text s =>
    intro v w _ _ h
    cases sameKind_of_canonical h with
    | text t u => rw [text_of_canonical h]
    | _ => rfl
  | seq kind items ih =>
    intro v w hv hw h
    cases sameKind_of_canonical h with
    | seq j k vs ws =>
      rw [hasNamedKeys] at hv hw
      rw [strictEq, strictEq, strictEqItems_of_canonicals hv hw ih (canonicals_of_canonical h)]
    | _ => rfl
  | map as ih =>
    intro v w hv hw h
    cases sameKind_of_canonical h with
    | map es fs =>
      have hall : (es.all fun e => Table.has as e.1) = fs.all fun e => Table.has as e.1 :=
        Bool.eq_iff_iff.mpr ⟨all_has_of_canonical hv hw h, all_has_of_canonical hw hv h.symm⟩
      rw [strictEq, strictEq, strictEqEntries_of_canonical hv hw h ih, hall]
    | _ => rfl

end Value

/-! ## Operators -/

namespace Comparison
variable {v w : Value}

/-- Whether the canonical text of an expected value tells all that the operator reads of it. -/
def isTold (op : Comparison) (v : Value) : Bool :=
  match op with
  | equals | notEquals => v.hasNamedKeys
  | greater | less | greaterOrEqual | lessOrEqual => true
  | contains => v.hasNamedKeys && v.writtenPlainly
  | startsWith | endsWith | matchesPattern => v.writtenPlainly

theorem numeric_of_canonical (op : Number → Number → Bool)
    (hop : ∀ a b c : Number, b.standing = c.standing → op a b = op a c) (h : v.canonical = w.canonical)
    (a : Value) : numeric op a v = numeric op a w := by
  have hs := Value.standing_toNumber_of_canonical h
  have hnan : v.toNumber.isNaN = w.toNumber.isNaN :=
    Bool.eq_iff_iff.mpr (by rw [Number.isNaN_iff, Number.isNaN_iff, hs])
  unfold numeric
  dsimp only
  rw [Number.fitsBinary64_congr hs, hnan, hop _ _ _ hs]

/-- The operators tell no values apart that have one canonical text, if it tells what they read. -/
theorem holds_of_canonical {op : Comparison} (hv : op.isTold v = true) (hw : op.isTold w = true)
    (h : v.canonical = w.canonical) (a : Value) : op.holds a v = op.holds a w := by
  have text (hv : v.writtenPlainly = true) (hw : w.writtenPlainly = true) : v.toText = w.toText :=
    Value.toText_of_canonical v w hv hw h
  cases op with
  | equals => rw [holds, holds, Value.strictEq_of_canonical a v w hv hw h]
  | notEquals => rw [holds, holds, Value.strictEq_of_canonical a v w hv hw h]
  | greater => exact numeric_of_canonical (fun a b => b.lt a) (fun a b c hs => by unfold Number.lt; rw [hs]) h a
  | less => exact numeric_of_canonical Number.lt (fun a b c hs => by unfold Number.lt; rw [hs]) h a
  | greaterOrEqual => exact numeric_of_canonical (fun a b => b.le a) (fun a b c hs => by unfold Number.le; rw [hs]) h a
  | lessOrEqual => exact numeric_of_canonical Number.le (fun a b c hs => by unfold Number.le; rw [hs]) h a
  | contains =>
    obtain ⟨hkv, hpv⟩ := Bool.and_eq_true_iff.mp hv
    obtain ⟨hkw, hpw⟩ := Bool.and_eq_true_iff.mp hw
    have hitems (items : List Value) : (items.any (·.strictEq v)) = items.any (·.strictEq w) :=
      congrArg items.any (funext fun x => Value.strictEq_of_canonical x v w hkv hkw h)
    unfold holds
    dsimp only
    rw [text hpv hpw]
    cases a with
    | seq kind items => exact congrArg Except.ok (hitems items)
    | _ => rfl
  | startsWith => rw [holds, holds, text hv hw]
  | endsWith => rw [holds, holds, text hv hw]
  | matchesPattern => rw [holds, holds, text hv hw]

/-- An integer key and its name have one canonical text, and so have a large whole number with an exponent and
the integer without. Equality and the text operators tell them apart. -/
theorem holds_ne_of_canonical :
    (let v := Value.map [(.index 0, .bool true)]
      let w := Value.object [("0", .bool true)]
      v.canonical = w.canonical ∧ equals.holds w v = .ok false ∧ equals.holds w w = .ok true) ∧
    let v := Value.num (.ofText "1e21")
    let w := Value.int (10 ^ 21)
    v.canonical = w.canonical ∧ startsWith.holds (.text "1000000000000000000000") v = .ok false ∧
      startsWith.holds (.text "1000000000000000000000") w = .ok true :=
  ⟨⟨by decide +kernel, congrArg Except.ok (by decide +kernel), congrArg Except.ok (by decide +kernel)⟩,
    by decide +kernel, congrArg Except.ok (by decide +kernel), congrArg Except.ok (by decide +kernel)⟩

end Comparison
end FormRules
