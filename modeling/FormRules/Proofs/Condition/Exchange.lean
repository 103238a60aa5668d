import FormRules.Condition.Eval
import FormRules.Form.Compiled
import FormRules.Proofs.Store.Table
import FormRules.Proofs.Value.Exchange

/-!
# Conditions with one key

The key of a test is the canonical text of its description. Two tests with one key have the same shape and
compare the same fields by the same operators with values of one canonical text, so that they are decided
alike wherever that text tells all that the operators read. What was compiled for the first of them answers
for both.
-/

namespace FormRules

/-- Induction over tests, with what holds of the parts. -/
@[elab_as_elim]
theorem Test.induct {P : Test → Prop} (literal : ∀ b, P (.literal b))
    (fieldValue : ∀ path op v, P (.fieldValue path op v)) (formValue : ∀ op v, P (.formValue op v))
    (expression : ∀ code, P (.expression code)) (custom : ∀ name, P (.custom name))
    (all : ∀ ts, (∀ t ∈ ts, P t) → P (.all ts)) (any : ∀ ts, (∀ t ∈ ts, P t) → P (.any ts)) (t : Test) : P t := by
  refine @Test.rec P (fun ts => ∀ t ∈ ts, P t) literal fieldValue formValue expression custom all any nofun ?parts t
  exact fun _ _ ht hts => List.forall_mem_cons.mpr ⟨ht, hts⟩

theorem Comparison.ofName?_name (op : Comparison) : Comparison.ofName? op.name = some op := by cases op <;> decide

theorem Comparison.name_injective : Function.Injective Comparison.name := by
  intro op op' h
  exact Option.some.inj ((ofName?_name op).symm.trans (h ▸ ofName?_name op'))

namespace Test
open Value

mutual

/-- Whether the key of the test tells all that its comparisons read of the values they compare with. -/
def isTold : Test → Bool
  | .fieldValue _ op v | .formValue op v => op.isTold v
  | .all ts | .any ts => allTold ts
  | .literal _ | .expression _ | .custom _ => true

/-- Whether this holds of all of them. -/
def allTold : List Test → Bool
  | [] => true
  | t :: ts => isTold t && allTold ts

end

variable {s t : Test} {ss ts : List Test}

theorem descriptions_eq (ts : List Test) : Test.descriptions ts = ts.map Test.description := by
  induction ts with
  | nil => rfl
  | cons t ts ih => rw [Test.descriptions, ih]; rfl

theorem description_cases (t : Test) : (∃ b, t = .literal b ∧ t.description = .bool b) ∨
    ∃ fields, t.description = .object fields ∧ ("type", .text t.kind) ∈ fields ∧
      ∀ v, ("type", v) ∈ fields → v = .text t.kind := by
  cases t with
  | literal b => exact .inl ⟨b, rfl, rfl⟩
  | _ => exact .inr ⟨_, rfl, List.mem_cons_self, by simp [kind]⟩

/-- The descriptions tell the kinds of tests. -/
theorem kind_of_canonical (h : s.description.canonical = t.description.canonical) : s.kind = t.kind := by
  obtain ⟨a, rfl, ha⟩ | ⟨fields, hs, hmem, -⟩ := s.description_cases <;>
    obtain ⟨b, rfl, hb⟩ | ⟨gs, ht, -, htype⟩ := t.description_cases
  · rfl
  · rw [ha, ht] at h
    cases sameKind_of_canonical h
  · rw [hs, hb] at h
    cases sameKind_of_canonical h
  · rw [hs, ht] at h
    exact text_of_canonical (field_of_canonical "type" h hmem htype)

theorem operator_of_canonical {o p : Comparison}
    (h : (Value.text o.name).canonical = (Value.text p.name).canonical) : o = p :=
  Comparison.name_injective (text_of_canonical h)

/-- The parts of composites with one canonical text have the same texts. -/
theorem descriptions_of_canonical
    (h : (Value.list (Test.descriptions ss)).canonical = (Value.list (Test.descriptions ts)).canonical) :
    ss.map (·.description.canonical) = ts.map (·.description.canonical) := by
  have hc := canonicals_of_canonical h
  rwa [canonicals_eq, canonicals_eq, descriptions_eq, descriptions_eq, List.map_map, List.map_map] at hc

section
variable {fs : CustomFunctions} {c : Context}

theorem allHold_of_canonical
    (hs : ∀ s ∈ ss, ∀ t : Test, s.isTold = true → t.isTold = true →
      s.description.canonical = t.description.canonical → s.holds fs c = t.holds fs c)
    (hss : allTold ss = true) (hts : allTold ts = true)
    (h : ss.map (·.description.canonical) = ts.map (·.description.canonical)) :
    Test.allHold fs c ss = Test.allHold fs c ts := by
  induction ss generalizing ts with
  | nil => rw [List.map_eq_nil_iff.mp h.symm]
  | cons s ss ih =>
    obtain ⟨t, ts, rfl, hhead, htail⟩ := List.map_eq_cons_iff.mp h.symm
    rw [allTold, Bool.and_eq_true] at hss hts
    obtain ⟨hs, hall⟩ := List.forall_mem_cons.mp hs
    rw [Test.allHold, Test.allHold, hs t hss.1 hts.1 hhead.symm, ih hall hss.2 hts.2 htail.symm]

theorem anyHolds_of_canonical
    (hs : ∀ s ∈ ss, ∀ t : Test, s.isTold = true → t.isTold = true →
      s.description.canonical = t.description.canonical → s.holds fs c = t.holds fs c)
    (hss : allTold ss = true) (hts : allTold ts = true)
    (h : ss.map (·.description.canonical) = ts.map (·.description.canonical)) :
    Test.anyHolds fs c ss = Test.anyHolds fs c ts := by
  induction ss generalizing ts with
  | nil => rw [List.map_eq_nil_iff.mp h.symm]
  | cons s ss ih =>
    obtain ⟨t, ts, rfl, hhead, htail⟩ := List.map_eq_cons_iff.mp h.symm
    rw [allTold, Bool.and_eq_true] at hss hts
    obtain ⟨hs, hall⟩ := List.forall_mem_cons.mp hs
    rw [Test.anyHolds, Test.anyHolds, hs t hss.1 hts.1 hhead.symm, ih hall hss.2 hts.2 htail.symm]

/-- Tests of one canonical text are decided alike in every context, as far as it tells what they read. -/
theorem holds_of_canonical (s : Test) : ∀ t : Test, s.isTold = true → t.isTold = true →
    s.description.canonical = t.description.canonical → s.holds fs c = t.holds fs c := by
  induction s using induct with
  | literal a =>
    intro t _ _ h
    cases t with
    | literal b =>
      have hb : (Value.bool a).canonical = (Value.bool b).canonical := h
      cases sameKind_of_canonical hb
      rfl
    | _ => exact absurd (kind_of_canonical h) (by simp [kind])
  | fieldValue path op v =>
    intro t hs ht h
    cases t with
    | fieldValue path' op' w =>
      have hpath : (Value.text path).canonical = (Value.text path').canonical :=
        field_of_canonical "fieldPath" h (by simp) (by simp)
      have hop : (Value.text op.name).canonical = (Value.text op'.name).canonical :=
        field_of_canonical "operator" h (by simp) (by simp)
      have hvalue : v.canonical = w.canonical := field_of_canonical "value" h (by simp) (by simp)
      obtain rfl := text_of_canonical hpath
      obtain rfl := operator_of_canonical hop
      have hheld : c.compareField path op v = c.compareField path op w :=
        bind_congr fun _ => Comparison.holds_of_canonical hs ht hvalue _
      rw [holds, holds, hheld]
    | _ => exact absurd (kind_of_canonical h) (by simp [kind])
  | formValue op v =>
    intro t hs ht h
    cases t with
    | formValue op' w =>
      have hop : (Value.text op.name).canonical = (Value.text op'.name).canonical :=
        field_of_canonical "operator" h (by simp) (by simp)
      have hvalue : v.canonical = w.canonical := field_of_canonical "value" h (by simp) (by simp)
      obtain rfl := operator_of_canonical hop
      rw [holds, holds, Comparison.holds_of_canonical hs ht hvalue]
    | _ => exact absurd (kind_of_canonical h) (by simp [kind])
  | expression code =>
    intro t _ _ h
    cases t with
    | expression code' =>
      have hcode : (Value.text code).canonical = (Value.text code').canonical :=
        field_of_canonical "expression" h (by simp) (by simp)
      rw [text_of_canonical hcode]
    | _ => exact absurd (kind_of_canonical h) (by simp [kind])
  | custom name =>
    intro t _ _ h
    cases t with
    | custom name' =>
      have hname : (Value.text name).canonical = (Value.text name').canonical :=
        field_of_canonical "functionName" h (by simp) (by simp)
      rw [text_of_canonical hname]
    | _ => exact absurd (kind_of_canonical h) (by simp [kind])
  | all ss ih =>
    intro t hs ht h
    cases t with
    | all ts =>
      have hparts : (Value.list (Test.descriptions ss)).canonical = (Value.list (Test.descriptions ts)).canonical :=
        field_of_canonical "conditions" h (by simp) (by simp)
      rw [holds, holds, allHold_of_canonical ih hs ht (descriptions_of_canonical hparts)]
    | _ => exact absurd (kind_of_canonical h) (by simp [kind])
  | any ss ih =>
    intro t hs ht h
    cases t with
    | any ts =>
      have hparts : (Value.list (Test.descriptions ss)).canonical = (Value.list (Test.descriptions ts)).canonical :=
        field_of_canonical "conditions" h (by simp) (by simp)
      rw [holds, holds, anyHolds_of_canonical ih hs ht (descriptions_of_canonical hparts)]
    | _ => exact absurd (kind_of_canonical h) (by simp [kind])

end

theorem canonical_of_key (h : (Condition.test s).key = (Condition.test t).key) :
    s.description.canonical = t.description.canonical := canonical_of_roleKey h

end Test

/-! ## Compiled tests -/

/-- What a test is compiled to, possibly to be quiet for a while. -/
def LogicFunction.ofTest (t : Test) : Option Int → LogicFunction
  | none => .test t
  | some ms => .delayed (Compiled.delayedKey (Condition.test t).key ms) t ms

namespace Compiled
variable {c : Compiled} {s t : Test} {p q : Option Int}

/-- The key under which a test is compiled. -/
def testKey (t : Test) : Option Int → String
  | none => (Condition.test t).key
  | some ms => delayedKey (Condition.test t).key ms

theorem condition_test (c : Compiled) (q : Option Int) (t : Test) :
    c.condition q (.test t) = c.intern .test (testKey t q) (.ofTest t q) := by
  cases q <;> rfl

theorem delayedKey_toList (key : String) (ms : Int) :
    (delayedKey key ms).toList = key.toList ++ "|debounce".toList ++ ':' :: intChars ms := by
  have h : delayedKey key ms = key ++ "|debounce:" ++ intText ms := rfl
  rw [h, String.toList_append, String.toList_append, intText_toList]
  simp

/-- The key of a test ends with the text of a boolean or with a brace. -/
theorem getLast?_key (t : Test) : ∃ e ∈ ['e', '\x7d'], (Condition.test t).key.toList.getLast? = some e := by
  have hkey : (Condition.test t).key = "condition:" ++ t.description.canonical := by
    exact congrArg (· ++ t.description.canonical) (by decide : "condition" ++ ":" = "condition:")
  rw [hkey, String.toList_append, List.getLast?_append]
  obtain ⟨b, rfl, hb⟩ | ⟨fields, ht, -, -⟩ := t.description_cases
  · cases b <;> exact ⟨'e', by decide, by decide⟩
  · refine ⟨'\x7d', by decide, ?_⟩
    rw [ht, Value.object, Value.canonical, Value.canonicalEntries_toList, ← List.cons_append, List.getLast?_concat]
    rfl

theorem key_ne_delayedKey (s t : Test) (ms : Int) : (Condition.test s).key ≠ delayedKey (Condition.test t).key ms := by
  intro h
  obtain ⟨e, he, hlast⟩ := getLast?_key s
  obtain ⟨c, cs, hc, -⟩ := head_intChars ms
  have hmem : e ∈ intChars ms := by
    rw [h, delayedKey_toList, hc, List.getLast?_append, List.getLast?_cons_cons, ← hc] at hlast
    have hsome : (intChars ms).getLast? = some e := by
      rw [hc] at hlast ⊢
      rwa [List.getLast?_cons] at hlast ⊢
    exact List.mem_of_getLast? hsome
  rcases plain_intChars ms e hmem with hd | rfl
  · rcases List.mem_cons.mp he with rfl | he
    · exact absurd hd (by decide)
    · exact absurd (List.mem_singleton.mp he ▸ hd) (by decide)
  · exact absurd he (by decide)

/-- Texts that end behind their last colon. -/
theorem append_colon_cancel {as bs r s : List Char} (hr : ':' ∉ r) (hs : ':' ∉ s)
    (h : as ++ ':' :: r = bs ++ ':' :: s) : as = bs ∧ r = s := by
  have behind {x r s : List Char} (hr : ':' ∉ r) (h : ':' :: r = x ++ ':' :: s) : x = [] ∧ r = s := by
    cases x with
    | nil => exact ⟨rfl, (List.cons.inj h).2⟩
    | cons y x => exact absurd ((List.cons.inj h).2 ▸ List.mem_append_right x List.mem_cons_self) hr
  rcases List.append_eq_append_iff.mp h with ⟨x, rfl, hx⟩ | ⟨x, rfl, hx⟩
  · obtain ⟨rfl, rfl⟩ := behind hr hx
    exact ⟨(List.append_nil as).symm, rfl⟩
  · obtain ⟨rfl, rfl⟩ := behind hs hx
    exact ⟨List.append_nil bs, rfl⟩

theorem colon_not_mem_intChars (n : Int) : ':' ∉ intChars n := fun h =>
  (plain_intChars n ':' h).elim (by decide) (by decide)

/-- The key of a compiled test tells how long it has to be quiet, and the key of the test. -/
theorem testKey_cancel (h : testKey s p = testKey t q) : p = q ∧ (Condition.test s).key = (Condition.test t).key := by
  cases p with
  | none =>
    cases q with
    | none => exact ⟨rfl, h⟩
    | some n => exact absurd h (key_ne_delayedKey s t n)
  | some m =>
    cases q with
    | none => exact absurd h.symm (key_ne_delayedKey t s m)
    | some n =>
      have hl : (delayedKey (Condition.test s).key m).toList = (delayedKey (Condition.test t).key n).toList :=
        congrArg String.toList h
      rw [delayedKey_toList, delayedKey_toList] at hl
      obtain ⟨hkey, hms⟩ := append_colon_cancel (colon_not_mem_intChars m) (colon_not_mem_intChars n) hl
      rw [intChars_injective hms]
      exact ⟨rfl, String.toList_inj.mp (List.append_cancel_right hkey)⟩

/-- Whatever has been compiled: conditions, value expressions and validators in any order, and what was
known may have been forgotten. -/
inductive Made : Compiled → Prop
  | nothing : Made {}
  | condition {c : Compiled} (h : Made c) (q : Option Int) (cond : Condition) : Made (c.condition q cond).2
  | value {c : Compiled} (h : Made c) (e : Value) : Made (c.valueExpression e).2
  | validators {c : Compiled} (h : Made c) (l : List (String × CompiledValidator)) : Made { c with validators := l }
  | forget {c : Compiled} (h : Made c) : Made c.forget

/-- A function of a kind that a key may stand for. -/
def Fits : LogicKind → String → LogicFunction → Prop
  | .test, key, l => ∃ t q, l = .ofTest t q ∧ key = testKey t q
  | .inquiry, key, l => ∃ i, l = .inquiry key i
  | .value, _, l => ∃ e, l = .value e

/-- Whatever is known by a key is a function that the key may stand for. -/
def Fitting (c : Compiled) : Prop :=
  ∀ kind key n, Table.get? c.known (kind, key) = some n → ∃ l, c.functions[n]? = some l ∧ Fits kind key l

theorem getElem?_intern {kind : LogicKind} {key : String} {f g : LogicFunction} {n : Nat}
    (h : c.functions[n]? = some g) : (c.intern kind key f).2.functions[n]? = some g := by
  unfold intern
  split
  · exact h
  · exact List.getElem?_append_left (List.getElem?_eq_some_iff.mp h).1 ▸ h

theorem Fitting.intern (h : c.Fitting) {kind : LogicKind} {key : String} {f : LogicFunction} (hf : Fits kind key f) :
    (c.intern kind key f).2.Fitting := by
  intro kind' key' n hn
  by_cases hnew : Table.get? c.known (kind', key') = some n
  · obtain ⟨l, hget, hl⟩ := h kind' key' n hnew
    exact ⟨l, getElem?_intern hget, hl⟩
  · unfold Compiled.intern at hn ⊢
    split at hn
    · exact absurd hn hnew
    · obtain ⟨he, rfl⟩ := (Table.of_get?_put hn).resolve_right hnew
      obtain ⟨rfl, rfl⟩ := Prod.mk.inj he
      exact ⟨f, List.getElem?_concat_length, hf⟩

theorem Made.fitting (h : c.Made) : c.Fitting := by
  induction h with
  | nothing => exact fun _ _ _ hn => nomatch hn
  | condition _ q cond ih =>
    cases cond with
    | test t =>
      rw [condition_test]
      exact ih.intern ⟨t, q, rfl, rfl⟩
    | inquiry i => exact ih.intern ⟨i, rfl⟩
  | value _ e ih => exact ih.intern ⟨e, rfl⟩
  | validators _ l ih => exact ih
  | forget _ ih => exact fun _ _ _ hn => nomatch hn

/-- What a condition is compiled to is known by its key. -/
theorem get?_intern (c : Compiled) (kind : LogicKind) (key : String) (f : LogicFunction) :
    Table.get? (c.intern kind key f).2.known (kind, key) = some (c.intern kind key f).1 := by
  unfold intern
  split
  · assumption
  · exact Table.get?_put_self

/-- A test is compiled to the function of a test with its key. -/
theorem Made.condition_test (hc : c.Made) (q : Option Int) (t : Test) :
    ∃ s, (c.condition q (.test t)).2.functions[(c.condition q (.test t)).1]? = some (.ofTest s q) ∧
      (Condition.test s).key = (Condition.test t).key := by
  have hmade : (c.condition q (.test t)).2.Made := hc.condition q _
  have hknown := get?_intern c .test (testKey t q) (.ofTest t q)
  rw [← Compiled.condition_test] at hknown
  obtain ⟨_, hget, s, p, rfl, hkey⟩ := hmade.fitting _ _ _ hknown
  obtain ⟨rfl, hst⟩ := testKey_cancel hkey
  exact ⟨s, hget, hst.symm⟩

/-- An inquiry is compiled to the function of an inquiry. -/
theorem Made.condition_inquiry (hc : c.Made) (q : Option Int) (i : Inquiry) :
    ∃ key j, (c.condition q (.inquiry i)).2.functions[(c.condition q (.inquiry i)).1]? = some (.inquiry key j) := by
  have hmade : (c.condition q (.inquiry i)).2.Made := hc.condition q _
  have hknown := get?_intern c .inquiry (Condition.inquiry i).key (.inquiry (Condition.inquiry i).key i)
  obtain ⟨_, hget, j, rfl⟩ := hmade.fitting _ _ _ hknown
  exact ⟨_, j, hget⟩

end Compiled

/-! ## One key, one answer -/

/-- Tests with one key are decided alike in every context, and what a test is compiled to answers for a test
with its key, if the keys tell all that the comparisons read. -/
theorem Test.holds_of_key {t : Test} (ht : t.isTold = true) :
    (∀ s : Test, s.isTold = true → (Condition.test s).key = (Condition.test t).key →
      ∀ fs c, s.holds fs c = t.holds fs c) ∧
    ∀ m : Compiled, m.Made → ∀ q, ∃ s,
      (m.condition q (.test t)).2.functions[(m.condition q (.test t)).1]? = some (.ofTest s q) ∧
        (Condition.test s).key = (Condition.test t).key :=
  ⟨fun s hs hkey _ _ => holds_of_canonical s t hs ht (canonical_of_key hkey),
    fun _ hm q => hm.condition_test q t⟩

/-- The order of entries and the writing of a whole number make no difference. -/
theorem Test.holds_of_key_rewritten :
    let s := Test.all [.fieldValue "size" .startsWith (.num (.ofText "2.0")),
      .formValue .equals (.object [("b", .undefined), ("a", .list [.null])])]
    let t := Test.all [.fieldValue "size" .startsWith (.int 2),
      .formValue .equals (.object [("a", .seq .tuple [.null]), ("b", .undefined)])]
    (s.isTold = true ∧ t.isTold = true ∧ (Condition.test s).key = (Condition.test t).key) ∧
      ∀ fs c, s.holds fs c = t.holds fs c := by
  intro s t
  have hkey : (Condition.test s).key = (Condition.test t).key := by decide +kernel
  have hs : s.isTold = true := by decide +kernel
  have ht : t.isTold = true := by decide +kernel
  exact ⟨⟨hs, ht, hkey⟩, (Test.holds_of_key ht).1 s hs hkey⟩

end FormRules
