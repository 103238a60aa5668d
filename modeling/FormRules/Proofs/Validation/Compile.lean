import FormRules.Proofs.Validation.Described
import FormRules.Proofs.Value.Exchange
import FormRules.Validation.Check

/-!
# Validators that compile

Whether a validator can be compiled is a matter of its type and of the function that it names. The key tells both, so
that what has been compiled under a key could have been compiled from every validator with that key.
-/

namespace FormRules

theorem Functions.find_of_canonical {α : Type} {table : List (String × α)} {kind : FunctionKind} {v w : Value}
    {f : α} (h : v.canonical = w.canonical) (hv : find table kind v = .ok f) : find table kind w = .ok f := by
  cases Value.sameKind_of_canonical h with
  | text s t => rwa [Value.text_of_canonical h] at hv
  | _ =>
    unfold find at hv
    split at hv <;> cases hv

namespace Value
variable {v w : Value}

theorem given_of_canonical (h : v.canonical = w.canonical) : v.given = w.given := by
  cases sameKind_of_canonical h with
  | num a b => rw [given, given, Number.isZero, Number.isZero, standing_of_canonical h]
  | text s t => rw [text_of_canonical h]
  | seq j k vs ws =>
    have hitems := congrArg List.isEmpty (canonicals_of_canonical h)
    rw [canonicals_eq, canonicals_eq, List.isEmpty_map, List.isEmpty_map] at hitems
    rw [given, given, hitems]
  | map es fs =>
    have hfields := (canonicalFields_perm h).isEmpty_eq
    rw [canonicalFields_eq, canonicalFields_eq, List.isEmpty_map, List.isEmpty_map] at hfields
    rw [given, given, hfields]
  | _ => rfl

/-- A field that descriptions leave out if it is `null` has one canonical text in descriptions that have. -/
theorem optional_of_canonical {fields gs : List (String × Value)} (name : String)
    (h : (object fields).canonical = (object gs).canonical)
    (hv : ∀ x, (name, x) ∈ fields ↔ v.isNull = false ∧ x = v)
    (hw : ∀ x, (name, x) ∈ gs ↔ w.isNull = false ∧ x = w) : v.canonical = w.canonical := by
  -- A field that one description alone shows would have every canonical text.
  have shown {v w : Value} {fields gs : List (String × Value)} (h : (object fields).canonical = (object gs).canonical)
      (hv : ∀ x, (name, x) ∈ fields ↔ v.isNull = false ∧ x = v) (hw : ∀ x, (name, x) ∈ gs ↔ w.isNull = false ∧ x = w)
      (hnull : v.isNull = false) : w.isNull = false := by
    by_contra hmissing
    have hany (u : Value) : v.canonical = u.canonical :=
      field_of_canonical name h ((hv v).mpr ⟨hnull, rfl⟩) fun x hx => absurd ((hw x).mp hx).1 hmissing
    cases sameKind_of_canonical ((hany .undefined).symm.trans (hany .null))
  cases hnull : v.isNull with
  | false => exact field_of_canonical name h ((hv v).mpr ⟨hnull, rfl⟩) fun x hx => ((hw x).mp hx).2
  | true =>
    have hw : w.isNull = true := by
      by_contra hw'
      have hback := shown h.symm hw hv (by simpa using hw')
      rw [hnull] at hback
      cases hback
    rw [eq_null hnull, eq_null hw]

end Value

theorem ValidatorType.name_injective : Function.Injective ValidatorType.name := by
  intro t u h
  exact Option.some.inj ((ofName?_name t).symm.trans (h ▸ ofName?_name u))

namespace Validator
open Value
variable {fs : Functions} {v w : Validator}

/-- What a description shows of the guards: nothing if there are none. -/
def shownGuards (v : Validator) : Value :=
  if v.guards.isEmpty then .null else .list (v.guards.map Condition.description)

/-- What a description says of the type of a validator, of the function that it names, of its kind and its guards. -/
theorem description_cases (v : Validator) : ∃ fields, v.description = .object fields ∧
    (∀ x, ("type", x) ∈ fields ↔ x = .text v.type.name) ∧
    (∀ x, ("functionName", x) ∈ fields ↔ v.functionName.isNull = false ∧ x = v.functionName) ∧
    (∀ x, ("kind", x) ∈ fields ↔ v.kind.isNull = false ∧ x = v.kind) ∧
    ∀ x, ("when", x) ∈ fields ↔ v.shownGuards.isNull = false ∧ x = v.shownGuards := by
  refine ⟨_, rfl, fun x => ?_, fun x => ?_, fun x => ?_, fun x => ?_⟩
  · simp
  · simp
  · simp
  · have hnull : Value.null.isNull = true := rfl
    have hlist (items : List Value) : (Value.list items).isNull = false := rfl
    cases h : v.guards <;> simp [shownGuards, h, hnull, hlist]

theorem of_key (h : v.key = w.key) : v.type = w.type ∧ v.functionName.canonical = w.functionName.canonical := by
  have hc : v.description.canonical = w.description.canonical := canonical_of_roleKey h
  obtain ⟨fields, hv, hvtype, hvname, -⟩ := v.description_cases
  obtain ⟨gs, hw, hwtype, hwname, -⟩ := w.description_cases
  rw [hv, hw] at hc
  constructor
  · have htype : (Value.text v.type.name).canonical = (Value.text w.type.name).canonical :=
      field_of_canonical "type" hc ((hvtype _).mpr rfl) fun x hx => (hwtype x).mp hx
    exact ValidatorType.name_injective (text_of_canonical htype)
  · exact optional_of_canonical "functionName" hc hvname hwname

/-- Whether the function that the validator names is registered. -/
def Compiles (fs : Functions) (v : Validator) : Prop := ∃ w, v.compile fs = .ok w

theorem compiles_iff : v.Compiles fs ↔ (v.compile fs).isOk = true := by
  refine ⟨?_, exists_of_isOk⟩
  rintro ⟨w, hw⟩
  rw [hw]
  rfl

theorem config_of_compile {c : CompiledValidator} (h : v.compile fs = .ok c) : c.config = v := by
  unfold compile at h
  split at h
  · cases h
    rfl
  · split at h
    · obtain ⟨_, -, h⟩ := of_bind_ok h
      cases h
      rfl
    · cases h
      rfl
  · obtain ⟨_, -, h⟩ := of_bind_ok h
    cases h
    rfl
  · obtain ⟨_, -, h⟩ := of_bind_ok h
    cases h
    rfl

theorem Compiles.congr (h : v.Compiles fs) (htype : v.type = w.type)
    (hname : v.functionName.canonical = w.functionName.canonical) : w.Compiles fs := by
  obtain ⟨c, hc⟩ := h
  unfold compile at hc
  rw [htype] at hc
  unfold Compiles compile
  split at hc
  · exact ⟨_, rfl⟩
  · rw [given_of_canonical hname] at hc
    by_cases hgiven : w.functionName.given = true
    · rw [if_pos hgiven] at hc
      obtain ⟨f, hf, -⟩ := of_bind_ok hc
      exact ⟨⟨w, .function f⟩, by simp only [hgiven, Functions.find_of_canonical hname hf]; rfl⟩
    · exact ⟨⟨w, .expression⟩, by simp only [hgiven]; rfl⟩
  · obtain ⟨f, hf, -⟩ := of_bind_ok hc
    exact ⟨⟨w, .async f⟩, by simp only [Functions.find_of_canonical hname hf]; rfl⟩
  · obtain ⟨f, hf, -⟩ := of_bind_ok hc
    exact ⟨⟨w, .remote f⟩, by simp only [Functions.find_of_canonical hname hf]; rfl⟩

/-- What has been compiled under a key tells of every validator with that key that it compiles. -/
theorem Compiles.of_key (h : v.Compiles fs) (hkey : v.key = w.key) : w.Compiles fs :=
  h.congr (Validator.of_key hkey).1 (Validator.of_key hkey).2

theorem Compiles.withGuards (h : v.Compiles fs) (gs : List Condition) : Compiles fs { v with guards := gs } :=
  h.congr rfl rfl

end Validator
end FormRules
