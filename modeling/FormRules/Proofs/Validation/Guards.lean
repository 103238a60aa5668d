import FormRules.Form.Rulebook
import FormRules.Proofs.Condition.Exchange
import FormRules.Proofs.Derivation.Outcome
import FormRules.Proofs.Validation.Compile

/-!
# What the key of a validator tells

The key of a validator tells its guards by their keys, one by one, and the kind of error that it gives. A rule that makes
a field required is enforced by a validator whose guards are those of the rule, its condition the last of them.
-/

namespace FormRules
open Value

namespace Condition
variable {c d : Condition} {t : Test}

/-- Whether a condition holds in a context, as far as that can be said at once. -/
def verdict (fs : CustomFunctions) (context : Context) (c : Condition) : Bool := ((c.holds fs context).run {}).1

/-- What has been reported before makes no difference. -/
theorem run_holds (fs : CustomFunctions) (context : Context) (t : Test) (j : Journal) :
    ((t.holds fs context).run j).1 = verdict fs context (.test t) := t.holds_steady fs context j {}

theorem key_eq_iff : c.key = d.key ↔ c.description.canonical = d.description.canonical :=
  ⟨canonical_of_roleKey, congrArg _⟩

/-- What shares the key of a test is a test. -/
theorem test_of_key (h : (Condition.test t).key = d.key) : ∃ s, d = .test s := by
  cases d with
  | test s => exact ⟨s, rfl⟩
  | inquiry i =>
    have hc : t.description.canonical = i.description.canonical := key_eq_iff.mp h
    obtain ⟨fields, hi, htype⟩ : ∃ fields, i.description = .object fields ∧
        ∀ x, ("type", x) ∈ fields → x = .text i.source.kind := by
      refine ⟨_, rfl, ?_⟩
      cases i.source <;> cases i.cacheMs <;> cases i.debounceMs <;> simp [InquirySource.kind]
    obtain ⟨b, rfl, hb⟩ | ⟨gs, ht, hmem, -⟩ := t.description_cases
    · rw [hb, hi] at hc
      cases sameKind_of_canonical hc
    · rw [ht, hi] at hc
      have hkind : t.kind = i.source.kind := text_of_canonical (field_of_canonical "type" hc hmem htype)
      cases t <;> cases hs : i.source <;> simp [hs, Test.kind, InquirySource.kind] at hkind

end Condition

namespace Validator
variable {v w : Validator}

theorem kind_of_key (h : v.key = w.key) : v.kind.canonical = w.kind.canonical := by
  have hc : v.description.canonical = w.description.canonical := canonical_of_roleKey h
  obtain ⟨fields, hv, -, -, hvkind, -⟩ := v.description_cases
  obtain ⟨gs, hw, -, -, hwkind, -⟩ := w.description_cases
  rw [hv, hw] at hc
  exact optional_of_canonical "kind" hc hvkind hwkind

/-- Validators with one key have guards with the same keys. -/
theorem guards_of_key (h : v.key = w.key) : List.Forall₂ (fun c d => c.key = d.key) v.guards w.guards := by
  have hc : v.description.canonical = w.description.canonical := canonical_of_roleKey h
  obtain ⟨fields, hv, -, -, -, hvguards⟩ := v.description_cases
  obtain ⟨gs, hw, -, -, -, hwguards⟩ := w.description_cases
  rw [hv, hw] at hc
  have hshown := optional_of_canonical "when" hc hvguards hwguards
  unfold shownGuards at hshown
  split at hshown <;> split at hshown
  · next hnil hnil' =>
    rw [List.isEmpty_iff.mp hnil, List.isEmpty_iff.mp hnil']
    exact .nil
  · cases sameKind_of_canonical hshown
  · cases sameKind_of_canonical hshown
  · have hitems := canonicals_of_canonical hshown
    rw [canonicals_eq, canonicals_eq, List.map_map, List.map_map, ← List.forall₂_eq_eq_eq, List.forall₂_map_left_iff,
      List.forall₂_map_right_iff] at hitems
    exact hitems.imp fun _ _ => Condition.key_eq_iff.mpr

theorem foldl_withGuard (v : Validator) (gs : List Condition) :
    gs.foldl withGuard v = { v with guards := gs.reverse ++ v.guards } := by
  induction gs generalizing v with
  | nil => rfl
  | cons g gs ih => simp [ih, withGuard]

end Validator

namespace LogicRule
variable (r : LogicRule)

theorem enforcer_eq : r.enforcer = { Validator.required with guards := (r.condition :: r.guards).reverse } := by
  rw [enforcer, Validator.foldl_withGuard]
  simp [Validator.required]

theorem compiles_enforcer (fs : Functions) : r.enforcer.Compiles fs := by
  rw [enforcer_eq]
  exact ⟨_, rfl⟩

end LogicRule

end FormRules
