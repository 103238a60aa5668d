import FormRules.Proofs.Results
import FormRules.Validation.Dependence

/-!
# Dividing validators

Members are asked one by one whether they read another field, up to the first that does. Validators that can be told
apart are divided by it, each half in the order of the whole.
-/

namespace FormRules.Validator
variable {α : Type} {P : α → Outcome Bool} {a : α} {as : List α} {f : Fault}

/-! ## Asking one by one -/

/-- Asking fails at a member only. -/
theorem anyOf_error (h : anyOf P as = .error f) : ∃ a ∈ as, P a = .error f := by
  induction as with
  | nil => cases h
  | cons a as ih =>
    rw [anyOf] at h
    cases ha : P a with
    | error g =>
      rw [ha] at h
      cases h
      exact ⟨a, List.mem_cons_self, ha⟩
    | ok b =>
      rw [ha] at h
      cases b with
      | true => cases h
      | false =>
        obtain ⟨a', ha', hf⟩ := ih h
        exact ⟨a', List.mem_cons_of_mem _ ha', hf⟩

theorem of_anyOf_false (h : anyOf P as = .ok false) (ha : a ∈ as) : P a = .ok false := by
  induction as with
  | nil => cases ha
  | cons a' as ih =>
    rw [anyOf] at h
    obtain ⟨b, hb, h⟩ := of_bind_ok h
    cases b with
    | true => cases h
    | false =>
      rcases List.mem_cons.mp ha with rfl | ha
      · exact hb
      · exact ih h ha

/-! ## The two halves -/

section
variable {fs : Functions} {vs own tree : List (String × Validator)} {p : String × Validator}

/-- It can be told whether the validator reads another field than its target. -/
def Told (fs : Functions) (p : String × Validator) : Prop := ∃ b, p.2.isCrossField (some fs) p.1 = .ok b

/-- Whether the validator is told to read another field than its target. -/
def crosses (fs : Functions) (p : String × Validator) : Bool := (p.2.isCrossField (some fs) p.1).toOption.getD false

theorem crosses_eq {b : Bool} (h : p.2.isCrossField (some fs) p.1 = .ok b) : crosses fs p = b := by
  rw [crosses, h]
  rfl

theorem split_filter (h : ∀ p ∈ vs, Told fs p) :
    split fs vs = .ok (vs.filter (!crosses fs ·), vs.filter (crosses fs)) := by
  induction vs with
  | nil => rfl
  | cons p vs ih =>
    obtain ⟨⟨b, hb⟩, hrest⟩ := List.forall_mem_cons.mp h
    have hcross := crosses_eq hb
    obtain ⟨path, v⟩ := p
    rw [split, hb, ih hrest, List.filter_cons, List.filter_cons, hcross]
    cases b <;> rfl

theorem told_of_split (h : split fs vs = .ok (own, tree)) : ∀ p ∈ vs, Told fs p := by
  induction vs generalizing own tree with
  | nil => nofun
  | cons p vs ih =>
    obtain ⟨path, v⟩ := p
    rw [split] at h
    obtain ⟨b, hb, h⟩ := of_bind_ok h
    obtain ⟨⟨own', tree'⟩, hsplit, -⟩ := of_bind_ok h
    exact List.forall_mem_cons.mpr ⟨⟨b, hb⟩, ih hsplit⟩

/-- Validators are divided if it can be told of each where it belongs; both halves keep the order. -/
theorem split_eq_ok_iff : split fs vs = .ok (own, tree) ↔
    (∀ p ∈ vs, Told fs p) ∧ own = vs.filter (!crosses fs ·) ∧ tree = vs.filter (crosses fs) := by
  constructor
  · intro h
    have htold := told_of_split h
    rw [split_filter htold, Except.ok.injEq, Prod.mk.injEq] at h
    exact ⟨htold, h.1.symm, h.2.symm⟩
  · rintro ⟨htold, rfl, rfl⟩
    exact split_filter htold

end

end FormRules.Validator
