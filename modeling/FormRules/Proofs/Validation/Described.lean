import FormRules.Proofs.Condition.Described
import FormRules.Schema.Logic
import FormRules.Validation.Validator

/-!
# Validators and rules read back

A validator is described with all that it has, its guards among it, and reading the description gives the validator
again. All that reading asks is that a validator of a type that refers to something says to what, as every validator
does that was read, and that its guards can be written.

Guards come to a rule through the schemas that it is applied by, and the description of the rule shows them. A
validator is read back with all of them. A logic rule is read back without: what it is described by has a
field for them that reading does not ask for.
-/

namespace FormRules
open Value

theorem ValidatorType.ofName?_name (t : ValidatorType) : ofName? t.name = some t := by
  cases t with
  | builtin b => cases b <;> decide
  | _ => decide

namespace Validator
variable {v : Validator} {d : Value}

/-- Whether a validator can be written: it has what its type asks for, and its guards can be. -/
structure IsComplete (v : Validator) : Prop where
  source : v.type = .custom → v.functionName.given = true ∨ v.expression.given = true
  function : v.type.isAsync = true → v.functionName.given = true
  guards : ∀ g ∈ v.guards, g.IsAddressed

/-- The guards that a description shows are read back. -/
theorem parseGuards_description {gs : List Condition} (h : ∀ g ∈ gs, g.IsAddressed) :
    parseGuards ((if gs = [] then none else some (.list (gs.map Condition.description))).getD .null) = .ok gs := by
  cases gs with
  | nil => rfl
  | cons g gs => exact mapM_map_ok fun g hg => Condition.parse_description (h g hg)

theorem ofValue_name (t : ValidatorType) : ValidatorType.ofValue (.text t.name) = .ok t := by
  simp [ValidatorType.ofValue, isHashable, t.ofName?_name]

theorem parse_description (h : v.IsComplete) : parse v.description = .ok v := by
  rw [description, object_eq]
  generalize hes : entriesOf _ = es
  have htype : field es "type" = .text v.type.name := by simp [← hes, field]
  have hvalue : fieldOrUndefined es "value" = v.value := by simp [← hes, fieldOrUndefined]
  have hexpression : field es "expression" = v.expression := by simp [← hes, field]
  have hguards : parseGuards (field es "when") = .ok v.guards := by
    simp [← hes, field, parseGuards_description h.guards]
  have hkind : field es "kind" = v.kind := by simp [← hes, field]
  have hmessage : field es "message" = v.message := by simp [← hes, field]
  have hfunction : field es "functionName" = v.functionName := by simp [← hes, field]
  have hparams : (field es "params").toMapping = .ok v.params := by simp [← hes, field]
  have herrorParams : (field es "errorParams").toMapping = .ok v.errorParams := by simp [← hes, field]
  have hdependsOn : (field es "dependsOn").toMembers = .ok v.dependsOn := by simp [← hes, field]
  have hsource : (decide (v.type = .custom) && !v.functionName.given && !v.expression.given) = false := by
    cases hc : decide (v.type = .custom) with
    | false => rfl
    | true => rcases h.source (of_decide_eq_true hc) with hg | hg <;> simp [hg]
  have hasync : (v.type.isAsync && !v.functionName.given) = false := by
    cases ha : v.type.isAsync with
    | false => rfl
    | true => simp [h.function ha]
  show parseFields es = .ok v
  simp only [parseFields, bind, Except.bind, htype, ofValue_name, hvalue, hexpression, hguards, hkind, hmessage,
    hfunction, hparams, herrorParams, hdependsOn, hsource, hasync]
  rfl

theorem isAddressed_of_parseGuards {w : Value} {gs : List Condition} (h : parseGuards w = .ok gs) :
    ∀ g ∈ gs, g.IsAddressed := by
  intro g hg
  have hone {w : Value} (h : (do return [← Condition.parse w] : Outcome (List Condition)) = .ok gs) :
      g.IsAddressed := by
    obtain ⟨c, hc, h⟩ := of_bind_ok h
    cases h
    rw [List.mem_singleton.mp hg]
    exact Condition.isAddressed_of_parse hc
  cases w with
  | null => cases h; cases hg
  | seq k items =>
    obtain ⟨w, -, hw⟩ := (mem_of_mapM h g).mp hg
    exact Condition.isAddressed_of_parse hw
  | _ => exact hone h

theorem isComplete_of_parseFields {es : Entries} (h : parseFields es = .ok v) : v.IsComplete := by
  obtain ⟨type, htype, h⟩ := of_bind_ok h
  dsimp only at h
  split at h
  · cases h
  · split at h
    · cases h
    · next hsource hasync =>
      obtain ⟨gs, hgs, h⟩ := of_bind_ok h
      obtain ⟨params, -, h⟩ := of_bind_ok h
      obtain ⟨errorParams, -, h⟩ := of_bind_ok h
      obtain ⟨dependsOn, -, h⟩ := of_bind_ok h
      cases h
      refine ⟨?_, ?_, isAddressed_of_parseGuards hgs⟩
      · rintro (rfl : type = .custom)
        simpa [or_iff_not_imp_left] using hsource
      · intro hlater
        simpa [hlater] using hasync

theorem isComplete_of_parse (h : parse d = .ok v) : v.IsComplete := by
  cases d with
  | text s => exact isComplete_of_parseFields h
  | map es => exact isComplete_of_parseFields h
  | _ => cases h

theorem IsComplete.withGuard (h : v.IsComplete) {g : Condition} (hg : g.IsAddressed) : (v.withGuard g).IsComplete :=
  ⟨h.source, h.function, List.forall_mem_cons.mpr ⟨hg, h.guards⟩⟩

theorem IsComplete.withGuards (h : v.IsComplete) {gs : List Condition} (hgs : ∀ g ∈ gs, g.IsAddressed) :
    (gs.foldl Validator.withGuard v).IsComplete := by
  induction gs generalizing v with
  | nil => exact h
  | cons g gs ih =>
    obtain ⟨hg, hgs⟩ := List.forall_mem_cons.mp hgs
    exact ih (h.withGuard hg) hgs

end Validator

/-! ## Logic rules -/

theorem LogicType.ofName?_name (t : LogicType) : ofName? t.name = some t := by cases t <;> decide

namespace LogicRule
open Condition
variable {r : LogicRule} {d : Value}

theorem description_eq (r : LogicRule) : r.description = .map (entriesOf ([("type", .text r.type.name),
    ("condition", r.condition.description)] ++ durationField "debounceMs" r.debounceMs ++
    (if r.guards.isEmpty then [] else [("guards", .list (r.guards.map Condition.description))]))) := by
  rw [description]
  cases r.debounceMs <;> rfl

theorem ofValue_name (t : LogicType) : LogicType.ofValue (.text t.name) = .ok t := by
  simp [LogicType.ofValue, isHashable, t.ofName?_name]

/-- A logic rule is read back without its guards. -/
theorem parse_description_unguarded (h : r.condition.IsAddressed) :
    parse r.description = .ok { r with guards := [] } := by
  rw [description_eq]
  generalize hes : entriesOf _ = es
  have htype : field es "type" = .text r.type.name := by simp [← hes, field]
  have hcondition : field? es "condition" = some r.condition.description := by simp [← hes]
  have hdebounce : field es "debounceMs" = (r.debounceMs.map Value.int).getD .null := by simp [← hes, field]
  rw [parse, hcondition, Option.getD_some, Condition.parse_description h, hdebounce, htype, ofValue_name]
  cases r.debounceMs <;> rfl

/-- A logic rule that was read has no guards. -/
theorem of_parse (h : parse d = .ok r) : r.condition.IsAddressed ∧ r.guards = [] := by
  cases d with
  | map es =>
    obtain ⟨condition, hcondition, h⟩ := of_bind_ok h
    dsimp only at h
    split at h <;>
    · obtain ⟨debounceMs, -, h⟩ := of_bind_ok h
      obtain ⟨type, -, h⟩ := of_bind_ok h
      cases h
      exact ⟨Condition.isAddressed_of_parse hcondition, rfl⟩
  | _ => cases h

theorem foldl_withGuard (r : LogicRule) (gs : List Condition) :
    gs.foldl withGuard r = { r with guards := gs.reverse ++ r.guards } := by
  induction gs generalizing r with
  | nil => rfl
  | cons g gs ih => simp [ih, withGuard]

end LogicRule

/-! ## With guards -/

variable {gs : List Condition}

/-- A validator that was read and has got further guards is read back from its description, guards and all. Of a
logic rule only the rule without its guards comes back: it is the same rule just if it has got none. -/
theorem parse_description_of_guarded (hgs : ∀ g ∈ gs, ∃ d, Condition.parse d = .ok g) :
    (∀ d v, Validator.parse d = .ok v →
      Validator.parse (gs.foldl Validator.withGuard v).description = .ok (gs.foldl Validator.withGuard v)) ∧
    ∀ d r, LogicRule.parse d = .ok r → r.guards = [] ∧
      LogicRule.parse (gs.foldl LogicRule.withGuard r).description = .ok r ∧
      (gs.foldl LogicRule.withGuard r = r ↔ gs = []) := by
  have haddressed : ∀ g ∈ gs, g.IsAddressed := fun g hg => Condition.described_iff.mp (hgs g hg)
  constructor
  · intro d v h
    exact Validator.parse_description ((Validator.isComplete_of_parse h).withGuards haddressed)
  · intro d r h
    obtain ⟨hcondition, hguards⟩ := LogicRule.of_parse h
    obtain ⟨type, condition, debounceMs, guards⟩ := r
    obtain rfl : guards = [] := hguards
    rw [LogicRule.foldl_withGuard, List.append_nil]
    refine ⟨rfl, LogicRule.parse_description_unguarded hcondition, ?_⟩
    rw [LogicRule.mk.injEq, List.reverse_eq_nil_iff]
    simp

theorem parse_description_of_guarded_never :
    let never : Condition := .test (.literal false)
    let hidden : LogicRule := { type := .hidden, condition := .test (.literal true) }
    Validator.parse (Validator.required.withGuard never).description = .ok (Validator.required.withGuard never) ∧
      LogicRule.parse (hidden.withGuard never).description = .ok hidden := by
  intro never hidden
  have hnever : ∀ g ∈ [never], ∃ d, Condition.parse d = .ok g := by
    intro g hg
    rw [List.mem_singleton.mp hg]
    exact ⟨.bool false, rfl⟩
  have hrequired : Validator.parse (.text "required") = .ok Validator.required := rfl
  have hhidden : LogicRule.parse (.object [("type", .text "hidden")]) = .ok hidden := rfl
  have hback := parse_description_of_guarded hnever
  exact ⟨hback.1 _ _ hrequired, (hback.2 _ _ hhidden).2.1⟩

end FormRules
