import FormRules.Expr.Eval
import FormRules.Proofs.Number.Reading
import FormRules.Proofs.Value.Symmetry

/-!
# Loose equality from both sides

Scalars are loosely equal from both sides alike, and so are containers, and what is nullish. A container is compared
with a scalar as the text that it is written as, but only where it stands on the left; on the right it equals no scalar.
-/

namespace FormRules

namespace Value
variable {a b : Value}

/-- Booleans, numbers and texts. -/
def isScalar : Value → Bool
  | .bool _ | .num _ | .text _ => true
  | .undefined | .null | .seq _ _ | .map _ => false

/-- Sequences and mappings. -/
def isContainer : Value → Bool
  | .seq _ _ | .map _ => true
  | .undefined | .null | .bool _ | .num _ | .text _ => false

/-- A container whose text is loosely equal to a scalar. -/
def EqualsAsText (a b : Value) : Prop :=
  a.isContainer = true ∧ b.isScalar = true ∧ (Value.text a.toText).looseEq b = true

theorem looseEq_of_container (ha : a.isContainer = true) (hb : b.isScalar = true) :
    a.looseEq b = (Value.text a.toText).looseEq b := by
  cases a with
  | seq kind items => cases b <;> simp_all [isScalar, looseEq, unbool, isNullish, strictEq, int]
  | map es =>
    have hnan : Number.ofText (toText (.map es)) = .nan := by
      rw [toText]
      decide +kernel
    have hne (n : Number) : Number.nan.eq n = false := by rw [Number.eq_comm, Number.eq_nan]
    cases b <;> simp_all [isScalar, looseEq, unbool, isNullish, strictEq, int]
  | _ => cases ha

theorem looseEq_container (ha : a.isContainer = true) (hb : b.isScalar = true) : b.looseEq a = false := by
  cases a <;> cases b <;> simp_all [isContainer, isScalar, looseEq, unbool, isNullish, strictEq, int]

theorem unbool_cases (h : a.isScalar = true) : (∃ n, a.unbool = .num n) ∨ ∃ s, a.unbool = .text s := by
  cases a with
  | bool b => exact .inl ⟨_, rfl⟩
  | num n => exact .inl ⟨n, rfl⟩
  | text s => exact .inr ⟨s, rfl⟩
  | _ => cases h

theorem looseEq_unbool (a b : Value) : a.looseEq b = a.unbool.looseEq b.unbool := by
  cases a <;> cases b <;> rfl

theorem looseEq_comm_of_scalar (ha : a.isScalar = true) (hb : b.isScalar = true) : a.looseEq b = b.looseEq a := by
  rw [looseEq_unbool a b, looseEq_unbool b a]
  obtain ⟨m, hm⟩ | ⟨s, hs⟩ := unbool_cases ha
  · obtain ⟨n, hn⟩ | ⟨t, ht⟩ := unbool_cases hb
    · rw [hm, hn]
      exact m.eq_comm n
    · rw [hm, ht]
      exact m.eq_comm (.ofText t)
  · obtain ⟨n, hn⟩ | ⟨t, ht⟩ := unbool_cases hb
    · rw [hs, hn]
      exact Number.eq_comm (.ofText s) n
    · rw [hs, ht]
      exact decide_eq_decide.mpr eq_comm

theorem looseEq_of_containers (ha : a.isContainer = true) (hb : b.isContainer = true) : a.looseEq b = a.strictEq b := by
  cases a <;> cases b <;> simp_all [isContainer] <;> rfl

theorem looseEq_of_nullish (h : a.isNullish = true ∨ b.isNullish = true) :
    a.looseEq b = (a.isNullish && b.isNullish) := by
  rw [looseEq, if_pos (Bool.or_eq_true _ _ ▸ h)]

theorem kind_cases (a : Value) : a.isNullish = true ∨ a.isScalar = true ∨ a.isContainer = true := by
  cases a <;> simp [isNullish, isScalar, isContainer]

/-- Values are loosely equal from both sides alike, unless one is a container and the other a scalar. -/
theorem looseEq_comm (ha : a.hasDistinctKeys = true) (hb : b.hasDistinctKeys = true)
    (hab : ¬ (a.isContainer = true ∧ b.isScalar = true)) (hba : ¬ (b.isContainer = true ∧ a.isScalar = true)) :
    a.looseEq b = b.looseEq a := by
  have nullish (h : a.isNullish = true ∨ b.isNullish = true) : a.looseEq b = b.looseEq a := by
    rw [looseEq_of_nullish h, looseEq_of_nullish h.symm, Bool.and_comm]
  obtain ha' | ha' | ha' := a.kind_cases
  · exact nullish (.inl ha')
  · obtain hb' | hb' | hb' := b.kind_cases
    · exact nullish (.inr hb')
    · exact looseEq_comm_of_scalar ha' hb'
    · exact absurd ⟨hb', ha'⟩ hba
  · obtain hb' | hb' | hb' := b.kind_cases
    · exact nullish (.inr hb')
    · exact absurd ⟨ha', hb'⟩ hab
    · rw [looseEq_of_containers ha' hb', looseEq_of_containers hb' ha', strictEq_comm ha hb]

/-- Where the two sides disagree, a container on one of them has the text of the scalar on the other. -/
theorem looseEq_comm_iff (ha : a.hasDistinctKeys = true) (hb : b.hasDistinctKeys = true) :
    a.looseEq b = b.looseEq a ↔ ¬ a.EqualsAsText b ∧ ¬ b.EqualsAsText a := by
  have mixed {a b : Value} (ha : a.isContainer = true) (hb : b.isScalar = true) :
      a.looseEq b = b.looseEq a ↔ ¬ a.EqualsAsText b := by
    rw [looseEq_container ha hb, looseEq_of_container ha hb, ← Bool.not_eq_true]
    exact not_congr ⟨fun h => ⟨ha, hb, h⟩, fun h => h.2.2⟩
  have apart {a b : Value} (ha : a.isContainer = true) : ¬ b.EqualsAsText a := fun h => by
    have hscalar := h.2.1
    cases a <;> cases ha <;> cases hscalar
  by_cases hab : a.isContainer = true ∧ b.isScalar = true
  · rw [mixed hab.1 hab.2, and_iff_left (apart hab.1)]
  by_cases hba : b.isContainer = true ∧ a.isScalar = true
  · rw [eq_comm, mixed hba.1 hba.2, and_iff_right (apart hba.1)]
  · exact iff_of_true (looseEq_comm ha hb hab hba) ⟨fun h => hab ⟨h.1, h.2.1⟩, fun h => hba ⟨h.1, h.2.1⟩⟩

end Value

namespace Expr
open Value
variable {m : Type → Type} [Monad m] [LawfulMonad m] {lookup : String → m (Option Value)} {locals : Scope} {l r : Node}
  {a b : Value}

theorem eval_looseEq (hl : eval lookup locals l = pure a) (hr : eval lookup locals r = pure b) :
    eval lookup locals (.binary .looseEq l r) = pure (.bool (a.looseEq b)) := by
  rw [eval, hl, pure_bind, hr, pure_bind]
  rfl

/-- In any scope and however names are looked up, comparing two expressions from one side and from the other gives what
their values are to each other. The two agree unless a container on one side has the text of the scalar on the other;
then the container equals the scalar from the left, and not from the right. -/
theorem eval_looseEq_comm_iff (ha : a.hasDistinctKeys = true) (hb : b.hasDistinctKeys = true)
    (hl : eval lookup locals l = pure a) (hr : eval lookup locals r = pure b) :
    eval lookup locals (.binary .looseEq l r) = pure (.bool (a.looseEq b)) ∧
    eval lookup locals (.binary .looseEq r l) = pure (.bool (b.looseEq a)) ∧
    (a.looseEq b = b.looseEq a ↔ ¬ a.EqualsAsText b ∧ ¬ b.EqualsAsText a) ∧
    (a.EqualsAsText b → a.looseEq b = true ∧ b.looseEq a = false) := by
  refine ⟨eval_looseEq hl hr, eval_looseEq hr hl, looseEq_comm_iff ha hb, fun h => ?_⟩
  obtain ⟨hcontainer, hscalar, htext⟩ := h
  exact ⟨(looseEq_of_container hcontainer hscalar).trans htext, looseEq_container hcontainer hscalar⟩

/-- The list of one equals its text from the left, and not from the right. -/
theorem eval_looseEq_comm_iff_list :
    let lookup (_ : String) : Id (Option Value) := pure none
    let list : Node := .array [.literal (.int 1)]
    let text : Node := .literal (.text "1")
    eval lookup [] (.binary .looseEq list text) = pure (.bool true) ∧
      eval lookup [] (.binary .looseEq text list) = pure (.bool false) := by
  intro lookup list text
  have htext : Value.EqualsAsText (.list [.int 1]) (.text "1") := ⟨rfl, rfl, by decide +kernel⟩
  have hlist : eval lookup [] list = pure (.list [.int 1]) := rfl
  have hright : eval lookup [] text = pure (.text "1") := rfl
  obtain ⟨hl, hr, -, hdiffer⟩ := eval_looseEq_comm_iff rfl rfl hlist hright
  obtain ⟨htrue, hfalse⟩ := hdiffer htext
  rw [hl, hr, htrue, hfalse]
  exact ⟨rfl, rfl⟩

end Expr
end FormRules
