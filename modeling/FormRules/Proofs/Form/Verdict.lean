import FormRules.Proofs.Form.OutOfBand
import FormRules.Proofs.Form.Ready
import FormRules.Proofs.Form.Rejection

/-!
# What logic states come to

A condition that is decided at once is compiled to a test with its key, so that calling it gives the condition's verdict
if tests with one key are decided alike. A logic state without inquiries and quiet periods is then a matter of the
verdicts of its rules, whatever has been compiled before.
-/

namespace FormRules
open Condition (verdict)

/-- Whether the condition and all guards of a rule hold in a context, as far as that can be said at once. -/
def LogicRule.verdict (fs : CustomFunctions) (c : Context) (r : LogicRule) : Bool :=
  (r.condition :: r.guards).all (Condition.verdict fs c)

/-- Tests with one key are decided alike in every context. -/
def OneVerdict (T : Test → Prop) : Prop :=
  ∀ s t, T s → T t → (Condition.test s).key = (Condition.test t).key →
    ∀ fs c, verdict fs c (.test s) = verdict fs c (.test t)

/-- Tests whose keys tell all that they read are decided alike if they share a key. -/
theorem OneVerdict.of_isTold {T : Test → Prop} (h : ∀ t, T t → t.isTold = true) : OneVerdict T := by
  intro s t hs ht hkey fs c
  have heq : s.holds fs c = t.holds fs c := Test.holds_of_canonical s t (h s hs) (h t ht) (Test.canonical_of_key hkey)
  rw [verdict, verdict, Condition.holds, Condition.holds, heq]

namespace Live
variable {T : Test → Prop} {f g : Form} {t : Test} {l : LogicFunction} {n : Nat}

theorem result_functionAt (h : f.compiled.functions[n]? = some l) :
    result (functionAt n) f = .ok l ∧ after (functionAt n) f = f := by
  unfold functionAt
  rw [result_get_bind, after_get_bind, h]
  exact ⟨rfl, rfl⟩

theorem result_testHolds (t : Test) (root : Value) (field : List Key) (f : Form) :
    result (testHolds t root field) f =
      .ok (verdict f.functions.customFunctions (Context.forKeys root field f.external none) (.test t)) := by
  rw [← Condition.run_holds _ _ _ f.journal]
  rfl

/-- The form has become one that differs in what does not last only, and has compiled tests of some kind only. -/
structure Tells (T : Test → Prop) (f g : Form) : Prop where
  lasting : g.lasting = f.lasting
  made : g.compiled.Made
  tests : ∀ t, .test t ∈ g.compiled.functions → T t

theorem Tells.compile (h : Tells T f g) (ht : T t) : Tells T f (after (Live.compile none (.test t)) g) := by
  refine ⟨h.lasting, h.made.condition none (.test t), fun s hs => ?_⟩
  have hs : LogicFunction.test s ∈ (g.compiled.intern .test (Condition.test t).key (.test t)).2.functions := hs
  unfold Compiled.intern at hs
  split at hs
  · exact h.tests s hs
  · obtain hs | hs := List.mem_append.mp hs
    · exact h.tests s hs
    · cases List.mem_singleton.mp hs
      exact ht

section
variable (notify : Source → Live Unit)

/-- Compiled and called at a field, a test comes to its verdict. -/
theorem holdsAt_test (h : Tells T f g) (ht : T t) (hT : OneVerdict T) (root : Value) (field : List Key) :
    result (holdsAt notify none (.test t) root field) g =
      .ok (verdict f.functions.customFunctions (Context.forKeys root field f.external none) (.test t)) ∧
    Tells T f (after (holdsAt notify none (.test t) root field) g) := by
  obtain ⟨s, hs, hkey⟩ := h.made.condition_test none t
  have hc : Tells T f (after (Live.compile none (.test t)) g) := h.compile ht
  obtain ⟨hresult, hafter⟩ := result_functionAt (f := after (Live.compile none (.test t)) g) hs
  have hcompile : result (Live.compile none (.test t)) g = .ok (g.compiled.condition none (.test t)).1 := rfl
  obtain ⟨-, hfunctions, hexternal⟩ := Form.of_lasting_context hc.lasting
  unfold holdsAt
  rw [result_bind_ok hcompile, after_bind_ok hcompile, result_bind_ok hresult, after_bind_ok hresult, hafter]
  refine ⟨?_, hc.lasting, hc.made, hc.tests⟩
  rw [show call notify (.ofTest s none) root field = testHolds s root field from rfl, result_testHolds, hfunctions,
    hexternal, hT s t (hc.tests s (List.mem_of_getElem? hs)) ht hkey]

variable (hT : OneVerdict T) (field : List Key)
include hT

theorem allHoldAt_tests {cs : List Condition} (hcs : ∀ c ∈ cs, ∃ t, c = .test t ∧ T t) (h : Tells T f g) :
    result (allHoldAt notify field cs) g =
      .ok (cs.all (verdict f.functions.customFunctions (Context.forKeys f.value field f.external none))) ∧
    Tells T f (after (allHoldAt notify field cs) g) := by
  induction cs generalizing g with
  | nil => exact ⟨rfl, h⟩
  | cons c cs ih =>
    obtain ⟨⟨t, rfl, ht⟩, hrest⟩ := List.forall_mem_cons.mp hcs
    obtain ⟨hresult, hafter⟩ := holdsAt_test notify h ht hT f.value field
    unfold allHoldAt
    rw [result_get_bind, after_get_bind, (Form.of_lasting_context h.lasting).1, result_bind_ok hresult,
      after_bind_ok hresult, List.all_cons]
    cases verdict f.functions.customFunctions (Context.forKeys f.value field f.external none) (.test t) with
    | true => exact ih hrest hafter
    | false => exact ⟨rfl, hafter⟩

theorem anyRuleHolds_tests {rs : List LogicRule}
    (hrs : ∀ r ∈ rs, r.debounceMs = none ∧ ∀ c ∈ r.condition :: r.guards, ∃ t, c = .test t ∧ T t) (h : Tells T f g) :
    result (anyRuleHolds notify field rs) g = .ok (rs.any (LogicRule.verdict f.functions.customFunctions
      (Context.forKeys f.value field f.external none))) := by
  induction rs generalizing g with
  | nil => rfl
  | cons r rs ih =>
    obtain ⟨⟨hquiet, hr⟩, hrest⟩ := List.forall_mem_cons.mp hrs
    obtain ⟨⟨t, hcondition, ht⟩, hguards⟩ := List.forall_mem_cons.mp hr
    obtain ⟨hguarded, hthere⟩ := allHoldAt_tests notify hT field hguards h
    unfold anyRuleHolds
    rw [result_bind_ok hguarded, List.any_cons, LogicRule.verdict, List.all_cons, hquiet, hcondition]
    generalize r.guards.all _ = guarded
    cases guarded with
    | true =>
      obtain ⟨hresult, hafter⟩ := holdsAt_test notify hthere ht hT f.value field
      dsimp only
      rw [if_pos rfl, result_get_bind, (Form.of_lasting_context hthere.lasting).1, result_bind_ok hresult,
        Bool.and_true]
      cases verdict f.functions.customFunctions (Context.forKeys f.value field f.external none) (.test t) with
      | true => rfl
      | false => exact ih hrest hafter
    | false =>
      rw [Bool.and_false, Bool.false_or]
      exact ih hrest hthere

/-- A logic state is whether some rule for it at the field has a verdict that holds. -/
theorem logicState_tests {r : Rules} (logic : String) (hr : result (rules f.value) f = .ok r) (hf : f.compiled.Made)
    (htests : ∀ t, .test t ∈ f.compiled.functions → T t)
    (hlogic : ∀ b ∈ r.logic, b.rule.debounceMs = none ∧
      ∀ c ∈ b.rule.condition :: b.rule.guards, ∃ t, c = .test t ∧ T t) :
    ∃ b, result (logicState notify logic field) f = .ok b ∧
      (b = true ↔ ∃ l ∈ r.logic, l.path = Path.format field ∧ l.rule.type.name = logic ∧
        l.rule.verdict f.functions.customFunctions (Context.forKeys f.value field f.external none) = true) := by
  have hrules : result (rules f.value) (after (track .value) f) = .ok r := hr
  have htells : Tells T f (after (rules f.value) (after (track .value) f)) := ⟨rfl, hf, htests⟩
  have hhere : ∀ rule ∈ (r.logic.filter fun b =>
      b.path = Path.format field && b.rule.type.name = logic).map (·.rule),
      rule.debounceMs = none ∧ ∀ c ∈ rule.condition :: rule.guards, ∃ t, c = .test t ∧ T t := fun rule hrule => by
    obtain ⟨b, hb, rfl⟩ := List.mem_map.mp hrule
    exact hlogic b (List.mem_of_mem_filter hb)
  have hstate : result (logicState notify logic field) f = _ :=
    (result_bind_ok (x := rules f.value) hrules).trans (anyRuleHolds_tests notify hT field hhere htells)
  exact ⟨_, hstate, by simp [and_assoc]⟩

end
end Live
end FormRules
