import FormRules.Proofs.Condition.Exchange
import FormRules.Proofs.Form.Inward

/-!
# Compiled tests ask nobody

What a condition that is decided at once is compiled to decides a test, whatever else has been compiled before. Calling
it wants no inquiry to be decided at once, and neither do the watchers that are told about what a test has settled to.
-/

namespace FormRules

namespace Compiled

theorem Made.grows {fs : Functions} {c d : Compiled} (h : c.Made) (hg : c.Grows fs d) : d.Made := by
  cases hg with
  | condition q cond => exact h.condition q cond
  | value e => exact h.value e
  | validator _ _ => exact h.validators _

end Compiled

namespace Form
open Live
open Reporting (InBand)
variable {f g : Form}

theorem made_of_turn (ht : Turn f g) (h : f.compiled.Made) : g.compiled.Made := by
  cases ht with
  | move hm =>
    obtain hsame | hgrows := hm.compiled_eq_or_grows
    · rwa [hsame]
    · exact h.grows hgrows
  | _ => exact h

theorem Reachable.made (h : f.Reachable) : f.compiled.Made := by
  refine Reachable.induct (P := fun f => f.compiled.Made) (fun f hf => ?_) (fun _ _ => made_of_turn) (fun _ _ h => h) h
  rw [hf.compiled]
  exact .nothing

/-- No inquiry stands inside of a composite at any depth, neither in a description that is accepted nor in what the
constructors put together, so that deciding a composite part by part asks nobody. A condition that is decided at once is
compiled to a function that asks nobody either, wherever and in whatever form it is called. -/
theorem no_inquiry_inside :
    (∀ v c, Condition.parse v = .ok c → ∀ w, Condition.DescribedInside w v → ∃ t, Condition.parse w = .ok (.test t)) ∧
    (∀ (a : Assembly) c, a.build = .ok c →
      (∀ b : Assembly, b.Inside a → ∃ t, b.build = .ok (.test t)) ∧
      ∀ fs context, a.holds fs context = c.holds fs context ∧ (c.isOutOfBand = false → InBand (a.holds fs context))) ∧
    ∀ f : Form, f.Reachable → ∀ (c : Condition) (quietMs : Option Int), c.isOutOfBand = false →
      ∃ n t, result (compile quietMs c) f = .ok n ∧
        (after (compile quietMs c) f).compiled.functions[n]? = some (.ofTest t quietMs) ∧
        ∀ (g : Form) (root : Value) (field : List Key),
          (after (call notify (.ofTest t quietMs) root field) g).journal.outOfBand = g.journal.outOfBand := by
  refine ⟨fun v c hc w hw => Condition.test_of_describedInside hc hw,
    fun a c hc => ⟨fun b hb => ?_, fun fs context => ?_⟩, ?_⟩
  · exact Assembly.test_of_inside hc hb
  · refine ⟨Assembly.holds_of_build fs context hc, fun ht => ?_⟩
    rw [Assembly.holds_of_build fs context hc]
    cases c with
    | test t => exact t.holds_inBand fs context
    | inquiry i => cases ht
  · intro f hf c q ht
    cases c with
    | inquiry i => cases ht
    | test t =>
      obtain ⟨s, hs, -⟩ := hf.made.condition_test q t
      exact ⟨_, s, rfl, hs, fun g root field => (call_inward notify_inward _ root field g).inward.outOfBand⟩

/-- The description of a composite with one part. -/
def wrappedDescription (type : String) (inner : Value) : Value :=
  .object [("type", .text type), ("conditions", .list [inner])]

/-- The description of a condition inside of two composites. -/
def nestedDescription (inner : Value) : Value := wrappedDescription "and" (wrappedDescription "or" inner)

/-- A condition put inside of two composites. -/
def nestedAssembly (inner : Condition) : Assembly := .all [.any [.given inner]]

/-- An inquiry that counts as holding until it is answered. -/
def hopefulInquiry : Inquiry := ⟨.async "lookup" [], true, none, none⟩

/-- A condition is taken inside of two composites, and an inquiry is not: if it were, then deciding the composite part by
part would want it to be decided at once. -/
theorem no_inquiry_inside_nested :
    (∃ c t, Condition.parse (nestedDescription (.bool true)) = .ok c ∧ Condition.parse (.bool true) = .ok (.test t)) ∧
    (∃ c t, (nestedAssembly (.test (.literal true))).build = .ok c ∧
      (Assembly.given (.test (.literal true))).build = .ok (.test t)) ∧
    (∃ n t, result (compile none (.test (.literal true))) {} = .ok n ∧
      (after (call notify (.ofTest t none) (.map []) []) {}).journal.outOfBand = []) ∧
    (Condition.parse (nestedDescription hopefulInquiry.description)).isOk = false ∧
    (nestedAssembly (.inquiry hopefulInquiry)).build.isOk = false ∧
    ¬InBand ((nestedAssembly (.inquiry hopefulInquiry)).holds [] (Context.forKeys .null [] .null none)) := by
  have described : Condition.DescribedInside (.bool true) (nestedDescription (.bool true)) :=
    .tail (b := wrappedDescription "or" (.bool true)) (.single (List.mem_singleton_self _)) (List.mem_singleton_self _)
  have assembled : (Assembly.given (.test (.literal true))).Inside (nestedAssembly (.test (.literal true))) :=
    .tail (.single (List.mem_singleton_self _)) (List.mem_singleton_self (Assembly.any _))
  have hparse : Condition.parse (nestedDescription (.bool true)) = .ok (.test (.all [.any [.literal true]])) := by rfl
  have hbuild : (nestedAssembly (.test (.literal true))).build = .ok (.test (.all [.any [.literal true]])) := rfl
  refine ⟨?_, ?_, ?_, by decide +kernel, by decide +kernel, fun h => ?_⟩
  · obtain ⟨t, ht⟩ := no_inquiry_inside.1 _ _ hparse _ described
    exact ⟨_, t, hparse, ht⟩
  · obtain ⟨t, ht⟩ := (no_inquiry_inside.2.1 _ _ hbuild).1 _ assembled
    exact ⟨_, t, hbuild, ht⟩
  · obtain ⟨n, t, hn, -, hcall⟩ := no_inquiry_inside.2.2 {} (.fresh rfl) (.test (.literal true)) none rfl
    exact ⟨n, t, hn, hcall {} _ _⟩
  · have hfound : ([Notice.outOfBand "async"] : List Notice) = [] := h {}
    cases hfound

end Form
end FormRules
