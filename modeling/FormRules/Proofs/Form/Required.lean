import FormRules.Proofs.Form.Validated

/-!
# Required as shown and as enforced

A rule that makes a field required has two effects. The field is shown to be required while the rule holds, and a
validator with the rule's condition and guards reports the field if it is empty. The first is decided by compiled
conditions, the second by a validator that may have been compiled for another rule with its key.
-/

namespace FormRules
open Condition (verdict)
open Live

/-- Guards with the keys of tests are tests, and hold if these do. -/
theorem OneVerdict.all_eq {T : Test → Prop} (hT : OneVerdict T) {gs hs : List Condition}
    (hkeys : List.Forall₂ (fun g h => g.key = h.key) gs hs) (hgs : ∀ t, .test t ∈ gs → T t)
    (hhs : ∀ h ∈ hs, ∃ t, h = .test t ∧ T t) :
    (∀ g ∈ gs, ∃ t, g = .test t) ∧ ∀ fs c, gs.all (verdict fs c) = hs.all (verdict fs c) := by
  induction hkeys with
  | nil => exact ⟨nofun, fun _ _ => rfl⟩
  | @cons g h gs hs hkey _ ih =>
    obtain ⟨⟨t, rfl, ht⟩, hrest⟩ := List.forall_mem_cons.mp hhs
    obtain ⟨s, rfl⟩ := Condition.test_of_key hkey.symm
    obtain ⟨htests, hall⟩ := ih (fun t ht => hgs t (List.mem_cons_of_mem _ ht)) hrest
    refine ⟨List.forall_mem_cons.mpr ⟨⟨s, rfl⟩, htests⟩, fun fs c => ?_⟩
    rw [List.all_cons, List.all_cons, hT s t (hgs s List.mem_cons_self) ht hkey, hall]

theorem Rules.mem_enforcers {r : Rules} {v : Bound Validator} : v ∈ r.enforcers ↔
    ∃ l ∈ r.logic, l.rule.type = .required ∧ v = ⟨l.path, l.rule.enforcer, l.schema⟩ := by
  simp [enforcers, and_assoc, eq_comm]

theorem Rulebook.enforcers_subset {b : Rulebook} {root : Value} {j : Journal} {r : Rules}
    (h : ((b.rules root).run.run j).1 = .ok r) : ∀ e ∈ r.enforcers, e ∈ r.validators := by
  obtain ⟨c, -, rfl⟩ := of_rules h
  exact fun e he => List.mem_append_right _ he

namespace Form
variable {f : Form} {r : Rules} {w : CompiledValidator} {keys : List Key}

theorem Mentions.of_logic {b : Bound LogicRule} {c : Condition} (hb : b ∈ r.logic)
    (hc : c ∈ b.rule.condition :: b.rule.guards) (h : c.isOutOfBand = false) :
    ∃ t, c = .test t ∧ f.Mentions r (.test t) := by
  cases c with
  | test t => exact ⟨t, rfl, .logic hb hc⟩
  | inquiry i => cases h

/-- What stands for a validator by a built-in rule is by the same rule, and reports errors of its kind. -/
theorem StandsFor.of_builtin {v : Validator} {b : Builtin} (h : f.StandsFor r w v) (htype : v.type = .builtin b)
    (hkind : v.kind.given = false) :
    w.config.type = .builtin b ∧ w.source = .builtin b ∧ w.config.errorKind = .text b.name := by
  have hwtype : w.config.type = .builtin b := (Validator.of_key h.key).1.trans htype
  have hwkind : w.config.kind.given = false := (Value.given_of_canonical (Validator.kind_of_key h.key)).trans hkind
  refine ⟨hwtype, ?_, ?_⟩
  · have hc := h.compiled
    unfold Validator.compile at hc
    rw [hwtype] at hc
    exact (congrArg CompiledValidator.source (Except.ok.inj hc)).symm
  · rw [Validator.errorKind, hwkind, hwtype]
    rfl

theorem Finds.kind_of_builtin {path : String} {v : Validator} {b : Builtin} {e : ValidationError}
    (h : f.Finds r path v (some e)) (htype : v.type = .builtin b) (hkind : v.kind.given = false) :
    e.kind = .text b.name := by
  obtain ⟨w, field, g, hw, -, ho⟩ := h
  obtain ⟨-, hsource, hown⟩ := hw.of_builtin htype hkind
  obtain ⟨params, rfl⟩ := error_of_builtin _ _ _ hsource ho
  exact hown

/-- What stands for the enforcer of a rule without inquiries reports an empty field while the rule holds. -/
theorem StandsFor.validate_enforcer {b : Bound LogicRule} (h : f.StandsFor r w b.rule.enforcer) (hb : b ∈ r.logic)
    (htests : ∀ c ∈ b.rule.condition :: b.rule.guards, c.isOutOfBand = false)
    (hT : OneVerdict fun t => f.Mentions r (.test t)) (field : List Key) (c : Context) (g : Form) :
    result (w.validate (hostAt f.functions field) c) g =
        .ok (if b.rule.verdict f.functions.customFunctions c && c.current.isEmpty
          then some (w.config.error c [] .null) else none) ∧
      (w.config.error c [] .null).kind = .text "required" := by
  rw [LogicRule.enforcer_eq] at h
  obtain ⟨htype, hsource, hkind⟩ := h.of_builtin rfl rfl
  obtain ⟨hguards, hall⟩ := hT.all_eq (Validator.guards_of_key h.key) (fun t ht => h.guards _ ht) fun c hc =>
    Mentions.of_logic hb (List.mem_reverse.mp hc) (htests c (List.mem_reverse.mp hc))
  refine ⟨?_, hkind⟩
  rw [validate_required f.functions field c htype hsource hguards, hall, LogicRule.verdict]
  exact congrArg (fun held => Except.ok (if held && c.current.isEmpty then some (w.config.error c [] .null) else none))
    List.all_reverse

/-- A field that is empty is shown to be required exactly if validating reports an error of that kind there, whatever has
been compiled, remembered or asked before. The conditions of logic rules are decided at once, tests with one key are
decided alike, and no other validator reports such an error there; nor is the path of another rule read as this field.
Validating comes to an end if its validators can be checked: it does not if some rule, wherever, has a condition that
cannot be told to read one field only. If the rules cannot be collected, then neither comes to a result. -/
theorem required_iff_reported (hf : f.Reachable) (hkeys : Path.keys (Path.format keys) = .ok keys)
    (hempty : (f.value.getPath keys).isEmpty = true) :
    (∀ e, result (rules f.value) f = .error e →
      result (logicState notify "required" keys) f = .error e ∧ result validate f = .error e) ∧
    ∀ r, result (rules f.value) f = .ok r →
      (∀ b ∈ r.logic, b.rule.debounceMs = none ∧
        ∀ c ∈ b.rule.condition :: b.rule.guards, c.isOutOfBand = false) →
      OneVerdict (fun t => f.Mentions r (.test t)) →
      (∀ b ∈ r.validators, b ∉ r.enforcers → ∀ e, f.Finds r b.path b.rule (some e) →
        ¬(e.kind = .text "required" ∧ e.path = Path.format keys)) →
      (∀ b ∈ r.enforcers, ∀ field, Path.keys b.path = .ok field → Path.format field = Path.format keys →
        b.path = Path.format keys) →
      r.Placed f.functions →
      ∃ b es, result (logicState notify "required" keys) f = .ok b ∧ result validate f = .ok es ∧
        (b = true ↔ ∃ e ∈ es, e.kind = .text "required" ∧ e.path = Path.format keys) := by
  refine ⟨fun e he => ⟨?_, ?_⟩, fun r hr hlogic hT hothers hwritten hp => ?_⟩
  · exact result_bind_error (x := rules f.value) (f := after (track .value) f) he
  · show result (checkNow f.value) { f with reading := none } = .error e
    have hrules : result (rules f.value) { f with reading := none } = .error e := he
    exact result_bind_error (result_bind_error (result_bind_error hrules))
  obtain ⟨b, hstate, hb⟩ := logicState_tests notify hT keys "required" hr hf.made (fun _ h => .compiled h)
    fun b hb => ⟨(hlogic b hb).1, fun c hc => Mentions.of_logic hb hc ((hlogic b hb).2 c hc)⟩
  obtain ⟨es, hvalidate, hfound, hback⟩ := validate_finds hf hr hp
  refine ⟨b, es, hstate, hvalidate, hb.trans ⟨?_, ?_⟩⟩
  · rintro ⟨l, hl, hpath, hname, hverdict⟩
    have htype : l.rule.type = .required := by
      cases ht : l.rule.type <;> simp [ht, LogicType.name] at hname ⊢
    have henforcer : ⟨l.path, l.rule.enforcer, l.schema⟩ ∈ r.validators :=
      f.rulebook.enforcers_subset hr _ (Rules.mem_enforcers.mpr ⟨l, hl, htype, rfl⟩)
    obtain ⟨o, ⟨w, field, g, hw, hfield, ho⟩, hreported⟩ := hfound _ henforcer (l.rule.compiles_enforcer _)
    obtain rfl : keys = field := Except.ok.inj (hkeys.symm.trans (hpath ▸ hfield))
    obtain ⟨hresult, hkind⟩ := hw.validate_enforcer hl (hlogic l hl).2 hT keys
      (Context.forKeys f.value keys f.external none) g
    rw [hresult, hverdict] at ho
    exact ⟨_, hreported _ (Except.ok.inj ho ▸ if_pos hempty), hkind, rfl⟩
  · rintro ⟨e, he, hkind, hpath⟩
    obtain ⟨v, hv, hfinds⟩ := hback e he
    by_cases henforcer : v ∈ r.enforcers
    · obtain ⟨w, field, g, hw, hfield, ho⟩ := hfinds
      have hread := hwritten v henforcer field hfield
      obtain ⟨l, hl, htype, rfl⟩ := Rules.mem_enforcers.mp henforcer
      obtain ⟨hresult, -⟩ := hw.validate_enforcer hl (hlogic l hl).2 hT field
        (Context.forKeys f.value field f.external none) g
      have ho := Except.ok.inj (hresult.symm.trans ho)
      split at ho
      · next hfails =>
        obtain ⟨hverdict, -⟩ := Bool.and_eq_true_iff.mp hfails
        cases ho
        have hplace : l.path = Path.format keys := hread hpath
        obtain rfl : keys = field := Except.ok.inj (hkeys.symm.trans (hplace ▸ hfield))
        exact ⟨l, hl, hplace, by rw [htype]; rfl, hverdict⟩
      · cases ho
    · exact absurd ⟨hkind, hpath⟩ (hothers v hv henforcer e hfinds)

/-- A condition on a field of the form that is an item's own if the item has it. -/
def fieldIsTrue (path : String) : Condition := .test (.fieldValue path .equals (.bool true))

/-- A name has two letters, and is required once the order is sent. -/
def nameSchema : Schema :=
  .mk "name" .null [{ type := .builtin .minLength, value := .int 2 }]
    [{ type := .required, condition := fieldIsTrue "sent" }] []

/-- The name of an item is checked if the form is strict. -/
def itemSchema : Schema :=
  .mk "item" .null [] [] [.mk (.whenever (fieldIsTrue "strict")) (.inline nameSchema) .null (.text "name")]

/-- A strict form of an order that is sent, whose only item has no name. -/
def orderForm : Form :=
  Form.next { value := .object [("sent", .bool true), ("strict", .bool true),
      ("items", .list [.object [("name", .text "")]])] }
    (.applySchema "items" (.mk .forEach (.inline itemSchema) .null (.text "")))

/-- The name of the item. -/
def itemName : List Key := [.name "items", .index 0, .name "name"]

/-- The rules that apply to it. -/
def orderRules : Rules where
  validators := [
    ⟨"items[0].name", { type := .builtin .minLength, value := .int 2, guards := [fieldIsTrue "strict"] }, some "name"⟩,
    ⟨"items[0].name", { Validator.required with guards := [fieldIsTrue "strict", fieldIsTrue "sent"] }, some "name"⟩]
  logic := [⟨"items[0].name", { type := .required, condition := fieldIsTrue "sent", guards := [fieldIsTrue "strict"] },
    some "name"⟩]

theorem rules_orderForm : result (rules orderForm.value) orderForm = .ok orderRules := by
  have hrulebook : orderForm.rulebook =
      { applications := [("items", (.mk .forEach (.inline itemSchema) .null (.text "")))] } := by rfl
  rw [result, run_rules, hrulebook]
  simp only [Rulebook.rules, SchemaRegistry.collect, SchemaApplication.rules, SchemaRef.rules, itemSchema, Schema.rules,
    SchemaApplication.rulesAll, nameSchema]
  rfl

theorem isTold_orderForm {t : Test} (h : orderForm.Mentions orderRules (.test t)) : t.isTold = true := by
  have hfields (hc : .test t ∈ [fieldIsTrue "strict", fieldIsTrue "sent"]) : t.isTold = true := by
    simp only [List.mem_cons, List.not_mem_nil, or_false] at hc
    rcases hc with hc | hc <;> cases hc <;> rfl
  cases h with
  | compiled h =>
    rw [show orderForm.compiled.functions = [] by rfl] at h
    cases h
  | @checked key w _ h hc =>
    have hunguarded : ∀ e ∈ orderForm.compiled.validators, e.2.config.guards.isEmpty = true := by decide +kernel
    rw [List.isEmpty_iff.mp (hunguarded _ (Table.mem_of_get? h))] at hc
    cases hc
  | logic h hc =>
    cases List.mem_singleton.mp h
    exact hfields (List.mem_reverse.mp hc)
  | validator h hc =>
    rcases List.mem_cons.mp h with rfl | h
    · exact hfields (List.mem_cons.mpr (.inl (List.mem_singleton.mp hc)))
    · cases List.mem_singleton.mp h
      exact hfields hc

theorem placed_orderRules : orderRules.Placed orderForm.functions := by
  have hbuiltin : ∀ b ∈ orderRules.validators, ∃ k, b.rule.type = .builtin k := by
    intro b hb
    rcases List.mem_cons.mp hb with rfl | hb
    · exact ⟨_, rfl⟩
    · cases List.mem_singleton.mp hb
      exact ⟨_, rfl⟩
  have htold : ∀ b ∈ orderRules.validators, (b.rule.isCrossField (some orderForm.functions) b.path).isOk = true := by
    decide +kernel
  have hread : ∀ b ∈ orderRules.validators, (Path.keys b.path).isOk = true := by decide +kernel
  refine ⟨fun b hb e he => ?_, fun b hb _ => exists_of_isOk (htold b hb), fun b hb _ => exists_of_isOk (hread b hb)⟩
  obtain ⟨k, hk⟩ := hbuiltin b hb
  unfold Validator.compile at he
  rw [hk] at he
  cases he

/-- A form with a schema at a path that cannot be read. -/
def unreadableForm : Form := Form.next {} (.applySchema "a" (.mk .always (.inline nameSchema) .null (.text "²")))

/-- The name of the item is shown to be required, and reported. Where rules cannot be collected, nothing is shown. -/
theorem required_iff_reported_item : orderForm.Reachable ∧ (orderForm.value.getPath itemName).isEmpty = true ∧
    result (logicState notify "required" itemName) orderForm = .ok true ∧
    (∃ es, result validate orderForm = .ok es ∧
      ∃ e ∈ es, e.kind = .text "required" ∧ e.path = Path.format itemName) ∧
    ∃ e, result (logicState notify "required" itemName) unreadableForm = .error e ∧
      result validate unreadableForm = .error e := by
  have hreachable : orderForm.Reachable := .next (.fresh (by rfl)) _
  have hempty : (orderForm.value.getPath itemName).isEmpty = true := by decide +kernel
  have hkeys : Path.keys (Path.format itemName) = .ok itemName := by rfl
  have hpath : ∀ b ∈ orderRules.enforcers, b.path = Path.format itemName := by decide +kernel
  have hvalidators : ∀ b ∈ orderRules.validators, b ∈ orderRules.enforcers ∨
      b.rule.type = .builtin .minLength ∧ b.rule.kind.given = false :=
    List.forall_mem_cons.mpr ⟨.inr ⟨rfl, rfl⟩, fun b hb => .inl hb⟩
  obtain ⟨b, es, hstate, hvalidate, hiff⟩ := (required_iff_reported hreachable hkeys hempty).2 orderRules rules_orderForm
    (fun b hb => by
      cases List.mem_singleton.mp hb
      exact ⟨rfl, by decide⟩)
    (.of_isTold fun _ => isTold_orderForm)
    (fun b hb hne e he hreported => by
      obtain ⟨htype, hkind⟩ := (hvalidators b hb).resolve_left hne
      have hname := Value.text.inj ((he.kind_of_builtin htype hkind).symm.trans hreported.1)
      exact absurd hname (by decide))
    (fun b hb _ _ _ => hpath b hb)
    placed_orderRules
  have hholds : (result (logicState notify "required" itemName) orderForm).toOption = some true := by decide +kernel
  rw [hstate] at hholds
  obtain rfl : b = true := Option.some.inj hholds
  have hunreadable : unreadableForm.Reachable := .next (.fresh (by rfl)) _
  obtain ⟨e, he⟩ := exists_of_not_isOk
    (show (result (rules unreadableForm.value) unreadableForm).isOk = false by decide +kernel)
  exact ⟨hreachable, hempty, hstate, ⟨es, hvalidate, hiff.mp rfl⟩, e,
    (required_iff_reported hunreadable hkeys (by decide +kernel)).1 e he⟩
end Form
end FormRules
