import FormRules.Proofs.Derivation.Settle
import FormRules.Proofs.Expr.Legible

/-!
# Completeness of the graph of derivations

Writing a place inside of a field of the form leaves all other fields alone. A derivation whose texts show the
fields that they read cannot tell, so that it computes the same unless the graph has an edge to the target.
-/

namespace FormRules

/-- Whether two forms hold the same in all fields but one. -/
def AgreeBut (t : String) (es gs : Entries) : Prop := ∀ s, s ≠ t → AgreeOn s es gs

namespace Path

/-- Whether a path runs through no array item. -/
def Unscoped (keys : List Key) : Prop := ∀ k ∈ keys.tail, k.isIndex = false

end Path

namespace Value

/-- The entries of a form; what is no mapping has none. -/
def entries : Value → Entries
  | .map es => es
  | _ => []

variable {root r r' v v' : Value} {t : String} {keys : List Key}

/-- Writing into a field replaces its entry. -/
theorem of_setPath_field (h : root.setPath (.name t :: keys) v = .ok r) :
    ∃ x, r = .map (Table.put root.entries (.name t) x) := by
  cases root with
  | map es =>
    rw [setPath_map] at h
    obtain ⟨x, -, rfl⟩ := of_map_ok h
    have hkey : writeKey es (.name t) = .name t := by simp [writeKey, Key.isIndex]
    exact ⟨x, by rw [hkey]; rfl⟩
  | seq kind items =>
    cases kind with
    | list =>
      obtain ⟨n, -, -, -, hn, -⟩ := setPath_list h
      cases hn
    | tuple =>
      unfold setPath at h
      obtain ⟨x, -, hx⟩ := of_bind_ok h
      cases hx
      exact ⟨x, rfl⟩
  | _ =>
    unfold setPath at h
    obtain ⟨x, -, hx⟩ := of_bind_ok h
    cases hx
    exact ⟨x, rfl⟩

/-- What is written into a field does not change the others. -/
theorem agreeBut_of_setPath (h : root.setPath (.name t :: keys) v = .ok r)
    (h' : root.setPath (.name t :: keys) v' = .ok r') : ∃ es gs, r = .map es ∧ r' = .map gs ∧ AgreeBut t es gs := by
  obtain ⟨x, rfl⟩ := of_setPath_field h
  obtain ⟨y, rfl⟩ := of_setPath_field h'
  refine ⟨_, _, rfl, rfl, fun s hs k hk => ?_⟩
  have hne : k ≠ .name t := fun heq => hs (hk ▸ heq ▸ rfl)
  rw [Table.get?_put_of_ne hne, Table.get?_put_of_ne hne]

end Value

namespace Expr

theorem sameFields_of_agreeBut {t : String} {es gs : Entries} (h : AgreeBut t es gs) :
    SameFields (fun p => p != t) (.map es) (.map gs) := by
  refine ⟨⟨rfl, rfl⟩, fun p hp => ?_, fun p => ?_⟩
  · have hget : Table.get? es (.name p) = Table.get? gs (.name p) := h p (by simpa using hp) (.name p) rfl
    simp only [readProperty, Value.isNullish, property, lookUp?, hget]
    rfl
  · unfold admitMethod
    split
    · exact ⟨_, rfl, rfl⟩
    · exact ⟨_, rfl, rfl⟩

end Expr

namespace Context
variable {root external : Value} {keys : List Key}

theorem arrayItem?_of_unscoped (h : Path.Unscoped keys) : arrayItem? root keys = none := by
  have hgo (ks : List Key) (hks : ∀ k ∈ ks.dropLast, k.isIndex = false) : arrayItem?.go root ks = none := by
    induction ks with
    | nil => rfl
    | cons k ks ih =>
      cases ks with
      | nil => cases k <;> rfl
      | cons j ks =>
        have hsplit : k.isIndex = false ∧ ∀ i ∈ (j :: ks).dropLast, i.isIndex = false := List.forall_mem_cons.mp hks
        cases k with
        | index n => cases hsplit.1
        | _ => exact ih hsplit.2
  refine hgo keys.reverse fun k hk => h k ?_
  rwa [List.dropLast_reverse, List.mem_reverse] at hk

theorem forKeys_of_unscoped (h : Path.Unscoped keys) : forKeys root keys external none =
    { current := root.getPath keys, form := root, root, path := Path.format keys, external, arrayIndex := none,
      arrayPath := none } := by
  unfold forKeys
  rw [arrayItem?_of_unscoped h]
  rfl

end Context

mutual

/-- Whether a test shows the fields of the form that it reads. -/
def Test.showsFields (hidden : List String) : Test → Bool
  | .literal _ | .fieldValue _ _ _ => true
  | .formValue _ _ | .custom _ => false
  | .expression code => Expr.Reference.showsFields hidden code
  | .all ts | .any ts => Test.allShowFields hidden ts

def Test.allShowFields (hidden : List String) : List Test → Bool
  | [] => true
  | t :: ts => t.showsFields hidden && Test.allShowFields hidden ts

end

/-- Two contexts that differ in a field of the form only, and maybe in the current value. -/
structure Context.AgreeBut (t : String) (c c' : Context) : Prop where
  forms : ∃ es gs, c.form = .map es ∧ c'.form = .map gs ∧ FormRules.AgreeBut t es gs
  arrayIndex : c.arrayIndex = none ∧ c'.arrayIndex = none
  path : c.path = c'.path
  external : c.external = c'.external

namespace Context.AgreeBut
variable {t : String} {c c' : Context} {hidden : List String} {source : String}

theorem evaluate_eq (h : c.AgreeBut t c') (hcurrent : c.current = c'.current ∨ "fieldValue" ∈ hidden)
    (hsource : Expr.Reference.showsFields hidden source = true) (ht : t ∉ Expr.Reference.paths source) :
    Expr.evaluate source c.scope = Expr.evaluate source c'.scope := by
  obtain ⟨es, gs, hes, hgs, hbut⟩ := h.forms
  unfold Expr.evaluate
  cases hp : Expr.parse source with
  | error f => rfl
  | ok node =>
    have hn := Node.keepsTo_mono (Q := fun p => p != t) (fun p hp => ?_) node (fun _ _ hk => hk)
      (Expr.legible_of_showsFields hsource node hp)
    · refine Expr.valueIn_congr_fields hn (fun name hname => ?_) (u := .map es) (v := .map gs) ?_ ?_
        (Expr.sameFields_of_agreeBut hbut)
      · simp only [List.contains_cons, Bool.not_eq_true', Bool.or_eq_false_iff] at hname
        obtain ⟨hform, hroot, hhidden⟩ := hname
        simp only [Context.scope, List.lookup_cons, hform, hroot, h.arrayIndex, h.path, h.external]
        cases hfield : name == "fieldValue" with
        | false => rfl
        | true =>
          have hnot : "fieldValue" ∉ hidden := by
            rw [← eq_of_beq hfield]
            simpa using hhidden
          rw [hcurrent.resolve_right hnot]
      · exact congrArg some hes
      · exact congrArg some hgs
    · have hmem : p ∈ Expr.Reference.paths source := by simpa using hp
      simpa using fun heq : p = t => ht (heq ▸ hmem)

theorem fieldAt_eq (h : c.AgreeBut t c') {keys : List Key} (ht : ∀ k ∈ keys.head?, k.text ≠ t) :
    c.fieldAt keys = c'.fieldAt keys := by
  obtain ⟨es, gs, hes, hgs, hbut⟩ := h.forms
  have hscoped : c.isArrayScoped = false ∧ c'.isArrayScoped = false := by
    rw [Context.isArrayScoped, Context.isArrayScoped, h.arrayIndex.1, h.arrayIndex.2]
    exact ⟨rfl, rfl⟩
  rw [Context.fieldAt, Context.fieldAt, hscoped.1, hscoped.2, hes, hgs]
  cases keys with
  | nil => rfl
  | cons k ks => exact (hbut k.text (ht k rfl)).getPath ks

end Context.AgreeBut

section
variable {t : String} {c c' : Context} {hidden : List String} {deps : List String}

/-- What is no dependence of some tests is none of the first, nor of the others. -/
theorem Test.not_mem_dependencies_cons {test : Test} {tests : List Test}
    (hdeps : Test.allDependencies (test :: tests) = .ok deps) (hnot : t ∉ deps) :
    (∃ first, test.dependencies = .ok first ∧ t ∉ first) ∧ ∃ rest, Test.allDependencies tests = .ok rest ∧ t ∉ rest := by
  rw [Test.allDependencies] at hdeps
  obtain ⟨first, hfirst, hdeps⟩ := of_bind_ok hdeps
  obtain ⟨rest, hrest, hdeps⟩ := of_bind_ok hdeps
  cases hdeps
  exact ⟨⟨first, hfirst, fun h => hnot (List.mem_eraseDups.mpr (List.mem_append_left _ h))⟩,
    rest, hrest, fun h => hnot (List.mem_eraseDups.mpr (List.mem_append_right _ h))⟩

mutual

/-- A test holds or not by the fields that it shows. -/
theorem Test.holds_eq {t : String} {c c' : Context} {hidden : List String} (fs : CustomFunctions) (h : c.AgreeBut t c')
    (hcurrent : c.current = c'.current ∨ "fieldValue" ∈ hidden) (ht : Expr.Reference.root t = t) (test : Test)
    (hl : test.showsFields hidden = true) {deps : List String}
    (hdeps : test.dependencies = .ok deps) (hnot : t ∉ deps) : test.holds fs c = test.holds fs c' := by
  cases test with
  | literal b => rfl
  | fieldValue path op v =>
    have hcompare : c.compareField path op v = c'.compareField path op v := by
      unfold Context.compareField
      cases hk : Path.keys path with
      | error e => rfl
      | ok keys =>
        refine congrArg (op.holds · v) (h.fieldAt_eq fun k hmem => ?_)
        rw [Test.dependencies, hk] at hdeps
        cases keys with
        | nil => cases hmem
        | cons j js =>
          cases hmem
          cases hdeps
          exact fun heq => hnot (heq ▸ List.mem_singleton_self _)
    rw [Test.holds, Test.holds, hcompare]
  | formValue op v => cases hl
  | expression code =>
    have hpaths : t ∉ Expr.Reference.paths code := fun hmem => hnot ?_
    · rw [Test.holds, Test.holds, h.evaluate_eq hcurrent hl hpaths]
    · cases hdeps
      exact List.mem_eraseDups.mpr (List.mem_map.mpr ⟨t, hmem, ht⟩)
  | custom name => cases hl
  | all ts => rw [Test.holds, Test.holds, Test.allHold_eq fs h hcurrent ht ts hl hdeps hnot]
  | any ts => rw [Test.holds, Test.holds, Test.anyHolds_eq fs h hcurrent ht ts hl hdeps hnot]

theorem Test.allHold_eq {t : String} {c c' : Context} {hidden : List String} (fs : CustomFunctions) (h : c.AgreeBut t c')
    (hcurrent : c.current = c'.current ∨ "fieldValue" ∈ hidden) (ht : Expr.Reference.root t = t) (tests : List Test)
    (hl : Test.allShowFields hidden tests = true) {deps : List String}
    (hdeps : Test.allDependencies tests = .ok deps) (hnot : t ∉ deps) :
    Test.allHold fs c tests = Test.allHold fs c' tests := by
  cases tests with
  | nil => rfl
  | cons test tests =>
    obtain ⟨hfirstShows, hrestShow⟩ := Bool.and_eq_true_iff.mp hl
    obtain ⟨⟨first, hfirst, hnotFirst⟩, rest, hrest, hnotRest⟩ := Test.not_mem_dependencies_cons hdeps hnot
    rw [Test.allHold, Test.allHold, Test.holds_eq fs h hcurrent ht test hfirstShows hfirst hnotFirst,
      Test.allHold_eq fs h hcurrent ht tests hrestShow hrest hnotRest]

theorem Test.anyHolds_eq {t : String} {c c' : Context} {hidden : List String} (fs : CustomFunctions) (h : c.AgreeBut t c')
    (hcurrent : c.current = c'.current ∨ "fieldValue" ∈ hidden) (ht : Expr.Reference.root t = t) (tests : List Test)
    (hl : Test.allShowFields hidden tests = true) {deps : List String}
    (hdeps : Test.allDependencies tests = .ok deps) (hnot : t ∉ deps) :
    Test.anyHolds fs c tests = Test.anyHolds fs c' tests := by
  cases tests with
  | nil => rfl
  | cons test tests =>
    obtain ⟨hfirstShows, hrestShow⟩ := Bool.and_eq_true_iff.mp hl
    obtain ⟨⟨first, hfirst, hnotFirst⟩, rest, hrest, hnotRest⟩ := Test.not_mem_dependencies_cons hdeps hnot
    rw [Test.anyHolds, Test.anyHolds, Test.holds_eq fs h hcurrent ht test hfirstShows hfirst hnotFirst,
      Test.anyHolds_eq fs h hcurrent ht tests hrestShow hrest hnotRest]

end

/-- A condition that no service is asked for holds or not by the fields that it shows. -/
theorem Condition.holds_eq (fs : CustomFunctions) (h : c.AgreeBut t c')
    (hcurrent : c.current = c'.current ∨ "fieldValue" ∈ hidden) (ht : Expr.Reference.root t = t) (cond : Condition)
    (hl : ∀ test, cond = .test test → test.showsFields hidden = true)
    (hdeps : cond.dependencies = .ok deps) (hnot : t ∉ deps) : cond.holds fs c = cond.holds fs c' := by
  cases cond with
  | test test => exact Test.holds_eq fs h hcurrent ht test (hl test rfl) hdeps hnot
  | inquiry i => rfl

end

namespace Derivation
variable {fs : Functions} {external root r r' v v' : Value} {ds : List Derivation} {d o : Derivation}
  {hidden : List String} {t : String} {keys : List Key}

/-- A derivation of a place outside of arrays by an expression that shows, as its condition does, what it reads. -/
structure ShowsFields (hidden : List String) (d : Derivation) : Prop where
  text : ∃ code, d.source = .expression code ∧ ∀ s, code = .text s → Expr.Reference.showsFields hidden s = true
  gate : ∀ test, d.condition = some (.test test) → test.showsFields hidden = true
  inferred : d.dependsOn = []
  unscoped : ∀ keys, Path.keys d.target = .ok keys → Path.Unscoped keys

/-- Whether a target is a place in a field of the form, given by a dotted name. -/
structure Inside (t : String) (keys : List Key) (d : Derivation) : Prop where
  keys : Path.keys d.target = .ok (.name t :: keys)
  root : Expr.Reference.root d.target = t
  notAll : t ≠ allFields

theorem root_root (p : String) : Expr.Reference.root (Expr.Reference.root p) = Expr.Reference.root p := by
  have hall : ∀ c ∈ p.toList.takeWhile (· != '.'), (c != '.') = true := fun c hc => by
    simpa using List.mem_takeWhile_imp hc
  rw [Expr.Reference.root, Expr.Reference.root, String.toList_ofList, List.takeWhile_eq_self_iff.mpr hall]

theorem overlaps_comm (p q : String) : overlaps p q = overlaps q p := by
  unfold overlaps
  by_cases h : p = q
  · simp [h]
  · simp [h, Ne.symm h, Bool.or_comm]

/-- What an expression and a condition read is what a derivation by them depends on, unless it declares that. -/
theorem dependencies_cases {code : Value} {deps : List String} (hsource : d.source = .expression code)
    (hinferred : d.dependsOn = []) (h : d.dependencies = .ok deps) : ∃ own gate, pathsOf code = .ok own ∧
      (∀ cond, d.condition = some cond → cond.dependencies = .ok gate) ∧ deps = (own ++ gate).eraseDups := by
  unfold dependencies at h
  rw [hinferred, hsource, if_pos (List.isEmpty_nil)] at h
  obtain ⟨own, hown, h⟩ := of_bind_ok h
  cases hcond : d.condition with
  | none =>
    rw [hcond] at h
    cases h
    exact ⟨own, [], hown, nofun, rfl⟩
  | some cond =>
    rw [hcond] at h
    obtain ⟨gate, hgate, h⟩ := of_bind_ok h
    cases h
    exact ⟨own, gate, hown, fun _ he => Option.some.inj he ▸ hgate, rfl⟩

theorem evaluateValue_of_error {code : Value} {f : Fault} (h : Expr.parseValue code = .error f) (scope : Expr.Scope) :
    Expr.evaluateValue code scope = .error f := by
  rw [Expr.evaluateValue, h]
  rfl

theorem parseValue_of_not_text {code : Value} (h : ∀ s, code ≠ .text s) :
    Expr.parseValue code = .error (.noExpression (.notText code.kindName) code.quoted 0) := by
  unfold Expr.parseValue
  split
  · next s => exact absurd rfl (h s)
  · rfl

/-- An expression comes to the same in contexts that differ in a field that its text does not show. -/
theorem evaluateValue_eq {c c' : Context} {code : Value} {own : List String} (h : c.AgreeBut t c')
    (hcurrent : c.current = c'.current ∨ "fieldValue" ∈ hidden)
    (hcode : ∀ s, code = .text s → Expr.Reference.showsFields hidden s = true)
    (hown : pathsOf code = .ok own) (hnot : t ∉ own) :
    Expr.evaluateValue code c.scope = Expr.evaluateValue code c'.scope := by
  by_cases htext : ∃ s, code = .text s
  · obtain ⟨s, rfl⟩ := htext
    by_cases hs : s = ""
    · have hparse : Expr.parseValue (.text "") = .error (.noExpression .empty "" 0) := rfl
      rw [hs, evaluateValue_of_error hparse, evaluateValue_of_error hparse]
    · rw [pathsOf, Value.given, if_pos (by simpa using hs)] at hown
      cases hown
      exact h.evaluate_eq hcurrent (hcode s rfl) hnot
  · have hparse := parseValue_of_not_text (not_exists.mp htext)
    rw [evaluateValue_of_error hparse, evaluateValue_of_error hparse]

/-- A derivation computes the same from forms that hold the same but in a field that it does not depend on. -/
theorem outcome_eq_of_agreeBut (hl : d.ShowsFields hidden) {es gs : Entries} (hbut : AgreeBut t es gs)
    (hown : (∀ keys, Path.keys d.target = .ok keys → (Value.map es).getPath keys = (Value.map gs).getPath keys) ∨
      "fieldValue" ∈ hidden) (ht : Expr.Reference.root t = t) {deps : List String} (hdeps : d.dependencies = .ok deps)
    (hnot : t ∉ deps) : d.outcome fs external (.map es) = d.outcome fs external (.map gs) := by
  obtain ⟨code, hsource, hcode⟩ := hl.text
  obtain ⟨own, gate, howns, hgate, rfl⟩ := dependencies_cases hsource hl.inferred hdeps
  have hnotOwn : t ∉ own := fun h => hnot (List.mem_eraseDups.mpr (List.mem_append_left _ h))
  have hnotGate : t ∉ gate := fun h => hnot (List.mem_eraseDups.mpr (List.mem_append_right _ h))
  unfold outcome compute
  cases hkeys : Path.keys d.target with
  | error e =>
    have hfail (k : List Key → Checking (Option Value)) :
        ExceptT.mk (pure (.error e)) >>= k = ExceptT.mk (pure (.error e)) := rfl
    rw [hfail, hfail]
  | ok keys =>
    have hunscoped := hl.unscoped keys hkeys
    have hcontext : (Context.forKeys (.map es) keys external none).AgreeBut t (Context.forKeys (.map gs) keys external none) := by
      rw [Context.forKeys_of_unscoped hunscoped, Context.forKeys_of_unscoped hunscoped]
      exact ⟨⟨es, gs, rfl, rfl, hbut⟩, ⟨rfl, rfl⟩, rfl, rfl⟩
    have hcurrent : (Context.forKeys (.map es) keys external none).current =
        (Context.forKeys (.map gs) keys external none).current ∨ "fieldValue" ∈ hidden :=
      hown.imp_left fun h => h keys hkeys
    have hopen : d.isOpen fs (Context.forKeys (.map es) keys external none) =
        d.isOpen fs (Context.forKeys (.map gs) keys external none) := by
      unfold isOpen
      cases hcond : d.condition with
      | none => rfl
      | some cond =>
        exact cond.holds_eq fs.customFunctions hcontext hcurrent ht
          (fun test htest => hl.gate test (hcond.trans (congrArg some htest))) (hgate cond hcond) hnotGate
    have hvalue := evaluateValue_eq hcontext hcurrent hcode howns hnotOwn
    have hkeysRead : (ExceptT.mk (pure (.ok keys)) : Checking (List Key)) = pure keys := rfl
    simp only [hsource, hkeysRead, pure_bind, hopen, hvalue]

/-- Where the value at the target of another derivation changes what a derivation computes, the graph has an edge to
that target, if the derivation shows what it reads. -/
theorem leads_of_outcome_ne (hr : ∀ d ∈ ds, d.Resolves) (hd : d ∈ ds) (ho : o ∈ ds) (hne : d.target ≠ o.target)
    (hl : d.ShowsFields hidden) (hinside : o.Inside t keys) (h : root.setPath (.name t :: keys) v = .ok r)
    (h' : root.setPath (.name t :: keys) v' = .ok r')
    (hown : (∀ keys, Path.keys d.target = .ok keys → r.getPath keys = r'.getPath keys) ∨ "fieldValue" ∈ hidden)
    (hchange : d.outcome fs external r ≠ d.outcome fs external r') :
    ∃ g, graph ds = .ok g ∧ g.Leads d.target o.target := by
  obtain ⟨g, hg⟩ := exists_graph hr
  obtain ⟨es, gs, rfl, rfl, hbut⟩ := Value.agreeBut_of_setPath h h'
  obtain ⟨deps, hdeps⟩ := hr d hd
  have ht : Expr.Reference.root t = t := hinside.root ▸ root_root o.target
  have hmem : t ∈ deps := by
    by_contra hnot
    exact hchange (outcome_eq_of_agreeBut hl hbut hown ht hdeps hnot)
  have hoverlaps : overlaps t o.target = true := by
    rw [overlaps_comm, ← hinside.root]
    exact overlaps_root o.target
  exact ⟨g, hg, (leads_iff hr hg).mpr ⟨d, hd, rfl, List.mem_map_of_mem ho, hne.symm, deps, hdeps, t, hmem,
    hinside.notAll, hoverlaps⟩⟩

/-- A derivation by an expression. -/
def computing (target code : String) : Derivation where
  target
  source := .expression (.text code)
  condition := none
  dependsOn := []
  debounceMs := none

/-- A label with a price that is read in brackets, and nothing else for it. -/
def labelled : Derivation := computing "label" "formValue?.['price'] ?? formValue.name"

/-- A label changes with the price that it shows, and the graph says so. -/
theorem leads_of_outcome_ne_labelled :
    labelled.outcome {} .undefined (.map [(.name "price", .int 3)]) ≠
        labelled.outcome {} .undefined (.map [(.name "price", .int 4)]) ∧
      ∃ g, graph [labelled, computing "price" "1"] = .ok g ∧ g.Leads "label" "price" := by
  have hkeys : Path.keys "label" = .ok [.name "label"] := rfl
  have hchange : labelled.outcome {} .undefined (.map [(.name "price", .int 3)]) ≠
      labelled.outcome {} .undefined (.map [(.name "price", .int 4)]) := by
    have hthree : labelled.outcome {} .undefined (.map [(.name "price", .int 3)]) = .ok (some (.int 3)) := rfl
    have hfour : labelled.outcome {} .undefined (.map [(.name "price", .int 4)]) = .ok (some (.int 4)) := rfl
    rw [hthree, hfour]
    exact nofun
  have hshows : labelled.ShowsFields [] := by
    refine ⟨⟨_, rfl, fun s hs => ?_⟩, nofun, rfl, fun keys hk => ?_⟩
    · cases hs
      decide +kernel
    · obtain rfl := Except.ok.inj (hkeys.symm.trans hk)
      exact nofun
  have hthree : (Value.map []).setPath [.name "price"] (.int 3) = .ok (.map [(.name "price", .int 3)]) := rfl
  have hfour : (Value.map []).setPath [.name "price"] (.int 4) = .ok (.map [(.name "price", .int 4)]) := rfl
  refine ⟨hchange, leads_of_outcome_ne ?_ List.mem_cons_self (List.mem_cons_of_mem _ List.mem_cons_self) (by decide)
    hshows ⟨rfl, rfl, by decide⟩ hthree hfour (.inl fun keys hk => ?_) hchange⟩
  · intro d hd
    simp only [List.mem_cons, List.not_mem_nil, or_false] at hd
    rcases hd with rfl | rfl
    · exact ⟨["price", "name"], rfl⟩
    · exact ⟨[], rfl⟩
  · obtain rfl := Except.ok.inj (hkeys.symm.trans hk)
    rfl

end Derivation

end FormRules
