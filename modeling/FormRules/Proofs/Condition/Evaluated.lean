import FormRules.Inquiry.Answer
import FormRules.Proofs.Condition.Exchange
import FormRules.Proofs.Validation.Division

/-!
# What conditions evaluate

A condition evaluates the expressions among its parts: those that it is decided by, those that make up the question of
an inquiry, and the one that reads the response. All but the last are known before anything is asked (`Evaluates`), and
a condition with one among them that reads another field is told to read another field, so that the validators which
it guards run over the whole form.

That the enumeration misses no site is seen by evaluating in another way: deciding, asking and answering come out the
same, whatever becomes of the expressions that are not listed.
-/

namespace FormRules

/-! ## The expressions of a condition -/

/-- Deciding the test can evaluate the expression. -/
inductive Test.Evaluates : Test → String → Prop
  | expression {code : String} : Evaluates (.expression code) code
  | all {ts : List Test} {t : Test} {e : String} (ht : t ∈ ts) (h : t.Evaluates e) : Evaluates (.all ts) e
  | any {ts : List Test} {t : Test} {e : String} (ht : t ∈ ts) (h : t.Evaluates e) : Evaluates (.any ts) e

/-- Asking the question evaluates the expression. -/
inductive InquirySource.Evaluates : InquirySource → String → Prop
  | queryParam {r : Request} {response : Value} {k : Key} {e : String} (h : (k, .text e) ∈ r.queryParams) :
    Evaluates (.remote r response) e
  | bodyField {r : Request} {response : Value} {es : Entries} {k : Key} {e : String} (hevaluate : r.evaluateBody = true)
    (hbody : r.body = .map es) (h : (k, .text e) ∈ es) : Evaluates (.remote r response) e
  | param {f : String} {ps : Entries} {k : Key} {e : String} (h : (k, .text e) ∈ ps) : Evaluates (.async f ps) e

/-- Reading the response evaluates the expression. -/
inductive InquirySource.Answers : InquirySource → String → Prop
  | response {r : Request} {e : String} : Answers (.remote r (.text e)) e

/-- Deciding the condition, or asking its question, can evaluate the expression. -/
def Condition.Evaluates : Condition → String → Prop
  | .test t => t.Evaluates
  | .inquiry i => i.source.Evaluates

/-- The test compares a field by this path. -/
inductive Test.Names : Test → String → Prop
  | fieldValue {path : String} {op : Comparison} {v : Value} : Names (.fieldValue path op v) path
  | all {ts : List Test} {t : Test} {p : String} (ht : t ∈ ts) (h : t.Names p) : Names (.all ts) p
  | any {ts : List Test} {t : Test} {p : String} (ht : t ∈ ts) (h : t.Names p) : Names (.any ts) p

/-- A field that the condition compares, by its path; inquiries compare none. -/
def Condition.Names : Condition → String → Prop
  | .test t => t.Names
  | .inquiry _ => fun _ => False

/-! ## Evaluating in another way -/

/-- A way to evaluate expressions. -/
abbrev Evaluator := String → Expr.Scope → Outcome Value

section
variable (run : Evaluator)

mutual

/-- Deciding a test, with its expressions evaluated in some way. -/
def Test.holdsBy (fs : CustomFunctions) (c : Context) : Test → Reporting Bool
  | .literal b => return b
  | .fieldValue path op v => settled (c.compareField path op v)
  | .formValue op v => settled (op.holds c.form v)
  | .expression code =>
    match run code c.scope with
    | .ok v => v.asBoolean code
    | .error _ => do
      Journal.report .conditionFailed
      return false
  | .custom name => fs.ask name c
  | .all ts => Test.allHoldBy fs c ts
  | .any ts => Test.anyHoldsBy fs c ts

def Test.allHoldBy (fs : CustomFunctions) (c : Context) : List Test → Reporting Bool
  | [] => return true
  | t :: ts => do
    let b ← Test.holdsBy fs c t
    if b then Test.allHoldBy fs c ts else return false

def Test.anyHoldsBy (fs : CustomFunctions) (c : Context) : List Test → Reporting Bool
  | [] => return false
  | t :: ts => do
    let b ← Test.holdsBy fs c t
    if b then return true else Test.anyHoldsBy fs c ts

end

def Expr.evaluateTextBy (scope : Expr.Scope) : Value → Outcome Value
  | .text s => run s scope
  | v => .ok v

def Expr.evaluateEntriesBy (scope : Expr.Scope) (es : Entries) : Outcome Entries :=
  es.mapM fun e => do return (e.1, ← Expr.evaluateTextBy run scope e.2)

/-- Evaluates a value that has to be a text. -/
def Expr.evaluateValueBy (scope : Expr.Scope) : Value → Outcome Value
  | .text s => run s scope
  | v => Expr.evaluateValue v scope

namespace Request

def resolveBodyBy (r : Request) (scope : Expr.Scope) : Outcome Value :=
  match r.evaluateBody, r.body with
  | true, .map es => Value.map <$> Expr.evaluateEntriesBy run scope es
  | _, body => .ok body

def resolveBy (r : Request) (c : Context) : Outcome Value := do
  let params ← Expr.evaluateEntriesBy run c.scope r.queryParams
  let body ← r.resolveBodyBy run c.scope
  return .object (r.resolvedFields params body)

end Request

namespace Inquiry

/-- What is asked, with the expressions evaluated in some way. -/
def snapshotBy (i : Inquiry) (c : Context) : Outcome Value :=
  match i.source with
  | .remote r _ => r.resolveBy run c
  | .async f ps => do
    let params ← Expr.evaluateEntriesBy run c.scope ps
    return .object [("functionName", .text f), ("params", .map params)]

/-- What a response stands for, with the expression for it evaluated in some way. -/
def interpretBy (i : Inquiry) (c : Context) (response : Value) : Checking Bool :=
  match i.source with
  | .remote _ e =>
    if e.given then do
      let v ← ExceptT.mk (pure (Expr.evaluateValueBy run (c.scopeWith [("response", response)]) e))
      ExceptT.lift (v.asBoolean e.plainText)
    else return response.truthy
  | .async f _ => ExceptT.lift (response.asBoolean ("async:" ++ f))

end Inquiry
end

/-! ## Evaluating as conditions do -/

section
variable {fs : CustomFunctions} {c : Context} {scope : Expr.Scope}

mutual

theorem Test.holdsBy_evaluate (t : Test) : t.holdsBy Expr.evaluate fs c = t.holds fs c := by
  cases t with
  | all ts => exact Test.allHoldBy_evaluate ts
  | any ts => exact Test.anyHoldsBy_evaluate ts
  | literal b => rfl
  | fieldValue path op v => rfl
  | formValue op v => rfl
  | expression code => rfl
  | custom name => rfl

theorem Test.allHoldBy_evaluate (ts : List Test) : Test.allHoldBy Expr.evaluate fs c ts = Test.allHold fs c ts := by
  cases ts with
  | nil => rfl
  | cons t ts => rw [Test.allHoldBy, Test.allHold, Test.holdsBy_evaluate, Test.allHoldBy_evaluate]

theorem Test.anyHoldsBy_evaluate (ts : List Test) : Test.anyHoldsBy Expr.evaluate fs c ts = Test.anyHolds fs c ts := by
  cases ts with
  | nil => rfl
  | cons t ts => rw [Test.anyHoldsBy, Test.anyHolds, Test.holdsBy_evaluate, Test.anyHoldsBy_evaluate]

end

theorem Expr.evaluateEntriesBy_evaluate (es : Entries) :
    Expr.evaluateEntriesBy Expr.evaluate scope es = Expr.evaluateEntries scope es := by
  have (v : Value) : Expr.evaluateTextBy Expr.evaluate scope v = Expr.evaluateText scope v := by cases v <;> rfl
  simp only [evaluateEntriesBy, evaluateEntries, this]

theorem Request.resolveBodyBy_evaluate (r : Request) : r.resolveBodyBy Expr.evaluate scope = r.resolveBody scope := by
  obtain ⟨url, method, params, body, headers, evaluate⟩ := r
  cases evaluate with
  | false => rfl
  | true =>
    cases body with
    | map es => exact congrArg (Value.map <$> ·) (Expr.evaluateEntriesBy_evaluate es)
    | _ => rfl

theorem Inquiry.snapshotBy_evaluate (i : Inquiry) : i.snapshotBy Expr.evaluate c = i.snapshot c := by
  obtain ⟨source, pending, cacheMs, debounceMs⟩ := i
  cases source with
  | remote r response =>
    show r.resolveBy Expr.evaluate c = r.resolve c
    rw [Request.resolveBy, Expr.evaluateEntriesBy_evaluate, Request.resolveBodyBy_evaluate]
    rfl
  | async f ps =>
    show (do
      let params ← Expr.evaluateEntriesBy Expr.evaluate c.scope ps
      return _) = _
    rw [Expr.evaluateEntriesBy_evaluate]
    rfl

theorem Inquiry.interpretBy_evaluate (i : Inquiry) (response : Value) :
    i.interpretBy Expr.evaluate c response = i.interpret c response := by
  obtain ⟨source, pending, cacheMs, debounceMs⟩ := i
  cases source with
  | remote r e => cases e <;> rfl
  | async f ps => rfl

end

/-! ## Nothing else is evaluated -/

section
variable {run run' : Evaluator} {fs : CustomFunctions} {c : Context} {scope : Expr.Scope}

theorem Test.allHoldBy_congr {ts : List Test} (h : ∀ t ∈ ts, t.holdsBy run fs c = t.holdsBy run' fs c) :
    Test.allHoldBy run fs c ts = Test.allHoldBy run' fs c ts := by
  induction ts with
  | nil => rfl
  | cons t ts ih =>
    obtain ⟨ht, hts⟩ := List.forall_mem_cons.mp h
    rw [Test.allHoldBy, Test.allHoldBy, ht, ih hts]

theorem Test.anyHoldsBy_congr {ts : List Test} (h : ∀ t ∈ ts, t.holdsBy run fs c = t.holdsBy run' fs c) :
    Test.anyHoldsBy run fs c ts = Test.anyHoldsBy run' fs c ts := by
  induction ts with
  | nil => rfl
  | cons t ts ih =>
    obtain ⟨ht, hts⟩ := List.forall_mem_cons.mp h
    rw [Test.anyHoldsBy, Test.anyHoldsBy, ht, ih hts]

/-- A test is decided by the expressions that it is said to evaluate. -/
theorem Test.holdsBy_congr (t : Test) (h : ∀ e, t.Evaluates e → run e = run' e) :
    t.holdsBy run fs c = t.holdsBy run' fs c := by
  induction t using Test.induct with
  | literal b => rfl
  | fieldValue path op v => rfl
  | formValue op v => rfl
  | custom name => rfl
  | expression code => rw [Test.holdsBy, Test.holdsBy, h code .expression]
  | all ts ih => exact Test.allHoldBy_congr fun t ht => ih t ht fun e he => h e (.all ht he)
  | any ts ih => exact Test.anyHoldsBy_congr fun t ht => ih t ht fun e he => h e (.any ht he)

theorem Expr.evaluateEntriesBy_congr {es : Entries} (h : ∀ k e, (k, Value.text e) ∈ es → run e = run' e) :
    Expr.evaluateEntriesBy run scope es = Expr.evaluateEntriesBy run' scope es := by
  induction es with
  | nil => rfl
  | cons entry es ih =>
    obtain ⟨k, v⟩ := entry
    have hv : evaluateTextBy run scope v = evaluateTextBy run' scope v := by
      cases v with
      | text e => exact congrFun (h k e List.mem_cons_self) scope
      | _ => rfl
    have hes := ih fun k e he => h k e (List.mem_cons_of_mem _ he)
    rw [evaluateEntriesBy] at hes
    rw [evaluateEntriesBy, evaluateEntriesBy, List.mapM_cons, List.mapM_cons, hv, hes]
    rfl

/-- An inquiry asks what the expressions give that it is said to evaluate. -/
theorem Inquiry.snapshotBy_congr (i : Inquiry) (h : ∀ e, i.source.Evaluates e → run e = run' e) :
    i.snapshotBy run c = i.snapshotBy run' c := by
  unfold snapshotBy
  split
  · next r response hsource =>
    rw [hsource] at h
    have hbody : r.resolveBodyBy run c.scope = r.resolveBodyBy run' c.scope := by
      unfold Request.resolveBodyBy
      split
      · next hevaluate hbody =>
        rw [Expr.evaluateEntriesBy_congr fun k e he => h e (.bodyField hevaluate hbody he)]
      · rfl
    rw [Request.resolveBy, Request.resolveBy, Expr.evaluateEntriesBy_congr fun k e he => h e (.queryParam he), hbody]
  · next f ps hsource =>
    rw [hsource] at h
    rw [Expr.evaluateEntriesBy_congr fun k e he => h e (.param he)]

/-- An inquiry answers what the expression gives that reads the response. -/
theorem Inquiry.interpretBy_congr (i : Inquiry) (response : Value) (h : ∀ e, i.source.Answers e → run e = run' e) :
    i.interpretBy run c response = i.interpretBy run' c response := by
  unfold interpretBy
  split
  · next r v hsource =>
    rw [hsource] at h
    have hv (scope : Expr.Scope) : Expr.evaluateValueBy run scope v = Expr.evaluateValueBy run' scope v := by
      cases v with
      | text e => exact congrFun (h e .response) scope
      | _ => rfl
    rw [hv]
  · rfl

end

/-- What comes of deciding the condition, or of asking its question, hinges on how the expression is evaluated. -/
def Condition.HingesOn (c : Condition) (e : String) : Prop :=
  ∃ run run' : Evaluator, (∀ s, s ≠ e → run s = run' s) ∧ ∃ fs context, match c with
    | .test t => t.holdsBy run fs context ≠ t.holdsBy run' fs context
    | .inquiry i => i.snapshotBy run context ≠ i.snapshotBy run' context

/-- The enumeration is complete. -/
theorem Condition.evaluates_of_hingesOn {c : Condition} {e : String} (h : c.HingesOn e) : c.Evaluates e := by
  obtain ⟨run, run', hsame, fs, context, hne⟩ := h
  by_contra hnot
  have heq (s : String) (hs : c.Evaluates s) : run s = run' s := hsame s fun h => hnot (h ▸ hs)
  cases c with
  | test t => exact hne (t.holdsBy_congr heq)
  | inquiry i => exact hne (i.snapshotBy_congr heq)

/-! ## Reading another field -/

section
variable {target : String} {scopeOf : ScopeLookup} {e : String} {f : Fault}

/-- Some path among these cannot be read, and this is the fault. -/
def Unreadable (P : String → Prop) (f : Fault) : Prop := ∃ p, P p ∧ Path.keys p = .error f

theorem Unreadable.mono {P Q : String → Prop} (h : Unreadable P f) (hPQ : ∀ p, P p → Q p) : Unreadable Q f :=
  let ⟨p, hp, hf⟩ := h
  ⟨p, hPQ p hp, hf⟩

theorem Path.sameField_error {path : String} (h : Path.sameField path target = .error f) :
    Unreadable (fun p => p = target ∨ p = path) f := by
  rw [sameField] at h
  cases hpath : Path.keys path with
  | error g =>
    rw [hpath] at h
    cases h
    exact ⟨path, .inr rfl, hpath⟩
  | ok fields =>
    rw [hpath] at h
    cases htarget : Path.keys target with
    | error g =>
      rw [htarget] at h
      cases h
      exact ⟨target, .inl rfl, htarget⟩
    | ok keys =>
      rw [htarget] at h
      cases h

namespace Test
variable {t : Test} {ts : List Test}

theorem anyCrossField_eq (ts : List Test) :
    anyCrossField target scopeOf ts = Validator.anyOf (Test.isCrossField target scopeOf) ts := by
  induction ts with
  | nil => rfl
  | cons t ts ih => rw [anyCrossField, Validator.anyOf, ih]

/-- What cannot be told of a test is due to a path. -/
theorem isCrossField_error (t : Test) (h : t.isCrossField target scopeOf = .error f) :
    Unreadable (fun p => p = target ∨ t.Names p) f := by
  induction t using Test.induct with
  | literal b => cases h
  | formValue op v => cases h
  | expression code => cases h
  | custom name => cases h
  | fieldValue path op v =>
    rw [isCrossField] at h
    cases hsame : Path.sameField path target with
    | ok b =>
      rw [hsame] at h
      cases h
    | error g =>
      rw [hsame] at h
      cases h
      exact (Path.sameField_error hsame).mono fun p hp => hp.imp_right fun heq => by rw [heq]; exact .fieldValue
  | all ts ih =>
    rw [isCrossField, anyCrossField_eq] at h
    obtain ⟨t, ht, hf⟩ := Validator.anyOf_error h
    exact (ih t ht hf).mono fun p hp => hp.imp_right (.all ht)
  | any ts ih =>
    rw [isCrossField, anyCrossField_eq] at h
    obtain ⟨t, ht, hf⟩ := Validator.anyOf_error h
    exact (ih t ht hf).mono fun p hp => hp.imp_right (.any ht)

/-- No test that evaluates an expression over other fields is told to read its own field only. -/
theorem not_crossField_false (he : t.Evaluates e) (hcross : Expr.Reference.isCrossField e = true) :
    t.isCrossField target scopeOf ≠ .ok false := by
  induction he with
  | expression =>
    rw [isCrossField, hcross]
    nofun
  | all ht _ ih =>
    rw [isCrossField, anyCrossField_eq]
    exact fun h => ih hcross (Validator.of_anyOf_false h ht)
  | any ht _ ih =>
    rw [isCrossField, anyCrossField_eq]
    exact fun h => ih hcross (Validator.of_anyOf_false h ht)

end Test

theorem Value.mem_texts {es : Entries} : e ∈ Value.texts es ↔ ∃ k, (k, .text e) ∈ es := by
  rw [texts, List.mem_filterMap]
  constructor
  · rintro ⟨⟨k, v⟩, hmem, hv⟩
    cases v <;> simp at hv
    subst hv
    exact ⟨k, hmem⟩
  · rintro ⟨k, hmem⟩
    exact ⟨_, hmem, rfl⟩

/-- The listed expressions of an inquiry are those that make up its question. -/
theorem InquirySource.mem_expressions {source : InquirySource} : e ∈ source.expressions ↔ source.Evaluates e := by
  cases source with
  | async name ps =>
    rw [expressions, Value.mem_texts]
    exact ⟨fun ⟨k, hk⟩ => .param hk, fun | .param hk => ⟨_, hk⟩⟩
  | remote r response =>
    rw [expressions, Request.expressions, List.mem_append, Value.mem_texts]
    constructor
    · rintro (⟨k, hk⟩ | he)
      · exact .queryParam hk
      · split at he
        · next hevaluate hbody =>
          obtain ⟨k, hk⟩ := Value.mem_texts.mp he
          exact .bodyField hevaluate hbody hk
        · cases he
    · rintro (hk | ⟨hevaluate, hbody, hk⟩)
      · exact .inl ⟨_, hk⟩
      · rw [hevaluate, hbody]
        exact .inr (Value.mem_texts.mpr ⟨_, hk⟩)

namespace Condition
variable {c : Condition}

/-- An inquiry reads other fields exactly if one of the expressions does that make up its question; the one that reads
the response counts for nothing. -/
theorem isCrossField_inquiry_iff {i : Inquiry} : (Condition.inquiry i).isCrossField target scopeOf = .ok true ↔
    ∃ e, i.source.Evaluates e ∧ Expr.Reference.isCrossField e = true := by
  rw [isCrossField, Except.ok.injEq, List.any_eq_true]
  simp only [InquirySource.mem_expressions]

theorem isCrossField_error (h : c.isCrossField target scopeOf = .error f) :
    Unreadable (fun p => p = target ∨ c.Names p) f := by
  cases c with
  | test t => exact t.isCrossField_error h
  | inquiry i => cases h

theorem not_crossField_false (he : c.Evaluates e) (hcross : Expr.Reference.isCrossField e = true) :
    c.isCrossField target scopeOf ≠ .ok false := by
  cases c with
  | test t => exact t.not_crossField_false he hcross
  | inquiry i =>
    rw [isCrossField_inquiry_iff.mpr ⟨e, he, hcross⟩]
    nofun

end Condition

namespace Validator
variable {fs : Option Functions} {v : Validator} {c : Condition}

theorem namesOther_error {d : Value} (h : namesOther target d = .error f) :
    d.pathKeys = .error f ∨ Path.keys target = .error f := by
  rw [namesOther] at h
  cases hd : d.pathKeys with
  | error g =>
    rw [hd] at h
    cases h
    exact .inl rfl
  | ok fields =>
    rw [hd] at h
    cases htarget : Path.keys target with
    | error g =>
      rw [htarget] at h
      cases h
      exact .inr rfl
    | ok keys =>
      rw [htarget] at h
      cases h

/-- A path that the validator of a target declares or compares, or that of the target, cannot be read. -/
def Misnames (v : Validator) (target : String) (f : Fault) : Prop :=
  (∃ d ∈ v.dependsOn, d.pathKeys = .error f) ∨ Unreadable (fun p => p = target ∨ ∃ c ∈ v.guards, c.Names p) f

/-- A validator is hoisted for what one of its guards evaluates, unless a path cannot be read. -/
theorem isCrossField_of_guard (hc : c ∈ v.guards) (he : c.Evaluates e) (hcross : Expr.Reference.isCrossField e = true) :
    v.isCrossField fs target = .ok true ∨ ∃ f, v.isCrossField fs target = .error f ∧ v.Misnames target f := by
  unfold isCrossField
  cases hdeps : anyOf (namesOther target) v.dependsOn with
  | error f =>
    obtain ⟨d, hd, hf⟩ := anyOf_error hdeps
    refine .inr ⟨f, rfl, ?_⟩
    exact (namesOther_error hf).imp (⟨d, hd, ·⟩) (⟨target, .inl rfl, ·⟩)
  | ok b =>
    cases b with
    | true => exact .inl rfl
    | false =>
      extract_lets scopeOf
      show (anyOf (·.isCrossField target scopeOf) v.guards >>= _) = _ ∨
        ∃ f, (anyOf (·.isCrossField target scopeOf) v.guards >>= _) = _ ∧ _
      cases hguards : anyOf (·.isCrossField target scopeOf) v.guards with
      | error f =>
        obtain ⟨g, hg, hf⟩ := anyOf_error hguards
        exact .inr ⟨f, rfl, .inr ((Condition.isCrossField_error hf).mono fun p hp => hp.imp_right (⟨g, hg, ·⟩))⟩
      | ok b =>
        cases b with
        | true => exact .inl rfl
        | false => exact absurd (of_anyOf_false hguards hc) (Condition.not_crossField_false he hcross)

end Validator

/-- A condition that evaluates an expression over other fields, be it to decide or to ask, is told to read another field,
and every validator that it guards is hoisted. The one way out is a path that cannot be read, which then raises. -/
theorem Condition.hoisted_of_evaluates {c : Condition} {e : String} (he : c.Evaluates e)
    (hcross : Expr.Reference.isCrossField e = true) (target : String) :
    (∀ scopeOf, c.isCrossField target scopeOf = .ok true ∨ ∃ f, c.isCrossField target scopeOf = .error f ∧
      Unreadable (fun p => p = target ∨ c.Names p) f) ∧
    ∀ v : Validator, c ∈ v.guards →
      (∀ fs, v.isCrossField fs target = .ok true ∨ ∃ f, v.isCrossField fs target = .error f ∧ v.Misnames target f) ∧
      ∀ fs vs own tree, (target, v) ∈ vs → Validator.split fs vs = .ok (own, tree) →
        (target, v) ∈ tree ∧ (target, v) ∉ own := by
  refine ⟨fun scopeOf => ?_, fun v hc => ⟨fun fs => Validator.isCrossField_of_guard hc he hcross, ?_⟩⟩
  · cases h : c.isCrossField target scopeOf with
    | error f => exact .inr ⟨f, rfl, isCrossField_error h⟩
    | ok b =>
      cases b with
      | true => exact .inl rfl
      | false => exact absurd h (not_crossField_false he hcross)
  · intro fs vs own tree hmem hsplit
    obtain ⟨htold, rfl, rfl⟩ := Validator.split_eq_ok_iff.mp hsplit
    have hcrosses : Validator.crosses fs (target, v) = true := by
      obtain ⟨b, hb⟩ := htold _ hmem
      have hguard : v.isCrossField (some fs) target = .ok true ∨
          ∃ f, v.isCrossField (some fs) target = .error f ∧ v.Misnames target f :=
        Validator.isCrossField_of_guard hc he hcross
      obtain htrue | ⟨f, hf, -⟩ := hguard
      · exact Validator.crosses_eq htrue
      · rw [hf] at hb
        cases hb
    simp [hmem, hcrosses]

/-- An inquiry inside of which a body field reads the form, behind a parameter that reads nothing else. -/
def stockInquiry : Condition :=
  .inquiry {
    source := .remote {
      url := "/stock", method := .text "POST", queryParams := [(.name "sku", .text "fieldValue")]
      body := .object [("store", .text "formValue.store")], headers := [], evaluateBody := true } .null
    pending := false, cacheMs := none, debounceMs := none }

theorem Condition.hoisted_of_evaluates_body : stockInquiry.Evaluates "formValue.store" ∧
    Expr.Reference.isCrossField "formValue.store" = true ∧
    stockInquiry.isCrossField "amount" (fun _ => none) = .ok true := by
  have he : stockInquiry.Evaluates "formValue.store" := .bodyField rfl rfl (List.mem_singleton.mpr rfl)
  have hcross : Expr.Reference.isCrossField "formValue.store" = true := by decide
  refine ⟨he, hcross, ?_⟩
  obtain h | ⟨f, hf, -⟩ := (Condition.hoisted_of_evaluates he hcross "amount").1 fun _ => none
  · exact h
  · cases hf

end
end FormRules
