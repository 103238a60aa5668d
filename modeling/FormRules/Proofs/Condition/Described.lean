import FormRules.Proofs.Condition.Exchange
import FormRules.Proofs.Number.Canonical
import FormRules.Proofs.Results
import FormRules.Proofs.Store.Table
import FormRules.Value.Conversion

/-!
# Conditions read back

A description is a mapping under names, and parts of it may be left out. A field that it shows is the one it
was written with, and a field that it leaves out is found missing.

A condition is described by what makes it up, and reading the description gives the condition again: under
the names that the writer chooses, with what is unset left out. All that reading asks of a condition is that
a request names a URL, as every request does that was read.
-/

namespace FormRules

/-! ## Described mappings -/

theorem Table.get?_append {κ α : Type} [DecidableEq κ] {t u : List (κ × α)} {k : κ} :
    get? (t ++ u) k = (get? t k).or (get? u k) := by
  rw [get?, get?, get?, List.find?_append]
  cases t.find? fun e => decide (e.1 = k) <;> rfl

theorem ne_empty_of_toList {s : String} {c : Char} {cs : List Char} (h : s.toList = c :: cs) : s ≠ "" := by
  rintro rfl
  cases h

theorem Binary64.text_ne_empty (x : Binary64) : x.text ≠ "" := by
  cases x with
  | nan => decide
  | infinity s => cases s <;> decide
  | negativeZero => decide
  | finite u hr =>
    by_cases hu : u = 0
    · rw [text, if_pos hu]
      decide
    · obtain ⟨-, -, c, cs, hc, -⟩ := @Binary64.text_marked u hr hu
      exact ne_empty_of_toList hc

theorem Number.plainText_ne_empty (a : Number) : a.plainText ≠ "" := by
  cases a with
  | int n =>
    obtain ⟨c, cs, hc, -⟩ := head_intChars n
    exact ne_empty_of_toList ((intText_toList n).trans hc)
  | float x => exact x.text_ne_empty

namespace Value
variable {v : Value} {fields gs : List (String × Value)} {name s : String}

theorem eq_null (h : v.isNull = true) : v = .null := by
  cases v <;> first | rfl | cases h

/-- The entries of a described mapping. -/
def entriesOf (fields : List (String × Value)) : Entries := fields.map fun f => (.name f.1, f.2)

theorem object_eq (fields : List (String × Value)) : object fields = .map (entriesOf fields) := rfl

@[simp] theorem field?_nil : field? (entriesOf []) name = none := rfl

@[simp] theorem field?_cons : field? (entriesOf ((s, v) :: fields)) name =
    if s = name then some v else field? (entriesOf fields) name := by
  split_ifs with h
  · subst h
    exact Table.get?_cons_self
  · exact Table.get?_cons_of_ne fun hk => h (Key.name.inj hk)

@[simp] theorem field?_append : field? (entriesOf (fields ++ gs)) name =
    (field? (entriesOf fields) name).or (field? (entriesOf gs) name) := by
  rw [field?, entriesOf, List.map_append]
  exact Table.get?_append

/-- A part of a description that is left out under a condition. -/
@[simp] theorem field?_ite {p : Prop} [Decidable p] : field? (entriesOf (if p then fields else gs)) name =
    if p then field? (entriesOf fields) name else field? (entriesOf gs) name := by
  split_ifs <;> rfl

@[simp] theorem getD_unless_null : (if v.isNull then none else some v).getD .null = v := by cases v <;> rfl

@[simp] theorem getD_unless_undefined : (if v.isUndefined then none else some v).getD .undefined = v := by
  cases v <;> rfl

@[simp] theorem toMapping_unless_nil {es : Entries} :
    ((if es = [] then none else some (Value.map es)).getD .null).toMapping = .ok es := by
  cases es <;> rfl

@[simp] theorem toMembers_unless_nil {items : List Value} :
    ((if items = [] then none else some (Value.list items)).getD .null).toMembers = .ok items := by
  cases items <;> rfl

@[simp] theorem given_if_true {b : Bool} : ((if b then some (Value.bool true) else none).getD .null).given = b := by
  cases b <;> rfl

/-- The text of something given is not empty. -/
theorem plainText_ne_empty (h : v.given = true) : v.plainText ≠ "" := by
  cases v with
  | undefined => cases h
  | null => cases h
  | bool b => cases b <;> decide
  | num n => exact n.plainText_ne_empty
  | text s => simpa [given, plainText] using h
  | seq k items =>
    cases k with
    | list => simp [plainText, quoted]
    | tuple => rcases items with _ | ⟨v, _ | ⟨w, items⟩⟩ <;> simp [plainText, quoted]
  | map es => simp [plainText, quoted]

end Value

/-! ## Conditions -/

open Value

namespace Condition
variable {fields gs : List (String × Value)} {name : String} {alternative : Option String} {v : Value}

theorem require_of_field? (h : field? (entriesOf fields) name = some v) (hv : v ≠ .null) :
    require (entriesOf fields) name alternative = .ok v := by
  have hsome : v.nonNull? = some v := by cases v <;> first | rfl | contradiction
  rw [require, field, h, Option.getD_some, hsome]
  rfl

theorem requireOperator_of_field? {op : Comparison} (h : field? (entriesOf fields) "operator" = some (.text op.name)) :
    requireOperator (entriesOf fields) = .ok op := by
  rw [requireOperator, require_of_field? h (by simp)]
  simp [bind, Except.bind, pure, Except.pure, isHashable, op.ofName?_name]

theorem optionalInt_of_field? {ms : Option Int} (h : field? (entriesOf fields) name = ms.map .int) :
    optionalInt (entriesOf fields) name = .ok ms := by
  rw [optionalInt, field, h]
  cases ms <;> rfl

/-- The field of a duration, if it is set. -/
def durationField (name : String) (ms : Option Int) : List (String × Value) := (ms.map fun n => (name, .int n)).toList

@[simp] theorem field?_durationField {s : String} {ms : Option Int} :
    field? (entriesOf (durationField s ms)) name = if s = name then ms.map .int else none := by
  cases ms <;> simp [durationField]

end Condition

namespace Request
variable {r : Request}

/-- The description of a request that names a URL is read as the request. -/
theorem parse_description (h : r.url ≠ "") : parse r.description = .ok r := by
  rw [description, object_eq]
  generalize hes : entriesOf _ = es
  have hurl : field es "url" = .text r.url := by simp [← hes, field]
  have hgiven : (Value.text r.url).given = true := by simpa [given] using h
  have hmethod : field es "method" = r.method := by simp [← hes, field]
  have hparams : (field es "queryParams").toMapping = .ok r.queryParams := by simp [← hes, field]
  have hbody : fieldOrUndefined es "body" = r.body := by simp [← hes, fieldOrUndefined]
  have hheaders : (field es "headers").toMapping = .ok r.headers := by simp [← hes, field]
  have hevaluate : (field es "evaluateBodyExpressions").given = r.evaluateBody := by simp [← hes, field]
  simp only [parse, hurl, hgiven, hmethod, hparams, hbody, hheaders, hevaluate]
  rfl

end Request

/-- Whether the request of an inquiry names a URL. -/
def Inquiry.isAddressed (i : Inquiry) : Prop := match i.source with
  | .remote r _ => r.url ≠ ""
  | .async _ _ => True

namespace Inquiry
open Condition
variable {r : Request} {e : Value} {name : String} {params : Entries} {pending : Bool} {cacheMs debounceMs : Option Int}

theorem description_remote : Inquiry.description ⟨.remote r e, pending, cacheMs, debounceMs⟩ =
    .map (entriesOf ([("type", .text "remote"), ("request", r.description), ("pendingValue", .bool pending)] ++
      (if e.isNull then [] else [("responseExpression", e)]) ++ durationField "cacheDurationMs" cacheMs ++
      durationField "debounceMs" debounceMs)) := by
  cases cacheMs <;> cases debounceMs <;> rfl

theorem description_async : Inquiry.description ⟨.async name params, pending, cacheMs, debounceMs⟩ =
    .map (entriesOf ([("type", .text "async"), ("functionName", .text name), ("pendingValue", .bool pending)] ++
      (if params.isEmpty then [] else [("params", .map params)]) ++ durationField "cacheDurationMs" cacheMs ++
      durationField "debounceMs" debounceMs)) := by
  cases cacheMs <;> cases debounceMs <;> rfl

/-- The duration of the request is asked for where the inquiry shows none, and a request that was written shows
none either. -/
theorem optionalIntIn_description {fields : List (String × Value)}
    (h : field? (entriesOf fields) "debounceMs" = debounceMs.map .int) (r : Request) {fs : Entries}
    (hfs : r.description = .map fs) : optionalIntIn (entriesOf fields) fs "debounceMs" = .ok debounceMs := by
  have hnone : field? fs "debounceMs" = none := by
    rw [Request.description, object_eq, Value.map.injEq] at hfs
    simp [← hfs]
  rw [optionalIntIn, optionalInt_of_field? h]
  cases debounceMs with
  | some n => rfl
  | none =>
    show optionalInt fs "debounceMs" = .ok none
    rw [optionalInt, field, hnone]
    rfl

theorem parse_description {i : Inquiry} (h : i.isAddressed) : Condition.parse i.description = .ok (.inquiry i) := by
  obtain ⟨source, pending, cacheMs, debounceMs⟩ := i
  cases source with
  | remote r e =>
    rw [description_remote]
    generalize hes : entriesOf _ = es
    have htype : field es "type" = .text "remote" := by simp [← hes, field]
    have hrequest : require es "request" (some "http") = .ok r.description :=
      hes ▸ require_of_field? (by simp) (fun h => by cases h)
    have hparse : Request.parse r.description = .ok r := Request.parse_description h
    have hresponse : field es "responseExpression" = e := by simp [← hes, field]
    have hpending : (field es "pendingValue").given = pending := by simp [← hes, field, given]
    have hcache : optionalInt es "cacheDurationMs" = .ok cacheMs := hes ▸ optionalInt_of_field? (by simp)
    have hdebounce : optionalIntIn es (entriesOf _) "debounceMs" = .ok debounceMs :=
      hes ▸ optionalIntIn_description (by simp) r rfl
    rw [parse, htype]
    show parseRemote es = _
    rw [parseRemote, hrequest]
    show (Request.parse r.description >>= fun request => optionalInt es "cacheDurationMs" >>= fun cacheMs =>
      optionalIntIn es (entriesOf _) "debounceMs" >>= fun debounceMs => pure (Condition.inquiry
        ⟨.remote request (field es "responseExpression"), (field es "pendingValue").given, cacheMs, debounceMs⟩)) = _
    rw [hparse, hresponse, hpending, hcache, hdebounce]
    rfl
  | async name params =>
    rw [description_async]
    generalize hes : entriesOf _ = es
    have htype : field es "type" = .text "async" := by simp [← hes, field]
    have hname : require es "functionName" (some "asyncFunctionName") = .ok (.text name) :=
      hes ▸ require_of_field? (by simp) (fun h => by cases h)
    have hparams : (field es "params").toMapping = .ok params := by simp [← hes, field]
    have hpending : (field es "pendingValue").given = pending := by simp [← hes, field, given]
    have hcache : optionalInt es "cacheDurationMs" = .ok cacheMs := hes ▸ optionalInt_of_field? (by simp)
    have hdebounce : optionalInt es "debounceMs" = .ok debounceMs := hes ▸ optionalInt_of_field? (by simp)
    rw [parse, htype]
    show parseAsync es = _
    rw [parseAsync, hname, hparams, hpending, hcache, hdebounce]
    rfl

end Inquiry

namespace Test

theorem parseList_descriptions {ts : List Test} (h : ∀ t ∈ ts, Condition.parse t.description = .ok (.test t)) :
    Condition.parseList (Test.descriptions ts) = .ok (ts.map .test) := by
  induction ts with
  | nil => rfl
  | cons t ts ih =>
    obtain ⟨ht, hts⟩ := List.forall_mem_cons.mp h
    rw [descriptions, Condition.parseList, ht, ih hts]
    rfl

theorem mapM_toTest (composite : String) (ts : List Test) :
    (ts.map Condition.test).mapM (Condition.toTest composite) = .ok ts :=
  mapM_map_ok fun _ _ => rfl

theorem parse_description (t : Test) : Condition.parse t.description = .ok (.test t) := by
  induction t using Test.induct with
  | literal b => rfl
  | fieldValue path op v =>
    show (Condition.requireOperator (entriesOf _) >>= fun op => Except.ok (Condition.test (.fieldValue path op v))) = _
    rw [Condition.requireOperator_of_field? rfl]
    rfl
  | formValue op v =>
    show (Condition.requireOperator (entriesOf _) >>= fun op => Except.ok (Condition.test (.formValue op v))) = _
    rw [Condition.requireOperator_of_field? rfl]
    rfl
  | expression code => rfl
  | custom name => rfl
  | all ts ih =>
    show (Condition.parseList (Test.descriptions ts) >>= fun cs =>
      cs.mapM (Condition.toTest "and") >>= fun ts => Except.ok (Condition.test (.all ts))) = _
    rw [parseList_descriptions ih]
    exact congrArg (· >>= fun ts => Except.ok (Condition.test (.all ts))) (mapM_toTest "and" ts)
  | any ts ih =>
    show (Condition.parseList (Test.descriptions ts) >>= fun cs =>
      cs.mapM (Condition.toTest "or") >>= fun ts => Except.ok (Condition.test (.any ts))) = _
    rw [parseList_descriptions ih]
    exact congrArg (· >>= fun ts => Except.ok (Condition.test (.any ts))) (mapM_toTest "or" ts)

end Test

namespace Condition
variable {d : Value} {c : Condition}

/-- Whether the condition can be written: the request of an inquiry names a URL. -/
def IsAddressed : Condition → Prop
  | .test _ => True
  | .inquiry i => i.isAddressed

theorem parse_description (h : c.IsAddressed) : parse c.description = .ok c := by
  cases c with
  | test t => exact t.parse_description
  | inquiry i => exact Inquiry.parse_description h

theorem url_of_parse {v : Value} {r : Request} (h : Request.parse v = .ok r) : r.url ≠ "" := by
  cases v with
  | map es =>
    rw [Request.parse] at h
    cases hg : (field es "url").given with
    | false =>
      rw [hg] at h
      cases h
    | true =>
      simp only [hg, Bool.not_true, Bool.false_eq_true, if_false] at h
      obtain ⟨_, -, h⟩ := of_bind_ok h
      obtain ⟨_, -, h⟩ := of_bind_ok h
      cases h
      exact plainText_ne_empty hg
  | _ => cases h

theorem isAddressed_of_parseRemote {es : Entries} (h : parseRemote es = .ok c) : c.IsAddressed := by
  obtain ⟨raw, -, h⟩ := of_bind_ok h
  obtain ⟨r, hr, h⟩ := of_bind_ok h
  obtain ⟨cacheMs, -, h⟩ := of_bind_ok h
  obtain ⟨debounceMs, -, h⟩ := of_bind_ok h
  cases h
  exact url_of_parse hr

theorem isAddressed_of_parse (h : parse d = .ok c) : c.IsAddressed := by
  cases d with
  | bool b =>
    cases h
    trivial
  | map es =>
    rw [parse] at h
    obtain ⟨kind, -, h⟩ := of_bind_ok h
    cases kind with
    | remote => exact isAddressed_of_parseRemote h
    | async =>
      obtain ⟨_, -, h⟩ := of_bind_ok h
      obtain ⟨_, -, h⟩ := of_bind_ok h
      obtain ⟨_, -, h⟩ := of_bind_ok h
      obtain ⟨_, -, h⟩ := of_bind_ok h
      cases h
      trivial
    | formValue | expression | custom =>
      obtain ⟨_, -, h⟩ := of_bind_ok h
      cases h
      trivial
    | fieldValue | all | any =>
      obtain ⟨_, -, h⟩ := of_bind_ok h
      obtain ⟨_, -, h⟩ := of_bind_ok h
      cases h
      trivial
  | _ => cases h

/-- The conditions that something describes are those that can be written. -/
theorem described_iff : (∃ d, parse d = .ok c) ↔ c.IsAddressed :=
  ⟨fun ⟨_, h⟩ => isAddressed_of_parse h, fun h => ⟨_, parse_description h⟩⟩

/-- A condition that was read is written as a description of itself, with the key of the one it was read from. -/
theorem parse_description_of_parse (h : parse d = .ok c) :
    parse c.description = .ok c ∧ Condition.key <$> parse c.description = Condition.key <$> parse d := by
  have hback : parse c.description = .ok c := parse_description (isAddressed_of_parse h)
  exact ⟨hback, by rw [hback, h]⟩

/-- Other names, a duration that the request shows as a text, and a body that is `null`. -/
theorem parse_description_of_parse_http :
    let d : Value := .object [("type", .text "http"), ("http", .object [("url", .text "/a"), ("body", .null),
      ("debounceMs", .text "250")]), ("pendingValue", .text "yes"), ("cacheDurationMs", .null)]
    let c : Condition := .inquiry ⟨.remote ⟨"/a", .null, [], .null, [], false⟩ .null, true, none, some 250⟩
    parse d = .ok c ∧ parse c.description = .ok c ∧
      Condition.key <$> parse c.description = Condition.key <$> parse d := by
  intro d c
  have h : parse d = .ok c := rfl
  exact ⟨h, parse_description_of_parse h⟩

end Condition
end FormRules
