import FormRules.Proofs.Request.Query
import FormRules.Proofs.Results
import FormRules.Proofs.Value.Canonical
import FormRules.Request.Resolve

/-!
# Keys of resolved requests

A request is resolved to the URL with its parameters behind it, to its method and headers as they are, and to
its body. Of the canonical text of all this, only the parameters that are not nullish and an evaluated body
depend on the context, and both can be told from it.
-/

namespace FormRules

namespace Value

theorem canonicalFields_object (fields : List (String × Value)) :
    canonicalFields (fields.map fun f => (.name f.1, f.2)) = fields.map fun f => (f.1, f.2.canonical) := by
  induction fields with
  | nil => rfl
  | cons f fields ih => rw [List.map_cons, canonicalFields, ih]; rfl

theorem canonical_object (fields : List (String × Value)) :
    (object fields).canonical = canonicalEntries (fields.map fun f => (f.1, f.2.canonical)) :=
  congrArg canonicalEntries (canonicalFields_object fields)

/-- Objects of one canonical text have fields of one canonical text under each name. -/
theorem canonical_of_object {fs gs : List (String × Value)} {name : String} {v w : Value}
    (h : (object fs).canonical = (object gs).canonical) (hn : (gs.map (·.1)).Nodup) (hv : (name, v) ∈ fs)
    (hw : (name, w) ∈ gs) : v.canonical = w.canonical := by
  have hp := canonicalFields_perm h
  rw [canonicalFields_object, canonicalFields_object] at hp
  obtain ⟨g, hg, heq⟩ := List.mem_map.mp (hp.mem_iff.mp (List.mem_map.mpr ⟨_, hv, rfl⟩))
  obtain ⟨hname, hcanonical⟩ := Prod.mk.inj heq
  obtain rfl : g = (name, w) := List.inj_on_of_nodup_map hn hg hw hname
  exact hcanonical.symm

end Value

namespace Request
variable {r : Request} {scope : Expr.Scope} {params params₁ params₂ : Entries} {body body₁ body₂ v v₁ v₂ : Value}
  {c₁ c₂ : Context}

theorem mem_resolvedFields {f : String × Value} (h : f ∈ r.resolvedFields params body) :
    f.1 ∈ ["url", "method", "body", "headers"] := by
  unfold resolvedFields at h
  rw [List.mem_append, List.mem_append] at h
  obtain (h | h) | h := h
  · simp only [List.mem_cons, List.not_mem_nil, or_false] at h
    obtain rfl | rfl := h <;> simp
  · split at h
    · cases h
    · obtain rfl := List.mem_singleton.mp h
      simp
  · split at h
    · cases h
    · obtain rfl := List.mem_singleton.mp h
      simp

theorem nodup_resolvedFields (r : Request) (params : Entries) (body : Value) :
    ((r.resolvedFields params body).map (·.1)).Nodup := by
  unfold resolvedFields
  cases r.body.isUndefined <;> cases r.headers.isEmpty <;> simp

theorem resolveIn_cases (h : r.resolveIn scope = .ok v) : ∃ params body,
    Expr.evaluateEntries scope r.queryParams = .ok params ∧ r.resolveBody scope = .ok body ∧
      v = .object (r.resolvedFields params body) := by
  unfold resolveIn at h
  obtain ⟨params, hparams, h⟩ := of_bind_ok h
  obtain ⟨body, hbody, h⟩ := of_bind_ok h
  cases h
  exact ⟨params, body, hparams, hbody, rfl⟩

/-- A body is as it is described, unless it is a mapping and to be evaluated. -/
theorem resolveBody_eq (hbody : r.evaluateBody = false ∨ r.body.isMap = false) (h : r.resolveBody scope = .ok body) :
    body = r.body := by
  unfold resolveBody at h
  split at h
  · next he hmap =>
    rw [he, hmap] at hbody
    exact hbody.elim nofun nofun
  · exact (Except.ok.inj h).symm

theorem not_isMap_of_isUndefined (h : v.isUndefined = true) : v.isMap = false := by
  cases v with
  | undefined => rfl
  | _ => cases h

theorem url_mem_resolvedFields (r : Request) (params : Entries) (body : Value) :
    ("url", .text (Query.append r.url (paramTexts params))) ∈ r.resolvedFields params body :=
  List.mem_append_left _ (List.mem_append_left _ List.mem_cons_self)

theorem body_mem_resolvedFields (hb : r.body.isUndefined = false) (params : Entries) (body : Value) :
    ("body", body) ∈ r.resolvedFields params body := by
  refine List.mem_append_left _ (List.mem_append_right _ ?_)
  rw [hb]
  exact List.mem_singleton_self _

theorem resolvedFields_canonical_congr (hparams : paramTexts params₁ = paramTexts params₂)
    (hbody : body₁.canonical = body₂.canonical) :
    (Value.object (r.resolvedFields params₁ body₁)).canonical =
      (Value.object (r.resolvedFields params₂ body₂)).canonical := by
  rw [Value.canonical_object, Value.canonical_object, resolvedFields, resolvedFields, hparams]
  cases r.body.isUndefined <;> simp [hbody]

theorem paramTexts_of_canonical (h : (Value.object (r.resolvedFields params₁ body₁)).canonical =
    (Value.object (r.resolvedFields params₂ body₂)).canonical) : paramTexts params₁ = paramTexts params₂ := by
  have hurl := Value.canonical_of_object h (r.nodup_resolvedFields _ _) (r.url_mem_resolvedFields _ _)
    (r.url_mem_resolvedFields _ _)
  exact Query.append_injective r.url (Text.asciiQuote_cancel (append_nil_congr hurl)).1

/-- Two contexts give a request one key just if the parameters that are left come to the same texts in the same order
and, where the body is evaluated, the bodies have one canonical text. -/
theorem resolve_canonical_eq_iff (h₁ : r.resolve c₁ = .ok v₁) (h₂ : r.resolve c₂ = .ok v₂) :
    ∃ params₁ params₂ body₁ body₂,
      Expr.evaluateEntries c₁.scope r.queryParams = .ok params₁ ∧ r.resolveBody c₁.scope = .ok body₁ ∧
      Expr.evaluateEntries c₂.scope r.queryParams = .ok params₂ ∧ r.resolveBody c₂.scope = .ok body₂ ∧
      (v₁.canonical = v₂.canonical ↔
        paramTexts params₁ = paramTexts params₂ ∧ (r.evaluateBody = true → body₁.canonical = body₂.canonical)) := by
  obtain ⟨params₁, body₁, hp₁, hb₁, rfl⟩ := resolveIn_cases h₁
  obtain ⟨params₂, body₂, hp₂, hb₂, rfl⟩ := resolveIn_cases h₂
  refine ⟨params₁, params₂, body₁, body₂, hp₁, hb₁, hp₂, hb₂, fun h => ⟨paramTexts_of_canonical h, fun _ => ?_⟩, ?_⟩
  · -- a body that is missing is not sent, so that the key says nothing of it
    cases hu : r.body.isUndefined with
    | true =>
      have hmap := not_isMap_of_isUndefined hu
      rw [resolveBody_eq (.inr hmap) hb₁, resolveBody_eq (.inr hmap) hb₂]
    | false =>
      exact Value.canonical_of_object h (r.nodup_resolvedFields _ _) (body_mem_resolvedFields hu _ _)
        (body_mem_resolvedFields hu _ _)
  · rintro ⟨hparams, hbody⟩
    refine resolvedFields_canonical_congr hparams ?_
    cases he : r.evaluateBody with
    | true => exact hbody he
    | false => rw [resolveBody_eq (.inl he) hb₁, resolveBody_eq (.inl he) hb₂]

/-- A question about an order, with a body that is evaluated. -/
def orderRequest : Request where
  url := "/orders?kind=new"
  method := .text "POST"
  queryParams := [(.name "item", .text "formValue.item"), (.name "note", .text "formValue.note")]
  body := .object [("size", .text "formValue.size"), ("unit", .null)]
  headers := []
  evaluateBody := true

/-- The context of a field of an order. -/
def orderContext (order : Value) : Context := .forKeys order [.name "item"] .undefined none

/-- A parameter that is missing or nullish and the zero of either kind make no difference. -/
theorem resolve_canonical_eq_iff_order : ∃ v₁ v₂,
    orderRequest.resolve (orderContext (.object [("item", .text "a&b"), ("size", .int 0)])) = .ok v₁ ∧
    orderRequest.resolve (orderContext (.object [("note", .null), ("size", .num (.float .zero)), ("item", .text "a&b")])) =
      .ok v₂ ∧ v₁.canonical = v₂.canonical := by
  let c₁ := orderContext (.object [("item", .text "a&b"), ("size", .int 0)])
  let c₂ := orderContext (.object [("note", .null), ("size", .num (.float .zero)), ("item", .text "a&b")])
  have hp₁ : Expr.evaluateEntries c₁.scope orderRequest.queryParams =
      .ok [(.name "item", .text "a&b"), (.name "note", .undefined)] := rfl
  have hp₂ : Expr.evaluateEntries c₂.scope orderRequest.queryParams =
      .ok [(.name "item", .text "a&b"), (.name "note", .null)] := rfl
  have hb₁ : orderRequest.resolveBody c₁.scope = .ok (.object [("size", .int 0), ("unit", .null)]) := rfl
  have hb₂ : orderRequest.resolveBody c₂.scope = .ok (.object [("size", .num (.float .zero)), ("unit", .null)]) := rfl
  obtain ⟨v₁, h₁⟩ : ∃ v₁, orderRequest.resolve c₁ = .ok v₁ := ⟨_, rfl⟩
  obtain ⟨v₂, h₂⟩ : ∃ v₂, orderRequest.resolve c₂ = .ok v₂ := ⟨_, rfl⟩
  obtain ⟨params₁, params₂, body₁, body₂, hp₁', hb₁', hp₂', hb₂', hiff⟩ := resolve_canonical_eq_iff h₁ h₂
  obtain rfl := Except.ok.inj (hp₁.symm.trans hp₁')
  obtain rfl := Except.ok.inj (hp₂.symm.trans hp₂')
  obtain rfl := Except.ok.inj (hb₁.symm.trans hb₁')
  obtain rfl := Except.ok.inj (hb₂.symm.trans hb₂')
  exact ⟨v₁, v₂, h₁, h₂, hiff.mpr ⟨by decide, fun _ => by decide +kernel⟩⟩

end Request
end FormRules
