import FormRules.Inquiry.Answer
import FormRules.Proofs.Inquiry.Slot
import FormRules.Proofs.Request.Resolved

/-!
# Keys of questions

The key of a question is the canonical text of a mapping, whose first field tells a request from a call
of a function: no field of the one has a name that starts like a field of the other.
-/

namespace FormRules

theorem intercalate_begin (s t : String) (l : List String) : ∃ rest, s.intercalate (t :: l) = t ++ rest := by
  cases l with
  | nil => exact ⟨"", by simp⟩
  | cons a l => exact ⟨s ++ s.intercalate (a :: l), by simp [String.intercalate_cons_cons, String.append_assoc]⟩

/-- A canonical mapping begins with one of its fields. -/
theorem canonicalEntries_begin (es : List (String × String)) (h : es ≠ []) : ∃ e ∈ es, ∃ rest,
    (canonicalEntries es).toList = '\x7b' :: ((Text.asciiQuote e.1).toList ++ rest) := by
  unfold canonicalEntries
  have hp : (Order.sort (fun a b : String × String => !(b.1 < a.1)) es).Perm es := Order.sort_perm es
  cases hs : Order.sort (fun a b : String × String => !(b.1 < a.1)) es with
  | nil =>
    rw [hs] at hp
    exact absurd hp.nil_eq.symm h
  | cons e l =>
    rw [hs] at hp
    refine ⟨e, hp.mem_iff.mp List.mem_cons_self, ?_⟩
    obtain ⟨rest, hr⟩ := intercalate_begin "," (Text.asciiQuote e.1 ++ ":" ++ e.2)
      (l.map fun e => Text.asciiQuote e.1 ++ ":" ++ e.2)
    refine ⟨(":" ++ e.2 ++ rest ++ "\x7d").toList, ?_⟩
    dsimp only
    rw [List.map_cons, hr]
    simp

namespace Inquiry
variable {i j : Inquiry} {c c' : Context} {d d' : Dispatch}

/-- The letter after the brace and the quote that a key begins with. -/
def keyLetter (key : String) : Option Char := key.toList[2]?

theorem getElem?_asciiQuote_append (s : String) (rest : List Char) :
    ((Text.asciiQuote s).toList ++ rest)[1]? = (Text.asciiQuote s).toList[1]? := by
  refine List.getElem?_append_left ?_
  simp [Text.asciiQuote]

/-- The first letter is that of one of the fields. -/
theorem keyLetter_object (fields : List (String × Value)) (h : fields ≠ []) :
    ∃ f ∈ fields, keyLetter (Value.object fields).canonical = (Text.asciiQuote f.1).toList[1]? := by
  obtain ⟨e, he, rest, hr⟩ :=
    canonicalEntries_begin (fields.map fun f => (f.1, f.2.canonical)) (by simpa using h)
  obtain ⟨f, hf, rfl⟩ := List.mem_map.mp he
  refine ⟨f, hf, ?_⟩
  unfold keyLetter
  rw [Value.canonical_object, hr, List.getElem?_cons_succ, getElem?_asciiQuote_append]

theorem question_cases (h : i.question c = .ok d) :
    i.snapshot c = .ok d.snapshot ∧ d.key = d.snapshot.canonical ∧ d.context = c := by
  unfold question at h
  cases hs : i.snapshot c with
  | error e => rw [hs] at h; cases h
  | ok v =>
    rw [hs] at h
    cases h
    exact ⟨rfl, rfl, rfl⟩

theorem keyLetter_remote (hi : i.isRemote) (h : i.question c = .ok d) :
    keyLetter d.key ∈ [some 'u', some 'm', some 'b', some 'h'] := by
  obtain ⟨r, e, hr⟩ := hi
  obtain ⟨hs, hk, -⟩ := question_cases h
  unfold snapshot at hs
  rw [hr] at hs
  obtain ⟨params, body, -, -, hv⟩ := Request.resolveIn_cases hs
  obtain ⟨f, hm, hl⟩ := keyLetter_object (r.resolvedFields params body) (by simp [Request.resolvedFields])
  rw [hk, hv, hl]
  have letters : ∀ name ∈ ["url", "method", "body", "headers"],
      (Text.asciiQuote name).toList[1]? ∈ [some 'u', some 'm', some 'b', some 'h'] := by decide
  exact letters f.1 (Request.mem_resolvedFields hm)

theorem keyLetter_async (hi : ¬ i.isRemote) (h : i.question c = .ok d) :
    keyLetter d.key ∈ [some 'f', some 'p'] := by
  obtain ⟨hs, hk, -⟩ := question_cases h
  cases hr : i.source with
  | remote r e => exact absurd ⟨r, e, hr⟩ hi
  | async name ps =>
    unfold snapshot at hs
    rw [hr] at hs
    cases hp : Expr.evaluateEntries c.scope ps with
    | error e =>
      dsimp only at hs
      rw [hp] at hs
      cases hs
    | ok params =>
      dsimp only at hs
      rw [hp] at hs
      have hv : Value.object [("functionName", .text name), ("params", .map params)] = d.snapshot :=
        Except.ok.inj hs
      obtain ⟨f, hm, hl⟩ := keyLetter_object [("functionName", .text name), ("params", .map params)] (by simp)
      have letters : ∀ name ∈ ["functionName", "params"],
          (Text.asciiQuote name).toList[1]? ∈ [some 'f', some 'p'] := by decide
      rw [hk, ← hv, hl]
      refine letters f.1 ?_
      simp only [List.mem_cons, List.not_mem_nil, or_false] at hm
      obtain rfl | rfl := hm <;> simp

/-- Requests and calls of functions have different keys. -/
theorem isRemote_of_key (hi : i.isRemote) (h : i.question c = .ok d) (h' : j.question c' = .ok d')
    (hk : d.key = d'.key) : j.isRemote := by
  by_contra hj
  have hr := keyLetter_remote hi h
  have ha := keyLetter_async hj h'
  rw [hk] at hr
  simp only [List.mem_cons, List.not_mem_nil, or_false] at hr ha
  rcases hr with hr | hr | hr | hr <;> rw [hr] at ha <;> simp at ha

end Inquiry
end FormRules
