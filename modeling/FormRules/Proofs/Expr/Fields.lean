import FormRules.Proofs.Expr.Mention

/-!
# The fields that an expression reads

An expression that mentions a name only to read certain fields of it cannot tell two values apart that hold the
same in these fields and have no methods.
-/

namespace FormRules

namespace Node

def isNamed (w : String) : Node → Bool
  | .identifier name => name = w
  | _ => false

/-- The text that a literal stands for. -/
def text? : Node → Option String
  | .literal (.text s) => some s
  | _ => none

end Node

mutual

/-- Whether all names that an expression mentions are in `K`, or are `w` in front of a field in `P`. -/
def Node.keepsTo (w : String) (P K : String → Bool) : Node → Bool
  | .literal _ => true
  | .identifier name => K name
  | .array es => Node.allKeepTo w P K es
  | .member o p _ => o.isNamed w && P p || o.keepsTo w P K
  | .index o i _ => o.isNamed w && i.text?.any P || o.keepsTo w P K && i.keepsTo w P K
  | .call c as _ => c.keepsTo w P K && Node.allKeepTo w P K as
  | .chain e | .unary _ e => e.keepsTo w P K
  | .binary _ l r | .logical _ l r => l.keepsTo w P K && r.keepsTo w P K
  | .conditional t c a => t.keepsTo w P K && c.keepsTo w P K && a.keepsTo w P K
  | .invoked b => b.keepsTo w P K

def Node.allKeepTo (w : String) (P K : String → Bool) : List Node → Bool
  | [] => true
  | e :: es => e.keepsTo w P K && Node.allKeepTo w P K es

/-- Whether it is so in a body; what has been declared may be mentioned as well. -/
def Body.keepsTo (w : String) (P K : String → Bool) : Body → Bool
  | .result v => v.keepsTo w P K
  | .declare _ name v rest => v.keepsTo w P K && rest.keepsTo w P (fun n => n = name || K n)

end

/-- Whether the names of `M` that are in `K` are in `L`. -/
def Widens (M K L : String → Bool) : Prop := ∀ n, M n = true → K n = true → L n = true

namespace Widens
variable {M N K L : String → Bool}

theorem left (h : Widens (fun n => M n || N n) K L) : Widens M K L := fun n hn => h n (Bool.or_eq_true_iff.mpr (.inl hn))

theorem right (h : Widens (fun n => M n || N n) K L) : Widens N K L := fun n hn => h n (Bool.or_eq_true_iff.mpr (.inr hn))

theorem declare {name : String} (h : Widens (fun n => name ≠ n && M n) K L) :
    Widens M (fun n => n = name || K n) (fun n => n = name || L n) := by
  intro n hn hk
  by_cases heq : n = name
  · simp [heq]
  · have hl := h n (by simp [Ne.symm heq, hn]) (by simpa [heq] using hk)
    simp [hl]

end Widens

section
variable {w : String} {P Q : String → Bool}

theorem Node.any_text?_mono {i : Node} (hP : ∀ p, P p = true → Q p = true) (h : i.text?.any P = true) : i.text?.any Q = true := by
  obtain ⟨p, hp, hfield⟩ := (Option.any_eq_true _ _).mp h
  exact (Option.any_eq_true _ _).mpr ⟨p, hp, hP p hfield⟩

mutual

/-- More fields may be read, and more of the names that are mentioned may be. -/
theorem Node.keepsTo_mono (hP : ∀ p, P p = true → Q p = true) (node : Node) {K L : String → Bool}
    (hK : Widens (node.mentions ·) K L) (h : node.keepsTo w P K = true) : node.keepsTo w Q L = true := by
  cases node with
  | literal l => rfl
  | identifier name => exact hK name (by simp [Node.mentions]) h
  | array es => exact Node.allKeepTo_mono hP es hK h
  | member o p optional =>
    simp only [Node.keepsTo, Bool.or_eq_true, Bool.and_eq_true] at h ⊢
    exact h.imp (And.imp_right (hP p)) (Node.keepsTo_mono hP o hK)
  | index o i optional =>
    simp only [Node.keepsTo, Bool.or_eq_true, Bool.and_eq_true] at h ⊢
    exact h.imp (And.imp_right (Node.any_text?_mono hP))
      (And.imp (Node.keepsTo_mono hP o hK.left) (Node.keepsTo_mono hP i hK.right))
  | call c args optional =>
    simp only [Node.keepsTo, Bool.and_eq_true] at h ⊢
    exact h.imp (Node.keepsTo_mono hP c hK.left) (Node.allKeepTo_mono hP args hK.right)
  | chain e => exact Node.keepsTo_mono hP e hK h
  | unary op e => exact Node.keepsTo_mono hP e hK h
  | binary op l r =>
    simp only [Node.keepsTo, Bool.and_eq_true] at h ⊢
    exact h.imp (Node.keepsTo_mono hP l hK.left) (Node.keepsTo_mono hP r hK.right)
  | logical op l r =>
    simp only [Node.keepsTo, Bool.and_eq_true] at h ⊢
    exact h.imp (Node.keepsTo_mono hP l hK.left) (Node.keepsTo_mono hP r hK.right)
  | conditional t c a =>
    simp only [Node.keepsTo, Bool.and_eq_true] at h ⊢
    exact h.imp (And.imp (Node.keepsTo_mono hP t hK.left.left) (Node.keepsTo_mono hP c hK.left.right))
      (Node.keepsTo_mono hP a hK.right)
  | invoked b => exact Body.keepsTo_mono hP b hK h

theorem Node.allKeepTo_mono (hP : ∀ p, P p = true → Q p = true) (es : List Node) {K L : String → Bool}
    (hK : Widens (Node.anyMentions · es) K L) (h : Node.allKeepTo w P K es = true) : Node.allKeepTo w Q L es = true := by
  cases es with
  | nil => rfl
  | cons e es =>
    simp only [Node.allKeepTo, Bool.and_eq_true] at h ⊢
    exact h.imp (Node.keepsTo_mono hP e hK.left) (Node.allKeepTo_mono hP es hK.right)

theorem Body.keepsTo_mono (hP : ∀ p, P p = true → Q p = true) (body : Body) {K L : String → Bool}
    (hK : Widens (body.mentions ·) K L) (h : body.keepsTo w P K = true) : body.keepsTo w Q L = true := by
  cases body with
  | result v => exact Node.keepsTo_mono hP v hK h
  | declare kind name v rest =>
    simp only [Body.keepsTo, Bool.and_eq_true] at h ⊢
    exact h.imp (Node.keepsTo_mono hP v hK.left) (Body.keepsTo_mono hP rest (Widens.declare hK.right))

end

end

namespace Expr

/-- Two values that hold the same in the fields of `P` and have no methods. -/
structure SameFields (P : String → Bool) (u v : Value) : Prop where
  notNullish : u.isNullish = false ∧ v.isNullish = false
  field : ∀ p, P p = true → readProperty u (.name p) = readProperty v (.name p)
  method : ∀ p, ∃ stop, admitMethod u p = .error stop ∧ admitMethod v p = .error stop

/-- Two look-ups that give the same for the names of `K`, under declarations, and the same fields of `w`. -/
structure SameReads (w : String) (P : String → Bool) (f g : String → Id (Option Value)) (locals : Scope)
    (K : String → Bool) : Prop where
  names : ∀ name, K name = true → readName f locals name = readName g locals name
  object : readName f locals w = readName g locals w ∨
    ∃ u v, readName f locals w = pure u ∧ readName g locals w = pure v ∧ SameFields P u v

variable {w : String} {P K : String → Bool} {f g : String → Id (Option Value)} {locals : Scope}

theorem SameReads.declare {name : String} (h : SameReads w P f g locals K) (value : Value) :
    SameReads w P f g ((name, value) :: locals) (fun n => n = name || K n) := by
  have hread (k : String → Id (Option Value)) (n : String) : readName k ((name, value) :: locals) n =
      if n = name then pure value else readName k locals n := by
    unfold readName
    rw [List.lookup_cons]
    by_cases hn : n = name
    · simp [hn]
    · rw [beq_eq_false_iff_ne.mpr hn, if_neg hn]
  refine ⟨fun n hn => ?_, ?_⟩
  · rw [hread, hread]
    split
    · rfl
    · next hne => exact h.names n (by simpa [hne] using hn)
  · rw [hread, hread]
    split
    · exact .inl rfl
    · exact h.object

/-- What an expression whose fields are read comes to. -/
theorem SameReads.receiver {o : Node} (h : SameReads w P f g locals K) (ho : o.isNamed w = true) :
    eval f locals o = eval g locals o ∨
      ∃ u v, eval f locals o = pure u ∧ eval g locals o = pure v ∧ SameFields P u v := by
  cases o with
  | identifier name =>
    obtain rfl : name = w := of_decide_eq_true ho
    rw [eval, eval]
    exact h.object
  | _ => cases ho

theorem of_text? {i : Node} {p : String} (h : i.text? = some p) : i = .literal (.text p) := by
  unfold Node.text? at h
  split at h
  · cases h
    rfl
  · cases h

theorem eval_text {i : Node} (hi : i.text?.any P = true) : eval f locals i = eval g locals i := by
  obtain ⟨p, hp, -⟩ := (Option.any_eq_true _ _).mp hi
  rw [of_text? hp, eval, eval]

mutual

/-- Look-ups that give the same names and fields give the same outcome. -/
theorem eval_congr_fields (node : Node) (locals : Scope) {K : String → Bool} (h : SameReads w P f g locals K)
    (hn : node.keepsTo w P K = true) : eval f locals node = eval g locals node := by
  cases node with
  | literal l => rw [eval, eval]
  | identifier name => rw [eval, eval, h.names name hn]
  | array es => rw [eval, eval, evalAll_congr_fields es locals h hn]
  | member o p optional =>
    rw [Node.keepsTo, Bool.or_eq_true, Bool.and_eq_true] at hn
    rw [eval, eval]
    rcases hn with ⟨ho, hp⟩ | ho
    · rcases h.receiver ho with heq | ⟨u, v, hu, hv, hsame⟩
      · rw [heq]
      · rw [hu, hv, pure_bind, pure_bind, hsame.notNullish.1, hsame.notNullish.2, hsame.field p hp]
    · rw [eval_congr_fields o locals h ho]
  | index o i optional =>
    rw [Node.keepsTo, Bool.or_eq_true, Bool.and_eq_true, Bool.and_eq_true] at hn
    rcases hn with ⟨ho, hi⟩ | ⟨ho, hi⟩
    · rcases h.receiver ho with heq | ⟨u, v, hu, hv, hsame⟩
      · rw [eval, eval, heq, eval_text hi]
      · obtain ⟨p, hp, hfield⟩ := (Option.any_eq_true _ _).mp hi
        obtain rfl := of_text? hp
        simp only [eval, hu, hv, pure_bind, hsame.notNullish, Literal.value, PropertyKey.ofValue, hsame.field p hfield]
    · rw [eval, eval, eval_congr_fields o locals h ho, eval_congr_fields i locals h hi]
  | call c args optional =>
    rw [Node.keepsTo, Bool.and_eq_true] at hn
    have hargs := evalAll_congr_fields args locals h hn.2
    cases c with
    | member o p optionalMember =>
      rw [Node.keepsTo, Bool.or_eq_true, Bool.and_eq_true] at hn
      rw [eval, eval]
      rcases hn.1 with ⟨ho, -⟩ | ho
      · rcases h.receiver ho with heq | ⟨u, v, hu, hv, hsame⟩
        · rw [heq, hargs]
        · obtain ⟨stop, hf, hg⟩ := hsame.method p
          rw [hu, hv, pure_bind, pure_bind, hsame.notNullish.1, hsame.notNullish.2, hf, hg]
          rfl
      · rw [eval_congr_fields o locals h ho, hargs]
    | index o i optionalMember =>
      rw [Node.keepsTo, Bool.or_eq_true, Bool.and_eq_true, Bool.and_eq_true] at hn
      rcases hn.1 with ⟨ho, hi⟩ | ⟨ho, hi⟩
      · rcases h.receiver ho with heq | ⟨u, v, hu, hv, hsame⟩
        · rw [eval, eval, heq, eval_text hi, hargs]
        · obtain ⟨p, hp, -⟩ := (Option.any_eq_true _ _).mp hi
          obtain rfl := of_text? hp
          obtain ⟨stop, hf, hg⟩ := hsame.method p
          simp only [eval, hu, hv, pure_bind, hsame.notNullish, Literal.value, Value.toText, hf, hg]
          rfl
      · rw [eval, eval, eval_congr_fields o locals h ho, eval_congr_fields i locals h hi, hargs]
    | _ => simp only [eval]
  | chain e => rw [eval, eval, eval_congr_fields e locals h hn]
  | unary op e =>
    have he := eval_congr_fields e locals h hn
    cases op <;> simp only [eval, he]
  | binary op l r =>
    rw [Node.keepsTo, Bool.and_eq_true] at hn
    rw [eval, eval, eval_congr_fields l locals h hn.1, eval_congr_fields r locals h hn.2]
  | logical op l r =>
    rw [Node.keepsTo, Bool.and_eq_true] at hn
    rw [eval, eval, eval_congr_fields l locals h hn.1, eval_congr_fields r locals h hn.2]
  | conditional t c a =>
    rw [Node.keepsTo, Bool.and_eq_true, Bool.and_eq_true] at hn
    rw [eval, eval, eval_congr_fields t locals h hn.1.1, eval_congr_fields c locals h hn.1.2,
      eval_congr_fields a locals h hn.2]
  | invoked b => rw [eval, eval, evalBody_congr_fields b locals [] h hn]

theorem evalAll_congr_fields (es : List Node) (locals : Scope) {K : String → Bool} (h : SameReads w P f g locals K)
    (hn : Node.allKeepTo w P K es = true) : evalAll f locals es = evalAll g locals es := by
  cases es with
  | nil => rw [evalAll, evalAll]
  | cons e es =>
    rw [Node.allKeepTo, Bool.and_eq_true] at hn
    rw [evalAll, evalAll, eval_congr_fields e locals h hn.1, evalAll_congr_fields es locals h hn.2]

theorem evalBody_congr_fields (body : Body) (locals : Scope) (declared : List String) {K : String → Bool}
    (h : SameReads w P f g locals K) (hn : body.keepsTo w P K = true) :
    evalBody f locals declared body = evalBody g locals declared body := by
  cases body with
  | result v => rw [evalBody, evalBody, eval_congr_fields v locals h hn]
  | declare kind name v rest =>
    rw [Body.keepsTo, Bool.and_eq_true] at hn
    have hrest (value : Value) := evalBody_congr_fields rest ((name, value) :: locals) (name :: declared)
      (h.declare value) hn.2
    simp only [evalBody, eval_congr_fields v locals h hn.1, hrest]

end

/-- Scopes that give the same names and fields give the same outcome. -/
theorem valueIn_congr_fields {node : Node} {s t : Scope} (hn : node.keepsTo w P K = true)
    (hnames : ∀ name, K name = true → s.lookup name = t.lookup name) {u v : Value} (hu : s.lookup w = some u)
    (hv : t.lookup w = some v) (hsame : SameFields P u v) : valueIn s node = valueIn t node := by
  have heval : eval (m := Id) (fun name => pure (s.lookup name)) [] node =
      eval (m := Id) (fun name => pure (t.lookup name)) [] node := by
    refine eval_congr_fields node [] ⟨fun name hname => ?_, .inr ⟨u, v, ?_, ?_, hsame⟩⟩ hn
    · simp only [readName, hnames name hname]
    · simp only [readName, List.lookup_nil, hu]
      rfl
    · simp only [readName, List.lookup_nil, hv]
      rfl
  unfold valueIn evalWhole
  rw [heval]

end Expr
end FormRules
