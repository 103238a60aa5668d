import FormRules.Expr.Eval

/-!
# The names that an expression mentions

Evaluation looks up the names that an expression mentions outside of a declaration of the same name, and no
others: look-ups that agree on these give the same outcome.
-/

namespace FormRules

mutual

/-- Whether the name occurs, declarations of it aside. -/
def Node.mentions (w : String) : Node → Bool
  | .literal _ => false
  | .identifier name => name = w
  | .array es => Node.anyMentions w es
  | .member o _ _ => o.mentions w
  | .index o i _ => o.mentions w || i.mentions w
  | .call c as _ => c.mentions w || Node.anyMentions w as
  | .chain e | .unary _ e => e.mentions w
  | .binary _ l r | .logical _ l r => l.mentions w || r.mentions w
  | .conditional t c a => t.mentions w || c.mentions w || a.mentions w
  | .invoked b => b.mentions w

/-- Whether it occurs in one of several expressions. -/
def Node.anyMentions (w : String) : List Node → Bool
  | [] => false
  | e :: es => e.mentions w || Node.anyMentions w es

/-- Whether it occurs in a body; a declaration hides it from what follows. -/
def Body.mentions (w : String) : Body → Bool
  | .result v => v.mentions w
  | .declare _ name v rest => v.mentions w || (name ≠ w && rest.mentions w)

end

namespace Expr
variable {m : Type → Type} [Monad m] {f g : String → m (Option Value)}

/-- Whether two look-ups give the same for the names of a kind, under declarations. -/
def Agree (f g : String → m (Option Value)) (locals : Scope) (P : String → Bool) : Prop :=
  ∀ name, P name = true → readName f locals name = readName g locals name

namespace Agree
variable {locals : Scope} {P Q R : String → Bool}

theorem mono (h : Agree f g locals Q) (hP : ∀ name, P name = true → Q name = true) : Agree f g locals P :=
  fun name hp => h name (hP name hp)

theorem left (h : Agree f g locals fun w => P w || Q w) : Agree f g locals P :=
  h.mono fun _ hp => Bool.or_eq_true_iff.mpr (.inl hp)

theorem right (h : Agree f g locals fun w => P w || Q w) : Agree f g locals Q :=
  h.mono fun _ hq => Bool.or_eq_true_iff.mpr (.inr hq)

/-- Under a declaration, its name is read from there. -/
theorem declare {name : String} (h : Agree f g locals fun w => name ≠ w && Q w) (value : Value) :
    Agree f g ((name, value) :: locals) Q := by
  intro w hw
  by_cases hn : w = name
  · subst hn
    simp [readName]
  · have hlookup : List.lookup w ((name, value) :: locals) = List.lookup w locals := by
      rw [List.lookup_cons, beq_eq_false_iff_ne.mpr hn]
    have hread := h w (by simp [Ne.symm hn, hw])
    unfold readName at hread ⊢
    rwa [hlookup]

end Agree

mutual

/-- Look-ups that agree on what an expression mentions give the same outcome. -/
theorem eval_congr (node : Node) (locals : Scope) (h : Agree f g locals (Node.mentions · node)) :
    eval f locals node = eval g locals node := by
  cases node with
  | literal l => rw [eval, eval]
  | identifier name => rw [eval, eval, h name (by simp [Node.mentions])]
  | array es => rw [eval, eval, evalAll_congr es locals h]
  | member o p optional => rw [eval, eval, eval_congr o locals h]
  | index o i optional => rw [eval, eval, eval_congr o locals h.left, eval_congr i locals h.right]
  | call c args optional =>
    cases c with
    | member o p optionalMember =>
      rw [eval, eval, eval_congr o locals h.left, evalAll_congr args locals h.right]
    | index o i optionalMember =>
      rw [eval, eval, eval_congr o locals h.left.left, eval_congr i locals h.left.right,
        evalAll_congr args locals h.right]
    | _ => simp only [eval]
  | chain e => rw [eval, eval, eval_congr e locals h]
  | unary op e =>
    have he := eval_congr e locals h
    cases op <;> simp only [eval, he]
  | binary op l r => rw [eval, eval, eval_congr l locals h.left, eval_congr r locals h.right]
  | logical op l r => rw [eval, eval, eval_congr l locals h.left, eval_congr r locals h.right]
  | conditional t c a =>
    rw [eval, eval, eval_congr t locals h.left.left, eval_congr c locals h.left.right, eval_congr a locals h.right]
  | invoked b => rw [eval, eval, evalBody_congr b locals [] h]

theorem evalAll_congr (es : List Node) (locals : Scope) (h : Agree f g locals (Node.anyMentions · es)) :
    evalAll f locals es = evalAll g locals es := by
  cases es with
  | nil => rw [evalAll, evalAll]
  | cons e es => rw [evalAll, evalAll, eval_congr e locals h.left, evalAll_congr es locals h.right]

theorem evalBody_congr (body : Body) (locals : Scope) (declared : List String)
    (h : Agree f g locals (Body.mentions · body)) :
    evalBody f locals declared body = evalBody g locals declared body := by
  cases body with
  | result v => rw [evalBody, evalBody, eval_congr v locals h]
  | declare kind name v rest =>
    have hrest (value : Value) := evalBody_congr rest ((name, value) :: locals) (name :: declared)
      (Agree.declare h.right value)
    simp only [evalBody, eval_congr v locals h.left, hrest]

end

end Expr
end FormRules
