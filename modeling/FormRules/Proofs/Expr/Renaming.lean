import FormRules.Proofs.Expr.Mention
import Mathlib.Logic.Function.Basic

/-!
# Names can be exchanged

A name that an expression mentions may be exchanged for another one that reads the same, as long as no body inside
the expression declares that one. So what a name stands for is fixed where it stands: by the declarations around it,
or else by the scope, whatever bodies beside it declare.
-/

namespace FormRules

mutual

/-- The expression with other names in the place of those that it mentions. -/
def Node.rename (ρ : String → String) : Node → Node
  | .literal l => .literal l
  | .identifier name => .identifier (ρ name)
  | .array es => .array (Node.renameAll ρ es)
  | .member o p optional => .member (o.rename ρ) p optional
  | .index o i optional => .index (o.rename ρ) (i.rename ρ) optional
  | .call c as optional => .call (c.rename ρ) (Node.renameAll ρ as) optional
  | .chain e => .chain (e.rename ρ)
  | .unary op e => .unary op (e.rename ρ)
  | .binary op l r => .binary op (l.rename ρ) (r.rename ρ)
  | .logical op l r => .logical op (l.rename ρ) (r.rename ρ)
  | .conditional t c a => .conditional (t.rename ρ) (c.rename ρ) (a.rename ρ)
  | .invoked b => .invoked (b.rename ρ)

def Node.renameAll (ρ : String → String) : List Node → List Node
  | [] => []
  | e :: es => e.rename ρ :: Node.renameAll ρ es

/-- The body with other names; a declared name stays behind its declaration. -/
def Body.rename (ρ : String → String) : Body → Body
  | .result v => .result (v.rename ρ)
  | .declare kind name v rest => .declare kind name (v.rename ρ) (rest.rename (Function.update ρ name name))

end

mutual

/-- Whether a body inside the expression declares the name. -/
def Node.declares (w : String) : Node → Bool
  | .literal _ | .identifier _ => false
  | .array es => Node.anyDeclares w es
  | .member o _ _ => o.declares w
  | .index o i _ => o.declares w || i.declares w
  | .call c as _ => c.declares w || Node.anyDeclares w as
  | .chain e | .unary _ e => e.declares w
  | .binary _ l r | .logical _ l r => l.declares w || r.declares w
  | .conditional t c a => t.declares w || c.declares w || a.declares w
  | .invoked b => b.declares w

def Node.anyDeclares (w : String) : List Node → Bool
  | [] => false
  | e :: es => e.declares w || Node.anyDeclares w es

def Body.declares (w : String) : Body → Bool
  | .result v => v.declares w
  | .declare _ name v rest => v.declares w || (name = w || rest.declares w)

end

namespace Expr
variable {m : Type → Type} [Monad m] {f g : String → m (Option Value)}

/-- Whether each name in `P` is read, under the name it is exchanged for, as before, and that name is not in `D`
unless it stays. -/
def Carries (f : String → m (Option Value)) (locals : Scope) (g : String → m (Option Value)) (locals' : Scope)
    (ρ : String → String) (P D : String → Bool) : Prop :=
  ∀ w, P w = true → readName g locals' (ρ w) = readName f locals w ∧ (ρ w = w ∨ D (ρ w) = false)

theorem readName_cons_self (locals : Scope) (name : String) (value : Value) :
    readName f ((name, value) :: locals) name = pure value := by
  simp [readName]

theorem readName_cons_of_ne {locals : Scope} {name w : String} (h : w ≠ name) (value : Value) :
    readName f ((name, value) :: locals) w = readName f locals w := by
  have hlookup : List.lookup w ((name, value) :: locals) = List.lookup w locals := by
    rw [List.lookup_cons, beq_eq_false_iff_ne.mpr h]
  unfold readName
  rw [hlookup]

namespace Carries
variable {locals locals' : Scope} {ρ : String → String} {P Q D E : String → Bool}

theorem left (h : Carries f locals g locals' ρ (fun w => P w || Q w) fun w => D w || E w) :
    Carries f locals g locals' ρ P D := by
  intro w hw
  obtain ⟨hread, hfree⟩ := h w (Bool.or_eq_true_iff.mpr (.inl hw))
  exact ⟨hread, hfree.imp_right fun hd => (Bool.or_eq_false_iff.mp hd).1⟩

theorem right (h : Carries f locals g locals' ρ (fun w => P w || Q w) fun w => D w || E w) :
    Carries f locals g locals' ρ Q E := by
  intro w hw
  obtain ⟨hread, hfree⟩ := h w (Bool.or_eq_true_iff.mpr (.inr hw))
  exact ⟨hread, hfree.imp_right fun hd => (Bool.or_eq_false_iff.mp hd).2⟩

/-- Behind a declaration its name stays, and no other name has become it. -/
theorem declare {name : String} (h : Carries f locals g locals' ρ (fun w => name ≠ w && Q w) fun w => name = w || E w)
    (value : Value) :
    Carries f ((name, value) :: locals) g ((name, value) :: locals') (Function.update ρ name name) Q E := by
  intro w hw
  by_cases hn : w = name
  · subst hn
    rw [Function.update_self, readName_cons_self, readName_cons_self]
    exact ⟨rfl, .inl rfl⟩
  · obtain ⟨hread, hfree⟩ := h w (by simp [Ne.symm hn, hw])
    have hne : ρ w ≠ name := by
      rintro hρ
      rcases hfree with hstay | hfree
      · exact hn (hstay.symm.trans hρ)
      · simp [hρ] at hfree
    rw [Function.update_of_ne hn, readName_cons_of_ne hne, readName_cons_of_ne hn, hread]
    exact ⟨rfl, hfree.imp_right fun hd => (Bool.or_eq_false_iff.mp hd).2⟩

end Carries

mutual

/-- Exchanging names keeps the outcome. -/
theorem eval_rename (node : Node) {locals locals' : Scope} {ρ : String → String}
    (h : Carries f locals g locals' ρ (Node.mentions · node) (Node.declares · node)) :
    eval g locals' (node.rename ρ) = eval f locals node := by
  cases node with
  | literal l => rw [Node.rename, eval, eval]
  | identifier name => rw [Node.rename, eval, eval, (h name (by simp [Node.mentions])).1]
  | array es => rw [Node.rename, eval, eval, evalAll_rename es h]
  | member o p optional => rw [Node.rename, eval, eval, eval_rename o h]
  | index o i optional => rw [Node.rename, eval, eval, eval_rename o h.left, eval_rename i h.right]
  | call c args optional =>
    cases c with
    | member o p optionalMember =>
      rw [Node.rename, Node.rename, eval, eval, eval_rename o h.left, evalAll_rename args h.right]
    | index o i optionalMember =>
      rw [Node.rename, Node.rename, eval, eval, eval_rename o h.left.left, eval_rename i h.left.right,
        evalAll_rename args h.right]
    | _ => simp only [Node.rename, eval]
  | chain e => rw [Node.rename, eval, eval, eval_rename e h]
  | unary op e =>
    have he := eval_rename e h
    cases op <;> simp only [Node.rename, eval, he]
  | binary op l r => rw [Node.rename, eval, eval, eval_rename l h.left, eval_rename r h.right]
  | logical op l r => rw [Node.rename, eval, eval, eval_rename l h.left, eval_rename r h.right]
  | conditional t c a =>
    rw [Node.rename, eval, eval, eval_rename t h.left.left, eval_rename c h.left.right, eval_rename a h.right]
  | invoked b => rw [Node.rename, eval, eval, evalBody_rename b [] h]

theorem evalAll_rename (es : List Node) {locals locals' : Scope} {ρ : String → String}
    (h : Carries f locals g locals' ρ (Node.anyMentions · es) (Node.anyDeclares · es)) :
    evalAll g locals' (Node.renameAll ρ es) = evalAll f locals es := by
  cases es with
  | nil => rw [Node.renameAll, evalAll, evalAll]
  | cons e es => rw [Node.renameAll, evalAll, evalAll, eval_rename e h.left, evalAll_rename es h.right]

theorem evalBody_rename (body : Body) (declared : List String) {locals locals' : Scope} {ρ : String → String}
    (h : Carries f locals g locals' ρ (Body.mentions · body) (Body.declares · body)) :
    evalBody g locals' declared (body.rename ρ) = evalBody f locals declared body := by
  cases body with
  | result v => rw [Body.rename, evalBody, evalBody, eval_rename v h]
  | declare kind name v rest =>
    have hrest (value : Value) := evalBody_rename rest (name :: declared) (Carries.declare h.right value)
    simp only [Body.rename, evalBody, eval_rename v h.left, hrest]

end

/-! ## Scopes -/

/-- The value of a name in a scope. -/
def valueOf (s : Scope) (w : String) : Value := (s.lookup w).getD .undefined

section
variable {s t locals locals' : Scope} {w x y : String} {node node' : Node}

theorem valueOf_cons_self (v : Value) : valueOf ((w, v) :: s) w = v := by
  simp [valueOf]

theorem valueOf_cons_of_ne (h : w ≠ y) (v : Value) : valueOf ((y, v) :: s) w = valueOf s w := by
  rw [valueOf, List.lookup_cons, beq_eq_false_iff_ne.mpr h]
  rfl

/-- Declarations are read as if they stood in front of the scope. -/
theorem readName_scope (s locals : Scope) (w : String) :
    readName (m := Id) (fun name => pure (s.lookup name)) locals w = pure (valueOf (locals ++ s) w) := by
  unfold readName valueOf
  rw [List.lookup_append]
  cases locals.lookup w <;> rfl

theorem valueIn_of_eval (h : eval (m := Id) (fun name => pure (t.lookup name)) [] node' =
    eval (m := Id) (fun name => pure (s.lookup name)) [] node) : valueIn t node' = valueIn s node := by
  unfold valueIn evalWhole
  rw [h]

/-- A name that is not in use, and reads as another one does, can stand for that one. -/
theorem carries_update {P D : String → Bool} (hP : P y = false) (hD : D y = false)
    (hy : locals' ++ t = (y, valueOf (locals ++ s) x) :: (locals ++ s)) :
    Carries (m := Id) (fun name => pure (s.lookup name)) locals (fun name => pure (t.lookup name)) locals'
      (Function.update id x y) P D := by
  intro w hw
  rw [readName_scope, readName_scope, hy]
  by_cases hx : w = x
  · subst hx
    rw [Function.update_self, valueOf_cons_self]
    exact ⟨rfl, .inr hD⟩
  · have hne : w ≠ y := by
      rintro rfl
      rw [hP] at hw
      cases hw
    rw [Function.update_of_ne hx, id_eq, valueOf_cons_of_ne hne]
    exact ⟨rfl, .inl rfl⟩

/-- Scopes that agree on the names an expression mentions give the same outcome. Where such a name stands, its value
in the scope is what counts: any name that is nowhere in use can take its place with that value, so that no declaration
of a body beside it is read there. The same holds inside of a body, behind declarations. -/
theorem valueIn_lexical (s : Scope) :
    (∀ (node : Node) (t : Scope), (∀ w, node.mentions w = true → valueOf t w = valueOf s w) →
      valueIn t node = valueIn s node) ∧
    (∀ (node : Node) (x y : String), node.mentions y = false → node.declares y = false →
      valueIn ((y, valueOf s x) :: s) (node.rename (Function.update id x y)) = valueIn s node) ∧
    ∀ (body : Body) (locals : Scope) (declared : List String) (x y : String), body.mentions y = false →
      body.declares y = false →
      evalBody (m := Id) (fun name => pure (s.lookup name)) ((y, valueOf (locals ++ s) x) :: locals) declared
          (body.rename (Function.update id x y)) =
        evalBody (m := Id) (fun name => pure (s.lookup name)) locals declared body := by
  refine ⟨fun node t h => ?_, fun node x y hm hd => ?_, fun body locals declared x y hm hd => ?_⟩
  · refine valueIn_of_eval (eval_congr node [] fun w hw => ?_)
    rw [readName_scope, readName_scope, List.nil_append, List.nil_append, h w hw]
  · exact valueIn_of_eval (eval_rename node (carries_update hm hd rfl))
  · exact evalBody_rename body declared (carries_update hm hd rfl)

/-- A name beside a body that declares `x`, from the value of the name. -/
def shadowing (w : String) : Node :=
  .array [.invoked (.declare .const "x" (.binary .add (.identifier w) (.literal (.int 1))) (.result (.identifier "x"))),
    .identifier w]

/-- The name is read before and behind the body that declares it, the second time inside of another such body. -/
theorem valueIn_lexical_shadowing :
    valueIn [("z", .null), ("x", .int 5)] (shadowing "x") = valueIn [("x", .int 5)] (shadowing "x") ∧
    valueIn [("y", .int 5), ("x", .int 5)] (shadowing "y") = valueIn [("x", .int 5)] (shadowing "x") ∧
    valueIn [("x", .int 5)] (shadowing "x") = .ok (.list [.int 6, .int 5]) ∧
    evalBody (m := Id) (fun name => pure (List.lookup name [("x", .int 5)])) [("y", .int 7), ("x", .int 7)] ["x"]
        (.result (shadowing "y")) =
      evalBody (m := Id) (fun name => pure (List.lookup name [("x", .int 5)])) [("x", .int 7)] ["x"]
        (.result (shadowing "x")) := by
  obtain ⟨hagree, hrename, hinside⟩ := valueIn_lexical [("x", .int 5)]
  refine ⟨hagree (shadowing "x") _ fun w hw => ?_, ?_, rfl, ?_⟩
  · have hx : w = "x" := by
      simpa [shadowing, Node.mentions, Node.anyMentions, Body.mentions, eq_comm] using hw
    rw [hx]
    rfl
  · exact hrename (shadowing "x") "x" "y" (by decide) (by decide)
  · exact hinside (.result (shadowing "x")) [("x", .int 7)] ["x"] "x" "y" (by decide) (by decide)

end

end Expr
end FormRules
