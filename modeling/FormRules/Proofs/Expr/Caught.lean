import FormRules.Expr.Eval
import FormRules.Proofs.Expr.Chain

/-!
# Nullish links are caught by their own chain

An optional link on a nullish receiver ends the chain that it stands in. In what a text writes nothing else sees it:
neither the expressions around the chain, nor `typeof`, nor the evaluation as a whole.
-/

namespace FormRules.Expr

/-! ## Computations that no link ends -/

section
variable {m : Type → Type} [Monad m] {α β : Type} {x : ExceptT Stop m α} {k : α → ExceptT Stop m β}

/-- Whether a computation stops for causes only. -/
def Unbroken (x : ExceptT Stop m α) : Prop :=
  ∃ y : m (Except RuntimeCause α), x.run = Except.mapError Stop.cause <$> y

variable [LawfulMonad m]

namespace Unbroken

theorem of_except {r : Except Stop α} (h : r ≠ .error .nullishLink) : Unbroken (m := m) (ExceptT.mk (pure r)) := by
  rcases r with (c | _) | a
  · exact ⟨pure (.error c), by rw [map_pure]; rfl⟩
  · exact absurd rfl h
  · exact ⟨pure (.ok a), by rw [map_pure]; rfl⟩

theorem pure {a : α} : Unbroken (m := m) (Pure.pure a) := of_except (r := .ok a) nofun

theorem throw {c : RuntimeCause} : Unbroken (m := m) (α := α) (MonadExcept.throw (.cause c)) :=
  of_except (r := .error (.cause c)) nofun

theorem lift (y : m α) : Unbroken (m := m) (ExceptT.lift y) := by
  refine ⟨Except.ok <$> y, ?_⟩
  rw [← comp_map]
  rfl

theorem bind (hx : Unbroken x) (hk : ∀ a, Unbroken (k a)) : Unbroken (x >>= k) := by
  obtain ⟨y, hy⟩ := hx
  obtain ⟨z, hz⟩ := Classical.axiomOfChoice hk
  refine ⟨y >>= fun r => match r with | .ok a => z a | .error c => Pure.pure (.error c), ?_⟩
  rw [ExceptT.run_bind, hy, bind_map_left, map_bind]
  refine bind_congr fun r => ?_
  cases r with
  | ok a => exact hz a
  | error c => rw [map_pure]; rfl

end Unbroken

theorem unbroken_endChain (x : ExceptT Stop m Value) : Unbroken (endChain x) := by
  refine ⟨(fun r => match r with
    | .error .nullishLink => .ok .undefined
    | .error (.cause c) => .error c
    | .ok v => .ok v) <$> x.run, ?_⟩
  rw [← comp_map, map_eq_pure_bind]
  refine bind_congr fun r => ?_
  rcases r with (c | _) | v <;> rfl

/-- There is nothing to catch. -/
theorem Unbroken.endChain {x : ExceptT Stop m Value} (h : Unbroken x) : endChain x = x := by
  obtain ⟨y, hy⟩ := h
  apply ExceptT.ext
  change (x.run >>= fun r => _) = _
  rw [hy, bind_map_left, map_eq_pure_bind]
  refine bind_congr fun r => ?_
  cases r <;> rfl

end

/-! ## What the steps of an evaluation come to -/

theorem readProperty_ne (v : Value) (key : PropertyKey) : readProperty v key ≠ .error .nullishLink := by
  unfold readProperty
  split
  · exact nofun
  · split
    · split <;> exact nofun
    · exact nofun

theorem numeric_ne (n : Option Number) : numeric n ≠ .error .nullishLink := by
  cases n <;> exact nofun

theorem ordered_ne (l r : Value) (texts : String → String → Bool) (numbers : Number → Number → Bool) :
    ordered l r texts numbers ≠ .error .nullishLink := by
  unfold ordered
  split
  · exact nofun
  · dsimp only
    repeat' split
    all_goals exact nofun

theorem applyBinary_ne (op : BinaryOp) (l r : Value) : applyBinary op l r ≠ .error .nullishLink := by
  unfold applyBinary
  cases op <;> dsimp only
  case lt | gt | le | ge => exact ordered_ne _ _ _ _
  case sub | mul => exact numeric_ne _
  case add | div | rem => split <;> first | exact numeric_ne _ | exact nofun
  all_goals exact nofun

theorem admitMethod_ne (v : Value) (name : String) : admitMethod v name ≠ .error .nullishLink := by
  unfold admitMethod
  repeat' split
  all_goals exact nofun

theorem callMethod_ne (v : Value) (name : String) (args : List Value) : callMethod v name args ≠ .error .nullishLink := by
  unfold callMethod
  cases Method.call v name args <;> exact nofun

/-! ## Expressions -/

section
variable {m : Type → Type} [Monad m] [LawfulMonad m] (lookup : String → m (Option Value))

theorem Unbroken.call {args : ExceptT Stop m (List Value)} (h : Unbroken args) (receiver : Value) (name : String) :
    Unbroken (m := m) (do
      ExceptT.mk (Pure.pure (admitMethod receiver name))
      let values ← args
      ExceptT.mk (Pure.pure (callMethod receiver name values))) :=
  .bind (.of_except (admitMethod_ne _ _)) fun _ => .bind h fun _ => .of_except (callMethod_ne _ _ _)

theorem unbroken_readName (locals : Scope) (name : String) : Unbroken (readName lookup locals name) := by
  unfold readName
  split
  · exact .pure
  · exact .bind (.lift _) fun _ => .pure

mutual

/-- Outside of chains nothing is ended by a link. -/
theorem unbroken_eval (e : Node) (locals : Scope) (h : e.wellChained false = true) : Unbroken (eval lookup locals e) := by
  cases e with
  | literal l => rw [eval]; exact .pure
  | identifier name => rw [eval]; exact unbroken_readName lookup locals name
  | array es =>
    rw [eval]
    exact .bind (unbroken_evalAll es locals h) fun _ => .pure
  | member o p optional =>
    simp only [Node.wellChained, Bool.false_or, Bool.and_eq_true, Bool.not_eq_true'] at h
    rw [eval, h.1]
    exact .bind (unbroken_eval o locals h.2) fun _ => .of_except (readProperty_ne _ _)
  | index o i optional =>
    simp only [Node.wellChained, Bool.false_or, Bool.and_eq_true, Bool.not_eq_true'] at h
    rw [eval, h.1.1]
    refine .bind (unbroken_eval o locals h.1.2) fun _ => ?_
    exact .bind (unbroken_eval i locals h.2) fun _ => .of_except (readProperty_ne _ _)
  | call c args optional =>
    simp only [Node.wellChained, Bool.false_or, Bool.and_eq_true, Bool.not_eq_true'] at h
    obtain ⟨⟨rfl, hc⟩, hargs⟩ := h
    have hcall := (unbroken_evalAll args locals hargs).call
    cases c with
    | member o p optionalMember =>
      simp only [Node.wellChained, Bool.false_or, Bool.and_eq_true, Bool.not_eq_true'] at hc
      rw [eval, hc.1]
      refine .bind (unbroken_eval o locals hc.2) fun receiver => ?_
      split
      · exact .bind .throw fun _ => hcall receiver p
      · exact hcall receiver p
    | index o i optionalMember =>
      simp only [Node.wellChained, Bool.false_or, Bool.and_eq_true, Bool.not_eq_true'] at hc
      rw [eval, hc.1.1]
      have hi := unbroken_eval i locals hc.2
      have hrest (receiver : Value) := Unbroken.bind hi fun key => hcall receiver key.toText
      refine .bind (unbroken_eval o locals hc.1.2) fun receiver => ?_
      split
      · exact .bind hi fun _ => .bind .throw fun _ => hrest receiver
      · exact hrest receiver
    | _ => simp only [eval]; exact .throw
  | chain e => rw [eval]; exact unbroken_endChain _
  | unary op e =>
    have he := unbroken_eval e locals h
    cases op with
    | typeOf => rw [eval]; exact .bind (unbroken_endChain _) fun _ => .pure
    | _ => simp only [eval]; exact .bind he fun _ => .pure
  | binary op l r =>
    simp only [Node.wellChained, Bool.and_eq_true] at h
    rw [eval]
    refine .bind (unbroken_eval l locals h.1) fun _ => ?_
    exact .bind (unbroken_eval r locals h.2) fun _ => .of_except (applyBinary_ne _ _ _)
  | logical op l r =>
    simp only [Node.wellChained, Bool.and_eq_true] at h
    rw [eval]
    refine .bind (unbroken_eval l locals h.1) fun _ => ?_
    split
    · exact .pure
    · exact unbroken_eval r locals h.2
  | conditional t c a =>
    simp only [Node.wellChained, Bool.and_eq_true] at h
    rw [eval]
    refine .bind (unbroken_eval t locals h.1.1) fun _ => ?_
    split
    · exact unbroken_eval c locals h.1.2
    · exact unbroken_eval a locals h.2
  | invoked b => rw [eval]; exact unbroken_evalBody b locals [] h

theorem unbroken_evalAll (es : List Node) (locals : Scope) (h : Node.allWellChained es = true) :
    Unbroken (evalAll lookup locals es) := by
  cases es with
  | nil => rw [evalAll]; exact .pure
  | cons e es =>
    simp only [Node.allWellChained, Bool.and_eq_true] at h
    rw [evalAll]
    refine .bind (unbroken_eval e locals h.1) fun _ => ?_
    exact .bind (unbroken_evalAll es locals h.2) fun _ => .pure

theorem unbroken_evalBody (b : Body) (locals : Scope) (declared : List String) (h : b.wellChained = true) :
    Unbroken (evalBody lookup locals declared b) := by
  cases b with
  | result v => rw [evalBody]; exact unbroken_eval v locals h
  | declare kind name v rest =>
    simp only [Body.wellChained, Bool.and_eq_true] at h
    rw [evalBody]
    have hrest : Unbroken (do
        let value ← eval lookup locals v
        evalBody lookup ((name, value) :: locals) (name :: declared) rest) :=
      .bind (unbroken_eval v locals h.1) fun value => unbroken_evalBody rest _ _ h.2
    split
    · exact .bind .throw fun _ => hrest
    · exact hrest

end

end

/-! ## Chains -/

section
variable {m : Type → Type} [Monad m] [LawfulMonad m] (lookup : String → m (Option Value)) {e o : Node} {optional : Bool}

/-- A link goes on with the value of its subject, or ends the chain. -/
theorem eval_of_subject (locals : Scope) (hw : e.wellChained true = true) (hs : e.subject? = some (o, optional)) :
    o.wellChained true = true ∧ ∃ k : Value → ExceptT Stop m Value, (∀ v, Unbroken (k v)) ∧
      eval lookup locals e = eval lookup locals o >>= fun v =>
        if optional && v.isNullish then throw .nullishLink else k v := by
  cases e with
  | member o' p optional' =>
    obtain ⟨rfl, rfl⟩ := Prod.mk.inj (Option.some.inj hs)
    simp only [Node.wellChained, Bool.true_or, Bool.true_and] at hw
    refine ⟨hw, fun v => ExceptT.mk (pure (readProperty v (.name p))), fun v => .of_except (readProperty_ne _ _), ?_⟩
    rw [eval]
    refine bind_congr fun v => ?_
    split
    · simp
    · rfl
  | index o' i optional' =>
    obtain ⟨rfl, rfl⟩ := Prod.mk.inj (Option.some.inj hs)
    simp only [Node.wellChained, Bool.true_or, Bool.true_and, Bool.and_eq_true] at hw
    refine ⟨hw.1, fun v => eval lookup locals i >>= fun key => ExceptT.mk (pure (readProperty v (.ofValue key))),
      fun v => .bind (unbroken_eval lookup i locals hw.2) fun _ => .of_except (readProperty_ne _ _), ?_⟩
    rw [eval]
    refine bind_congr fun v => ?_
    split
    · simp
    · rfl
  | call c args optional' =>
    simp only [Node.wellChained, Bool.true_or, Bool.true_and, Bool.and_eq_true] at hw
    have hcall := (unbroken_evalAll lookup args locals hw.2).call
    cases c with
    | member o' p optionalMember =>
      obtain ⟨rfl, rfl⟩ := Prod.mk.inj (Option.some.inj hs)
      simp only [Node.wellChained, Bool.true_or, Bool.true_and] at hw
      refine ⟨hw.1, fun v => if v.isNullish then throw (.cause (.callOnNullish p v.toText)) else do
        ExceptT.mk (pure (admitMethod v p))
        let values ← evalAll lookup locals args
        ExceptT.mk (pure (callMethod v p values)), fun v => ?_, ?_⟩
      · dsimp only
        split
        · exact .throw
        · exact hcall v p
      · rw [eval]
        refine bind_congr fun v => ?_
        by_cases hv : v.isNullish = true <;> by_cases hopt : (optionalMember || optional') = true <;>
          simp [hv, hopt]
    | index o' i optionalMember =>
      obtain ⟨rfl, rfl⟩ := Prod.mk.inj (Option.some.inj hs)
      simp only [Node.wellChained, Bool.true_or, Bool.true_and, Bool.and_eq_true] at hw
      have hi := unbroken_eval lookup i locals hw.1.2
      refine ⟨hw.1.1, fun v => eval lookup locals i >>= fun key =>
        if v.isNullish then throw (.cause (.callOnNullish key.toText v.toText)) else do
          ExceptT.mk (pure (admitMethod v key.toText))
          let values ← evalAll lookup locals args
          ExceptT.mk (pure (callMethod v key.toText values)), fun v => .bind hi fun key => ?_, ?_⟩
      · split
        · exact .throw
        · exact hcall v key.toText
      · rw [eval]
        refine bind_congr fun v => ?_
        by_cases hv : v.isNullish = true <;> by_cases hopt : (optionalMember || optional') = true <;>
          simp [hv, hopt]
    | _ => cases hs
  | _ => cases hs

/-- Only links with a subject can end a chain. -/
theorem unbroken_of_subject?_eq_none (locals : Scope) (hw : e.wellChained true = true) (hs : e.subject? = none) :
    Unbroken (eval lookup locals e) := by
  cases e with
  | member | index => cases hs
  | call c args optional =>
    cases c with
    | member | index => cases hs
    | _ => simp only [eval]; exact .throw
  | _ => exact unbroken_eval lookup _ locals ((Node.wellChained_congr rfl).trans hw)

end

section
variable (lookup : String → Id (Option Value)) (locals : Scope) {e o : Node} {optional : Bool}

/-- Whether an optional link on the receivers of an expression has met a nullish value. -/
inductive Broken : Node → Prop
  | here {e o : Node} {v : Value} (hs : e.subject? = some (o, true)) (hv : (eval lookup locals o).run = .ok v)
    (hn : v.isNullish = true) : Broken e
  | under {e o : Node} {optional : Bool} (hs : e.subject? = some (o, optional)) (ho : Broken o) : Broken e

variable {lookup locals}

theorem Unbroken.ne_nullishLink {α : Type} {x : ExceptT Stop Id α} (h : Unbroken x) : x.run ≠ .error .nullishLink := by
  obtain ⟨y, hy⟩ := h
  rw [hy]
  cases (y : Except RuntimeCause α) <;> exact nofun

theorem sizeOf_subject (hs : e.subject? = some (o, optional)) : sizeOf o < sizeOf e := by
  cases e with
  | member | index =>
    cases hs
    decreasing_tactic
  | call c args optional' =>
    cases c with
    | member | index =>
      cases hs
      decreasing_tactic
    | _ => cases hs
  | _ => cases hs

theorem Broken.cases_subject (h : Broken lookup locals e) (hs : e.subject? = some (o, optional)) :
    Broken lookup locals o ∨ optional = true ∧ ∃ v, (eval lookup locals o).run = .ok v ∧ v.isNullish = true := by
  rcases h with ⟨hs', hv, hn⟩ | ⟨hs', ho⟩
  · cases hs.symm.trans hs'
    exact .inr ⟨rfl, _, hv, hn⟩
  · cases hs.symm.trans hs'
    exact .inl ho

/-- A chain is ended by a link of its own that has met a nullish value, and by nothing else. -/
theorem eval_eq_nullishLink_iff (e : Node) (hw : e.wellChained true = true) :
    (eval lookup locals e).run = .error .nullishLink ↔ Broken lookup locals e := by
  cases hs : e.subject? with
  | none =>
    refine iff_of_false (unbroken_of_subject?_eq_none lookup locals hw hs).ne_nullishLink ?_
    rintro (⟨hs', -, -⟩ | ⟨hs', -⟩) <;> cases hs.symm.trans hs'
  | some s =>
    obtain ⟨o, optional⟩ := s
    obtain ⟨ho, k, hk, heq⟩ := eval_of_subject lookup locals hw hs
    have hlt := sizeOf_subject hs
    have ih := eval_eq_nullishLink_iff o ho
    rw [heq, ExceptT.run_bind]
    rcases hv : (eval lookup locals o).run with (c | _) | v
    · refine iff_of_false nofun fun h => ?_
      rcases h.cases_subject hs with ho | ⟨-, v, hv', -⟩
      · cases hv.symm.trans (ih.mpr ho)
      · cases hv.symm.trans hv'
    · exact iff_of_true rfl (.under hs (ih.mp hv))
    · change (if optional && v.isNullish then throw .nullishLink else k v : ExceptT Stop Id Value).run = _ ↔ _
      split
      · next hends =>
        rw [Bool.and_eq_true] at hends
        obtain ⟨rfl, hn⟩ := hends
        exact iff_of_true rfl (.here hs hv hn)
      · next hgoes =>
        refine iff_of_false (hk v).ne_nullishLink fun h => ?_
        rcases h.cases_subject hs with ho | ⟨rfl, v', hv', hn⟩
        · cases hv.symm.trans (ih.mpr ho)
        · cases hv.symm.trans hv'
          exact hgoes hn
termination_by sizeOf e

theorem run_chain_of_broken (h : (eval lookup locals e).run = .error .nullishLink) :
    (eval lookup locals (.chain e)).run = .ok .undefined := by
  rw [eval, endChain, ExceptT.run_mk, h]
  rfl

theorem run_chain_of_ne (h : (eval lookup locals e).run ≠ .error .nullishLink) :
    (eval lookup locals (.chain e)).run = (eval lookup locals e).run := by
  rw [eval, endChain, ExceptT.run_mk]
  rcases hr : (eval lookup locals e).run with (c | _) | v
  · rfl
  · exact absurd hr h
  · rfl

end

/-- What becomes of links that meet nullish values in an expression. -/
structure Catches (whole : Node) : Prop where
  /-- What is no link of a chain is never ended by one. -/
  unbroken : ∀ part, whole.Part false part → ∀ (m : Type → Type) [Monad m] [LawfulMonad m]
    (lookup : String → m (Option Value)) (locals : Scope), Unbroken (eval lookup locals part)
  /-- `typeof` has nothing to catch. -/
  typeOf : ∀ linked operand, whole.Part linked (.unary .typeOf operand) → ∀ (m : Type → Type) [Monad m] [LawfulMonad m]
    (lookup : String → m (Option Value)) (locals : Scope),
    endChain (eval lookup locals operand) = eval lookup locals operand
  /-- The evaluation as a whole has nothing to catch. -/
  evalWhole : ∀ (m : Type → Type) [Monad m] [LawfulMonad m] (lookup : String → m (Option Value)),
    ∃ y : m (Except RuntimeCause Value), (eval lookup [] whole).run = Except.mapError .cause <$> y ∧
      (evalWhole lookup whole).run = Except.mapError .noValue <$> y
  /-- A chain is ended by a link of its own that has met a nullish value, and is undefined then. -/
  chain : ∀ linked e, whole.Part linked (.chain e) → ∀ (lookup : String → Id (Option Value)) (locals : Scope),
    ((eval lookup locals e).run = .error .nullishLink ↔ Broken lookup locals e) ∧
    (Broken lookup locals e → (eval lookup locals (.chain e)).run = .ok .undefined) ∧
    (¬ Broken lookup locals e → (eval lookup locals (.chain e)).run = (eval lookup locals e).run)

/-- In what a text writes a nullish link ends its own chain and nothing else. -/
theorem catches_of_parse {source : String} {node : Node} (h : parse source = .ok node) : Catches node := by
  have hw := wellChained_of_parse h
  refine ⟨fun part hpart m _ _ lookup locals => ?_, fun linked operand hpart m _ _ lookup locals => ?_,
    fun m _ _ lookup => ?_, fun linked e hpart lookup locals => ?_⟩
  · exact unbroken_eval lookup part locals (hpart.wellChained hw)
  · exact (unbroken_eval lookup operand locals (hpart.wellChained hw)).endChain
  · obtain ⟨y, hy⟩ := unbroken_eval lookup node [] hw
    refine ⟨y, hy, ?_⟩
    rw [Expr.evalWhole, ExceptT.run_mk, hy, bind_map_left, map_eq_pure_bind]
    refine bind_congr fun r => ?_
    cases r <;> rfl
  · have he : e.mayBreak = true ∧ e.wellChained true = true := Bool.and_eq_true_iff.mp (hpart.wellChained hw)
    have hiff : (eval lookup locals e).run = .error .nullishLink ↔ Broken lookup locals e :=
      eval_eq_nullishLink_iff e he.2
    exact ⟨hiff, fun hb => run_chain_of_broken (hiff.mpr hb), fun hb => run_chain_of_ne fun hr => hb (hiff.mp hr)⟩

theorem catches_of_parse_typeof : ∃ node, parse "typeof a?.b[c?.d]" = .ok node ∧
    node = .unary .typeOf (.chain (.index (.member (.identifier "a") "b" true)
      (.chain (.member (.identifier "c") "d" true)) false)) ∧ Catches node := by
  have h : parse "typeof a?.b[c?.d]" = .ok (.unary .typeOf (.chain (.index (.member (.identifier "a") "b" true)
      (.chain (.member (.identifier "c") "d" true)) false))) := by rfl
  exact ⟨_, h, rfl, catches_of_parse h⟩

end FormRules.Expr
