import FormRules.Expr.Eval
import FormRules.Proofs.Value.Rearranged

/-!
# Evaluation does not see the order of entries

Operators, properties and methods give the same for values that differ in the order of the entries of mappings, and so
does every expression: what is looked up in that order comes out in it.
-/

namespace FormRules
open Value

/-- Two computations that fail alike, or give results that are related. -/
inductive Corresponds {ε α β : Type} (R : α → β → Prop) : Except ε α → Except ε β → Prop
  | ok {a : α} {b : β} (h : R a b) : Corresponds R (.ok a) (.ok b)
  | error (e : ε) : Corresponds R (.error e) (.error e)

namespace Corresponds
variable {ε α α' β β' : Type} {R : α → α' → Prop} {S : β → β' → Prop}

theorem refl {T : α → α → Prop} (hT : ∀ a, T a a) (x : Except ε α) : Corresponds T x x := by
  cases x with
  | error e => exact .error e
  | ok a => exact .ok (hT a)

theorem bind {x : Except ε α} {y : Except ε α'} {k : α → Except ε β} {l : α' → Except ε β'} (hx : Corresponds R x y)
    (hk : ∀ a b, R a b → Corresponds S (k a) (l b)) : Corresponds S (x >>= k) (y >>= l) := by
  cases hx with
  | ok h => exact hk _ _ h
  | error e => exact .error e

theorem mapError {δ : Type} {x : Except ε α} {y : Except ε α'} (f : ε → δ) (hx : Corresponds R x y) :
    Corresponds R (x.mapError f) (y.mapError f) := by
  cases hx with
  | ok h => exact .ok h
  | error e => exact .error (f e)

/-- It is so of computations in a transformer, too. -/
theorem run_bind {x : ExceptT ε Id α} {y : ExceptT ε Id α'} {k : α → ExceptT ε Id β} {l : α' → ExceptT ε Id β'}
    (hx : Corresponds R x.run y.run) (hk : ∀ a b, R a b → Corresponds S (k a).run (l b).run) :
    Corresponds S (x >>= k).run (y >>= l).run := by
  rw [ExceptT.run_bind, ExceptT.run_bind]
  generalize x.run = o at hx
  generalize y.run = o' at hx
  cases hx with
  | ok h => exact hk _ _ h
  | error e => exact .error e

end Corresponds

/-! ## Methods -/

namespace Method
variable {v w v' w' : Value} {args args' items items' : List Value} {cs : List Char}

theorem arg_rearranged (h : List.Forall₂ Rearranged args args') (i : Nat) : Rearranged (arg args i) (arg args' i) := by
  unfold arg
  induction h generalizing i with
  | nil => exact .same _
  | cons hab _ ih =>
    cases i with
    | zero => exact hab
    | succ i => exact ih i

theorem position_eq (h : Rearranged v w) (default : Int) : position v default = position w default := by
  have hnumber := h.toNumber_eq
  cases h with
  | same => rfl
  | seq => exact congrArg Number.toPosition hnumber
  | map => rfl

theorem slice_eq {α : Type} (xs : List α) (hv : Rearranged v v') (hw : Rearranged w w') : slice xs v w = slice xs v' w' := by
  rw [slice, slice, position_eq hv, position_eq hw, hw.isUndefined_eq]

theorem padding?_eq (length : Int) (h : Rearranged v w) : padding? cs length v = padding? cs length w := by
  unfold padding?
  rw [h.isUndefined_eq, h.toText_eq]

theorem split_eq (hv : Rearranged v v') (hw : Rearranged w w') : split cs v w = split cs v' w' := by
  unfold split
  rw [hv.isUndefined_eq, hv.toText_eq, hw.isUndefined_eq, position_eq hw]

theorem flatMap_toText_eq (h : List.Forall₂ Rearranged args args') :
    args.flatMap (fun a => a.toText.toList) = args'.flatMap fun a => a.toText.toList := by
  induction h with
  | nil => rfl
  | cons hab _ ih => rw [List.flatMap_cons, List.flatMap_cons, hab.toText_eq, ih]

theorem callText_eq (h : List.Forall₂ Rearranged args args') (name : String) :
    callText cs name args = callText cs name args' := by
  have hlength := h.length_eq
  have hfirst := arg_rearranged h 0
  have hsecond := arg_rearranged h 1
  unfold callText
  simp only [hlength, hfirst.toText_eq, hsecond.toText_eq, hsecond.isUndefined_eq, position_eq hfirst, position_eq hsecond,
    slice_eq cs hfirst hsecond, split_eq hfirst hsecond, padding?_eq _ hsecond, flatMap_toText_eq h]

theorem callNumber_eq (n : Number) (h : List.Forall₂ Rearranged args args') (name : String) :
    callNumber n name args = callNumber n name args' := by
  have hfirst := arg_rearranged h 0
  unfold callNumber toFixed numberText
  simp only [h.length_eq, position_eq hfirst, hfirst.isUndefined_eq]

theorem any_eq {p q : Value → Bool} (h : List.Forall₂ Rearranged items items')
    (hpq : ∀ a b, Rearranged a b → p a = q b) : items.any p = items'.any q := by
  induction h with
  | nil => rfl
  | cons hab _ ih => rw [List.any_cons, List.any_cons, hpq _ _ hab, ih]

theorem includesItem_eq (h : List.Forall₂ Rearranged items items') (hv : Rearranged v w) :
    includesItem items v = includesItem items' w := by
  have heq : items.any (·.strictEq v) = items'.any (·.strictEq w) := any_eq h fun a b hab => hab.strictEq_eq hv
  cases hv with
  | same =>
    unfold includesItem
    split
    · exact any_eq h fun a b hab => by cases hab <;> rfl
    · exact heq
  | seq => exact heq
  | map => exact heq

theorem indexOfItem_eq (h : List.Forall₂ Rearranged items items') (hv : Rearranged v w) (i : Nat) :
    indexOfItem v i items = indexOfItem w i items' := by
  induction h generalizing i with
  | nil => rfl
  | cons hab _ ih => rw [indexOfItem, indexOfItem, hab.strictEq_eq hv, ih]

theorem lastIndexOfItem_eq (h : List.Forall₂ Rearranged items items') (hv : Rearranged v w) :
    lastIndexOfItem v items = lastIndexOfItem w items' := by
  rw [lastIndexOfItem, lastIndexOfItem, indexOfItem_eq (List.rel_reverse h) hv, h.length_eq]

theorem concatItems_rearranged (h : List.Forall₂ Rearranged items items') (hargs : List.Forall₂ Rearranged args args') :
    List.Forall₂ Rearranged (concatItems items args) (concatItems items' args') := by
  refine List.rel_append h (List.rel_flatMap hargs fun a b hab => ?_)
  cases hab with
  | same =>
    split
    · exact Rearranged.same_items _
    · exact .cons (.same _) .nil
  | seq hlength h => exact Rearranged.itemwise hlength h
  | map has hbs hkeys h => exact .cons (.map has hbs hkeys h) .nil

theorem slice_rearranged (h : List.Forall₂ Rearranged items items') (hv : Rearranged v v') (hw : Rearranged w w') :
    List.Forall₂ Rearranged (slice items v w) (slice items' v' w') := by
  unfold slice between
  rw [position_eq hv, position_eq hw, hw.isUndefined_eq, h.length_eq]
  exact List.forall₂_drop _ (List.forall₂_take _ h)

theorem callSequence_rearranged {kind : SeqKind} (h : List.Forall₂ Rearranged items items')
    (hargs : List.Forall₂ Rearranged args args') (name : String) :
    Corresponds Rearranged (callSequence kind items name args) (callSequence kind items' name args') := by
  have hfirst := arg_rearranged hargs 0
  have hsecond := arg_rearranged hargs 1
  have within {v w : Value} (least most : Nat) (hv : Rearranged v w) :
      Corresponds Rearranged (if least ≤ args.length ∧ args.length ≤ most then .ok v else .error (RuntimeCause.methodFailed name))
        (if least ≤ args'.length ∧ args'.length ≤ most then .ok w else .error (RuntimeCause.methodFailed name)) := by
    rw [hargs.length_eq]
    split
    · exact .ok hv
    · exact .error _
  have same {v w : Value} (h : v = w) : Rearranged v w := h ▸ .same v
  unfold callSequence
  dsimp only
  split
  · exact .ok (.of_items (concatItems_rearranged h hargs))
  · exact within 1 1 (same (by rw [includesItem_eq h hfirst]))
  · refine within 1 2 (same ?_)
    rw [position_eq hsecond, h.length_eq, indexOfItem_eq (List.forall₂_drop _ h) hfirst]
  · refine within 0 1 (same ?_)
    rw [hfirst.isUndefined_eq, hfirst.toText_eq,
      Rearranged.itemTexts_eq (h.imp fun a b hab => ⟨hab.isNullish_eq, hab.toText_eq⟩)]
  · exact within 1 1 (same (by rw [lastIndexOfItem_eq h hfirst]))
  · exact within 0 2 (.of_items (slice_rearranged h hfirst hsecond))
  · exact within 0 0 (same (by rw [(Rearranged.of_items h).toText_eq]))
  · exact .error _

theorem call_rearranged (hv : Rearranged v w) (hargs : List.Forall₂ Rearranged args args') (name : String) :
    Corresponds Rearranged (call v name args) (call w name args') := by
  cases hv with
  | same =>
    cases v with
    | text s => rw [call, call, callText_eq hargs]; exact .refl .same _
    | num n => rw [call, call, callNumber_eq n hargs]; exact .refl .same _
    | seq kind items => exact callSequence_rearranged (Rearranged.same_items items) hargs name
    | _ => exact .error _
  | seq hlength h =>
    exact callSequence_rearranged (Rearranged.itemwise hlength h) hargs name
  | map => exact .error _

end Method

/-! ## Operators and properties -/

namespace Expr
variable {v w v' w' : Value}

theorem ofValue_eq (h : Rearranged v w) : PropertyKey.ofValue v = PropertyKey.ofValue w := by
  have htext := h.toText_eq
  cases h with
  | same => rfl
  | seq => exact congrArg PropertyKey.name htext
  | map => rfl

theorem lookUp?_rearranged {as bs : Entries} (h : ∀ k, Option.Rel Rearranged (Table.get? as k) (Table.get? bs k))
    (key : PropertyKey) : Option.Rel Rearranged (lookUp? as key) (lookUp? bs key) := by
  cases key with
  | name s => exact h _
  | number n =>
    have hindex : Option.Rel Rearranged ((Key.ofNumber? n).bind (Table.get? as))
        ((Key.ofNumber? n).bind (Table.get? bs)) := by
      cases Key.ofNumber? n with
      | none => exact .none
      | some k => exact h k
    rw [lookUp?, lookUp?]
    rcases Rearranged.rel_cases hindex with ⟨ha, hb⟩ | ⟨a, b, ha, hb, hab⟩
    · rw [ha, hb]
      exact h _
    · rw [ha, hb]
      exact .some hab

theorem property_rearranged (h : Rearranged v w) (key : PropertyKey) : Rearranged (property v key) (property w key) := by
  cases h with
  | same => exact .same _
  | @seq kind as bs hlength h =>
    have hitems := Rearranged.itemwise hlength h
    have hitem : Rearranged ((key.position?.bind (item? as)).getD .undefined)
        ((key.position?.bind (item? bs)).getD .undefined) := by
      refine Rearranged.getD ?_ _
      cases key.position? with
      | none => exact .none
      | some i => exact Rearranged.item? hitems i
    unfold property
    cases key with
    | name s =>
      dsimp only
      rw [hlength]
      split
      · exact .same _
      · exact hitem
    | number n => exact hitem
  | @map as bs has hbs hkeys h =>
    exact Rearranged.getD (lookUp?_rearranged (Rearranged.map has hbs hkeys h).entries key) _

theorem readProperty_rearranged (h : Rearranged v w) (key : PropertyKey) :
    Corresponds Rearranged (readProperty v key) (readProperty w key) := by
  have hproperty := property_rearranged h key
  unfold readProperty
  rw [h.isNullish_eq]
  split
  · exact .ok (.same _)
  · split
    · split
      · exact .error _
      · exact .ok hproperty
    · exact .ok hproperty

theorem concatenates_eq (h : Rearranged v w) : concatenates v = concatenates w := by cases h <;> rfl

theorem ordered_eq (hv : Rearranged v v') (hw : Rearranged w w') (texts : String → String → Bool)
    (numbers : Number → Number → Bool) : ordered v w texts numbers = ordered v' w' texts numbers := by
  have hleft := hv.toNumber_eq
  have hright := hw.toNumber_eq
  cases hv with
  | same =>
    cases hw with
    | same => rfl
    | _ => cases v <;> simp only [ordered, hright]
  | _ => simp only [ordered, hleft, hright]

theorem applyBinary_eq (op : BinaryOp) (hv : Rearranged v v') (hw : Rearranged w w') :
    applyBinary op v w = applyBinary op v' w' := by
  cases op <;> simp only [applyBinary, concatenates_eq hv, concatenates_eq hw, hv.toText_eq, hw.toText_eq, hv.toNumber_eq,
    hw.toNumber_eq, hv.strictEq_eq hw, hv.looseEq_eq hw, ordered_eq hv hw]

theorem applyUnary_eq (op : UnaryOp) (h : Rearranged v w) : applyUnary op v = applyUnary op w := by
  cases op <;> simp only [applyUnary, h.truthy_eq, h.toNumber_eq, h.typeName_eq]

theorem decides_eq (op : LogicalOp) (h : Rearranged v w) : LogicalOp.decides op v = LogicalOp.decides op w := by
  cases op <;> simp only [LogicalOp.decides, h.truthy_eq, h.isNullish_eq]

theorem admitMethod_eq (h : Rearranged v w) (name : String) : admitMethod v name = admitMethod w name := by
  have hallowed : Method.isAllowed v name = Method.isAllowed w name := by cases h <;> rfl
  rw [admitMethod, admitMethod, hallowed]

theorem callMethod_rearranged {args args' : List Value} (hv : Rearranged v w) (hargs : List.Forall₂ Rearranged args args')
    (name : String) : Corresponds Rearranged (callMethod v name args) (callMethod w name args') :=
  (Method.call_rearranged hv hargs name).mapError _

/-! ## Expressions -/

variable {f g : String → Id (Option Value)} {locals locals' : Scope}

/-- Two look-ups, under declarations, that give the same in another order. -/
def Reorders (f g : String → Id (Option Value)) (locals locals' : Scope) : Prop :=
  ∀ name, Corresponds Rearranged (readName f locals name).run (readName g locals' name).run

theorem Reorders.declare (h : Reorders f g locals locals') (name : String) (hv : Rearranged v w) :
    Reorders f g ((name, v) :: locals) ((name, w) :: locals') := by
  intro n
  unfold readName
  rw [List.lookup_cons, List.lookup_cons]
  cases n == name with
  | true => exact .ok hv
  | false => exact h n

theorem endChain_rearranged {x y : ExceptT Stop Id Value} (h : Corresponds Rearranged x.run y.run) :
    Corresponds Rearranged (endChain x).run (endChain y).run := by
  unfold endChain
  generalize x.run = o at h ⊢
  generalize y.run = o' at h ⊢
  cases h with
  | ok h => exact .ok h
  | error e =>
    cases e with
    | cause c => exact .error _
    | nullishLink => exact .ok (.same _)

theorem admitted_rearranged (h : Rearranged v w) (name : String) {x y : ExceptT Stop Id Value}
    (hxy : Corresponds Rearranged x.run y.run) :
    Corresponds Rearranged (ExceptT.mk (pure (admitMethod v name)) >>= fun _ => x).run
      (ExceptT.mk (pure (admitMethod w name)) >>= fun _ => y).run := by
  rw [admitMethod_eq h]
  exact .run_bind (R := Eq) (.refl (fun _ => rfl) _) fun _ _ _ => hxy

mutual

theorem eval_rearranged (node : Node) (locals locals' : Scope) (h : Reorders f g locals locals') :
    Corresponds Rearranged (eval f locals node).run (eval g locals' node).run := by
  cases node with
  | literal l =>
    rw [eval, eval]
    exact .ok (.same _)
  | identifier name =>
    rw [eval, eval]
    exact h name
  | array es =>
    rw [eval, eval]
    exact (evalAll_rearranged es locals locals' h).run_bind fun vs ws hvs => .ok (.of_items hvs)
  | member o p optional =>
    rw [eval, eval]
    refine (eval_rearranged o locals locals' h).run_bind fun v w hv => ?_
    rw [hv.isNullish_eq]
    split
    · exact .error _
    · exact readProperty_rearranged hv (.name p)
  | index o i optional =>
    rw [eval, eval]
    refine (eval_rearranged o locals locals' h).run_bind fun v w hv => ?_
    rw [hv.isNullish_eq]
    split
    · exact .error _
    · exact (eval_rearranged i locals locals' h).run_bind fun a b hab => by
        rw [ofValue_eq hab]
        exact readProperty_rearranged hv _
  | call c args optional =>
    have hargs := evalAll_rearranged args locals locals' h
    cases c with
    | member o p optionalMember =>
      rw [eval, eval]
      refine (eval_rearranged o locals locals' h).run_bind fun v w hv => ?_
      rw [hv.isNullish_eq, hv.toText_eq]
      split
      · split
        · exact .error _
        · exact .error _
      · exact admitted_rearranged hv p (hargs.run_bind fun vs ws hvs => callMethod_rearranged hv hvs p)
    | index o i optionalMember =>
      have hi := eval_rearranged i locals locals' h
      rw [eval, eval]
      refine (eval_rearranged o locals locals' h).run_bind fun v w hv => ?_
      rw [hv.isNullish_eq, hv.toText_eq]
      split
      · split
        · exact .error _
        · exact hi.run_bind fun a b hab => by
            rw [hab.toText_eq]
            exact .error _
      · exact hi.run_bind fun a b hab => by
          rw [hab.toText_eq]
          exact admitted_rearranged hv _ (hargs.run_bind fun vs ws hvs => callMethod_rearranged hv hvs _)
    | _ =>
      simp only [eval]
      exact .error _
  | chain e =>
    rw [eval, eval]
    exact endChain_rearranged (eval_rearranged e locals locals' h)
  | unary op e =>
    have he := eval_rearranged e locals locals' h
    have applied : Corresponds Rearranged (eval f locals e >>= fun v => pure (applyUnary op v)).run
        (eval g locals' e >>= fun v => pure (applyUnary op v)).run :=
      he.run_bind fun v w hv => by
        rw [applyUnary_eq op hv]
        exact .ok (.same _)
    cases op with
    | typeOf =>
      rw [eval, eval]
      refine (endChain_rearranged he).run_bind fun v w hv => ?_
      rw [hv.typeName_eq]
      exact .ok (.same _)
    | _ =>
      simp only [eval]
      exact applied
  | binary op l r =>
    rw [eval, eval]
    refine (eval_rearranged l locals locals' h).run_bind fun v w hv => ?_
    refine (eval_rearranged r locals locals' h).run_bind fun v' w' hv' => ?_
    rw [applyBinary_eq op hv hv']
    exact .refl .same _
  | logical op l r =>
    rw [eval, eval]
    refine (eval_rearranged l locals locals' h).run_bind fun v w hv => ?_
    rw [decides_eq op hv]
    split
    · exact .ok hv
    · exact eval_rearranged r locals locals' h
  | conditional t c a =>
    rw [eval, eval]
    refine (eval_rearranged t locals locals' h).run_bind fun v w hv => ?_
    rw [hv.truthy_eq]
    split
    · exact eval_rearranged c locals locals' h
    · exact eval_rearranged a locals locals' h
  | invoked b =>
    rw [eval, eval]
    exact evalBody_rearranged b locals locals' [] h

theorem evalAll_rearranged (es : List Node) (locals locals' : Scope) (h : Reorders f g locals locals') :
    Corresponds (List.Forall₂ Rearranged) (evalAll f locals es).run (evalAll g locals' es).run := by
  cases es with
  | nil =>
    rw [evalAll, evalAll]
    exact .ok .nil
  | cons e es =>
    rw [evalAll, evalAll]
    exact (eval_rearranged e locals locals' h).run_bind fun v w hv =>
      (evalAll_rearranged es locals locals' h).run_bind fun vs ws hvs => .ok (.cons hv hvs)

theorem evalBody_rearranged (body : Body) (locals locals' : Scope) (declared : List String)
    (h : Reorders f g locals locals') :
    Corresponds Rearranged (evalBody f locals declared body).run (evalBody g locals' declared body).run := by
  cases body with
  | result v =>
    rw [evalBody, evalBody]
    exact eval_rearranged v locals locals' h
  | declare kind name v rest =>
    rw [evalBody, evalBody]
    split
    · exact .error _
    · exact (eval_rearranged v locals locals' h).run_bind fun a b hab =>
        evalBody_rearranged rest _ _ (name :: declared) (h.declare name hab)

end

/-- Whether two scopes give the same for every name, up to the order of entries. -/
def ScopesRearranged (s t : Scope) : Prop := ∀ name, Option.Rel Rearranged (s.lookup name) (t.lookup name)

/-- An expression gives the same in scopes that give the same. -/
theorem valueIn_rearranged {s t : Scope} (h : ScopesRearranged s t) (node : Node) :
    Corresponds Rearranged (valueIn s node) (valueIn t node) := by
  have hreads : Reorders (fun name => pure (s.lookup name)) (fun name => pure (t.lookup name)) [] [] :=
    fun name => .ok (Rearranged.getD (h name) .undefined)
  have heval := eval_rearranged node [] [] hreads
  unfold valueIn evalWhole
  generalize (eval (m := Id) (fun name => pure (s.lookup name)) [] node).run = o at heval ⊢
  generalize (eval (m := Id) (fun name => pure (t.lookup name)) [] node).run = o' at heval ⊢
  cases heval with
  | ok h => exact .ok h
  | error e =>
    cases e with
    | cause c => exact .error _
    | nullishLink => exact .ok (.same _)

end Expr
end FormRules
