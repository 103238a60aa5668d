import FormRules.Proofs.Expr.Tokens

/-!
# What holds of all expressions that a text writes

A property of expressions that passes from parts to the whole (`Formed`) holds of what a text writes as soon as it
holds of chains, which start from names. Every level of the grammar takes a character before it comes to an
expression inside of it, so that a bound for the depth that is larger than the text is never used up.
-/

namespace FormRules.Expr

/-- Whether a property holds of a link's expressions. -/
def Parser.Link.Of (A : Node → Prop) : Parser.Link → Prop
  | .member _ _ => True
  | .index i _ => A i
  | .call as _ => ∀ a ∈ as, A a

/-- A property that literals have, and that passes from the parts of an expression to it, chains aside. -/
structure Formed (A : Node → Prop) : Prop where
  literal : ∀ l, A (.literal l)
  array : ∀ es, (∀ e ∈ es, A e) → A (.array es)
  unary : ∀ op e, A e → A (.unary op e)
  binary : ∀ op l r, A l → A r → A (.binary op l r)
  logical : ∀ op l r, A l → A r → A (.logical op l r)
  conditional : ∀ t c a, A t → A c → A a → A (.conditional t c a)
  invoked : ∀ (ds : List (DeclarationKind × String × Node)) result, (∀ d ∈ ds, A d.2.2) → A result →
    A (.invoked (ds.foldr (fun d rest => .declare d.1 d.2.1 d.2.2 rest) (.result result)))

/-- A property that passes along chains as well. -/
structure Closed (A : Node → Prop) : Prop extends Formed A where
  attach : ∀ receiver (l : Parser.Link), A receiver → l.Of A → A (l.attach receiver)
  chain : ∀ e, A e → A (.chain e)

namespace Closed
variable {A : Node → Prop} (hA : Closed A)
include hA

theorem foldl_attach {receiver : Node} {links : List Parser.Link} (hr : A receiver) (hl : ∀ l ∈ links, l.Of A) :
    A (links.foldl Parser.Link.attach receiver) := by
  induction links generalizing receiver with
  | nil => exact hr
  | cons l links ih =>
    obtain ⟨hl, hlinks⟩ := List.forall_mem_cons.mp hl
    exact ih (hA.attach receiver l hr hl) hlinks

theorem attachAll_of_foldl {receiver : Node} {links : List Parser.Link} (h : A (links.foldl Parser.Link.attach receiver)) :
    A (Parser.attachAll receiver links) := by
  unfold Parser.attachAll
  dsimp only
  split
  · exact hA.chain _ h
  · exact h

theorem attachAll {receiver : Node} {links : List Parser.Link} (hr : A receiver) (hl : ∀ l ∈ links, l.Of A) :
    A (Parser.attachAll receiver links) :=
  hA.attachAll_of_foldl (hA.foldl_attach hr hl)

end Closed

/-! ## Places -/

/-- A place at which a name may stand, with fewer characters left than the bound. -/
def FreshBelow (text : List Char) (n : Nat) (cs : List Char) : Prop := Fresh text cs ∧ cs.length < n

/-- A place in the text with fewer characters left than the bound. -/
def WithinBelow (text : List Char) (n : Nat) (cs : List Char) : Prop := Within text cs ∧ cs.length < n

variable {text cs rest : List Char} {n : Nat}

theorem FreshBelow.within (h : FreshBelow text n cs) : WithinBelow text n cs := h.imp_left Fresh.within

theorem FreshBelow.succ (h : FreshBelow text n cs) : FreshBelow text (n + 1) cs := h.imp_right Nat.lt_succ_of_lt

theorem WithinBelow.succ (h : WithinBelow text n cs) : WithinBelow text (n + 1) cs := h.imp_right Nat.lt_succ_of_lt

theorem FreshBelow.skip (h : FreshBelow text n cs) : FreshBelow text n (cs.dropWhile Parser.isSpace) :=
  h.imp Fresh.skip ((List.dropWhile_suffix _).length_le.trans_lt ·)

theorem WithinBelow.skip (h : WithinBelow text n cs) : WithinBelow text n (cs.dropWhile Parser.isSpace) :=
  h.imp Within.skip ((List.dropWhile_suffix _).length_le.trans_lt ·)

theorem WithinBelow.suffix (h : WithinBelow text n cs) (hs : rest <:+ cs) : WithinBelow text n rest :=
  h.imp (·.suffix hs) hs.length_le.trans_lt

namespace Parser
open Token

theorem gives_breaking {α : Type} {t : Token α} (ht : t.Breaks) :
    Gives (WithinBelow text (n + 1)) (token t) (fun _ => True) (FreshBelow text n) := by
  refine Gives.token fun cs hcs a rest h => ⟨trivial, ?_⟩
  obtain ⟨taken, hne, heq, hborder, hlast⟩ := ht _ a rest h
  have hw := hcs.skip
  rw [← heq] at hw
  refine ⟨hw.1.fresh hne hborder hlast, ?_⟩
  have hlength := hw.2
  have hpos := List.length_pos_iff.mpr hne
  rw [List.length_append] at hlength
  omega

theorem gives_taking {α : Type} {t : Token α} (ht : t.Takes) :
    Gives (WithinBelow text n) (token t) (fun _ => True) (WithinBelow text n) :=
  Gives.token fun _ hcs a rest h => ⟨trivial, hcs.skip.suffix (ht _ a rest h)⟩

theorem gives_closing {p : String} : Gives (WithinBelow text n) (mark p) (fun _ => True) (WithinBelow text n) :=
  gives_taking (takes_exactly p)

theorem gives_optionalMark {p : String} :
    Gives (WithinBelow text n) (optional (mark p)) (fun _ => True) (WithinBelow text n) :=
  (gives_closing.optional fun _ h => h).value fun _ _ => trivial

section
variable {p : String} {a : Char} (hp : p.toList.getLast? = some a) (ha : endsMark a = true)
include hp ha

theorem gives_mark : Gives (WithinBelow text (n + 1)) (mark p) (fun _ => True) (FreshBelow text n) :=
  gives_breaking (breaks_exactly hp ha)

theorem gives_opening : Gives (FreshBelow text (n + 1)) (mark p) (fun _ => True) (FreshBelow text n) :=
  (gives_mark hp ha).before fun _ h => h.within

end

/-- What holds of the value of an optional part holds of its list, empty if there is none. -/
theorem forall_mem_getD {α : Type} {A : α → Prop} {o : Option (List α)} (h : ∀ as ∈ o, ∀ a ∈ as, A a) :
    ∀ a ∈ o.getD [], A a := by
  cases o with
  | none => exact nofun
  | some as => exact h as rfl

section Levels
variable {A : Node → Prop} {expr : Parser Node} (he : Gives (FreshBelow text n) expr A (WithinBelow text n))
include he

theorem gives_listed : Gives (FreshBelow text n) (listed expr) (fun es => ∀ e ∈ es, A e) (WithinBelow text n) := by
  have hnext : Gives (WithinBelow text n) (do mark ","; expr) A (WithinBelow text n) :=
    ((gives_mark rfl rfl).before fun _ h => h.succ).bind fun _ _ => he
  refine Gives.bind he fun first hfirst => ?_
  refine Gives.bind hnext.many fun more hmore => ?_
  exact Gives.pure (List.forall_mem_cons.mpr ⟨hfirst, hmore⟩)

theorem gives_group : Gives (FreshBelow text (n + 1)) (group expr) A (WithinBelow text (n + 1)) := by
  refine Gives.bind (gives_opening rfl rfl) fun _ _ => ?_
  refine Gives.bind he fun e hnamed => ?_
  exact Gives.bind (gives_closing.after fun _ h => h.succ) fun _ _ => Gives.pure hnamed

theorem gives_bracketed : Gives (WithinBelow text (n + 1)) (bracketed expr) A (WithinBelow text (n + 1)) := by
  refine Gives.bind (gives_mark rfl rfl) fun _ _ => ?_
  refine Gives.bind he fun i hi => ?_
  exact Gives.bind (gives_closing.after fun _ h => h.succ) fun _ _ => Gives.pure hi

theorem gives_arguments :
    Gives (WithinBelow text (n + 1)) (arguments expr) (fun as => ∀ a ∈ as, A a) (WithinBelow text (n + 1)) := by
  refine Gives.bind (gives_mark rfl rfl) fun _ _ => ?_
  refine Gives.bind ((gives_listed he).optional fun _ h => h.within) fun args hargs => ?_
  exact Gives.bind (gives_closing.after fun _ h => h.succ) fun _ _ => Gives.pure (forall_mem_getD hargs)

theorem gives_link : Gives (WithinBelow text (n + 1)) (link expr) (Link.Of A) (WithinBelow text (n + 1)) := by
  have hoptional : Gives (WithinBelow text (n + 1)) (token optionalLink) (fun _ => True) (WithinBelow text (n + 1)) :=
    gives_taking (takes_exactly _).notBefore
  refine Gives.firstOf ?_
  simp only [List.forall_mem_cons]
  refine ⟨?_, ?_, ?_, ?_, ?_, ?_, nofun⟩
  · exact hoptional.bind fun _ _ => (gives_bracketed he).bind fun i hi => Gives.pure hi
  · exact hoptional.bind fun _ _ => (gives_arguments he).bind fun as has => Gives.pure has
  · exact hoptional.bind fun _ _ => (gives_taking takes_propertyName).bind fun p _ => Gives.pure trivial
  · exact gives_closing.bind fun _ _ => (gives_taking takes_propertyName).bind fun p _ => Gives.pure trivial
  · exact (gives_bracketed he).bind fun i hi => Gives.pure hi
  · exact (gives_arguments he).bind fun as has => Gives.pure has

theorem gives_declaration :
    Gives (WithinBelow text n) (declaration expr) (fun d => A d.2.2) (WithinBelow text n) := by
  refine Gives.bind (gives_taking breaks_declarationKind.takes) fun kind _ => ?_
  refine Gives.bind (gives_taking takes_identifier) fun name _ => ?_
  have hdeclares : (Token.declares).Breaks := (breaks_exactly rfl rfl).notBefore
  refine Gives.bind ((gives_breaking hdeclares).before fun _ h => h.succ) fun _ _ => ?_
  refine Gives.bind he fun value hvalue => ?_
  exact Gives.bind gives_optionalMark fun _ _ => Gives.pure hvalue

/-- The body of a function; what it invokes has the property. -/
theorem gives_functionBody (hA : Formed A) :
    Gives (WithinBelow text n) (functionBody expr) (fun b => A (.invoked b)) (WithinBelow text n) := by
  refine Gives.bind gives_closing fun _ _ => ?_
  refine Gives.bind (gives_declaration he).many fun ds hds => ?_
  have hreturn : (Token.word "return").Breaks := breaks_word (by decide)
  refine Gives.bind ((gives_breaking hreturn).before fun _ h => h.succ) fun _ _ => ?_
  refine Gives.bind he fun result hresult => ?_
  refine Gives.bind gives_optionalMark fun _ _ => ?_
  exact Gives.bind gives_closing fun _ _ => Gives.pure (hA.invoked ds result hds hresult)

theorem gives_arrowFunction (hA : Formed A) :
    Gives (WithinBelow text n) (arrowFunction expr) (fun b => A (.invoked b)) (WithinBelow text n) := by
  refine Gives.bind gives_closing fun _ _ => ?_
  refine Gives.bind gives_closing fun _ _ => ?_
  refine Gives.bind ((gives_mark rfl rfl).before fun _ h => h.succ) fun _ _ => ?_
  refine ((gives_functionBody he hA).before fun _ h => h.within).orElse ?_
  exact Gives.andThen he fun e hnamed => Gives.found (hA.invoked [] e nofun hnamed)

theorem gives_functionExpression (hA : Formed A) :
    Gives (WithinBelow text n) (functionExpression expr) (fun b => A (.invoked b)) (WithinBelow text n) := by
  refine Gives.bind (gives_taking (breaks_word (by decide)).takes) fun _ _ => ?_
  refine Gives.bind gives_closing fun _ _ => ?_
  exact Gives.bind gives_closing fun _ _ => gives_functionBody he hA

theorem gives_invocation (hA : Formed A) :
    Gives (FreshBelow text (n + 1)) (invocation expr) A (WithinBelow text (n + 1)) := by
  refine Gives.bind ((gives_opening rfl rfl).after fun _ h => h.within) fun _ _ => ?_
  refine Gives.bind ((gives_arrowFunction he hA).orElse (gives_functionExpression he hA)) fun body hbody => ?_
  refine Gives.bind gives_closing fun _ _ => ?_
  refine Gives.bind gives_closing fun _ _ => ?_
  exact Gives.bind (gives_closing.after fun _ h => h.succ) fun _ _ => Gives.pure hbody

theorem gives_arrayLiteral (hA : Formed A) :
    Gives (FreshBelow text (n + 1)) (arrayLiteral expr) A (WithinBelow text (n + 1)) := by
  have helements : Gives (FreshBelow text n) (do
      let es ← listed expr
      let _ ← optional (mark ",")
      return es) (fun es => ∀ e ∈ es, A e) (WithinBelow text n) := by
    refine Gives.bind (gives_listed he) fun es hes => ?_
    exact Gives.bind gives_optionalMark fun _ _ => Gives.pure hes
  refine Gives.bind (gives_opening rfl rfl) fun _ _ => ?_
  refine Gives.bind (helements.optional fun _ h => h.within) fun elements hes => ?_
  exact Gives.bind (gives_closing.after fun _ h => h.succ) fun _ _ => Gives.pure (hA.array _ (forall_mem_getD hes))

/-- A chain starts from something with the property, or from a name. -/
theorem gives_primary (hA : Formed A) : GivesAt (FreshBelow text (n + 1)) (primary expr) fun node rest =>
    A node ∧ WithinBelow text (n + 1) rest ∨
      ∃ w cs, FreshBelow text (n + 1) cs ∧ identifier cs = some (w, rest) ∧ node = .identifier w := by
  have other {p : Parser Node} (h : Gives (FreshBelow text (n + 1)) p A (WithinBelow text (n + 1))) :
      GivesAt (FreshBelow text (n + 1)) p fun node rest => A node ∧ WithinBelow text (n + 1) rest ∨
        ∃ w cs, FreshBelow text (n + 1) cs ∧ identifier cs = some (w, rest) ∧ node = .identifier w :=
    fun cs hcs node rest hrun => .inl (h cs hcs node rest hrun)
  have literal {t : Token Literal} (ht : t.Takes) :
      Gives (FreshBelow text (n + 1)) (Node.literal <$> token t) A (WithinBelow text (n + 1)) :=
    ((gives_taking ht).map fun l _ => hA.literal l).before fun _ h => h.within
  refine GivesAt.firstOf ?_
  simp only [List.forall_mem_cons]
  refine ⟨other (gives_invocation he hA), other (literal takes_number), other (literal takes_quotedText),
    other (literal breaks_keyword.takes), other (gives_arrayLiteral he hA), ?_, other (gives_group he), nofun⟩
  have hname : GivesAt (FreshBelow text (n + 1)) (token identifier) fun w rest =>
      ∃ cs, FreshBelow text (n + 1) cs ∧ identifier cs = some (w, rest) :=
    GivesAt.token fun cs hcs w rest h => ⟨_, hcs.skip, h⟩
  exact hname.map fun w rest ⟨cs, hcs, h⟩ => .inr ⟨w, cs, hcs, h, rfl⟩

/-- Chains whose receivers and links have a property have it, if it passes along links. -/
theorem gives_postfixLevel (hA : Formed A)
    (hname : ∀ cs w rest, Fresh text cs → identifier cs = some (w, rest) → A (.identifier w))
    (hattach : ∀ receiver links, A receiver → (∀ l ∈ links, l.Of A) → A (attachAll receiver links)) :
    Gives (FreshBelow text (n + 1)) (postfixLevel expr) A (WithinBelow text (n + 1)) := by
  have hprimary : Gives (FreshBelow text (n + 1)) (primary expr) A (WithinBelow text (n + 1)) := by
    intro cs hcs node rest hrun
    rcases gives_primary he hA cs hcs node rest hrun with h | ⟨w, cs, hcs, hid, rfl⟩
    · exact h
    · exact ⟨hname cs w rest hcs.1 hid, hcs.within.suffix (takes_identifier _ _ _ hid)⟩
  refine hprimary.bind fun receiver hr => ?_
  exact (gives_link he).many.bind fun links hl => Gives.pure (hattach receiver links hr hl)

end Levels

/-- Operators between operands. -/
theorem gives_leftAssoc {A : Node → Prop} {ω : Type} {operand : Parser Node} {op : Token ω} {make : ω → Node → Node → Node}
    (ho : Gives (FreshBelow text n) operand A (WithinBelow text n)) (hop : op.Breaks)
    (hmake : ∀ o l r, A l → A r → A (make o l r)) :
    Gives (FreshBelow text n) (leftAssoc operand op make) A (WithinBelow text n) := by
  have hstep : Gives (WithinBelow text n) (do
      let o ← token op
      let right ← operand
      return (o, right)) (fun s => A s.2) (WithinBelow text n) :=
    ((gives_breaking hop).before fun _ h => h.succ).bind fun _ _ => ho.bind fun right hright => Gives.pure hright
  refine Gives.bind ho fun first hfirst => ?_
  refine Gives.bind hstep.many fun steps hsteps => Gives.pure ?_
  induction steps generalizing first with
  | nil => exact hfirst
  | cons s steps ih =>
    obtain ⟨hs, hsteps⟩ := List.forall_mem_cons.mp hsteps
    exact ih _ (hmake _ _ _ hfirst hs) hsteps

section
variable {A : Node → Prop} (hA : Formed A) {expr : Parser Node}
  (hchain : Gives (FreshBelow text (n + 1)) (postfixLevel expr) A (WithinBelow text (n + 1)))
include hA hchain

theorem gives_unaryLevel : Gives (FreshBelow text (n + 1)) (unaryLevel expr) A (WithinBelow text (n + 1)) := by
  have hop : Gives (FreshBelow text (n + 1)) (token unaryOp) (fun _ => True) (FreshBelow text (n + 1)) :=
    (gives_breaking breaks_unaryOp).weaken (fun _ h => h.within) (fun _ h => h) fun _ h => h.succ
  refine Gives.bind hop.many fun ops _ => ?_
  refine Gives.bind hchain fun operand hoperand => Gives.pure ?_
  induction ops with
  | nil => exact hoperand
  | cons op ops ih => exact hA.unary op _ (ih fun _ _ => trivial)

theorem gives_nullishLevel : Gives (FreshBelow text (n + 1)) (nullishLevel expr) A (WithinBelow text (n + 1)) := by
  have hproducts : Gives (FreshBelow text (n + 1)) (multiplicativeLevel expr) A (WithinBelow text (n + 1)) :=
    gives_leftAssoc (gives_unaryLevel hA hchain) breaks_multiplicativeOp hA.binary
  have hsums : Gives (FreshBelow text (n + 1)) (additiveLevel expr) A (WithinBelow text (n + 1)) :=
    gives_leftAssoc hproducts breaks_additiveOp hA.binary
  have horder : Gives (FreshBelow text (n + 1)) (relationalLevel expr) A (WithinBelow text (n + 1)) :=
    gives_leftAssoc hsums breaks_relationalOp hA.binary
  have hequality : Gives (FreshBelow text (n + 1)) (equalityLevel expr) A (WithinBelow text (n + 1)) :=
    gives_leftAssoc horder breaks_equalityOp hA.binary
  have hand : Gives (FreshBelow text (n + 1)) (andLevel expr) A (WithinBelow text (n + 1)) :=
    gives_leftAssoc hequality (breaks_exactly rfl rfl).meaning hA.logical
  have hor : Gives (FreshBelow text (n + 1)) (orLevel expr) A (WithinBelow text (n + 1)) :=
    gives_leftAssoc hand (breaks_exactly rfl rfl).meaning hA.logical
  exact gives_leftAssoc hor (breaks_exactly rfl rfl).meaning hA.logical

/-- What chains and the expressions inside of an expression have, the expression has. -/
theorem gives_conditionalLevel (he : Gives (FreshBelow text n) expr A (WithinBelow text n)) :
    Gives (FreshBelow text (n + 1)) (conditionalLevel expr) A (WithinBelow text (n + 1)) := by
  have hbranches : Gives (WithinBelow text (n + 1)) (do
      token Token.question
      let consequent ← expr
      mark ":"
      let alternate ← expr
      return (consequent, alternate)) (fun b => A b.1 ∧ A b.2) (WithinBelow text (n + 1)) := by
    have hquestion : (Token.question).Breaks := (breaks_exactly rfl rfl).notBefore
    refine Gives.bind (gives_breaking hquestion) fun _ _ => ?_
    refine Gives.bind he fun consequent hconsequent => ?_
    refine Gives.bind ((gives_mark rfl rfl).before fun _ h => h.succ) fun _ _ => ?_
    refine Gives.bind (he.after fun _ h => h.succ) fun alternate halternate => ?_
    exact Gives.pure ⟨hconsequent, halternate⟩
  refine Gives.bind (gives_nullishLevel hA hchain) fun test htest => ?_
  refine Gives.bind (hbranches.optional fun _ h => h) fun branches h => ?_
  cases branches with
  | none => exact Gives.pure htest
  | some b =>
    obtain ⟨hconsequent, halternate⟩ := h b rfl
    exact Gives.pure (hA.conditional _ _ _ htest hconsequent halternate)

end

/-- A whole text writes what its expression is. -/
theorem gives_whole {A : Node → Prop} (he : Gives (FreshBelow text n) (expression n) A (WithinBelow text n)) :
    Gives (FreshBelow text n) (whole n) A fun _ => True := by
  refine Gives.bind he fun e hnode => ?_
  refine Gives.bind gives_optionalMark fun _ _ => ?_
  have hending : Gives (WithinBelow text n) (token Token.ending) (fun _ => True) fun _ => True :=
    Gives.token fun _ _ _ _ _ => ⟨trivial, trivial⟩
  exact hending.bind fun _ _ => Gives.pure hnode

end Parser

/-- What a trimmed text writes has a property that passes to an expression from the expressions inside of it. -/
theorem of_parseTrimmed {A : Node → Prop} {s : String} {node : Node} (hA : Formed A)
    (hchain : ∀ n, Parser.Gives (FreshBelow s.toList n) (Parser.expression n) A (WithinBelow s.toList n) →
      Parser.Gives (FreshBelow s.toList (n + 1)) (Parser.postfixLevel (Parser.expression n)) A (WithinBelow s.toList (n + 1)))
    (h : parseTrimmed s = .ok node) : A node := by
  have he (n : Nat) : Parser.Gives (FreshBelow s.toList n) (Parser.expression n) A (WithinBelow s.toList n) := by
    induction n with
    | zero => exact Parser.Gives.fail
    | succ n ih => exact Parser.gives_conditionalLevel hA (hchain n ih) ih
  unfold parseTrimmed at h
  split at h
  · cases h
  · dsimp only at h
    split at h
    · next node' rest reach hrun =>
      split at h
      · cases h
        exact (Parser.gives_whole (he _) s.toList ⟨Fresh.start, Nat.lt_succ_self _⟩ node rest (by rw [hrun])).1
      · cases h
    · cases h

end FormRules.Expr
