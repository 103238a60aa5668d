import FormRules.Proofs.Expr.Grammar

/-!
# Where optional links stand

In what a text writes, optional links stand on the receivers of a chain and nowhere else, and each chain has one:
the links behind a primary are marked as a chain as soon as one of them is optional, and whatever else is in an
expression is an expression of its own.
-/

namespace FormRules

/-- What a link reads from. -/
def Node.receiver? : Node → Option Node
  | .member o _ _ | .index o _ _ | .call o _ _ => some o
  | _ => none

def Node.isLink (e : Node) : Bool := e.receiver?.isSome

/-- The expression whose value decides about a link, and whether a nullish one ends the chain. A call decides by the
receiver of the method. -/
def Node.subject? : Node → Option (Node × Bool)
  | .member o _ optional | .index o _ optional => some (o, optional)
  | .call (.member o _ optionalMember) _ optional | .call (.index o _ optionalMember) _ optional =>
    some (o, optionalMember || optional)
  | _ => none

/-- Whether the node is an optional link, or one of its receivers is. -/
def Node.mayBreak : Node → Bool
  | .member o _ optional | .index o _ optional | .call o _ optional => optional || o.mayBreak
  | _ => false

/-- The values that are computed in a body. -/
def Body.values : Body → List Node
  | .result v => [v]
  | .declare _ _ v rest => v :: rest.values

/-- The parts of a node other than what a link reads from. -/
def Node.operands : Node → List Node
  | .array es => es
  | .index _ i _ => [i]
  | .call _ as _ => as
  | .unary _ e => [e]
  | .binary _ l r | .logical _ l r => [l, r]
  | .conditional t c a => [t, c, a]
  | .invoked b => b.values
  | .literal _ | .identifier _ | .member _ _ _ | .chain _ => []

mutual

/-- Whether optional links stand on the receivers of chains only, each of which has one. The links of the node itself
may be optional if it is `inside` of a chain. -/
@[simp] def Node.wellChained (inside : Bool) : Node → Bool
  | .literal _ | .identifier _ => true
  | .array es => Node.allWellChained es
  | .member o _ optional => (inside || !optional) && o.wellChained inside
  | .index o i optional => (inside || !optional) && o.wellChained inside && i.wellChained false
  | .call c as optional => (inside || !optional) && c.wellChained inside && Node.allWellChained as
  | .chain e => e.mayBreak && e.wellChained true
  | .unary _ e => e.wellChained false
  | .binary _ l r | .logical _ l r => l.wellChained false && r.wellChained false
  | .conditional t c a => t.wellChained false && c.wellChained false && a.wellChained false
  | .invoked b => b.wellChained

@[simp] def Node.allWellChained : List Node → Bool
  | [] => true
  | e :: es => e.wellChained false && Node.allWellChained es

@[simp] def Body.wellChained : Body → Bool
  | .result v => v.wellChained false
  | .declare _ _ v rest => v.wellChained false && rest.wellChained

end

/-- The parts of an expression, however deep; the flag tells the links on the receivers of a chain from others. -/
inductive Node.Part (whole : Node) : Bool → Node → Prop
  | whole : Part whole false whole
  | operand {linked : Bool} {n e : Node} (h : Part whole linked n) (he : e ∈ n.operands) : Part whole false e
  | receiver {linked : Bool} {n o : Node} (h : Part whole linked n) (ho : n.receiver? = some o) :
    Part whole (linked && o.isLink) o
  | chained {linked : Bool} {e : Node} (h : Part whole linked (.chain e)) : Part whole e.isLink e

theorem Node.allWellChained_iff {es : List Node} :
    Node.allWellChained es = true ↔ ∀ e ∈ es, e.wellChained false = true := by
  induction es with
  | nil => simp [allWellChained]
  | cons e es ih => rw [allWellChained, Bool.and_eq_true, ih, List.forall_mem_cons]

theorem Body.wellChained_iff : (b : Body) → (b.wellChained = true ↔ ∀ e ∈ b.values, e.wellChained false = true)
  | .result v => by simp [wellChained, values]
  | .declare _ _ v rest => by rw [wellChained, Bool.and_eq_true, wellChained_iff rest, values, List.forall_mem_cons]

namespace Node
variable {inside inside' linked : Bool} {e n o whole : Node}

theorem wellChained_operands (h : n.wellChained inside = true) : ∀ e ∈ n.operands, e.wellChained false = true := by
  cases n <;> simp_all [wellChained, operands, allWellChained_iff, Body.wellChained_iff]

theorem wellChained_receiver (h : n.wellChained inside = true) (ho : n.receiver? = some o) :
    o.wellChained inside = true := by
  cases n <;> simp_all [wellChained, receiver?]

theorem wellChained_congr (h : e.isLink = false) : e.wellChained inside = e.wellChained inside' := by
  cases e <;> simp_all [isLink, receiver?, wellChained]

theorem wellChained_inside : (e : Node) → e.wellChained false = true → e.wellChained true = true
  | .member o _ _, h => by
    simp only [wellChained, Bool.and_eq_true] at h ⊢
    exact ⟨rfl, wellChained_inside o h.2⟩
  | .index o _ _, h => by
    simp only [wellChained, Bool.and_eq_true] at h ⊢
    exact ⟨⟨rfl, wellChained_inside o h.1.2⟩, h.2⟩
  | .call c _ _, h => by
    simp only [wellChained, Bool.and_eq_true] at h ⊢
    exact ⟨⟨rfl, wellChained_inside c h.1.2⟩, h.2⟩
  | .literal _, h | .identifier _, h | .array _, h | .chain _, h | .unary _ _, h | .binary _ _ _, h | .logical _ _ _, h
  | .conditional _ _ _, h | .invoked _, h => h

theorem mayBreak_of_wellChained : (e : Node) → e.wellChained false = true → e.mayBreak = false
  | .member o _ _, h => by
    simp only [wellChained, Bool.and_eq_true] at h
    simp_all [mayBreak, mayBreak_of_wellChained o h.2]
  | .index o _ _, h => by
    simp only [wellChained, Bool.and_eq_true] at h
    simp_all [mayBreak, mayBreak_of_wellChained o h.1.2]
  | .call c _ _, h => by
    simp only [wellChained, Bool.and_eq_true] at h
    simp_all [mayBreak, mayBreak_of_wellChained c h.1.2]
  | .literal _, _ | .identifier _, _ | .array _, _ | .chain _, _ | .unary _ _, _ | .binary _ _ _, _ | .logical _ _ _, _
  | .conditional _ _ _, _ | .invoked _, _ => rfl

/-- The parts of a well-chained expression are well-chained. -/
theorem Part.wellChained (h : whole.Part linked e) (hw : whole.wellChained false = true) :
    e.wellChained linked = true := by
  induction h with
  | whole => exact hw
  | operand _ he ih => exact wellChained_operands ih _ he
  | @receiver linked n o _ ho ih =>
    have hr := wellChained_receiver ih ho
    cases hl : o.isLink with
    | true => rwa [Bool.and_true]
    | false => rwa [Bool.and_false, wellChained_congr hl]
  | @chained linked e _ ih =>
    simp only [Node.wellChained, Bool.and_eq_true] at ih
    cases hl : e.isLink with
    | true => exact ih.2
    | false => rw [wellChained_congr hl]; exact ih.2

end Node

namespace Expr
open FormRules.Expr.Parser
variable {inside : Bool} {receiver : Node} {links : List Link} {l : Link}

theorem mayBreak_attach : (l.attach receiver).mayBreak = (l.isOptional || receiver.mayBreak) := by
  cases l <;> rfl

theorem mayBreak_foldl : (links.foldl Link.attach receiver).mayBreak = (links.any Link.isOptional || receiver.mayBreak) := by
  induction links generalizing receiver with
  | nil => rfl
  | cons l links ih => rw [List.foldl_cons, ih, mayBreak_attach, List.any_cons, Bool.or_left_comm, Bool.or_assoc]

theorem wellChained_attach (hr : receiver.wellChained inside = true) (hl : l.Of fun e => e.wellChained false = true)
    (hi : (inside || !l.isOptional) = true) : (l.attach receiver).wellChained inside = true := by
  cases l with
  | member p optional => exact Bool.and_eq_true_iff.mpr ⟨hi, hr⟩
  | index i optional => exact Bool.and_eq_true_iff.mpr ⟨Bool.and_eq_true_iff.mpr ⟨hi, hr⟩, hl⟩
  | call as optional =>
    exact Bool.and_eq_true_iff.mpr ⟨Bool.and_eq_true_iff.mpr ⟨hi, hr⟩, Node.allWellChained_iff.mpr hl⟩

theorem wellChained_foldl (hr : receiver.wellChained inside = true)
    (hl : ∀ l ∈ links, l.Of fun e => e.wellChained false = true) (hi : ∀ l ∈ links, (inside || !l.isOptional) = true) :
    (links.foldl Link.attach receiver).wellChained inside = true := by
  induction links generalizing receiver with
  | nil => exact hr
  | cons l links ih =>
    obtain ⟨hl, hlinks⟩ := List.forall_mem_cons.mp hl
    obtain ⟨hi, his⟩ := List.forall_mem_cons.mp hi
    exact ih (wellChained_attach hr hl hi) hlinks his

/-- Links are put in a chain if one of them is optional. -/
theorem wellChained_attachAll (hr : receiver.wellChained false = true)
    (hl : ∀ l ∈ links, l.Of fun e => e.wellChained false = true) : (attachAll receiver links).wellChained false = true := by
  unfold attachAll
  dsimp only
  split
  · next hopt =>
    refine Bool.and_eq_true_iff.mpr ⟨?_, wellChained_foldl (Node.wellChained_inside _ hr) hl fun _ _ => rfl⟩
    rw [mayBreak_foldl, hopt, Bool.true_or]
  · next hopt =>
    refine wellChained_foldl hr hl fun l hmem => ?_
    have hnot : l.isOptional = false := by
      by_contra h
      exact hopt (List.any_eq_true.mpr ⟨l, hmem, by simpa using h⟩)
    rw [hnot]
    rfl

theorem formed_wellChained : Formed fun e => e.wellChained false = true where
  literal _ := rfl
  array _ h := Node.allWellChained_iff.mpr h
  unary _ _ h := h
  binary _ _ _ hl hr := Bool.and_eq_true_iff.mpr ⟨hl, hr⟩
  logical _ _ _ hl hr := Bool.and_eq_true_iff.mpr ⟨hl, hr⟩
  conditional _ _ _ ht hc ha := Bool.and_eq_true_iff.mpr ⟨Bool.and_eq_true_iff.mpr ⟨ht, hc⟩, ha⟩
  invoked ds result hds hresult := by
    rw [Node.wellChained]
    induction ds with
    | nil => exact hresult
    | cons d ds ih =>
      obtain ⟨hd, hds⟩ := List.forall_mem_cons.mp hds
      exact Bool.and_eq_true_iff.mpr ⟨hd, ih hds⟩

/-- What a text writes is well-chained. -/
theorem wellChained_of_parse {source : String} {node : Node} (h : parse source = .ok node) :
    node.wellChained false = true := by
  unfold parse at h
  split at h
  · cases h
  exact of_parseTrimmed formed_wellChained (fun _ he => gives_postfixLevel he formed_wellChained
    (fun _ _ _ _ _ => rfl) fun _ _ hr hl => wellChained_attachAll hr hl) h

end Expr
end FormRules
