import FormRules.Proofs.Expr.Chain
import FormRules.Proofs.Expr.Written
import Mathlib.Tactic.IntervalCases

/-!
# Constructs are read back

A level of the grammar takes a text off as an expression, whatever blanks stand in front of it, if what is behind it
runs on neither in a word nor in an operator of the level or of a tighter one. Each construct has one rule for that,
from the texts of its parts.
-/

namespace FormRules.Expr.Parser
open Text Token
variable {α ω : Type} {cs mid rest text more : List Char}

/-! ## Repetition -/

/-- Successes one after the other, each of which takes something off the text. -/
inductive Steps (p : Parser α) : List Char → List α → List Char → Prop
  | nil {cs : List Char} : Steps p cs [] cs
  | cons {cs mid rest : List Char} {a : α} {as : List α} (h : Reads p cs a mid) (hlt : mid.length < cs.length)
    (hs : Steps p mid as rest) : Steps p cs (a :: as) rest

namespace Steps
variable {p : Parser α} {a : α} {as : List α}

theorem snoc (h : Steps p cs as mid) (ha : Reads p mid a rest) (hlt : rest.length < mid.length) :
    Steps p cs (as ++ [a]) rest := by
  induction h with
  | nil => exact .cons ha hlt .nil
  | cons h hlt' _ ih => exact .cons h hlt' (ih ha hlt)

theorem manyFrom (h : Steps p cs as rest) (hend : Fails p rest) (fuel : Nat) (hfuel : cs.length ≤ fuel) :
    (manyFrom p fuel cs).outcome = some (as, rest) := by
  induction h generalizing fuel with
  | @nil cs =>
    cases fuel with
    | zero => rfl
    | succ fuel =>
      have hfail : (p.run cs).outcome = none := hend
      rw [Parser.manyFrom]
      split
      · rfl
      · next hp =>
        rw [hp] at hfail
        cases hfail
  | @cons cs mid rest a as h hlt _ ih =>
    cases fuel with
    | zero => omega
    | succ fuel =>
      have hread : (p.run cs).outcome = some (a, mid) := h
      have ih := ih hend fuel (by omega)
      rw [Parser.manyFrom]
      split
      · next hp =>
        rw [hp] at hread
        cases hread
      · next hp =>
        rw [hp] at hread
        cases hread
        simp [ih]

/-- What can be done no further is done as often as it can. -/
theorem many (h : Steps p cs as rest) (hend : Fails p rest) : Reads (many p) cs as rest :=
  h.manyFrom hend cs.length (Nat.le_refl _)

end Steps

/-! ## Levels -/

/-- The operators of a level. -/
def logicalOp : Nat → Token LogicalOp
  | 1 => meaning (exactly "??") .nullish
  | 2 => meaning (exactly "||") .or
  | _ => meaning (exactly "&&") .and

/-- The operators of a level. -/
def binaryOp : Nat → Token BinaryOp
  | 4 => equalityOp
  | 5 => relationalOp
  | 6 => additiveOp
  | _ => multiplicativeOp

/-- The levels of the grammar down to chains. -/
def level (expr : Parser Node) : Nat → Parser Node
  | 0 => conditionalLevel expr
  | 1 => nullishLevel expr
  | 2 => orLevel expr
  | 3 => andLevel expr
  | 4 => equalityLevel expr
  | 5 => relationalLevel expr
  | 6 => additiveLevel expr
  | 7 => multiplicativeLevel expr
  | 8 => unaryLevel expr
  | _ => postfixLevel expr

section
variable {expr : Parser Node} {ℓ : Nat}

theorem level_zero : level expr 0 = conditionalLevel expr := rfl

theorem level_eight : level expr 8 = unaryLevel expr := rfl

theorem level_logical (hlow : 1 ≤ ℓ) (hhigh : ℓ ≤ 3) :
    level expr ℓ = leftAssoc (level expr (ℓ + 1)) (logicalOp ℓ) Node.logical := by
  interval_cases ℓ <;> rfl

theorem level_binary (hlow : 4 ≤ ℓ) (hhigh : ℓ ≤ 7) :
    level expr ℓ = leftAssoc (level expr (ℓ + 1)) (binaryOp ℓ) Node.binary := by
  interval_cases ℓ <;> rfl

end

/-- What stops an expression of a level: the end, a closing mark, or an operator of a looser level. -/
inductive Stops (ℓ : Nat) : List Char → Prop
  | nil : Stops ℓ []
  | closing {c : Char} {cs : List Char} (hc : c ∈ [')', ']', ',', ';', ':']) : Stops ℓ (c :: cs)
  | question {cs : List Char} (h : 0 < ℓ) : Stops ℓ ('?' :: ' ' :: cs)
  | logical {op : LogicalOp} {cs : List Char} (h : op.level < ℓ) : Stops ℓ (op.token.toList ++ ' ' :: cs)
  | binary {op : BinaryOp} {cs : List Char} (h : op.level < ℓ) : Stops ℓ (op.token.toList ++ ' ' :: cs)

/-- Whether an expression of a level ends in front of the text. -/
structure Ends (ℓ : Nat) (rest : List Char) : Prop where
  cut : Cut rest
  stops : Stops ℓ (rest.dropWhile isSpace)

namespace Stops
variable {ℓ m : Nat}

theorem mono (h : Stops ℓ cs) (hle : ℓ ≤ m) : Stops m cs := by
  cases h with
  | nil => exact .nil
  | closing hc => exact .closing hc
  | question h => exact .question (by omega)
  | logical h => exact .logical (by omega)
  | binary h => exact .binary (by omega)

theorem not_space (h : Stops ℓ cs) : cs.dropWhile isSpace = cs := by
  cases h with
  | nil => rfl
  | closing hc =>
    simp only [List.mem_cons, List.not_mem_nil, or_false] at hc
    rcases hc with rfl | rfl | rfl | rfl | rfl <;> rfl
  | question => rfl
  | @logical op => cases op <;> rfl
  | @binary op => cases op <;> rfl

theorem not_logicalOp (h : Stops ℓ cs) (hle : ℓ ≤ m) (hlow : 1 ≤ m) (hhigh : m ≤ 3) : logicalOp m cs = none := by
  cases h with
  | nil => interval_cases m <;> rfl
  | closing hc =>
    simp only [List.mem_cons, List.not_mem_nil, or_false] at hc
    rcases hc with rfl | rfl | rfl | rfl | rfl <;> interval_cases m <;> rfl
  | question => interval_cases m <;> rfl
  | @logical op _ h =>
    cases op <;> simp only [LogicalOp.level] at h <;> interval_cases m <;> first | rfl | omega
  | @binary op _ h =>
    cases op <;> simp only [BinaryOp.level] at h <;> omega

theorem not_binaryOp (h : Stops ℓ cs) (hle : ℓ ≤ m) (hlow : 4 ≤ m) (hhigh : m ≤ 7) : binaryOp m cs = none := by
  cases h with
  | nil => interval_cases m <;> rfl
  | closing hc =>
    simp only [List.mem_cons, List.not_mem_nil, or_false] at hc
    rcases hc with rfl | rfl | rfl | rfl | rfl <;> interval_cases m <;> rfl
  | question => interval_cases m <;> rfl
  | @logical op _ h => cases op <;> interval_cases m <;> rfl
  | @binary op _ h =>
    cases op <;> simp only [BinaryOp.level] at h <;> interval_cases m <;> first | rfl | omega

theorem not_question (h : Stops 0 cs) : Token.question cs = none := by
  cases h with
  | nil => rfl
  | closing hc =>
    simp only [List.mem_cons, List.not_mem_nil, or_false] at hc
    rcases hc with rfl | rfl | rfl | rfl | rfl <;> rfl
  | question h => omega
  | logical h => omega
  | binary h => omega

/-- No chain runs on. -/
theorem fails_link {expr : Parser Node} (h : Stops ℓ (cs.dropWhile isSpace)) : Fails (link expr) cs := by
  have hmarks : optionalLink (cs.dropWhile isSpace) = none ∧ exactly "." (cs.dropWhile isSpace) = none ∧
      exactly "[" (cs.dropWhile isSpace) = none ∧ exactly "(" (cs.dropWhile isSpace) = none := by
    generalize cs.dropWhile isSpace = cs at h ⊢
    cases h with
    | nil => exact ⟨rfl, rfl, rfl, rfl⟩
    | closing hc =>
      simp only [List.mem_cons, List.not_mem_nil, or_false] at hc
      rcases hc with rfl | rfl | rfl | rfl | rfl <;> exact ⟨rfl, rfl, rfl, rfl⟩
    | question => exact ⟨rfl, rfl, rfl, rfl⟩
    | @logical op => cases op <;> exact ⟨rfl, rfl, rfl, rfl⟩
    | @binary op => cases op <;> exact ⟨rfl, rfl, rfl, rfl⟩
  obtain ⟨hoptional, hpoint, hbracket, hparen⟩ := hmarks
  have hoptional : Fails (token optionalLink) cs := fails_token hoptional
  refine fails_firstOf ?_
  simp only [List.forall_mem_cons]
  exact ⟨hoptional.bind, hoptional.bind, hoptional.bind, (fails_token hpoint : Fails (mark ".") cs).bind,
    (fails_token hbracket : Fails (mark "[") cs).bind.bind, (fails_token hparen : Fails (mark "(") cs).bind.bind, nofun⟩

end Stops

theorem Ends.closing {ℓ : Nat} {c : Char} (hc : c ∈ [')', ']', ',', ';']) : Ends ℓ (c :: cs) := by
  simp only [List.mem_cons, List.not_mem_nil, or_false] at hc
  rcases hc with rfl | rfl | rfl | rfl <;> exact ⟨⟨rfl, rfl, nofun⟩, .closing (by decide)⟩

theorem Ends.spaced {ℓ : Nat} (h : Stops ℓ cs) : Ends ℓ (' ' :: cs) :=
  ⟨⟨rfl, rfl, nofun⟩, by rw [List.dropWhile_cons_of_pos (by decide), h.not_space]; exact h⟩

theorem Ends.nil {ℓ : Nat} : Ends ℓ [] := ⟨trivial, .nil⟩

/-! ## Beginnings -/

/-- Whether an expression may begin with the text, and no function does. -/
structure Opens (text : List Char) : Prop where
  head : ∃ c cs, text = c :: cs ∧ isBlank c = false ∧ c ≠ ')' ∧ c ≠ '=' ∧
    (c = '(' → ∃ d ds, cs = d :: ds ∧ isBlank d = false ∧ d ≠ ')')
  word : wordRun text ≠ "function".toList

/-- Whether a chain may begin with the text: there is no operator in front. -/
structure Starts (text : List Char) : Prop extends Opens text where
  sign : ∀ c ∈ text.head?, c ∉ ['!', '-', '+']
  typeOf : wordRun text ≠ "typeof".toList

theorem not_isSpace {c : Char} (h : isBlank c = false) : ¬isSpace c = true := fun hs => by
  rw [isBlank_space hs] at h
  cases h

namespace Opens
variable {expr : Parser Node}

theorem append (h : Opens text) (hm : Cut more) : Opens (text ++ more) := by
  obtain ⟨⟨c, cs, rfl, hc, hclose, heq, hopen⟩, hword⟩ := h
  refine ⟨⟨c, cs ++ more, rfl, hc, hclose, heq, fun hparen => ?_⟩, by rwa [hm.wordRun]⟩
  obtain ⟨d, ds, rfl, hd⟩ := hopen hparen
  exact ⟨d, ds ++ more, rfl, hd⟩

theorem ne_nil (h : Opens text) : text ≠ [] := by
  obtain ⟨⟨c, cs, rfl, -⟩, -⟩ := h
  exact List.cons_ne_nil c cs

theorem not_space (h : Opens text) : (text ++ rest).dropWhile isSpace = text ++ rest := by
  obtain ⟨⟨c, cs, rfl, hc, -⟩, -⟩ := h
  exact List.dropWhile_cons_of_neg (not_isSpace hc)

theorem spaced (h : Opens text) : (' ' :: (text ++ rest)).dropWhile isSpace = text ++ rest := by
  rw [List.dropWhile_cons_of_pos (by decide), h.not_space]

theorem fails_function (h : Opens text) (hcs : cs.dropWhile isSpace = text) :
    Fails (orElse (arrowFunction expr) (functionExpression expr)) cs := by
  obtain ⟨⟨c, more, rfl, hc, -, -, hopen⟩, hword⟩ := h
  refine Fails.orElse_fails ?_ (Fails.bind (fails_token ?_))
  · by_cases hparen : c = '('
    · obtain ⟨d, ds, rfl, hd, hne⟩ := hopen hparen
      subst hparen
      have hmark : Reads (mark "(") cs () (d :: ds) := reads_token (by rw [hcs]; rfl)
      have hskip : (d :: ds).dropWhile isSpace = d :: ds := List.dropWhile_cons_of_neg (not_isSpace hd)
      exact hmark.bind_fails (fails_mark rfl hskip (Ne.symm hne)).bind
    · exact (fails_mark rfl hcs (Ne.symm hparen)).bind
  · rw [hcs, Token.word, if_neg hword]

end Opens

namespace Starts

theorem append (h : Starts text) (hm : Cut more) : Starts (text ++ more) := by
  obtain ⟨ho, hsign, htype⟩ := h
  refine ⟨ho.append hm, fun c hc => hsign c ?_, by rwa [hm.wordRun]⟩
  obtain ⟨⟨d, ds, rfl, -⟩, -⟩ := ho
  exact hc

theorem fails_unaryOp (h : Starts text) (hcs : cs.dropWhile isSpace = text) : Fails (token unaryOp) cs := by
  obtain ⟨⟨⟨c, more, rfl, -⟩, -⟩, hsign, htype⟩ := h
  have hc := hsign c rfl
  simp only [List.mem_cons, List.not_mem_nil, or_false, not_or] at hc
  have hmark (p : String) (d : Char) (hp : p.toList = [d]) (hne : c ≠ d) : exactly p (c :: more) = none := by
    rw [exactly, hp]
    simp [Ne.symm hne]
  have hnot : notBefore (exactly "!") (startsWithAny ['=']) (c :: more) = none := by
    rw [notBefore, hmark "!" '!' rfl hc.1]
  refine fails_token ?_
  rw [hcs, unaryOp, Token.firstOf]
  simp only [List.findSome?_cons, List.findSome?_nil, meaning, Token.word, if_neg htype, hnot, hmark "-" '-' rfl hc.2.1,
    hmark "+" '+' rfl hc.2.2, Option.map_none]

end Starts

/-! ## Expressions -/

/-- Whether a level takes the text off, wherever an expression of it ends. -/
def IsLevel (ℓ : Nat) (text : List Char) (n : Node) : Prop :=
  ∀ d, text.length ≤ d → ∀ rest, Ends ℓ rest → ∀ cs, cs.dropWhile isSpace = text ++ rest →
    Reads (level (expression d) ℓ) cs n rest

/-- Whether the text is taken off where a chain starts. -/
def IsPrimary (text : List Char) (n : Node) : Prop :=
  ∀ d, text.length ≤ d → ∀ rest, Cut rest → ∀ cs, cs.dropWhile isSpace = text ++ rest →
    Reads (primary (expression d)) cs n rest

namespace IsLevel
variable {ℓ m d : Nat} {n : Node}

theorem expression (h : IsLevel 0 text n) (hd : text.length < d) (hends : Ends 0 rest)
    (hcs : cs.dropWhile isSpace = text ++ rest) : Reads (expression d) cs n rest := by
  cases d with
  | zero => omega
  | succ d =>
    rw [Parser.expression, ← level_zero]
    exact h d (by omega) rest hends cs hcs

theorem pred (h : IsLevel (ℓ + 1) text n) (hℓ : ℓ ≤ 8) (hs : ℓ = 8 → Starts text) : IsLevel ℓ text n := by
  intro d hd rest hends cs hcs
  have hread := h d hd rest ⟨hends.cut, hends.stops.mono (Nat.le_succ ℓ)⟩ cs hcs
  rcases (by omega : ℓ = 0 ∨ (1 ≤ ℓ ∧ ℓ ≤ 3) ∨ (4 ≤ ℓ ∧ ℓ ≤ 7) ∨ ℓ = 8) with rfl | hlogical | hbinary | rfl
  · have hquestion : Fails (token Token.question) rest := fails_token hends.stops.not_question
    rw [level_zero]
    exact hread.bind (hquestion.bind.optional.bind rfl)
  · rw [level_logical hlogical.1 hlogical.2]
    exact reads_leftAssoc hread (hends.stops.not_logicalOp (Nat.le_refl ℓ) hlogical.1 hlogical.2)
  · rw [level_binary hbinary.1 hbinary.2]
    exact reads_leftAssoc hread (hends.stops.not_binaryOp (Nat.le_refl ℓ) hbinary.1 hbinary.2)
  · have hop := ((hs rfl).append hends.cut).fails_unaryOp hcs
    rw [level_eight]
    exact hop.many.bind (hread.bind rfl)

/-- What a level takes off, the looser ones take off. -/
theorem lower (h : IsLevel m text n) (hle : ℓ ≤ m) (hm : m ≤ 9) (hs : m = 9 → Starts text) : IsLevel ℓ text n := by
  induction m with
  | zero => rwa [Nat.le_zero.mp hle]
  | succ m ih =>
    rcases Nat.le_succ_iff.mp hle with hle | rfl
    · exact ih (h.pred (by omega) fun hm => hs (by omega)) hle (by omega) fun hm => by omega
    · exact h

/-- An expression in parentheses. -/
theorem group (h : IsLevel 0 text n) (ho : Opens text) : IsPrimary ('(' :: (text ++ [')'])) n := by
  intro d hd rest hcut cs hcs
  have hcs : cs.dropWhile isSpace = '(' :: (text ++ ')' :: rest) := by
    rw [hcs, List.cons_append, List.append_assoc, List.singleton_append]
  have hlength : text.length < d := by
    simp only [List.length_cons, List.length_append] at hd
    omega
  have hopen : Reads (mark "(") cs () (text ++ ')' :: rest) := reads_token (by rw [hcs]; rfl)
  have hbody : Reads (Parser.expression d) (text ++ ')' :: rest) n (')' :: rest) :=
    h.expression hlength (.closing (by decide)) ho.not_space
  have hclose : Reads (mark ")") (')' :: rest) () rest := reads_token rfl
  have hgroup : Reads (Parser.group (Parser.expression d)) cs n rest := hopen.bind (hbody.bind (hclose.bind rfl))
  have hcut : Cut (')' :: rest) := ⟨rfl, rfl, nofun⟩
  have hinvocation : Fails (invocation (Parser.expression d)) cs :=
    hopen.bind_fails ((ho.append hcut).fails_function ho.not_space).bind
  have hnumber : Fails (token number) cs := fails_token (by rw [hcs]; rfl)
  have hquoted : Fails (token quotedText) cs := fails_token (by rw [hcs]; rfl)
  have hkeyword : Fails (token keyword) cs := fails_token (by rw [hcs]; rfl)
  have harray : Fails (mark "[") cs := fails_token (by rw [hcs]; rfl)
  have hname : Fails (token identifier) cs := fails_token (by rw [hcs]; rfl)
  exact hinvocation.orElse (hnumber.map.orElse (hquoted.map.orElse (hkeyword.map.orElse (harray.bind.orElse
    (hname.map.orElse hgroup.orElse)))))

end IsLevel

/-! ## Chains -/

/-- Whether the text is taken off as something to start a chain from and links on it, wherever it is cut. -/
def IsLinked (text : List Char) (n : Node) : Prop :=
  ∀ d, text.length ≤ d → ∀ rest, Cut rest → ∀ cs, cs.dropWhile isSpace = text ++ rest →
    ∃ base mid links, Reads (primary (expression d)) cs base mid ∧ base.mayBreak = false ∧
      Steps (link (expression d)) mid links rest ∧ links.foldl Link.attach base = n

/-- Whether the text is taken off as a link. -/
def IsLink (text : List Char) (l : Link) : Prop :=
  ∀ d, text.length ≤ d → ∀ rest, Cut rest → Reads (link (expression d)) (text ++ rest) l rest

theorem IsPrimary.linked {n : Node} (h : IsPrimary text n) (hn : n.mayBreak = false) : IsLinked text n :=
  fun d hd rest hcut cs hcs => ⟨n, rest, [], h d hd rest hcut cs hcs, hn, .nil, rfl⟩

namespace IsLinked
variable {n : Node} {l : Link}

theorem attach (h : IsLinked text n) (hl : IsLink more l) (hne : more ≠ [])
    (hcut : ∀ rest, Cut rest → Cut (more ++ rest)) : IsLinked (text ++ more) (l.attach n) := by
  intro d hd rest hrest cs hcs
  rw [List.length_append] at hd
  rw [List.append_assoc] at hcs
  obtain ⟨base, mid, links, hbase, hbreak, hlinks, rfl⟩ := h d (by omega) _ (hcut rest hrest) cs hcs
  have hpos := List.length_pos_iff.mpr hne
  refine ⟨base, mid, links ++ [l], hbase, hbreak, hlinks.snoc (hl d (by omega) rest hrest) ?_, ?_⟩
  · rw [List.length_append]
    omega
  · rw [List.foldl_append, List.foldl_cons, List.foldl_nil]

/-- Links, one of which may be optional, are a chain. -/
theorem level (h : IsLinked text n) : IsLevel 9 text (if n.mayBreak then .chain n else n) := by
  intro d hd rest hends cs hcs
  obtain ⟨base, mid, links, hbase, hbreak, hlinks, rfl⟩ := h d hd rest hends.cut cs hcs
  have hmany := hlinks.many hends.stops.fails_link
  have hall : attachAll base links = if (links.foldl Link.attach base).mayBreak then
      .chain (links.foldl Link.attach base) else links.foldl Link.attach base := by
    rw [mayBreak_foldl, hbreak, Bool.or_false, attachAll]
  rw [← hall]
  exact hbase.bind (hmany.bind rfl)

end IsLinked

/-! ## Operators -/

/-- Whether the text is taken off as operators in front of a chain. -/
def IsPrefixed (text : List Char) (n : Node) : Prop :=
  ∀ d, text.length ≤ d → ∀ rest, Ends 8 rest → ∀ cs, cs.dropWhile isSpace = text ++ rest →
    ∃ ops mid operand, Steps (token unaryOp) cs ops mid ∧ Fails (token unaryOp) mid ∧
      Reads (postfixLevel (expression d)) mid operand rest ∧ ops.foldr Node.unary operand = n

theorem IsLevel.prefixed {n : Node} (h : IsLevel 9 text n) (hs : Starts text) : IsPrefixed text n := by
  intro d hd rest hends cs hcs
  have hfails := (hs.append hends.cut).fails_unaryOp hcs
  exact ⟨[], cs, n, .nil, hfails, h d hd rest ⟨hends.cut, hends.stops.mono (by decide)⟩ cs hcs, rfl⟩

/-- An operator is taken off in front of its operand. -/
theorem unaryOp_written (op : UnaryOp) (ho : Opens text) :
    ∃ mid, unaryOp (op.written ++ text) = some (op, mid) ∧ mid.dropWhile isSpace = text ∧
      mid.length < (op.written ++ text).length := by
  obtain ⟨⟨c, cs, rfl, hc, -, heq, -⟩, -⟩ := ho
  have hskip : (c :: cs).dropWhile isSpace = c :: cs := List.dropWhile_cons_of_neg (not_isSpace hc)
  cases op with
  | not =>
    refine ⟨c :: cs, ?_, hskip, Nat.lt_succ_self _⟩
    have hword : Token.word "typeof" ('!' :: c :: cs) = none := rfl
    have hnot : notBefore (exactly "!") (startsWithAny ['=']) ('!' :: c :: cs) =
        if ['='].contains c then none else some ((), c :: cs) := rfl
    rw [if_neg (by simpa using heq)] at hnot
    change Token.firstOf _ ('!' :: c :: cs) = _
    simp only [Token.firstOf, List.findSome?_cons, meaning, hword, hnot, Option.map_none, Option.map_some]
  | negate => exact ⟨c :: cs, rfl, hskip, Nat.lt_succ_self _⟩
  | plus => exact ⟨c :: cs, rfl, hskip, Nat.lt_succ_self _⟩
  | typeOf =>
    refine ⟨' ' :: c :: cs, rfl, hskip, ?_⟩
    change (c :: cs).length + 1 < (c :: cs).length + 7
    omega

namespace IsPrefixed
variable {n : Node}

theorem unary (h : IsPrefixed text n) (op : UnaryOp) (ho : Opens text) :
    IsPrefixed (op.written ++ text) (.unary op n) := by
  intro d hd rest hends cs hcs
  rw [List.length_append] at hd
  rw [List.append_assoc] at hcs
  obtain ⟨mid, hop, hmid, hlt⟩ := unaryOp_written op (ho.append hends.cut)
  obtain ⟨ops, mid', operand, hops, hfails, hread, rfl⟩ := h d (by omega) rest hends mid hmid
  have hskip : (cs.dropWhile isSpace).length ≤ cs.length := (List.dropWhile_suffix _).length_le
  have hfirst : Reads (token unaryOp) cs op mid := reads_token (by rw [hcs, hop])
  exact ⟨op :: ops, mid', operand, .cons hfirst (by rw [hcs] at hskip; omega) hops, hfails, hread, rfl⟩

theorem level (h : IsPrefixed text n) : IsLevel 8 text n := by
  intro d hd rest hends cs hcs
  obtain ⟨ops, mid, operand, hops, hfails, hread, rfl⟩ := h d hd rest hends cs hcs
  rw [level_eight]
  exact (hops.many hfails).bind (hread.bind rfl)

end IsPrefixed

/-- Whether the text is taken off as operands of the next level with operators between them. -/
def IsJoined (ℓ : Nat) (op : Token ω) (make : ω → Node → Node → Node) (text : List Char) (n : Node) : Prop :=
  ∀ d, text.length ≤ d → ∀ rest, Ends (ℓ + 1) rest → ∀ cs, cs.dropWhile isSpace = text ++ rest →
    ∃ first mid steps, Reads (level (expression d) (ℓ + 1)) cs first mid ∧
      Steps (do
        let o ← token op
        let right ← level (expression d) (ℓ + 1)
        return (o, right)) mid steps rest ∧
      steps.foldl (fun left s => make s.1 left s.2) first = n

theorem IsLevel.joined {ℓ : Nat} {op : Token ω} {make : ω → Node → Node → Node} {n : Node} (h : IsLevel (ℓ + 1) text n) :
    IsJoined ℓ op make text n :=
  fun d hd rest hends cs hcs => ⟨n, rest, [], h d hd rest hends cs hcs, .nil, rfl⟩

namespace IsJoined
variable {ℓ : Nat} {op : Token ω} {make : ω → Node → Node → Node} {left right : Node}

/-- An operator and an operand more. -/
theorem snoc (hl : IsJoined ℓ op make text left) (hr : IsLevel (ℓ + 1) more right) (ho : Opens more) {o : ω} {t : List Char}
    (hop : ∀ cs, op (t ++ ' ' :: cs) = some (o, ' ' :: cs)) (ht : ∀ cs, Stops (ℓ + 1) (t ++ ' ' :: cs)) :
    IsJoined ℓ op make (text ++ ' ' :: (t ++ ' ' :: more)) (make o left right) := by
  intro d hd rest hends cs hcs
  simp only [List.length_append, List.length_cons] at hd
  have hcs : cs.dropWhile isSpace = text ++ ' ' :: (t ++ ' ' :: (more ++ rest)) := by
    rw [hcs, List.append_assoc, List.cons_append, List.append_assoc, List.cons_append]
  obtain ⟨first, mid, steps, hfirst, hsteps, rfl⟩ := hl d (by omega) _ (.spaced (ht _)) cs hcs
  have hskip : (' ' :: (t ++ ' ' :: (more ++ rest))).dropWhile isSpace = t ++ ' ' :: (more ++ rest) := by
    rw [List.dropWhile_cons_of_pos (by decide), (ht _).not_space]
  have hoperator : Reads (token op) (' ' :: (t ++ ' ' :: (more ++ rest))) o (' ' :: (more ++ rest)) :=
    reads_token (by rw [hskip, hop])
  have hright := hr d (by omega) rest hends _ ho.spaced
  refine ⟨first, mid, steps ++ [(o, right)], hfirst, hsteps.snoc (hoperator.bind (hright.bind rfl)) ?_, ?_⟩
  · simp only [List.length_append, List.length_cons]
    omega
  · rw [List.foldl_append, List.foldl_cons, List.foldl_nil]

theorem level (h : IsJoined ℓ op make text left)
    (hlevel : ∀ expr, Parser.level expr ℓ = leftAssoc (Parser.level expr (ℓ + 1)) op make)
    (hstops : ∀ cs, Stops ℓ cs → op cs = none) : IsLevel ℓ text left := by
  intro d hd rest hends cs hcs
  obtain ⟨first, mid, steps, hfirst, hsteps, rfl⟩ := h d hd rest ⟨hends.cut, hends.stops.mono (Nat.le_succ ℓ)⟩ cs hcs
  have hfails : Fails (token op) rest := fails_token (hstops _ hends.stops)
  rw [hlevel]
  exact hfirst.bind ((hsteps.many hfails.bind).bind rfl)

end IsJoined

theorem logicalOp_written (op : LogicalOp) (cs : List Char) :
    logicalOp op.level (op.token.toList ++ ' ' :: cs) = some (op, ' ' :: cs) := by
  cases op <;> rfl

theorem binaryOp_written (op : BinaryOp) (cs : List Char) :
    binaryOp op.level (op.token.toList ++ ' ' :: cs) = some (op, ' ' :: cs) := by
  cases op <;> rfl

/-- A conditional; only the condition asks for a tighter level. -/
theorem IsLevel.conditional {t c a : List Char} {test consequent alternate : Node} (ht : IsLevel 1 t test)
    (hc : IsLevel 0 c consequent) (ha : IsLevel 0 a alternate) (hoc : Opens c) (hoa : Opens a) :
    IsLevel 0 (t ++ (" ? ".toList ++ (c ++ (" : ".toList ++ a)))) (.conditional test consequent alternate) := by
  intro d hd rest hends cs hcs
  have hlength : t.length + c.length + a.length < d := by
    simp only [List.length_append] at hd
    have h3 : " ? ".toList.length = 3 := rfl
    omega
  have hcs : cs.dropWhile isSpace = t ++ ' ' :: '?' :: ' ' :: (c ++ ' ' :: ':' :: ' ' :: (a ++ rest)) := by
    rw [hcs]
    simp only [List.append_assoc]
    rfl
  have htest := ht d (by omega) _ (.spaced (.question (by decide))) cs hcs
  have hquestion : Reads (token Token.question) (' ' :: '?' :: ' ' :: (c ++ ' ' :: ':' :: ' ' :: (a ++ rest))) ()
      (' ' :: (c ++ ' ' :: ':' :: ' ' :: (a ++ rest))) := reads_token rfl
  have hconsequent : Reads (Parser.expression d) (' ' :: (c ++ ' ' :: ':' :: ' ' :: (a ++ rest))) consequent
      (' ' :: ':' :: ' ' :: (a ++ rest)) := hc.expression (by omega) (.spaced (.closing (by decide))) hoc.spaced
  have hcolon : Reads (mark ":") (' ' :: ':' :: ' ' :: (a ++ rest)) () (' ' :: (a ++ rest)) := reads_token rfl
  have halternate : Reads (Parser.expression d) (' ' :: (a ++ rest)) alternate rest :=
    ha.expression (by omega) hends hoa.spaced
  rw [level_zero]
  have hbranches : Reads (do
      token Token.question
      let consequent ← Parser.expression d
      mark ":"
      let alternate ← Parser.expression d
      return (consequent, alternate)) (' ' :: '?' :: ' ' :: (c ++ ' ' :: ':' :: ' ' :: (a ++ rest)))
      (consequent, alternate) rest := hquestion.bind (hconsequent.bind (hcolon.bind (halternate.bind rfl)))
  exact htest.bind (hbranches.optional.bind rfl)

/-! ## Expressions between commas -/

/-- No expression begins with a closing mark. -/
theorem fails_expression {c : Char} (hc : c = ')' ∨ c = ']') (hcs : cs.dropWhile isSpace = c :: rest) (d : Nat) :
    Fails (expression d) cs := by
  cases d with
  | zero => exact rfl
  | succ d =>
    have hprimary : Fails (primary (expression d)) cs := by
      have hparen : Fails (mark "(") cs := fails_mark rfl hcs (by rcases hc with rfl | rfl <;> decide)
      have hbracket : Fails (mark "[") cs := fails_mark rfl hcs (by rcases hc with rfl | rfl <;> decide)
      have hnumber : Fails (token number) cs := fails_token (by rw [hcs]; rcases hc with rfl | rfl <;> rfl)
      have hquoted : Fails (token quotedText) cs := fails_token (by rw [hcs]; rcases hc with rfl | rfl <;> rfl)
      have hkeyword : Fails (token keyword) cs := fails_token (by rw [hcs]; rcases hc with rfl | rfl <;> rfl)
      have hname : Fails (token identifier) cs := fails_token (by rw [hcs]; rcases hc with rfl | rfl <;> rfl)
      refine fails_firstOf ?_
      simp only [List.forall_mem_cons]
      exact ⟨hparen.bind, hnumber.map, hquoted.map, hkeyword.map, hbracket.bind, hname.map, hparen.bind, nofun⟩
    have hop : Fails (token unaryOp) cs := fails_token (by rw [hcs]; rcases hc with rfl | rfl <;> rfl)
    have hchain : Fails (postfixLevel (expression d)) cs := hprimary.bind
    have hunary : Fails (unaryLevel (expression d)) cs := hop.many.bind_fails hchain.bind
    have hproducts : Fails (multiplicativeLevel (expression d)) cs := hunary.bind
    have hsums : Fails (additiveLevel (expression d)) cs := hproducts.bind
    have horder : Fails (relationalLevel (expression d)) cs := hsums.bind
    have hequality : Fails (equalityLevel (expression d)) cs := horder.bind
    have hand : Fails (andLevel (expression d)) cs := hequality.bind
    have hor : Fails (orLevel (expression d)) cs := hand.bind
    have hnullish : Fails (nullishLevel (expression d)) cs := hor.bind
    rw [expression]
    exact hnullish.bind

/-- Whether an expression is taken off as it is written without parentheses. -/
def IsWhole (k : Nat) (n : Node) : Prop := IsLevel 0 (n.bare k) n ∧ Opens (n.bare k)

theorem ends_listed {k : Nat} {c : Char} (es : List Node) (hc : c = ')' ∨ c = ']') : Ends 0 (Node.listed k es ++ c :: rest) := by
  cases es with
  | nil => exact .closing (by rcases hc with rfl | rfl <;> decide)
  | cons e es => exact .closing (c := ',') (by decide)

section
variable {k d : Nat} {c : Char} {es : List Node} (h : ∀ e ∈ es, IsWhole k e)
include h

theorem steps_listed (rest : List Char) (hd : (Node.listed k es).length < d) (hc : c = ')' ∨ c = ']') :
    Steps (do
      mark ","
      expression d) (Node.listed k es ++ c :: rest) es (c :: rest) := by
  induction es with
  | nil => exact .nil
  | cons e es ih =>
    obtain ⟨⟨he, ho⟩, hes⟩ := List.forall_mem_cons.mp h
    have hlength : (Node.listed k (e :: es)).length = (e.bare k).length + (Node.listed k es).length + 2 := by
      rw [Node.listed_cons, List.length_append, List.length_append]
      change 2 + _ = _
      omega
    have hcs : Node.listed k (e :: es) ++ c :: rest = ',' :: ' ' :: (e.bare k ++ (Node.listed k es ++ c :: rest)) := by
      rw [Node.listed_cons, List.append_assoc, List.append_assoc]
      rfl
    have hcomma : Reads (mark ",") (',' :: ' ' :: (e.bare k ++ (Node.listed k es ++ c :: rest))) ()
        (' ' :: (e.bare k ++ (Node.listed k es ++ c :: rest))) := reads_token rfl
    have hnext : Reads (expression d) (' ' :: (e.bare k ++ (Node.listed k es ++ c :: rest))) e (Node.listed k es ++ c :: rest) :=
      he.expression (by omega) (ends_listed es hc) ho.spaced
    rw [hcs]
    refine .cons (hcomma.bind hnext) ?_ (ih hes (by omega))
    simp only [List.length_cons, List.length_append]
    omega

/-- Expressions between commas, or none. -/
theorem reads_listing (rest : List Char) (hd : (Node.listing k es).length < d) (hc : c = ')' ∨ c = ']') :
    es = [] ∨ Reads (listed (expression d)) (Node.listing k es ++ c :: rest) es (c :: rest) := by
  cases es with
  | nil => exact .inl rfl
  | cons e es =>
    right
    obtain ⟨⟨he, ho⟩, hes⟩ := List.forall_mem_cons.mp h
    rw [Node.listing, List.length_append] at hd
    have hskip : (c :: rest).dropWhile isSpace = c :: rest := by rcases hc with rfl | rfl <;> rfl
    have hcomma : Fails (mark ",") (c :: rest) := fails_mark rfl hskip (by rcases hc with rfl | rfl <;> decide)
    have hlength : (Node.listed k es).length < d := by omega
    have hmore := (steps_listed hes rest hlength hc).many hcomma.bind
    rw [Node.listing, List.append_assoc]
    exact (he.expression (by omega) (ends_listed es hc) ho.not_space).bind (hmore.bind rfl)

theorem reads_arguments (rest : List Char) (hd : (Node.listing k es).length < d) :
    Reads (arguments (expression d)) ('(' :: (Node.listing k es ++ ')' :: rest)) es rest := by
  have hopen : Reads (mark "(") ('(' :: (Node.listing k es ++ ')' :: rest)) () (Node.listing k es ++ ')' :: rest) :=
    reads_token rfl
  have hclose : Reads (mark ")") (')' :: rest) () rest := reads_token rfl
  rcases reads_listing h rest hd (.inl rfl) with rfl | hes
  · have hnone : Fails (listed (expression d)) (')' :: rest) := (fails_expression (.inl rfl) rfl d).bind
    exact hopen.bind (hnone.optional.bind (hclose.bind rfl))
  · exact hopen.bind (hes.optional.bind (hclose.bind rfl))

theorem isPrimary_array : IsPrimary ('[' :: (Node.listing k es ++ [']'])) (.array es) := by
  intro d hd rest hcut cs hcs
  rw [List.cons_append, List.append_assoc, List.singleton_append] at hcs
  have hlength : (Node.listing k es).length < d := by
    simp only [List.length_cons, List.length_append] at hd
    omega
  have hopen : Reads (mark "[") cs () (Node.listing k es ++ ']' :: rest) := reads_token (by rw [hcs]; rfl)
  have hclose : Reads (mark "]") (']' :: rest) () rest := reads_token rfl
  have harray : Reads (arrayLiteral (expression d)) cs (.array es) rest := by
    rcases reads_listing h rest hlength (.inr rfl) with rfl | hes
    · have hnone : Fails (listed (expression d)) (']' :: rest) := (fails_expression (.inr rfl) rfl d).bind
      exact hopen.bind (hnone.bind.optional.bind (hclose.bind rfl))
    · have hcomma : Fails (mark ",") (']' :: rest) := fails_token rfl
      have helements : Reads (do
          let es ← listed (expression d)
          let _ ← Parser.optional (mark ",")
          return es) (Node.listing k es ++ ']' :: rest) es (']' :: rest) := hes.bind (hcomma.optional.bind rfl)
      exact hopen.bind (helements.optional.bind (hclose.bind rfl))
  have hparen : Fails (mark "(") cs := fails_token (by rw [hcs]; rfl)
  have hnumber : Fails (token number) cs := fails_token (by rw [hcs]; rfl)
  have hquoted : Fails (token quotedText) cs := fails_token (by rw [hcs]; rfl)
  have hkeyword : Fails (token keyword) cs := fails_token (by rw [hcs]; rfl)
  exact hparen.bind.orElse (hnumber.map.orElse (hquoted.map.orElse (hkeyword.map.orElse harray.orElse)))

end

/-! ## Links -/

theorem isLink_member {p : String} (hp : isSpelled p = true) (optional : Bool) :
    IsLink ((if optional then "?." else ".").toList ++ p.toList) (.member p optional) := by
  intro d _ rest hrest
  have hname := propertyName_written hp hrest
  obtain ⟨c, cs, hcs, hc, -⟩ := of_isSpelled hp
  have hskip : (p.toList ++ rest).dropWhile isSpace = p.toList ++ rest := by
    rw [hcs]
    exact List.dropWhile_cons_of_neg (not_isSpace (Reference.not_isBlank_of_opensName hc))
  have hproperty : Reads (token propertyName) (p.toList ++ rest) p rest := reads_token (by rw [hskip, hname])
  rw [List.append_assoc]
  cases optional with
  | false =>
    change Reads (link _) ('.' :: (p.toList ++ rest)) _ _
    have hoptional : Fails (token optionalLink) ('.' :: (p.toList ++ rest)) := fails_token rfl
    have hmark : Reads (mark ".") ('.' :: (p.toList ++ rest)) () (p.toList ++ rest) := reads_token rfl
    have hmember : Reads (do
        mark "."
        let p ← token propertyName
        return Link.member p false) ('.' :: (p.toList ++ rest)) (.member p false) rest := hmark.bind (hproperty.bind rfl)
    exact hoptional.bind.orElse (hoptional.bind.orElse (hoptional.bind.orElse hmember.orElse))
  | true =>
    change Reads (link _) ('?' :: '.' :: (p.toList ++ rest)) _ _
    have hhead : (p.toList ++ rest).dropWhile isSpace = c :: (cs ++ rest) := by rw [hskip, hcs]; rfl
    have hoptional : Reads (token optionalLink) ('?' :: '.' :: (p.toList ++ rest)) () (p.toList ++ rest) :=
      reads_optionalLink rfl (not_startsWithDigit hhead hc)
    have hbracket : Fails (mark "[") (p.toList ++ rest) := fails_mark rfl hhead (by rintro rfl; exact absurd hc (by decide))
    have hparen : Fails (mark "(") (p.toList ++ rest) := fails_mark rfl hhead (by rintro rfl; exact absurd hc (by decide))
    have hmember : Reads (do
        token optionalLink
        let p ← token propertyName
        return Link.member p true) ('?' :: '.' :: (p.toList ++ rest)) (.member p true) rest :=
      hoptional.bind (hproperty.bind rfl)
    exact (hoptional.bind_fails hbracket.bind.bind).orElse ((hoptional.bind_fails hparen.bind.bind).orElse hmember.orElse)

theorem isLink_index {k : Nat} {i : Node} (h : IsWhole k i) (optional : Bool) :
    IsLink ((if optional then "?.[" else "[").toList ++ (i.bare k ++ [']'])) (.index i optional) := by
  intro d hd rest hrest
  have hlength : (i.bare k).length < d := by
    simp only [List.length_append, List.length_singleton] at hd
    omega
  have hopen : Reads (mark "[") ('[' :: (i.bare k ++ ']' :: rest)) () (i.bare k ++ ']' :: rest) := reads_token rfl
  have hindex : Reads (expression d) (i.bare k ++ ']' :: rest) i (']' :: rest) :=
    h.1.expression hlength (.closing (by decide)) h.2.not_space
  have hclose : Reads (mark "]") (']' :: rest) () rest := reads_token rfl
  have hbracketed : Reads (bracketed (expression d)) ('[' :: (i.bare k ++ ']' :: rest)) i rest :=
    hopen.bind (hindex.bind (hclose.bind rfl))
  rw [List.append_assoc, List.append_assoc, List.singleton_append]
  cases optional with
  | false =>
    change Reads (link _) ('[' :: (i.bare k ++ ']' :: rest)) _ _
    have hoptional : Fails (token optionalLink) ('[' :: (i.bare k ++ ']' :: rest)) := fails_token rfl
    have hpoint : Fails (mark ".") ('[' :: (i.bare k ++ ']' :: rest)) := fails_token rfl
    have hread : Reads (do
        let i ← bracketed (expression d)
        return Link.index i false) ('[' :: (i.bare k ++ ']' :: rest)) (.index i false) rest := hbracketed.bind rfl
    exact hoptional.bind.orElse (hoptional.bind.orElse (hoptional.bind.orElse (hpoint.bind.orElse hread.orElse)))
  | true =>
    change Reads (link _) ('?' :: '.' :: '[' :: (i.bare k ++ ']' :: rest)) _ _
    have hoptional : Reads (token optionalLink) ('?' :: '.' :: '[' :: (i.bare k ++ ']' :: rest)) ()
        ('[' :: (i.bare k ++ ']' :: rest)) := reads_optionalLink rfl rfl
    have hread : Reads (do
        token optionalLink
        let i ← bracketed (expression d)
        return Link.index i true) ('?' :: '.' :: '[' :: (i.bare k ++ ']' :: rest)) (.index i true) rest :=
      hoptional.bind (hbracketed.bind rfl)
    exact hread.orElse

theorem isLink_call {k : Nat} {as : List Node} (h : ∀ a ∈ as, IsWhole k a) (optional : Bool) :
    IsLink ((if optional then "?.(" else "(").toList ++ (Node.listing k as ++ [')'])) (.call as optional) := by
  intro d hd rest hrest
  have hlength : (Node.listing k as).length < d := by
    simp only [List.length_append, List.length_singleton] at hd
    omega
  have hargs := reads_arguments h rest hlength
  rw [List.append_assoc, List.append_assoc, List.singleton_append]
  cases optional with
  | false =>
    change Reads (link _) ('(' :: (Node.listing k as ++ ')' :: rest)) _ _
    have hoptional : Fails (token optionalLink) ('(' :: (Node.listing k as ++ ')' :: rest)) := fails_token rfl
    have hpoint : Fails (mark ".") ('(' :: (Node.listing k as ++ ')' :: rest)) := fails_token rfl
    have hbracket : Fails (mark "[") ('(' :: (Node.listing k as ++ ')' :: rest)) := fails_token rfl
    have hread : Reads (do
        let args ← arguments (expression d)
        return Link.call args false) ('(' :: (Node.listing k as ++ ')' :: rest)) (.call as false) rest := hargs.bind rfl
    exact hoptional.bind.orElse (hoptional.bind.orElse (hoptional.bind.orElse (hpoint.bind.orElse
      (hbracket.bind.bind.orElse hread.orElse))))
  | true =>
    change Reads (link _) ('?' :: '.' :: '(' :: (Node.listing k as ++ ')' :: rest)) _ _
    have hoptional : Reads (token optionalLink) ('?' :: '.' :: '(' :: (Node.listing k as ++ ')' :: rest)) ()
        ('(' :: (Node.listing k as ++ ')' :: rest)) := reads_optionalLink rfl rfl
    have hbracket : Fails (mark "[") ('(' :: (Node.listing k as ++ ')' :: rest)) := fails_token rfl
    have hread : Reads (do
        token optionalLink
        let args ← arguments (expression d)
        return Link.call args true) ('?' :: '.' :: '(' :: (Node.listing k as ++ ')' :: rest)) (.call as true) rest :=
      hoptional.bind (hargs.bind rfl)
    exact (hoptional.bind_fails hbracket.bind.bind).orElse hread.orElse

/-! ## Functions -/

section
variable {k d : Nat}

theorem declarationKind_written (kind : DeclarationKind) (cs : List Char) :
    declarationKind (kind.token.toList ++ ' ' :: cs) = some (kind, ' ' :: cs) := by
  cases kind <;> rfl

theorem reads_declaration {kind : DeclarationKind} {name : String} {v : Node} (hname : isIdentifier name = true)
    (hv : IsWhole k v) (hd : (v.bare k).length < d) (hcs : cs.dropWhile isSpace =
      kind.token.toList ++ ' ' :: (name.toList ++ (" = ".toList ++ (v.bare k ++ ("; ".toList ++ rest))))) :
    Reads (declaration (expression d)) cs (kind, name, v) (' ' :: rest) := by
  have hkind : Reads (token declarationKind) cs kind
      (' ' :: (name.toList ++ (" = ".toList ++ (v.bare k ++ ("; ".toList ++ rest))))) :=
    reads_token (by rw [hcs, declarationKind_written])
  have hword : Reads (token identifier) (' ' :: (name.toList ++ (" = ".toList ++ (v.bare k ++ ("; ".toList ++ rest)))))
      name (" = ".toList ++ (v.bare k ++ ("; ".toList ++ rest))) := by
    refine reads_token ?_
    obtain ⟨c, more, hmore, hc, -⟩ := of_isSpelled ((Bool.and_eq_true _ _).mp hname).1
    rw [List.dropWhile_cons_of_pos (by decide), hmore, List.cons_append,
      List.dropWhile_cons_of_neg (not_isSpace (Reference.not_isBlank_of_opensName hc)), ← List.cons_append, ← hmore]
    exact identifier_written hname ⟨rfl, rfl, nofun⟩
  have hsign : Reads (token declares) (" = ".toList ++ (v.bare k ++ ("; ".toList ++ rest))) ()
      (' ' :: (v.bare k ++ ("; ".toList ++ rest))) := reads_token rfl
  have hvalue : Reads (expression d) (' ' :: (v.bare k ++ ("; ".toList ++ rest))) v ("; ".toList ++ rest) :=
    hv.1.expression hd (.closing (c := ';') (by decide)) hv.2.spaced
  have hend : Reads (mark ";") ("; ".toList ++ rest) () (' ' :: rest) := reads_token rfl
  exact hkind.bind (hword.bind (hsign.bind (hvalue.bind (hend.optional.bind rfl))))

theorem not_space_body (b : Body) : (b.bare k ++ rest).dropWhile isSpace = b.bare k ++ rest := by
  cases b with
  | result v => exact List.dropWhile_cons_of_neg (a := 'r') (by decide)
  | declare kind =>
    cases kind with
    | const => exact List.dropWhile_cons_of_neg (a := 'c') (by decide)
    | «let» => exact List.dropWhile_cons_of_neg (a := 'l') (by decide)

/-- The declarations of a body are taken off up to its result. -/
theorem steps_declarations {cs : List Char} (b : Body) (hb : b.spelled = true) (h : ∀ v ∈ b.values, IsWhole k v)
    (hd : (b.bare k).length < d) (hcs : cs.dropWhile isSpace = b.bare k ++ rest) :
    ∃ ds v mid, Steps (declaration (expression d)) cs ds mid ∧
      mid.dropWhile isSpace = (Body.result v).bare k ++ rest ∧ (v.bare k).length < d ∧ IsWhole k v ∧
      ds.foldr (fun d rest => .declare d.1 d.2.1 d.2.2 rest) (.result v) = b := by
  match b with
  | .result v =>
    refine ⟨[], v, cs, .nil, hcs, ?_, h v List.mem_cons_self, rfl⟩
    rw [Body.bare_result, List.length_append, List.length_append] at hd
    omega
  | .declare kind name v more =>
    simp only [Body.spelled, Bool.and_eq_true] at hb
    obtain ⟨hv, hmore⟩ := List.forall_mem_cons.mp h
    rw [Body.bare_declare] at hd hcs
    simp only [List.length_append, List.length_cons] at hd
    have hcs : cs.dropWhile isSpace = kind.token.toList ++ ' ' :: (name.toList ++ (" = ".toList ++ (v.bare k ++
        ("; ".toList ++ (more.bare k ++ rest))))) := by
      rw [hcs]
      simp only [List.append_assoc, List.cons_append]
    have hlength : (v.bare k).length < d := by omega
    have hfirst := reads_declaration hb.1.1 hv hlength hcs
    have hskip : (' ' :: (more.bare k ++ rest)).dropWhile isSpace = more.bare k ++ rest := by
      rw [List.dropWhile_cons_of_pos (by decide), not_space_body]
    obtain ⟨ds, w, mid, hsteps, hmid, hw, hwhole, rfl⟩ := steps_declarations more hb.2 hmore (by omega) hskip
    refine ⟨(kind, name, v) :: ds, w, mid, .cons hfirst ?_ hsteps, hmid, hw, hwhole, rfl⟩
    have hshort : (cs.dropWhile isSpace).length ≤ cs.length := (List.dropWhile_suffix _).length_le
    have hsemicolon : "; ".toList.length = 2 := rfl
    rw [hcs] at hshort
    simp only [List.length_append, List.length_cons] at hshort ⊢
    omega

theorem reads_functionBody {b : Body} (hb : b.spelled = true) (h : ∀ v ∈ b.values, IsWhole k v)
    (hd : (b.bare k).length < d) :
    Reads (functionBody (expression d)) (" \x7b ".toList ++ (b.bare k ++ ("\x7d".toList ++ rest))) b rest := by
  have hopen : Reads (mark "\x7b") (" \x7b ".toList ++ (b.bare k ++ ("\x7d".toList ++ rest))) ()
      (' ' :: (b.bare k ++ ("\x7d".toList ++ rest))) := reads_token rfl
  have hskip : (' ' :: (b.bare k ++ ("\x7d".toList ++ rest))).dropWhile isSpace = b.bare k ++ ("\x7d".toList ++ rest) := by
    rw [List.dropWhile_cons_of_pos (by decide), not_space_body]
  obtain ⟨ds, v, mid, hsteps, hmid, hv, hwhole, rfl⟩ := steps_declarations b hb h hd hskip
  have hmid : mid.dropWhile isSpace = "return ".toList ++ (v.bare k ++ ("; ".toList ++ ("\x7d".toList ++ rest))) := by
    rw [hmid, Body.bare_result, List.append_assoc, List.append_assoc]
  have hnone : Fails (declaration (expression d)) mid := Fails.bind (fails_token (by rw [hmid]; rfl))
  have hreturn : Reads (token (Token.word "return")) mid () (' ' :: (v.bare k ++ ("; ".toList ++ ("\x7d".toList ++ rest)))) :=
    reads_token (by rw [hmid]; rfl)
  have hvalue : Reads (expression d) (' ' :: (v.bare k ++ ("; ".toList ++ ("\x7d".toList ++ rest)))) v
      ("; ".toList ++ ("\x7d".toList ++ rest)) :=
    hwhole.1.expression hv (.closing (c := ';') (by decide)) hwhole.2.spaced
  have hend : Reads (mark ";") ("; ".toList ++ ("\x7d".toList ++ rest)) () (" \x7d".toList ++ rest) := reads_token rfl
  have hclose : Reads (mark "\x7d") (" \x7d".toList ++ rest) () rest := reads_token rfl
  exact hopen.bind ((hsteps.many hnone).bind (hreturn.bind (hvalue.bind (hend.optional.bind (hclose.bind rfl)))))

/-- A function without parameters that is invoked. -/
theorem isPrimary_invoked {b : Body} (hb : b.spelled = true) (h : ∀ v ∈ b.values, IsWhole k v) :
    IsPrimary ("(() => \x7b ".toList ++ (b.bare k ++ "\x7d)()".toList)) (.invoked b) := by
  intro d hd rest _ cs hcs
  have hlength : (b.bare k).length < d := by
    rw [List.length_append] at hd
    have hhead : "(() => \x7b ".toList.length = 9 := rfl
    rw [List.length_append] at hd
    omega
  have hcs : cs.dropWhile isSpace = '(' :: '(' :: ')' :: ' ' :: '=' :: '>' :: ' ' ::
      ("\x7b ".toList ++ (b.bare k ++ ("\x7d".toList ++ ')' :: '(' :: ')' :: rest))) := by
    rw [hcs, List.append_assoc, List.append_assoc]
    rfl
  have hopen : Reads (mark "(") cs () ('(' :: ')' :: ' ' :: '=' :: '>' :: ' ' ::
      ("\x7b ".toList ++ (b.bare k ++ ("\x7d".toList ++ ')' :: '(' :: ')' :: rest)))) := reads_token (by rw [hcs]; rfl)
  have hparens (more : List Char) : Reads (mark "(") ('(' :: ')' :: more) () (')' :: more) ∧
      Reads (mark ")") (')' :: more) () more := ⟨reads_token rfl, reads_token rfl⟩
  have harrow : Reads (mark "=>") (' ' :: '=' :: '>' :: ' ' ::
      ("\x7b ".toList ++ (b.bare k ++ ("\x7d".toList ++ ')' :: '(' :: ')' :: rest)))) ()
      (" \x7b ".toList ++ (b.bare k ++ ("\x7d".toList ++ ')' :: '(' :: ')' :: rest))) := reads_token rfl
  have hbody : Reads (functionBody (expression d))
      (" \x7b ".toList ++ (b.bare k ++ ("\x7d".toList ++ ')' :: '(' :: ')' :: rest))) b (')' :: '(' :: ')' :: rest) :=
    reads_functionBody hb h hlength
  have hfunction : Reads (arrowFunction (expression d)) ('(' :: ')' :: ' ' :: '=' :: '>' :: ' ' ::
      ("\x7b ".toList ++ (b.bare k ++ ("\x7d".toList ++ ')' :: '(' :: ')' :: rest)))) b (')' :: '(' :: ')' :: rest) :=
    (hparens _).1.bind ((hparens _).2.bind (harrow.bind hbody.orElse))
  have hinvocation : Reads (invocation (expression d)) cs (.invoked b) rest :=
    hopen.bind (hfunction.orElse.bind ((hparens _).2.bind ((hparens _).1.bind ((hparens _).2.bind rfl))))
  exact hinvocation.orElse

end

end FormRules.Expr.Parser
