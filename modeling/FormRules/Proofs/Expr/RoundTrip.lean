import FormRules.Proofs.Expr.Reading
import FormRules.Proofs.Number.Reading

/-!
# An expression that is written out is read back

By induction over expressions: what is written for one is taken off at every level at which it stands without
parentheses, since the parts of it stand at places that ask for their levels, and at the other levels as a group.
-/

namespace FormRules.Expr
open Text Token FormRules.Expr.Parser
variable {k ℓ : Nat} {n : Node} {cs rest text more : List Char} {c : Char}

/-! ## Literals and names -/

theorem Token.wordRun_ne {w : String} {d : Char} {ds : List Char} (hw : w.toList = d :: ds) (hne : c ≠ d) :
    wordRun (c :: cs) ≠ w.toList := by
  rw [hw, wordRun, List.takeWhile_cons]
  split
  · exact fun h => hne (List.cons.inj h).1
  · exact nofun

theorem Token.number_none (hc : isDecimal c = false) (hpoint : c ≠ '.') : number (c :: cs) = none := by
  have htake : (c :: cs).takeWhile isDecimal = [] := List.takeWhile_cons_of_neg (by simp [hc])
  have hdrop : (c :: cs).dropWhile isDecimal = c :: cs := List.dropWhile_cons_of_neg (by simp [hc])
  unfold number
  simp only [htake, hdrop]
  split
  · next heq => exact absurd (List.cons.inj heq).1 hpoint
  · rfl

theorem Token.quotedText_none (hc : c ≠ '\'') (hc' : c ≠ '"') : quotedText (c :: cs) = none := by
  rw [quotedText, if_neg (by simp [hc, hc'])]

theorem opens_of_head (hblank : isBlank c = false) (hc : c ∉ [')', '=', '(', 'f']) : Opens (c :: cs) := by
  simp only [List.mem_cons, List.not_mem_nil, or_false, not_or] at hc
  obtain ⟨hclose, heq, hparen, hf⟩ := hc
  exact ⟨⟨c, cs, rfl, hblank, hclose, heq, fun h => absurd h hparen⟩, wordRun_ne rfl hf⟩

/-- A chain may begin with a character that begins no operator, nor the words of one. -/
theorem starts_of_head (hblank : isBlank c = false) (hc : c ∉ [')', '=', '(', 'f', '!', '-', '+', 't']) : Starts (c :: cs) := by
  simp only [List.mem_cons, List.not_mem_nil, or_false, not_or] at hc
  obtain ⟨hclose, heq, hparen, hf, hnot, hminus, hplus, ht⟩ := hc
  refine ⟨opens_of_head hblank (by simp [hclose, heq, hparen, hf]), ?_, wordRun_ne rfl ht⟩
  rintro d ⟨⟩
  simp [hnot, hminus, hplus]

theorem starts_paren (hc : isBlank c = false) (hclose : c ≠ ')') : Starts ('(' :: c :: cs) := by
  refine ⟨⟨⟨'(', _, rfl, by decide, by decide, by decide, fun _ => ⟨c, cs, rfl, hc, hclose⟩⟩,
    wordRun_ne rfl (by decide)⟩, ?_, wordRun_ne rfl (by decide)⟩
  rintro d ⟨⟩
  decide

theorem starts_enclosed (h : Opens text) : Starts ('(' :: (text ++ [')'])) := by
  obtain ⟨⟨c, cs, rfl, hc, hclose, -⟩, -⟩ := h
  exact starts_paren hc hclose

theorem starts_digits {d : Char} (hd : d.isDigit = true) : Starts (d :: cs) :=
  starts_of_head (Numeral.IsPlain.of_digit hd).not_blank fun hmem => by
    have hall : ∀ c ∈ [')', '=', '(', 'f', '!', '-', '+', 't'], c.isDigit = false := by simp [Char.isDigit]
    rw [hall d hmem] at hd
    cases hd

theorem isPrimary_number {l : Literal} {d : Char} {ds : List Char} (hl : l.written = d :: ds) (hd : d.isDigit = true)
    (hnumber : ∀ rest, Cut rest → number (l.written ++ rest) = some (l, rest)) :
    IsPrimary l.written (.literal l) ∧ Starts l.written := by
  refine ⟨fun _ _ rest hcut cs hcs => ?_, hl ▸ starts_digits hd⟩
  have hread : Reads (token number) cs l rest := reads_token (by rw [hcs, hnumber rest hcut])
  rw [hl, List.cons_append] at hcs
  have hparen : Fails (mark "(") cs := fails_mark rfl hcs (by rintro rfl; cases hd)
  exact hparen.bind.orElse hread.map.orElse

theorem isPrimary_text (s : String) :
    IsPrimary (Literal.text s).written (.literal (.text s)) ∧ Starts (Literal.text s).written := by
  refine ⟨fun _ _ rest _ cs hcs => ?_, starts_of_head (by decide) (by decide)⟩
  have hread : Reads (token quotedText) cs (.text s) rest := reads_token (by rw [hcs, quotedText_written])
  have hparen : Fails (mark "(") cs := fails_token (by rw [hcs]; rfl)
  have hnumber : Fails (token number) cs := fails_token (by rw [hcs]; rfl)
  exact hparen.bind.orElse (hnumber.map.orElse hread.map.orElse)

theorem starts_word {w : String} (hw : isSpelled w = true) (hfunction : wordRun w.toList ≠ "function".toList)
    (htypeof : wordRun w.toList ≠ "typeof".toList) : Starts w.toList := by
  obtain ⟨c, cs, heq, hc, -⟩ := of_isSpelled hw
  have hne (d : Char) (hd : opensName d = false) : c ≠ d := by
    rintro rfl
    rw [hc] at hd
    cases hd
  refine ⟨⟨⟨c, cs, heq, Reference.not_isBlank_of_opensName hc, hne _ (by decide), hne _ (by decide),
    fun h => absurd h (hne _ (by decide))⟩, hfunction⟩, fun d hd => ?_, htypeof⟩
  rw [heq] at hd
  cases hd
  simp [hne '!' (by decide), hne '-' (by decide), hne '+' (by decide)]

/-- Neither a number, a text in quotes nor anything in parentheses begins like a name. -/
theorem fails_name (hcs : cs.dropWhile isSpace = c :: more) (hc : opensName c = true) :
    Fails (mark "(") cs ∧ Fails (mark "[") cs ∧ Fails (token number) cs ∧ Fails (token quotedText) cs := by
  have hne (d : Char) (hd : opensName d = false) : c ≠ d := by
    rintro rfl
    rw [hc] at hd
    cases hd
  refine ⟨fails_mark rfl hcs (hne '(' (by decide)).symm, fails_mark rfl hcs (hne '[' (by decide)).symm, ?_, ?_⟩
  · exact fails_token (by rw [hcs, number_none (not_isDecimal_of_opensName hc) (hne '.' (by decide))])
  · exact fails_token (by rw [hcs, quotedText_none (hne '\'' (by decide)) (hne '"' (by decide))])

theorem keyword_written {w : String} (hrest : Cut rest) : keyword (w.toList ++ rest) =
    [("true", Literal.bool true), ("false", .bool false), ("null", .null), ("undefined", .undefined)].findSome? fun v =>
      if wordRun w.toList = v.1.toList then some (v.2, (w.toList ++ rest).drop v.1.length) else none := by
  have hword (v : String) : Token.word v (w.toList ++ rest) =
      if wordRun w.toList = v.toList then some ((), (w.toList ++ rest).drop v.length) else none := by
    rw [Token.word, hrest.wordRun]
  have hmeaning (v : String) (l : Literal) : meaning (Token.word v) l (w.toList ++ rest) =
      if wordRun w.toList = v.toList then some (l, (w.toList ++ rest).drop v.length) else none := by
    rw [meaning, hword]
    split <;> rfl
  simp only [keyword, Token.firstOf, List.findSome?_cons, List.findSome?_nil, hmeaning]

theorem isPrimary_keyword (w : String) {l : Literal} (hw : isSpelled w = true) (hl : l.written = w.toList)
    (hstarts : Starts w.toList) (hkeyword : ∀ rest, Cut rest → keyword (w.toList ++ rest) = some (l, rest)) :
    IsPrimary l.written (.literal l) ∧ Starts l.written := by
  rw [hl]
  refine ⟨fun _ _ rest hcut cs hcs => ?_, hstarts⟩
  have hread : Reads (token keyword) cs l rest := reads_token (by rw [hcs, hkeyword rest hcut])
  obtain ⟨c, more, heq, hc, -⟩ := of_isSpelled hw
  rw [heq, List.cons_append] at hcs
  obtain ⟨hparen, -, hnumber, hquoted⟩ := fails_name hcs hc
  exact hparen.bind.orElse (hnumber.map.orElse (hquoted.map.orElse hread.map.orElse))

theorem isPrimary_identifier {w : String} (hw : isIdentifier w = true) : IsPrimary w.toList (.identifier w) ∧ Starts w.toList := by
  have hreserved (v : String) (hv : v ∈ reservedWords) : wordRun w.toList ≠ v.toList := by
    intro heq
    rw [isIdentifier, heq, String.ofList_toList, List.contains_iff_mem.mpr hv] at hw
    simp at hw
  have hspelled : isSpelled w = true := ((Bool.and_eq_true _ _).mp hw).1
  refine ⟨fun _ _ rest hcut cs hcs => ?_, starts_word hspelled (hreserved _ (by decide)) (hreserved _ (by decide))⟩
  have hread : Reads (token identifier) cs w rest := reads_token (by rw [hcs, identifier_written hw hcut])
  have hkeyword : Fails (token keyword) cs := by
    refine fails_token ?_
    rw [hcs, keyword_written hcut]
    simp only [List.findSome?_cons, List.findSome?_nil, if_neg (hreserved "true" (by decide)),
      if_neg (hreserved "false" (by decide)), if_neg (hreserved "null" (by decide)), if_neg (hreserved "undefined" (by decide))]
  obtain ⟨c, more, heq, hc, -⟩ := of_isSpelled hspelled
  rw [heq, List.cons_append] at hcs
  obtain ⟨hparen, hbracket, hnumber, hquoted⟩ := fails_name hcs hc
  exact hparen.bind.orElse (hnumber.map.orElse (hquoted.map.orElse (hkeyword.map.orElse (hbracket.bind.orElse
    hread.map.orElse))))

theorem isPrimary_literal {l : Literal} (hl : l.spelled = true) :
    IsPrimary l.written (.literal l) ∧ Starts l.written := by
  match l with
  | .int n =>
    obtain ⟨d, ds, heq, hd⟩ := head_toDigits n
    exact isPrimary_number heq hd fun rest hrest => number_int n hrest
  | .float (.finite u hr) =>
    have hu : 0 ≤ u := of_decide_eq_true hl
    obtain ⟨d, ds, heq, hd⟩ : ∃ d ds, (Binary64.finite u hr).text.toList = d :: ds ∧ d.isDigit = true := by
      by_cases hzero : u = 0
      · rw [Binary64.text, if_pos hzero]
        exact ⟨'0', _, rfl, rfl⟩
      · rw [Binary64.text_finite hzero, if_neg (by omega)]
        exact Binary64.head_written _
    exact isPrimary_number heq hd fun rest hrest => number_float hu hrest
  | .text s => exact isPrimary_text s
  | .bool true =>
    exact isPrimary_keyword "true" (by decide) rfl (starts_word (by decide) (by decide) (by decide)) fun rest hrest => by
      rw [keyword_written hrest]
      rfl
  | .bool false =>
    exact isPrimary_keyword "false" (by decide) rfl (starts_word (by decide) (by decide) (by decide)) fun rest hrest => by
      rw [keyword_written hrest]
      rfl
  | .null =>
    exact isPrimary_keyword "null" (by decide) rfl (starts_word (by decide) (by decide) (by decide)) fun rest hrest => by
      rw [keyword_written hrest]
      rfl
  | .undefined =>
    exact isPrimary_keyword "undefined" (by decide) rfl (starts_word (by decide) (by decide) (by decide)) fun rest hrest => by
      rw [keyword_written hrest]
      rfl

/-! ## Beginnings -/

theorem opens_place (h : Opens (n.bare k)) : Opens (n.place k ℓ) := by
  rcases Nat.lt_or_ge (n.rank k) ℓ with hlt | hle
  · rw [Node.place_of_lt hlt]
    exact (starts_enclosed h).toOpens
  · rwa [Node.place_of_le hle]

/-- A chain begins what is written where a link is put on. -/
theorem starts_place (h : Opens (n.bare k) ∧ (10 ≤ n.rank 10 → Starts (n.bare k))) : Starts (n.place k 10) := by
  rcases Nat.lt_or_ge (n.rank k) 10 with hlt | hle
  · rw [Node.place_of_lt hlt]
    exact starts_enclosed h.1
  · rw [Node.place_of_le hle]
    refine h.2 ?_
    cases n <;> simp only [Node.rank] at hle ⊢ <;> omega

theorem cut_member (isOptional : Bool) {p : String} (hp : isSpelled p = true) (rest : List Char) :
    Cut ((if isOptional then "?." else ".").toList ++ p.toList ++ rest) := by
  cases isOptional with
  | true => exact ⟨rfl, rfl, nofun⟩
  | false =>
    obtain ⟨c, cs, heq, hc, -⟩ := of_isSpelled hp
    rw [heq]
    exact ⟨rfl, rfl, fun _ => not_isDecimal_of_opensName hc⟩

theorem cut_index (isOptional : Bool) (rest : List Char) : Cut ((if isOptional then "?.[" else "[").toList ++ rest) := by
  cases isOptional <;> exact ⟨rfl, rfl, nofun⟩

theorem cut_call (isOptional : Bool) (rest : List Char) : Cut ((if isOptional then "?.(" else "(").toList ++ rest) := by
  cases isOptional <;> exact ⟨rfl, rfl, nofun⟩

theorem opens_unary (op : UnaryOp) : Opens (op.written ++ text) := by
  cases op with
  | not => exact opens_of_head (c := '!') (by decide) (by decide)
  | negate => exact opens_of_head (c := '-') (by decide) (by decide)
  | plus => exact opens_of_head (c := '+') (by decide) (by decide)
  | typeOf => exact opens_of_head (c := 't') (by decide) (by decide)

theorem opens_bare : (n : Node) → n.spelled = true → Opens (n.bare k) ∧ (10 ≤ n.rank 10 → Starts (n.bare k))
  | .literal l, h => ⟨(isPrimary_literal h).2.toOpens, fun _ => (isPrimary_literal h).2⟩
  | .identifier w, h => ⟨(isPrimary_identifier h).2.toOpens, fun _ => (isPrimary_identifier h).2⟩
  | .array es, _ => ⟨(starts_of_head (by decide) (by decide)).toOpens, fun _ => starts_of_head (by decide) (by decide)⟩
  | .member o p isOptional, h => by
    simp only [Node.spelled, Bool.and_eq_true] at h
    have hcut := cut_member isOptional h.2 []
    rw [List.append_nil] at hcut
    have hs := (starts_place (opens_bare o h.1)).append hcut
    exact ⟨hs.toOpens, fun _ => hs⟩
  | .index o i isOptional, h => by
    simp only [Node.spelled, Bool.and_eq_true] at h
    have hs := (starts_place (opens_bare o h.1)).append (cut_index isOptional (i.bare k ++ [']']))
    exact ⟨hs.toOpens, fun _ => hs⟩
  | .call c as isOptional, h => by
    simp only [Node.spelled, Bool.and_eq_true] at h
    have hs := (starts_place (opens_bare c h.1)).append (cut_call isOptional (Node.listing k as ++ [')']))
    exact ⟨hs.toOpens, fun _ => hs⟩
  | .chain e, h => ⟨(opens_bare e h).1, fun hrank => absurd hrank (by simp [Node.rank])⟩
  | .unary op _, _ => ⟨opens_unary op, fun hrank => absurd hrank (by simp [Node.rank])⟩
  | .binary op l r, h => by
    simp only [Node.spelled, Bool.and_eq_true] at h
    have hlevel := op.level_mem
    exact ⟨(opens_place (opens_bare l h.1).1).append ⟨rfl, rfl, nofun⟩, fun hrank => by simp only [Node.rank] at hrank; omega⟩
  | .logical op l r, h => by
    simp only [Node.spelled, Bool.and_eq_true] at h
    have hlevel := op.level_mem
    exact ⟨(opens_place (opens_bare l h.1).1).append ⟨rfl, rfl, nofun⟩, fun hrank => by simp only [Node.rank] at hrank; omega⟩
  | .conditional t c a, h => by
    simp only [Node.spelled, Bool.and_eq_true] at h
    have hcut : Cut (" ? ".toList ++ (c.bare k ++ (" : ".toList ++ a.bare k))) := ⟨rfl, rfl, nofun⟩
    exact ⟨(opens_place (opens_bare t h.1.1).1).append hcut, fun hrank => absurd hrank (by simp [Node.rank])⟩
  | .invoked b, _ => by
    have hs : Starts ((Node.invoked b).bare k) := starts_paren (c := '(') (by decide) (by decide)
    exact ⟨hs.toOpens, fun _ => hs⟩

/-! ## The levels of an expression -/

/-- Whether what is written for an expression is taken off at each level, where links may be put on it, behind
operators, and on the left of others. -/
structure Restored (k : Nat) (n : Node) : Prop where
  level : ∀ ℓ ≤ 9, IsLevel ℓ (n.place k ℓ) n
  linked : IsLinked (n.place k 10) n
  prefixed : IsPrefixed (n.place k 8) n
  logical : ∀ ℓ, 1 ≤ ℓ → ℓ ≤ 3 → IsJoined ℓ (logicalOp ℓ) Node.logical (n.place k ℓ) n
  binary : ∀ ℓ, 4 ≤ ℓ → ℓ ≤ 7 → IsJoined ℓ (binaryOp ℓ) Node.binary (n.place k ℓ) n

theorem place_succ (h : n.rank k ≠ ℓ) : n.place k ℓ = n.place k (ℓ + 1) := by
  rcases Nat.lt_or_gt_of_ne h with hlt | hgt
  · rw [Node.place_of_lt hlt, Node.place_of_lt (by omega)]
  · rw [Node.place_of_le (by omega), Node.place_of_le hgt]

/-- It is enough to look at the levels at which no parentheses are needed. -/
theorem restored_of_bare (ho : Opens (n.bare k)) (hn : n.mayBreak = false)
    (hlevel : ∀ ℓ ≤ 9, ℓ ≤ n.rank k → IsLevel ℓ (n.bare k) n)
    (hlinked : 10 ≤ n.rank k → IsLinked (n.bare k) n)
    (hstarts : 9 ≤ n.rank k → Starts (n.bare k))
    (hprefixed : n.rank k = 8 → IsPrefixed (n.bare k) n)
    (hlogical : 1 ≤ n.rank k → n.rank k ≤ 3 → IsJoined (n.rank k) (logicalOp (n.rank k)) Node.logical (n.bare k) n)
    (hbinary : 4 ≤ n.rank k → n.rank k ≤ 7 → IsJoined (n.rank k) (binaryOp (n.rank k)) Node.binary (n.bare k) n) :
    Restored k n := by
  have hgroup := (hlevel 0 (Nat.zero_le _) (Nat.zero_le _)).group ho
  have hgrouped : IsLevel 9 ('(' :: (n.bare k ++ [')'])) n := by
    have h := (hgroup.linked hn).level
    rwa [hn] at h
  have hat : ∀ ℓ ≤ 9, IsLevel ℓ (n.place k ℓ) n := by
    intro ℓ hℓ
    rcases Nat.lt_or_ge (n.rank k) ℓ with hlt | hle
    · rw [Node.place_of_lt hlt]
      exact hgrouped.lower hℓ (Nat.le_refl _) fun _ => starts_enclosed ho
    · rw [Node.place_of_le hle]
      exact hlevel ℓ hℓ hle
  have hnine : Starts (n.place k 9) := by
    rcases Nat.lt_or_ge (n.rank k) 9 with hlt | hle
    · rw [Node.place_of_lt hlt]
      exact starts_enclosed ho
    · rw [Node.place_of_le hle]
      exact hstarts hle
  refine ⟨hat, ?_, ?_, fun ℓ hlow hhigh => ?_, fun ℓ hlow hhigh => ?_⟩
  · rcases Nat.lt_or_ge (n.rank k) 10 with hlt | hle
    · rw [Node.place_of_lt hlt]
      exact hgroup.linked hn
    · rw [Node.place_of_le hle]
      exact hlinked hle
  · by_cases hrank : n.rank k = 8
    · rw [Node.place_of_le hrank.ge]
      exact hprefixed hrank
    · rw [place_succ hrank]
      exact (hat 9 (Nat.le_refl _)).prefixed hnine
  · by_cases hrank : n.rank k = ℓ
    · subst hrank
      rw [Node.place_of_le (Nat.le_refl _)]
      exact hlogical hlow hhigh
    · rw [place_succ hrank]
      exact (hat (ℓ + 1) (by omega)).joined
  · by_cases hrank : n.rank k = ℓ
    · subst hrank
      rw [Node.place_of_le (Nat.le_refl _)]
      exact hbinary hlow hhigh
    · rw [place_succ hrank]
      exact (hat (ℓ + 1) (by omega)).joined

/-- What is taken off as a chain is taken off at all levels. -/
theorem restored_of_linked (h : IsLinked (n.bare k) n) (hs : Starts (n.bare k)) (hn : n.mayBreak = false) : Restored k n := by
  have hnine : IsLevel 9 (n.bare k) n := by
    have h := h.level
    rwa [hn] at h
  have hlower (ℓ : Nat) (hℓ : ℓ ≤ 9) : IsLevel ℓ (n.bare k) n := hnine.lower hℓ (Nat.le_refl _) fun _ => hs
  exact restored_of_bare hs.toOpens hn (fun ℓ hℓ _ => hlower ℓ hℓ) (fun _ => h) (fun _ => hs) (fun _ => hnine.prefixed hs)
    (fun _ _ => (hlower _ (by omega)).joined) (fun _ _ => (hlower _ (by omega)).joined)

/-- What is taken off as operators, or as operands with operators between them, is taken off at all levels. -/
theorem restored_of_level {m : Nat} (h : IsLevel m (n.bare k) n) (hm : n.rank k = m) (hlow : m ≤ 8) (ho : Opens (n.bare k))
    (hn : n.mayBreak = false) (hprefixed : m = 8 → IsPrefixed (n.bare k) n)
    (hlogical : 1 ≤ m → m ≤ 3 → IsJoined m (logicalOp m) Node.logical (n.bare k) n)
    (hbinary : 4 ≤ m → m ≤ 7 → IsJoined m (binaryOp m) Node.binary (n.bare k) n) : Restored k n := by
  subst hm
  exact restored_of_bare ho hn (fun ℓ _ hle => h.lower hle (by omega) fun heq => by omega) (fun hle => by omega)
    (fun hle => by omega) hprefixed hlogical hbinary

theorem Restored.whole (h : Restored k n) (hs : n.spelled = true) : IsWhole k n := by
  have hlevel := h.level 0 (Nat.zero_le _)
  rw [Node.place_of_le (Nat.zero_le _)] at hlevel
  exact ⟨hlevel, (opens_bare n hs).1⟩

/-- Whether links may be put on what is written for an expression inside of a chain, and it is restored outside. -/
def Follows (k : Nat) (n : Node) : Prop :=
  (n.wellChained true = true → IsLinked (n.place k 10) n) ∧ (n.wellChained false = true → Restored k n)

theorem follows_of_restored (h : n.wellChained false = true → Restored k n) (hn : n.isLink = false) : Follows k n :=
  ⟨fun hw => (h (by rwa [Node.wellChained_congr hn])).linked, h⟩

theorem follows_of_linked (h : n.wellChained true = true → IsLinked (n.bare k) n) (hs : n.spelled = true)
    (hn : ∀ k, n.rank k = 10) : Follows k n := by
  refine ⟨fun hw => ?_, fun hw => ?_⟩
  · rw [Node.place_of_le (hn k).ge]
    exact h hw
  · have hstarts : Starts (n.bare k) := (opens_bare n hs).2 (hn 10).ge
    exact restored_of_linked (h (Node.wellChained_inside n hw)) hstarts (Node.mayBreak_of_wellChained n hw)

mutual

theorem follows : (n : Node) → n.spelled = true → Follows k n
  | .literal l, h =>
    have hl := isPrimary_literal h
    follows_of_restored (fun _ => restored_of_linked (hl.1.linked rfl) hl.2 rfl) rfl
  | .identifier w, h =>
    have hw := isPrimary_identifier h
    follows_of_restored (fun _ => restored_of_linked (hw.1.linked rfl) hw.2 rfl) rfl
  | .array es, h => by
    refine follows_of_restored (fun hw => ?_) rfl
    have hes := restored_all es h hw
    exact restored_of_linked ((isPrimary_array hes).linked rfl) (starts_of_head (by decide) (by decide)) rfl
  | .member o p isOptional, h => by
    refine follows_of_linked (fun hw => ?_) h fun _ => rfl
    simp only [Node.spelled, Node.wellChained, Bool.and_eq_true] at h hw
    have ho := (follows o h.1).1 hw.2
    exact ho.attach (isLink_member h.2 isOptional) (by cases isOptional <;> exact List.cons_ne_nil _ _)
      fun rest _ => cut_member isOptional h.2 rest
  | .index o i isOptional, h => by
    refine follows_of_linked (fun hw => ?_) h fun _ => rfl
    simp only [Node.spelled, Node.wellChained, Bool.and_eq_true] at h hw
    have ho := (follows o h.1).1 hw.1.2
    have hi := ((follows i h.2).2 hw.2).whole h.2
    refine ho.attach (isLink_index hi isOptional) (by cases isOptional <;> exact List.cons_ne_nil _ _) fun rest _ => ?_
    rw [List.append_assoc]
    exact cut_index isOptional _
  | .call c as isOptional, h => by
    refine follows_of_linked (fun hw => ?_) h fun _ => rfl
    simp only [Node.spelled, Node.wellChained, Bool.and_eq_true] at h hw
    have hc := (follows c h.1).1 hw.1.2
    have has := restored_all as h.2 hw.2
    refine hc.attach (isLink_call has isOptional) (by cases isOptional <;> exact List.cons_ne_nil _ _) fun rest _ => ?_
    rw [List.append_assoc]
    exact cut_call isOptional _
  | .chain e, h => by
    refine follows_of_restored (fun hw => ?_) rfl
    simp only [Node.wellChained, Bool.and_eq_true] at hw
    have hrank : 10 ≤ e.rank k ∧ 10 ≤ e.rank 10 := by
      cases e <;> simp_all [Node.mayBreak, Node.rank]
    have hopens : Opens (e.bare k) ∧ (10 ≤ e.rank 10 → Starts (e.bare k)) := opens_bare e h
    have hlinked := (follows e h).1 hw.2
    rw [Node.place_of_le hrank.1] at hlinked
    have hnine := hlinked.level
    rw [hw.1] at hnine
    have hnine : IsLevel 9 ((Node.chain e).bare k) (.chain e) := hnine
    have hs : Starts ((Node.chain e).bare k) := hopens.2 hrank.2
    exact restored_of_bare hopens.1 rfl (fun ℓ hℓ _ => hnine.lower hℓ (Nat.le_refl _) fun _ => hs)
      (fun hle => absurd hle (by simp [Node.rank])) (fun _ => hs) (fun heq => absurd heq (by simp [Node.rank]))
      (fun _ hle => absurd hle (by simp [Node.rank])) (fun _ hle => absurd hle (by simp [Node.rank]))
  | .unary op e, h => by
    refine follows_of_restored (fun hw => ?_) rfl
    have he := ((follows e h).2 hw).prefixed
    have hprefixed := he.unary op (opens_place (opens_bare e h).1)
    exact restored_of_level hprefixed.level rfl (Nat.le_refl _) (opens_unary op) rfl (fun _ => hprefixed)
      (fun _ hle => absurd hle (by decide)) (fun _ hle => absurd hle (by decide))
  | .binary op l r, h => by
    refine follows_of_restored (fun hw => ?_) rfl
    have ho : Opens ((Node.binary op l r).bare k) := (opens_bare _ h).1
    simp only [Node.spelled, Node.wellChained, Bool.and_eq_true] at h hw
    obtain ⟨hlow, hhigh⟩ := op.level_mem
    have hl := ((follows l h.1).2 hw.1).binary op.level hlow hhigh
    have hr := ((follows r h.2).2 hw.2).level (op.level + 1) (by omega)
    have hjoined := hl.snoc hr (opens_place (opens_bare r h.2).1) (binaryOp_written op) fun _ => .binary (Nat.lt_succ_self _)
    have hlevel := hjoined.level (fun _ => level_binary hlow hhigh) fun cs hstops =>
      hstops.not_binaryOp (Nat.le_refl _) hlow hhigh
    exact restored_of_level hlevel rfl (by omega) ho rfl (fun heq => by omega) (fun _ hle => by omega) fun _ _ => hjoined
  | .logical op l r, h => by
    refine follows_of_restored (fun hw => ?_) rfl
    have ho : Opens ((Node.logical op l r).bare k) := (opens_bare _ h).1
    simp only [Node.spelled, Node.wellChained, Bool.and_eq_true] at h hw
    obtain ⟨hlow, hhigh⟩ := op.level_mem
    have hl := ((follows l h.1).2 hw.1).logical op.level hlow hhigh
    have hr := ((follows r h.2).2 hw.2).level (op.level + 1) (by omega)
    have hjoined := hl.snoc hr (opens_place (opens_bare r h.2).1) (logicalOp_written op) fun _ => .logical (Nat.lt_succ_self _)
    have hlevel := hjoined.level (fun _ => level_logical hlow hhigh) fun cs hstops =>
      hstops.not_logicalOp (Nat.le_refl _) hlow hhigh
    exact restored_of_level hlevel rfl (by omega) ho rfl (fun heq => by omega) (fun _ _ => hjoined) fun hle _ => by omega
  | .conditional t c a, h => by
    refine follows_of_restored (fun hw => ?_) rfl
    have ho : Opens ((Node.conditional t c a).bare k) := (opens_bare _ h).1
    simp only [Node.spelled, Node.wellChained, Bool.and_eq_true] at h hw
    have ht := ((follows t h.1.1).2 hw.1.1).level 1 (by decide)
    have hc := ((follows c h.1.2).2 hw.1.2).whole h.1.2
    have ha := ((follows a h.2).2 hw.2).whole h.2
    exact restored_of_level (ht.conditional hc.1 ha.1 hc.2 ha.2) rfl (by decide) ho rfl (fun heq => absurd heq (by decide))
      (fun hle => absurd hle (by decide)) (fun hle => absurd hle (by decide))
  | .invoked b, h => by
    refine follows_of_restored (fun hw => ?_) rfl
    have hs : Starts ((Node.invoked b).bare k) := (opens_bare _ h).2 (Nat.le_refl _)
    exact restored_of_linked ((isPrimary_invoked h (restored_values b h hw)).linked rfl) hs rfl

theorem restored_all : (es : List Node) → Node.allSpelled es = true → Node.allWellChained es = true →
    ∀ e ∈ es, IsWhole k e
  | [], _, _ => nofun
  | e :: es, h, hw => by
    simp only [Node.allSpelled, Node.allWellChained, Bool.and_eq_true] at h hw
    exact List.forall_mem_cons.mpr ⟨((follows e h.1).2 hw.1).whole h.1, restored_all es h.2 hw.2⟩

theorem restored_values : (b : Body) → b.spelled = true → b.wellChained = true → ∀ v ∈ b.values, IsWhole k v
  | .result v, h, hw => by
    rw [Body.values, List.forall_mem_singleton]
    exact ((follows v h).2 hw).whole h
  | .declare _ _ v rest, h, hw => by
    simp only [Body.spelled, Body.wellChained, Bool.and_eq_true] at h hw
    exact List.forall_mem_cons.mpr ⟨((follows v h.1.2).2 hw.1).whole h.1.2, restored_values rest h.2 hw.2⟩

end

/-! ## Whole texts -/

/-- Whether a text has no blank at its end. -/
def Solid (text : List Char) : Prop := ∀ c ∈ text.getLast?, isBlank c = false

theorem Solid.append (h : Solid more) (hne : more ≠ []) : Solid (text ++ more) := by
  intro c hc
  rw [List.getLast?_append_of_ne_nil _ hne] at hc
  exact h c hc

theorem solid_of_forall (h : ∀ c ∈ text, isBlank c = false) : Solid text := fun c hc => h c (List.mem_of_getLast? hc)

theorem solid_word {w : String} (hw : isSpelled w = true) : Solid w.toList := by
  obtain ⟨c, cs, heq, hc, hcs⟩ := of_isSpelled hw
  refine solid_of_forall fun d hd => ?_
  have hname : continuesName d = true := by
    rw [heq] at hd
    rcases List.mem_cons.mp hd with rfl | hd
    · exact continuesName_of_opensName hc
    · exact hcs d hd
  by_contra hblank
  rw [continuesName_blank (Bool.not_eq_false _ ▸ hblank)] at hname
  cases hname

theorem solid_literal {l : Literal} (hl : l.spelled = true) : Solid l.written := by
  match l with
  | .int n => exact solid_of_forall fun c hc => (Numeral.IsPlain.of_digit (isDigit_of_mem_toDigits hc)).not_blank
  | .float (.finite u hr) =>
    have hu : 0 ≤ u := of_decide_eq_true hl
    have hplain : ∀ c ∈ (Binary64.finite u hr).text.toList, Numeral.IsPlain c := by
      by_cases hzero : u = 0
      · rw [Binary64.text, if_pos hzero]
        exact Binary64.plain_zero
      · rw [Binary64.text_finite hzero, if_neg (by omega)]
        exact Binary64.plain_written _
    exact solid_of_forall fun c hc => (hplain c hc).not_blank
  | .text s =>
    have hquote : Solid ['\''] := solid_of_forall (List.forall_mem_singleton.mpr (by decide))
    have hbody : Solid (s.toList.flatMap quotedChar ++ ['\'']) := hquote.append (List.cons_ne_nil _ _)
    change Solid (['\''] ++ (s.toList.flatMap quotedChar ++ ['\'']))
    exact hbody.append (by simp)
  | .bool true => exact solid_word (w := "true") (by decide)
  | .bool false => exact solid_word (w := "false") (by decide)
  | .null => exact solid_word (w := "null") (by decide)
  | .undefined => exact solid_word (w := "undefined") (by decide)

theorem Solid.concat {c : Char} (hc : isBlank c = false) : Solid (text ++ [c]) :=
  (solid_of_forall (by simpa using hc)).append (List.cons_ne_nil _ _)

theorem solid_place (h : Solid (n.bare k)) : Solid (n.place k ℓ) := by
  rcases Nat.lt_or_ge (n.rank k) ℓ with hlt | hle
  · rw [Node.place_of_lt hlt, ← List.cons_append]
    exact .concat (by decide)
  · rwa [Node.place_of_le hle]

theorem solid_operator {t : List Char} (h : Solid more) (hne : more ≠ []) : Solid (text ++ ' ' :: (t ++ ' ' :: more)) := by
  have heq : text ++ ' ' :: (t ++ ' ' :: more) = (text ++ ' ' :: (t ++ [' '])) ++ more := by simp
  rw [heq]
  exact h.append hne

theorem solid_bare : (n : Node) → n.spelled = true → Solid (n.bare k)
  | .literal _, h => solid_literal h
  | .identifier _, h => solid_word ((Bool.and_eq_true _ _).mp h).1
  | .array es, _ => by
    have heq : (Node.array es).bare k = ('[' :: Node.listing k es) ++ [']'] := rfl
    rw [heq]
    exact .concat (by decide)
  | .member o p isOptional, h => by
    simp only [Node.spelled, Bool.and_eq_true] at h
    obtain ⟨c, cs, heq, -⟩ := of_isSpelled h.2
    have hne : p.toList ≠ [] := heq ▸ List.cons_ne_nil c cs
    rw [Node.bare_member, ← List.append_assoc]
    exact (solid_word h.2).append hne
  | .index o i isOptional, _ => by
    rw [Node.bare_index, ← List.append_assoc, ← List.append_assoc]
    exact .concat (by decide)
  | .call c as isOptional, _ => by
    rw [Node.bare_call, ← List.append_assoc, ← List.append_assoc]
    exact .concat (by decide)
  | .chain e, h => solid_bare e h
  | .unary op e, h => (solid_place (solid_bare e h)).append (opens_place (opens_bare e h).1).ne_nil
  | .binary op l r, h | .logical op l r, h => by
    simp only [Node.spelled, Bool.and_eq_true] at h
    exact solid_operator (solid_place (solid_bare r h.2)) (opens_place (opens_bare r h.2).1).ne_nil
  | .conditional t c a, h => by
    simp only [Node.spelled, Bool.and_eq_true] at h
    rw [Node.bare_conditional]
    simp only [← List.append_assoc]
    exact (solid_bare a h.2).append (opens_bare a h.2).1.ne_nil
  | .invoked b, _ => by
    have heq : (Node.invoked b).bare k = "(() => \x7b ".toList ++ (b.bare k ++ "\x7d)(".toList) ++ [')'] := by
      rw [Node.bare_invoked, List.append_assoc, List.append_assoc]
      rfl
    rw [heq]
    exact .concat (by decide)

theorem trim_of_ends (ho : Opens text) (hs : Solid text) : trim text = text := by
  have hleft : trimLeft text = text := by
    obtain ⟨⟨c, cs, rfl, hc, -⟩, -⟩ := ho
    exact List.dropWhile_cons_of_neg (by simp [hc])
  have hright : text.reverse.dropWhile isBlank = text.reverse := by
    cases hr : text.reverse with
    | nil => rfl
    | cons c cs =>
      have hlast : c ∈ text.getLast? := by
        rw [← List.head?_reverse, hr]
        rfl
      exact List.dropWhile_cons_of_neg (by simp [hs c hlast])
  rw [trim, hleft, trimRight, hright, List.reverse_reverse]

theorem reads_whole (h : IsWhole k n) : Reads (whole ((n.bare k).length + 1)) (n.bare k) n [] := by
  have hskip : (n.bare k).dropWhile isSpace = n.bare k ++ [] := by
    have h : (n.bare k ++ []).dropWhile isSpace = n.bare k ++ [] := h.2.not_space
    rwa [List.append_nil] at h ⊢
  have hread := h.1.expression (Nat.lt_succ_self _) .nil hskip
  have hmark : Fails (mark ";") [] := fails_token rfl
  have hend : Reads (token Token.ending) [] () [] := reads_token rfl
  exact hread.bind (hmark.optional.bind (hend.bind rfl))

/-- What a text without blanks at its ends writes. -/
theorem parse_of_whole (h : IsWhole k n) (hs : Solid (n.bare k)) :
    parse (n.text k) = if n.readable then .ok n else .error (.noExpression .unbuildable (n.text k) 0) := by
  have htrim : (n.text k).trimBlank = n.text k := by
    rw [String.trimBlank, Node.text, String.toList_ofList, trim_of_ends h.2 hs]
  have hne : n.text k ≠ "" := by
    intro heq
    have heq := congrArg String.toList heq
    rw [Node.text, String.toList_ofList] at heq
    exact h.2.ne_nil heq
  have hread : Reads (whole ((n.text k).toList.length + 1)) (n.text k).toList n [] := by
    rw [Node.text, String.toList_ofList]
    exact reads_whole h
  unfold parse
  rw [htrim]
  split
  · next heq => exact absurd heq hne
  · rw [parseTrimmed, if_neg hne]
    dsimp only
    rcases hrun : (whole ((n.text k).toList.length + 1)).run (n.text k).toList with ⟨_ | ⟨m, rest⟩, reach⟩
    · rw [Reads, hrun] at hread
      cases hread
    · rw [Reads, hrun] at hread
      cases hread
      rfl

/-- An expression that is written out is what its text writes, as far as its integers can be read. -/
theorem parse_text (k : Nat) (node : Node) (hw : node.wellChained false = true) (hs : node.spelled = true) :
    parse (node.text k) = if node.readable then .ok node else .error (.noExpression .unbuildable (node.text k) 0) :=
  parse_of_whole (((follows node hs).2 hw).whole hs) (solid_bare node hs)

theorem parse_text_conditional : ∃ node : Node, node.wellChained false = true ∧ node.spelled = true ∧
    node.text 0 = "a?.b[-i] ?? c ? (x + y) * z.w : (() => \x7b const v = []; return 'it\\'s'; \x7d)()" ∧
    parse (node.text 0) = .ok node :=
  ⟨.conditional
    (.logical .nullish (.chain (.index (.member (.identifier "a") "b" true) (.unary .negate (.identifier "i")) false))
      (.identifier "c"))
    (.binary .mul (.binary .add (.identifier "x") (.identifier "y")) (.member (.identifier "z") "w" false))
    (.invoked (.declare .const "v" (.array []) (.result (.literal (.text "it's"))))),
    by rfl, by rfl, by rfl, (parse_text 0 _ (by rfl) (by rfl)).trans (by rfl)⟩

end FormRules.Expr
