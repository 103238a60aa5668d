import FormRules.Proofs.Expr.Fields
import FormRules.Proofs.Expr.Shown

/-!
# An expression reads the fields that its text shows

Where the text shows a field behind the name of the form, the parser takes that field as the first link of a chain,
so that the expression mentions the form only to read fields which the text shows.
-/

namespace FormRules.Expr
open Text

/-! ## Reading what the text shows -/

namespace Token

theorem not_isDecimal_of_opensName {c : Char} (h : opensName c = true) : isDecimal c = false := by
  simp only [opensName, Bool.or_eq_true, beq_iff_eq] at h
  rcases h with (halpha | rfl) | rfl
  · obtain ⟨hlow, hascii⟩ := toNat_of_isAlpha halpha
    have hdigit : c.isDigit = false := by
      by_contra hc
      simp only [Bool.not_eq_false, Char.isDigit, Bool.and_eq_true, decide_eq_true_eq] at hc
      have hhigh : c.toNat ≤ 57 := UInt32.le_iff_toNat_le.mp hc.2
      omega
    rw [isDecimal, digitValue?, hdigit, if_neg (by decide), if_pos hascii]
    rfl
  · decide
  · decide

variable {path cs : List Char} {q : Char}

theorem quotedBody_cons {c : Char} (hquote : c ≠ q) (hescape : c ≠ '\\') :
    quotedBody q (c :: cs) = (quotedBody q cs).map fun r => (c :: r.1, r.2) := by
  cases cs with
  | nil => simp [quotedBody, hquote]
  | cons d cs => rw [quotedBody, if_neg hquote, if_neg hescape]

theorem quotedBody_close : quotedBody q (q :: cs) = some ([], cs) := by
  cases cs <;> rw [quotedBody, if_pos rfl]

theorem quotedBody_append (hplain : ∀ c ∈ path, c ≠ q ∧ c ≠ '\\') :
    quotedBody q (path ++ q :: cs) = some (path, cs) := by
  induction path with
  | nil => exact quotedBody_close
  | cons c path ih =>
    obtain ⟨⟨hquote, hescape⟩, hpath⟩ := List.forall_mem_cons.mp hplain
    rw [List.cons_append, quotedBody_cons hquote hescape, ih hpath, Option.map_some]

theorem unescape_plain (h : ∀ c ∈ path, c ≠ '\\') : unescape path.length path = path := by
  induction path with
  | nil => rfl
  | cons c path ih =>
    obtain ⟨hc, hpath⟩ := List.forall_mem_cons.mp h
    rw [List.length_cons, unescape, ih hpath]
    · rintro _ rfl
      exact absurd rfl hc
    · rintro _ _ rfl
      exact absurd rfl hc

end Token

namespace Parser
open Reference
variable {expr : Parser Node} {cs after rest : List Char} {p : String}

/-- A text in quotes is read where a chain may start. -/
theorem reads_primary (h : Quoted cs p after) : Reads (primary expr) cs (.literal (.text p)) after := by
  obtain ⟨q, hq, hcs⟩ := h.quoted
  have hinvocation : Fails (invocation expr) cs := by
    refine Fails.bind (fails_token ?_)
    rw [hcs]
    rcases hq with rfl | rfl <;> rfl
  have hnumber : Fails (Node.literal <$> token Token.number) cs := by
    refine Fails.map (fails_token ?_)
    rw [hcs]
    rcases hq with rfl | rfl <;> rfl
  have hquoted : Reads (Node.literal <$> token Token.quotedText) cs (.literal (.text p)) after := by
    refine Reads.map (reads_token ?_)
    have hplain : ∀ c ∈ p.toList, c ≠ q ∧ c ≠ '\\' := fun c hc => by
      have hpath := h.chars c hc
      refine ⟨?_, ?_⟩
      · rintro rfl
        rw [isPathChar_quote hq] at hpath
        cases hpath
      · rintro rfl
        exact absurd hpath (by decide)
    rw [hcs, Token.quotedText, if_pos (by simpa using hq), Token.quotedBody_append hplain, Option.map_some,
      Token.unescape_plain fun c hc => (hplain c hc).2, String.ofList_toList]
  exact hinvocation.orElse (hnumber.orElse hquoted.orElse)

/-- Behind a text in quotes and a bracket no chain runs on. -/
theorem fails_link (h : cs.dropWhile isSpace = ']' :: rest) : Fails (link expr) cs := by
  have hoptional : Fails (token Token.optionalLink) cs := fails_token (by rw [h]; rfl)
  have hpoint : Fails (mark ".") cs := fails_token (by rw [h]; rfl)
  have hbracket : Fails (mark "[") cs := fails_token (by rw [h]; rfl)
  have hopen : Fails (mark "(") cs := fails_token (by rw [h]; rfl)
  refine fails_firstOf ?_
  simp only [List.forall_mem_cons]
  exact ⟨hoptional.bind, hoptional.bind, hoptional.bind, hpoint.bind, hbracket.bind.bind, hopen.bind.bind, nofun⟩

theorem reads_leftAssoc {ω : Type} {operand : Parser Node} {op : Token ω} {make : ω → Node → Node → Node} {node : Node}
    (h : Reads operand cs node after) (hop : op (after.dropWhile isSpace) = none) :
    Reads (leftAssoc operand op make) cs node after :=
  h.bind ((fails_token hop).bind.many.bind rfl)

/-- A text in quotes, with a bracket behind it, is an expression. -/
theorem reads_conditionalLevel (h : Quoted cs p after) : Reads (conditionalLevel expr) cs (.literal (.text p)) after := by
  obtain ⟨rest, hrest⟩ := h.closed
  have hchain : Reads (postfixLevel expr) cs (.literal (.text p)) after :=
    (reads_primary h).bind ((fails_link hrest).many.bind rfl)
  have hunary : Reads (unaryLevel expr) cs (.literal (.text p)) after := by
    have hop : Fails (token Token.unaryOp) cs := by
      obtain ⟨q, hq, hcs⟩ := h.quoted
      refine fails_token ?_
      rw [hcs]
      rcases hq with rfl | rfl <;> rfl
    exact hop.many.bind (hchain.bind rfl)
  have hproducts : Reads (multiplicativeLevel expr) cs (.literal (.text p)) after :=
    reads_leftAssoc hunary (by rw [hrest]; rfl)
  have hsums : Reads (additiveLevel expr) cs (.literal (.text p)) after := reads_leftAssoc hproducts (by rw [hrest]; rfl)
  have horder : Reads (relationalLevel expr) cs (.literal (.text p)) after := reads_leftAssoc hsums (by rw [hrest]; rfl)
  have hequality : Reads (equalityLevel expr) cs (.literal (.text p)) after := reads_leftAssoc horder (by rw [hrest]; rfl)
  have hand : Reads (andLevel expr) cs (.literal (.text p)) after := reads_leftAssoc hequality (by rw [hrest]; rfl)
  have hor : Reads (orLevel expr) cs (.literal (.text p)) after := reads_leftAssoc hand (by rw [hrest]; rfl)
  have hnullish : Reads (nullishLevel expr) cs (.literal (.text p)) after := reads_leftAssoc hor (by rw [hrest]; rfl)
  have hbranches : Fails (token Token.question) after := fails_token (by rw [hrest]; rfl)
  exact hnullish.bind (hbranches.bind.optional.bind rfl)

theorem reads_expression {n : Nat} (h : Quoted cs p after) (hlength : cs.length < n) :
    Reads (expression n) cs (.literal (.text p)) after := by
  cases n with
  | zero => exact absurd hlength (Nat.not_lt_zero _)
  | succ n => exact reads_conditionalLevel h

theorem fails_mark {m : String} {c d : Char} (hm : m.toList = [c]) (h : cs.dropWhile isSpace = d :: rest) (hne : c ≠ d) :
    Fails (mark m) cs := by
  refine fails_token ?_
  rw [h, Token.exactly, hm]
  simp [hne]

theorem reads_bracketed {more : List Char} {n : Nat} (h : cs.dropWhile isSpace = '[' :: more) (hquoted : Quoted more p after)
    (hlength : more.length < n) : ∃ rest, Reads (bracketed (expression n)) cs (.literal (.text p)) rest := by
  obtain ⟨rest, hrest⟩ := hquoted.closed
  have hopen : Reads (mark "[") cs () more := reads_token (by rw [h]; rfl)
  have hclose : Reads (mark "]") after () rest := reads_token (by rw [hrest]; rfl)
  exact ⟨rest, hopen.bind ((reads_expression hquoted hlength).bind (hclose.bind rfl))⟩

theorem reads_optionalLink {more : List Char} (h : cs.dropWhile isSpace = '?' :: '.' :: more)
    (hdigit : Token.startsWithDigit more = false) : Reads (token Token.optionalLink) cs () more := by
  refine reads_token ?_
  have hread : Token.optionalLink ('?' :: '.' :: more) =
      if Token.startsWithDigit more then none else some ((), more) := rfl
  rw [h, hread, hdigit]
  rfl

/-- A name does not begin with a digit. -/
theorem not_startsWithDigit {d : Char} (h : cs.dropWhile isSpace = d :: rest) (hd : Token.opensName d = true) :
    Token.startsWithDigit cs = false := by
  cases cs with
  | nil => cases h
  | cons c cs =>
    rw [List.dropWhile_cons] at h
    split at h
    · next hspace =>
      simp only [isSpace, Bool.or_eq_true, beq_iff_eq] at hspace
      rcases hspace with ((rfl | rfl) | rfl) | rfl <;> rfl
    · cases h
      exact Token.not_isDecimal_of_opensName hd

/-- Whether a link takes a field. -/
def Link.Takes (p : String) (l : Link) : Prop := ∃ optional, l = .member p optional ∨ l = .index (.literal (.text p)) optional

/-- The first link behind a name takes the field that the text shows. -/
theorem reads_link {n : Nat} (h : Shows cs p) (hlength : cs.length < n + 1) :
    ∃ l rest, Reads (link (expression n)) cs l rest ∧ l.Takes p := by
  cases h with
  | @pointed more rest hpoint hname =>
    obtain ⟨⟨d, m, hm, hd⟩, -⟩ := of_propertyName hname
    have hproperty : Reads (token Token.propertyName) more p rest := reads_token hname
    unfold afterPoint at hpoint
    split at hpoint
    · next hcs =>
      cases hpoint
      have hoptional : Fails (token Token.optionalLink) cs := fails_token (by rw [hcs]; rfl)
      have hmark : Reads (mark ".") cs () more := reads_token (by rw [hcs]; rfl)
      have hmember : Reads (do
          mark "."
          let p ← token Token.propertyName
          return Link.member p false) cs (.member p false) rest := hmark.bind (hproperty.bind rfl)
      refine ⟨.member p false, rest, ?_, false, .inl rfl⟩
      exact hoptional.bind.orElse (hoptional.bind.orElse (hoptional.bind.orElse hmember.orElse))
    · next hcs =>
      cases hpoint
      have hoptional := reads_optionalLink hcs (not_startsWithDigit hm hd)
      have hbracket : Fails (mark "[") more := fails_mark rfl hm (by rintro rfl; exact absurd hd (by decide))
      have hparen : Fails (mark "(") more := fails_mark rfl hm (by rintro rfl; exact absurd hd (by decide))
      have hmember : Reads (do
          token Token.optionalLink
          let p ← token Token.propertyName
          return Link.member p true) cs (.member p true) rest := hoptional.bind (hproperty.bind rfl)
      refine ⟨.member p true, rest, ?_, true, .inl rfl⟩
      exact (hoptional.bind_fails hbracket.bind.bind).orElse ((hoptional.bind_fails hparen.bind.bind).orElse
        hmember.orElse)
    · cases hpoint
  | @bracketed more after hopen hquoted =>
    have hskip : (cs.dropWhile isSpace).length ≤ cs.length := (List.dropWhile_suffix _).length_le
    rcases hopen with hcs | hcs
    · rw [hcs, List.length_cons] at hskip
      obtain ⟨rest, hread⟩ := reads_bracketed (n := n) hcs hquoted (by omega)
      have hoptional : Fails (token Token.optionalLink) cs := fails_token (by rw [hcs]; rfl)
      have hpoint : Fails (mark ".") cs := fails_token (by rw [hcs]; rfl)
      have hindex : Reads (do
          let i ← bracketed (expression n)
          return Link.index i false) cs (.index (.literal (.text p)) false) rest := hread.bind rfl
      refine ⟨.index (.literal (.text p)) false, rest, ?_, false, .inr rfl⟩
      exact hoptional.bind.orElse (hoptional.bind.orElse (hoptional.bind.orElse (hpoint.bind.orElse hindex.orElse)))
    · rw [hcs, List.length_cons, List.length_cons, List.length_cons] at hskip
      have hopen : ('[' :: more).dropWhile isSpace = '[' :: more := rfl
      obtain ⟨rest, hread⟩ := reads_bracketed (n := n) hopen hquoted (by omega)
      have hindex : Reads (do
          token Token.optionalLink
          let i ← bracketed (expression n)
          return Link.index i true) cs (.index (.literal (.text p)) true) rest :=
        (reads_optionalLink hcs rfl).bind (hread.bind rfl)
      exact ⟨.index (.literal (.text p)) true, rest, hindex.orElse, true, .inr rfl⟩

end Parser

/-! ## What an expression keeps to -/

section
variable {w : String} {P K : String → Bool}

theorem allKeepTo_iff {es : List Node} : Node.allKeepTo w P K es = true ↔ ∀ e ∈ es, e.keepsTo w P K = true := by
  induction es with
  | nil => exact ⟨fun _ => nofun, fun _ => rfl⟩
  | cons e es ih => rw [Node.allKeepTo, Bool.and_eq_true, ih, List.forall_mem_cons]

theorem keepsTo_invoked {ds : List (DeclarationKind × String × Node)} {result : Node}
    (hds : ∀ d ∈ ds, d.2.2.keepsTo w P K = true) (hresult : result.keepsTo w P K = true) :
    (ds.foldr (fun d rest => .declare d.1 d.2.1 d.2.2 rest) (Body.result result)).keepsTo w P K = true := by
  induction ds with
  | nil => exact hresult
  | cons d ds ih =>
    obtain ⟨hd, hds⟩ := List.forall_mem_cons.mp hds
    rw [List.foldr_cons, Body.keepsTo, Bool.and_eq_true]
    refine ⟨hd, Body.keepsTo_mono (fun _ hp => hp) _ (fun n _ hn => ?_) (ih hds)⟩
    simp [hn]

theorem closed_keepsTo : Closed fun e => e.keepsTo w P K = true where
  literal _ := rfl
  array _ h := allKeepTo_iff.mpr h
  attach receiver l hr hl := by
    cases l with
    | member p optional => exact Bool.or_eq_true_iff.mpr (.inr hr)
    | index i optional => exact Bool.or_eq_true_iff.mpr (.inr (Bool.and_eq_true_iff.mpr ⟨hr, hl⟩))
    | call as optional => exact Bool.and_eq_true_iff.mpr ⟨hr, allKeepTo_iff.mpr hl⟩
  chain _ h := h
  unary _ _ h := h
  binary _ _ _ hl hr := Bool.and_eq_true_iff.mpr ⟨hl, hr⟩
  logical _ _ _ hl hr := Bool.and_eq_true_iff.mpr ⟨hl, hr⟩
  conditional _ _ _ ht hc ha := Bool.and_eq_true_iff.mpr ⟨Bool.and_eq_true_iff.mpr ⟨ht, hc⟩, ha⟩
  invoked _ _ hds hresult := keepsTo_invoked hds hresult

theorem keepsTo_attach {l : Parser.Link} {p : String} (hl : l.Takes p) (hp : P p = true) :
    (l.attach (.identifier w)).keepsTo w P K = true := by
  obtain ⟨optional, rfl | rfl⟩ := hl
  · exact Bool.or_eq_true_iff.mpr (.inl (by simp [Node.isNamed, hp]))
  · exact Bool.or_eq_true_iff.mpr (.inl (by simp [Node.isNamed, Node.text?, hp]))

end

/-! ## Texts that show what they read -/

namespace Reference

/-- Whether a name that stands in front is none that hides what is read, and shows a field if it is the form's. -/
def showsAt (hidden : List String) (cs : List Char) : Bool :=
  match Token.propertyName cs with
  | some (w, rest) => if w = "formValue" then (field? rest).isSome else !("rootFormValue" :: hidden).contains w
  | none => true

/-- Whether a name may begin with `c` behind a text that ends in `last` and, blanks aside, in `ink`. -/
def begins (last ink : Option Char) (c : Char) : Bool :=
  !(last.any isWord && isWord c) && ink.all fun d => d != '.' && d != '$'

/-- Whether it is so wherever a name may begin in a text. -/
def showsFrom (hidden : List String) (last ink : Option Char) : List Char → Bool
  | [] => true
  | c :: cs => (!begins last ink c || showsAt hidden (c :: cs)) &&
      showsFrom hidden (some c) (if isBlank c then ink else some c) cs

/-- Whether the text shows a field behind each name of the form, and holds neither the name of the whole form nor one
of `hidden`. Properties do not count as names. -/
def showsFields (hidden : List String) (source : String) : Bool := showsFrom hidden none none (trim source.toList)

variable {hidden : List String} {source : String} {before cs rest : List Char} {w : String}

theorem begins_of_clear {c : Char} (hborder : Border before (c :: cs)) (hclear : Clear before) :
    begins before.getLast? (before.filter (!isBlank ·)).getLast? c = true := by
  have hword : (before.getLast?.any isWord && isWord c) = false := by
    cases hl : before.getLast? with
    | none => rfl
    | some a =>
      cases ha : isWord a with
      | false => simp [ha]
      | true => simp [hborder a hl c rfl ha]
  have hink : ((before.filter (!isBlank ·)).getLast?.all fun d => d != '.' && d != '$') = true := by
    cases hl : (before.filter (!isBlank ·)).getLast? with
    | none => rfl
    | some a => simpa using hclear a hl
  rw [begins, hword, hink]
  rfl

theorem showsAt_of_showsFrom {last ink : Option Char} {c : Char} (h : showsFrom hidden last ink (before ++ c :: cs) = true)
    (hc : begins (before.getLast?.or last) ((before.filter (!isBlank ·)).getLast?.or ink) c = true) :
    showsAt hidden (c :: cs) = true := by
  induction before generalizing last ink with
  | nil =>
    rw [List.nil_append, showsFrom, Bool.and_eq_true, Bool.or_eq_true] at h
    have hc : begins last ink c = true := hc
    exact h.1.resolve_left (by simp [hc])
  | cons b before ih =>
    rw [List.cons_append, showsFrom, Bool.and_eq_true] at h
    refine ih h.2 ?_
    have hlast : (b :: before).getLast?.or last = before.getLast?.or (some b) := by
      rw [List.getLast?_cons]
      cases before.getLast? <;> rfl
    have hink : ((b :: before).filter (!isBlank ·)).getLast?.or ink =
        (before.filter (!isBlank ·)).getLast?.or (if isBlank b then ink else some b) := by
      by_cases hb : isBlank b = true
      · simp [hb]
      · rw [List.filter_cons_of_pos (by simp [hb]), List.getLast?_cons, if_neg hb]
        cases (before.filter (!isBlank ·)).getLast? <;> rfl
    rwa [hlast, hink] at hc

/-- The names of such a text. -/
theorem shown_or_apart (h : showsFields hidden source = true) (hcs : Fresh (trim source.toList) cs)
    (hid : Token.identifier cs = some (w, rest)) :
    (!("formValue" :: "rootFormValue" :: hidden).contains w) = true ∨
      w = "formValue" ∧ ∃ p, Shows rest p ∧ (paths source).contains p = true := by
  obtain ⟨rfl, -⟩ := Token.of_identifier hid
  obtain ⟨before, htext, hborder, hclear⟩ := hcs
  have hproperty : Token.propertyName (w.toList ++ rest) = some (w, rest) := by
    unfold Token.identifier at hid
    split at hid
    · cases hid
    · exact hid
  have hat : showsAt hidden (w.toList ++ rest) = true := by
    obtain ⟨⟨c, l, heq, -⟩, -⟩ := of_propertyName hproperty
    rw [showsFields, ← htext, heq] at h
    rw [heq] at hborder ⊢
    refine showsAt_of_showsFrom h ?_
    rw [Option.or_none, Option.or_none]
    exact begins_of_clear hborder hclear
  rw [showsAt, hproperty] at hat
  dsimp only at hat
  split at hat
  · next hw =>
    subst hw
    obtain ⟨p, hp⟩ := Option.isSome_iff_exists.mp hat
    have hshows := shows_of_field? hp
    exact .inr ⟨rfl, p, hshows, List.contains_iff_mem.mpr (mem_paths_of_shows htext hborder hclear hshows)⟩
  · next hw =>
    left
    rw [List.contains_cons, beq_eq_false_iff_ne.mpr hw, Bool.false_or]
    exact hat

end Reference

open FormRules.Expr.Parser Reference in
/-- Chains in a text keep to what the text shows. -/
theorem gives_keepsTo {text : List Char} {P K : String → Bool} {n : Nat}
    (hnames : ∀ cs w rest, Fresh text cs → Token.identifier cs = some (w, rest) →
      K w = true ∨ w = "formValue" ∧ ∃ p, Shows rest p ∧ P p = true)
    (he : Gives (FreshBelow text n) (expression n) (fun e => e.keepsTo "formValue" P K = true) (WithinBelow text n)) :
    Gives (FreshBelow text (n + 1)) (postfixLevel (expression n)) (fun e => e.keepsTo "formValue" P K = true)
      (WithinBelow text (n + 1)) := by
  have hlinks := gives_link he
  refine GivesAt.andThen (gives_primary he closed_keepsTo.toFormed) fun receiver => ?_
  have hkept (hr : receiver.keepsTo "formValue" P K = true) :
      Gives (WithinBelow text (n + 1)) (do
        let links ← many (link (expression n))
        return attachAll receiver links) (fun e => e.keepsTo "formValue" P K = true) (WithinBelow text (n + 1)) :=
    hlinks.many.bind fun links hl => Gives.pure (closed_keepsTo.attachAll hr hl)
  rintro mid (⟨hr, hmid⟩ | ⟨w, cs, hcs, hid, rfl⟩)
  · exact hkept hr mid hmid
  · have hmid : WithinBelow text (n + 1) mid := hcs.within.suffix (Token.takes_identifier _ _ _ hid)
    rcases hnames cs w mid hcs.1 hid with hw | ⟨rfl, p, hshows, hp⟩
    · exact hkept hw mid hmid
    · -- the first link reads the field, so that the name is no longer bare
      obtain ⟨l, rest, hread, htakes⟩ := reads_link hshows hmid.2
      have hrest := (hlinks mid hmid l rest hread).2
      refine ((hlinks.many_cons hread hshows.ne_nil hrest).bind fun links hl => Gives.pure ?_) mid rfl
      obtain ⟨ls, rfl, hls⟩ := hl
      have hfirst : (l.attach (.identifier "formValue")).keepsTo "formValue" P K = true := keepsTo_attach htakes hp
      refine closed_keepsTo.attachAll_of_foldl ?_
      rw [List.foldl_cons]
      exact closed_keepsTo.foldl_attach hfirst hls

open Reference in
/-- An expression keeps to what the text holds behind its names. -/
theorem keepsTo_of_names {source : String} {node : Node} {P K : String → Bool}
    (hnames : ∀ cs w rest, Fresh (trim source.toList) cs → Token.identifier cs = some (w, rest) →
      K w = true ∨ w = "formValue" ∧ ∃ p, Shows rest p ∧ P p = true)
    (hp : parse source = .ok node) : node.keepsTo "formValue" P K = true := by
  have htrimmed : parseTrimmed source.trimBlank = .ok node := by
    unfold parse at hp
    split at hp
    · cases hp
    · exact hp
  have htext : source.trimBlank.toList = trim source.toList := String.toList_ofList
  refine of_parseTrimmed closed_keepsTo.toFormed (fun n he => ?_) htrimmed
  rw [htext] at he ⊢
  exact gives_keepsTo hnames he

/-- Whether what an expression reads of the form are fields that its text shows, and it mentions no other name that
stands for the form, nor one of `hidden`. -/
def Legible (hidden : List String) (source : String) : Prop :=
  ∀ node, parse source = .ok node → node.keepsTo "formValue" (fun p => (Reference.paths source).contains p)
    (fun name => !("formValue" :: "rootFormValue" :: hidden).contains name) = true

/-- A text that shows fields says what its expression reads. -/
theorem legible_of_showsFields {hidden : List String} {source : String} (h : Reference.showsFields hidden source = true) :
    Legible hidden source :=
  fun _ hp => keepsTo_of_names (fun _ _ _ hcs hid => Reference.shown_or_apart h hcs hid) hp

end FormRules.Expr
