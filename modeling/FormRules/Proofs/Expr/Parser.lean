import FormRules.Expr.Parser

/-!
# What parsers give

A parser gives values of a kind and stops at places of a kind, started at places of a kind (`Gives`); that it
succeeds is said apart, for one text (`Reads`, `Fails`). Each way to combine parsers has one rule.
-/

namespace FormRules.Expr.Parser
variable {α β : Type} {p q : Parser α} {P P' Q Q' R : List Char → Prop} {A A' : α → Prop} {B : β → Prop}

/-- From a place in `P`, the parser gives a value and stops at a place that is related to it, if it succeeds. -/
def GivesAt (P : List Char → Prop) (p : Parser α) (R : α → List Char → Prop) : Prop :=
  ∀ cs, P cs → ∀ a rest, (p.run cs).outcome = some (a, rest) → R a rest

/-- From a place in `P`, the parser gives a value in `A` and stops at a place in `Q`, if it succeeds. -/
def Gives (P : List Char → Prop) (p : Parser α) (A : α → Prop) (Q : List Char → Prop) : Prop :=
  GivesAt P p fun a rest => A a ∧ Q rest

namespace GivesAt
variable {R : α → List Char → Prop}

theorem andThen {f : α → Parser β} {S : β → List Char → Prop} (h : GivesAt P p R) (hf : ∀ a, GivesAt (R a) (f a) S) :
    GivesAt P (andThen p f) S := by
  intro cs hcs b rest hrun
  simp only [Parser.andThen] at hrun
  split at hrun
  · cases hrun
  · next a mid reach hp => exact hf a mid (h cs hcs a mid (by rw [hp])) b rest hrun

theorem map {f : α → β} {S : β → List Char → Prop} (h : GivesAt P p R) (hf : ∀ a rest, R a rest → S (f a) rest) :
    GivesAt P (f <$> p) S := by
  refine GivesAt.andThen h fun a => ?_
  rintro cs hcs _ _ ⟨⟩
  exact hf a cs hcs

theorem orElse (hp : GivesAt P p R) (hq : GivesAt P q R) : GivesAt P (orElse p q) R := by
  intro cs hcs a rest hrun
  simp only [Parser.orElse] at hrun
  split at hrun
  · next r reach hr => exact hp cs hcs a rest (by rw [hr]; exact hrun)
  · exact hq cs hcs a rest hrun

theorem firstOf {ps : List (Parser α)} (h : ∀ p ∈ ps, GivesAt P p R) : GivesAt P (firstOf ps) R := by
  induction ps with
  | nil => exact nofun
  | cons p ps ih =>
    obtain ⟨hp, hps⟩ := List.forall_mem_cons.mp h
    exact hp.orElse (ih hps)

theorem token {t : Token α} (h : ∀ cs, P cs → ∀ a rest, t (cs.dropWhile isSpace) = some (a, rest) → R a rest) :
    GivesAt P (token t) R := by
  intro cs hcs a rest hrun
  simp only [Parser.token] at hrun
  split at hrun
  · next r ht => exact h cs hcs a rest (by rw [ht]; exact hrun)
  · cases hrun

end GivesAt

namespace Gives

theorem weaken (h : Gives P p A Q) (hP : ∀ cs, P' cs → P cs) (hA : ∀ a, A a → A' a) (hQ : ∀ cs, Q cs → Q' cs) :
    Gives P' p A' Q' := by
  intro cs hcs a rest hrun
  obtain ⟨ha, hq⟩ := h cs (hP cs hcs) a rest hrun
  exact ⟨hA a ha, hQ rest hq⟩

theorem before (h : Gives P p A Q) (hP : ∀ cs, P' cs → P cs) : Gives P' p A Q :=
  h.weaken hP (fun _ ha => ha) fun _ hq => hq

theorem after (h : Gives P p A Q) (hQ : ∀ cs, Q cs → Q' cs) : Gives P p A Q' :=
  h.weaken (fun _ hp => hp) (fun _ ha => ha) hQ

theorem value (h : Gives P p A Q) (hA : ∀ a, A a → A' a) : Gives P p A' Q :=
  h.weaken (fun _ hp => hp) hA fun _ hq => hq

theorem found {a : α} (ha : A a) : Gives P (found a) A P := by
  rintro cs hcs _ _ ⟨⟩
  exact ⟨ha, hcs⟩

theorem pure {a : α} (ha : A a) : Gives P (Pure.pure a : Parser α) A P := found ha

theorem fail : Gives P (fail : Parser α) A Q := nofun

theorem andThen {f : α → Parser β} (h : Gives P p A Q) (hf : ∀ a, A a → Gives Q (f a) B R) :
    Gives P (andThen p f) B R :=
  GivesAt.andThen h fun a mid hmid => hf a hmid.1 mid hmid.2

theorem bind {f : α → Parser β} (h : Gives P p A Q) (hf : ∀ a, A a → Gives Q (f a) B R) : Gives P (p >>= f) B R :=
  h.andThen hf

theorem map {f : α → β} (h : Gives P p A Q) (hf : ∀ a, A a → B (f a)) : Gives P (f <$> p) B Q :=
  h.bind fun a ha => pure (hf a ha)

theorem orElse (hp : Gives P p A Q) (hq : Gives P q A Q) : Gives P (orElse p q) A Q := GivesAt.orElse hp hq

theorem firstOf {ps : List (Parser α)} (h : ∀ p ∈ ps, Gives P p A Q) : Gives P (firstOf ps) A Q := GivesAt.firstOf h

theorem optional (h : Gives P p A Q) (hP : ∀ cs, P cs → Q cs) :
    Gives P (optional p) (fun o => ∀ a ∈ o, A a) Q := by
  refine (h.andThen fun a ha => found ?_).orElse ((found ?_).after hP)
  · rintro _ ⟨⟩
    exact ha
  · exact nofun

theorem manyFrom (h : Gives P p A P) (fuel : Nat) {cs rest : List Char} {as : List α} (hcs : P cs)
    (hrun : (manyFrom p fuel cs).outcome = some (as, rest)) : (∀ a ∈ as, A a) ∧ P rest := by
  induction fuel generalizing cs as rest with
  | zero =>
    cases hrun
    exact ⟨nofun, hcs⟩
  | succ fuel ih =>
    rw [Parser.manyFrom] at hrun
    split at hrun
    · cases hrun
      exact ⟨nofun, hcs⟩
    · next a mid reach hp =>
      obtain ⟨⟨as', rest'⟩, hmany, heq⟩ := Option.map_eq_some_iff.mp hrun
      obtain ⟨rfl, rfl⟩ := Prod.mk.inj heq
      obtain ⟨ha, hmid⟩ := h cs hcs a mid (by rw [hp])
      obtain ⟨has, hrest⟩ := ih hmid hmany
      exact ⟨List.forall_mem_cons.mpr ⟨ha, has⟩, hrest⟩

theorem many (h : Gives P p A P) : Gives P (many p) (fun as => ∀ a ∈ as, A a) P :=
  fun cs hcs _ _ hrun => h.manyFrom cs.length hcs hrun

/-- What is known of the first time. -/
theorem many_cons {cs mid : List Char} {a : α} (h : Gives P p A P) (hfirst : (p.run cs).outcome = some (a, mid))
    (hcs : cs ≠ []) (hmid : P mid) : Gives (· = cs) (Parser.many p) (fun as => ∃ as', as = a :: as' ∧ ∀ b ∈ as', A b) P := by
  rintro _ rfl as rest hrun
  obtain ⟨fuel, hfuel⟩ := Nat.exists_eq_succ_of_ne_zero fun hzero => hcs (List.length_eq_zero_iff.mp hzero)
  simp only [Parser.many, hfuel, Parser.manyFrom] at hrun
  split at hrun
  · next hp =>
    rw [hp] at hfirst
    cases hfirst
  · next hp =>
    rw [hp] at hfirst
    cases hfirst
    obtain ⟨⟨as', rest'⟩, hmany, heq⟩ := Option.map_eq_some_iff.mp hrun
    obtain ⟨rfl, rfl⟩ := Prod.mk.inj heq
    obtain ⟨has, hrest⟩ := h.manyFrom fuel hmid hmany
    exact ⟨⟨as', rfl, has⟩, hrest⟩

theorem token {t : Token α} (h : ∀ cs, P cs → ∀ a rest, t (cs.dropWhile isSpace) = some (a, rest) → A a ∧ Q rest) :
    Gives P (token t) A Q :=
  GivesAt.token h

end Gives

/-! ## Success -/

/-- The parser takes a value off the text and leaves the rest. -/
def Reads (p : Parser α) (cs : List Char) (a : α) (rest : List Char) : Prop := (p.run cs).outcome = some (a, rest)

/-- The parser takes nothing off the text. -/
def Fails (p : Parser α) (cs : List Char) : Prop := (p.run cs).outcome = none

section
variable {cs mid rest : List Char} {a : α} {b : β} {f : α → Parser β}

theorem Reads.andThen (h : Reads p cs a mid) (hf : Reads (f a) mid b rest) : Reads (andThen p f) cs b rest := by
  unfold Reads at h
  simp only [Reads, Parser.andThen]
  split
  · next hp =>
    rw [hp] at h
    cases h
  · next hp =>
    rw [hp] at h
    cases h
    exact hf

theorem Reads.bind (h : Reads p cs a mid) (hf : Reads (f a) mid b rest) : Reads (p >>= f) cs b rest := h.andThen hf

theorem Reads.map {g : α → β} (h : Reads p cs a mid) : Reads (g <$> p) cs (g a) mid := h.andThen rfl

theorem Fails.andThen (h : Fails p cs) : Fails (andThen p f) cs := by
  unfold Fails at h
  simp only [Fails, Parser.andThen]
  split
  · rfl
  · next hp =>
    rw [hp] at h
    cases h

theorem Fails.bind (h : Fails p cs) : Fails (p >>= f) cs := h.andThen

theorem Fails.map {g : α → β} (h : Fails p cs) : Fails (g <$> p) cs := h.andThen

theorem Reads.bind_fails (h : Reads p cs a mid) (hf : Fails (f a) mid) : Fails (p >>= f) cs := by
  unfold Reads at h
  change ((Parser.andThen p f).run cs).outcome = none
  simp only [Parser.andThen]
  split
  · rfl
  · next hp =>
    rw [hp] at h
    cases h
    exact hf

theorem Reads.orElse (h : Reads p cs a rest) : Reads (orElse p q) cs a rest := by
  unfold Reads at h
  simp only [Reads, Parser.orElse]
  split
  · next hp =>
    rw [hp] at h
    exact h
  · next hp =>
    rw [hp] at h
    cases h

theorem Fails.orElse (h : Fails p cs) (hq : Reads q cs a rest) : Reads (orElse p q) cs a rest := by
  unfold Fails at h
  simp only [Reads, Parser.orElse]
  split
  · next hp =>
    rw [hp] at h
    cases h
  · exact hq

theorem Fails.orElse_fails (h : Fails p cs) (hq : Fails q cs) : Fails (Parser.orElse p q) cs := by
  unfold Fails at h
  simp only [Fails, Parser.orElse]
  split
  · next hp =>
    rw [hp] at h
    cases h
  · exact hq

theorem fails_firstOf {ps : List (Parser α)} (h : ∀ p ∈ ps, Fails p cs) : Fails (firstOf ps) cs := by
  induction ps with
  | nil => rfl
  | cons p ps ih =>
    obtain ⟨hp, hps⟩ := List.forall_mem_cons.mp h
    exact hp.orElse_fails (ih hps)

theorem Reads.optional (h : Reads p cs a rest) : Reads (optional p) cs (some a) rest :=
  (h.andThen (f := fun a => found (some a)) rfl).orElse

theorem Fails.optional (h : Fails p cs) : Reads (optional p) cs none cs := h.andThen.orElse rfl

theorem Fails.many (h : Fails p cs) : Reads (many p) cs [] cs := by
  unfold Fails at h
  change (manyFrom p cs.length cs).outcome = some ([], cs)
  cases cs.length with
  | zero => rfl
  | succ fuel =>
    rw [manyFrom]
    split
    · rfl
    · next hp =>
      rw [hp] at h
      cases h

variable {t : Token α}

theorem reads_token (h : t (cs.dropWhile isSpace) = some (a, rest)) : Reads (token t) cs a rest := by
  simp only [Reads, token, h]

theorem fails_token (h : t (cs.dropWhile isSpace) = none) : Fails (token t) cs := by
  simp only [Fails, token, h]

end
end FormRules.Expr.Parser
