import FormRules.Pattern.Reader
import FormRules.Proofs.Pattern.Matching
import FormRules.Validation.Builtin

/-!
# Addresses

The rule for addresses accepts the texts that consist of a name, an `@` and a host with a point inside, none of them
with a blank or a further `@`, and the same texts with a line break behind them: the last edge of the pattern lies before
such a line break too. Nothing else that is blank can stand anywhere.
-/

namespace FormRules.Builtin
open Pattern

/-- A part of an address: something without blanks and without an `@`. -/
def IsAddressPart (cs : List Char) : Prop := cs ≠ [] ∧ ∀ c ∈ cs, Text.isBlank c = false ∧ c ≠ '@'

/-- A name, an `@`, and a host with a point inside. -/
def IsAddress (cs : List Char) : Prop :=
  ∃ name front back, IsAddressPart name ∧ IsAddressPart front ∧ IsAddressPart back ∧
    cs = name ++ '@' :: (front ++ '.' :: back)

variable {s : String} {cs : List Char} {c : Char}

/-- How the pattern is written. -/
theorem ofText?_addressPattern : Pattern.ofText? "^[^\\s@]+@[^\\s@]+\\.[^\\s@]+$" = .ok addressPattern := by
  rfl

theorem IsAddress.not_isBlank (h : IsAddress cs) : ∀ c ∈ cs, Text.isBlank c = false := by
  obtain ⟨name, front, back, hname, hfront, hback, rfl⟩ := h
  intro c hc
  simp only [List.mem_append, List.mem_cons] at hc
  obtain hc | rfl | hc | rfl | hc := hc
  · exact (hname.2 c hc).1
  · decide
  · exact (hfront.2 c hc).1
  · decide
  · exact (hback.2 c hc).1

/-- In an address, or one before a line break, nothing is blank but that line break. -/
theorem IsAddress.eq_of_blank {whole before after : List Char} (h : IsAddress cs)
    (hwhole : whole = cs ∨ whole = cs ++ ['\n']) (hc : whole = before ++ c :: after) (hblank : Text.isBlank c = true) :
    c = '\n' ∧ after = [] := by
  have hclean : c ∉ cs := fun hmem => by simp [h.not_isBlank c hmem] at hblank
  subst hc
  obtain rfl | hwhole := hwhole
  · exact absurd (List.mem_append_right before List.mem_cons_self) hclean
  obtain rfl | ⟨between, last, rfl⟩ := List.eq_nil_or_concat after
  · obtain ⟨-, hc⟩ := List.append_inj' hwhole rfl
    exact ⟨List.singleton_inj.mp hc, rfl⟩
  · rw [List.concat_eq_append, ← List.cons_append, ← List.append_assoc] at hwhole
    obtain ⟨rfl, -⟩ := List.append_inj' hwhole rfl
    exact absurd (List.mem_append_right before List.mem_cons_self) hclean

/-! ## What the pattern matches -/

theorem stops_iff : ((addressStops.any fun i => i.admits .exact c.toNat) != true) = true ↔
    Text.isBlank c = false ∧ c ≠ '@' := by
  have hat : (decide (64 ≤ c.toNat) && decide (c.toNat ≤ 64)) = decide (c = '@') := by
    rw [← Bool.decide_and, decide_eq_decide, ← Char.toNat_inj]
    exact ⟨fun h => Nat.le_antisymm h.2 h.1, fun h => ⟨Nat.le_of_eq h.symm, Nat.le_of_eq h⟩⟩
  simp only [addressStops, List.any_cons, List.any_nil, SetItem.admits, Class.holds, Casing.lower, Casing.variants,
    Char.ofNat_toNat, hat]
  simp

theorem spans_addressRun_iff {t u : State} : addressRun.Spans t u ↔ ∃ w, IsAddressPart w ∧ t.Reads w u := by
  unfold addressRun IsAddressPart
  simp only [spans_run_iff, stops_iff, Nat.one_le_iff_ne_zero, ne_eq, List.length_eq_zero_iff, and_assoc]

/-- The pattern leads from the start of the text over an address to the end or to the line break there. -/
theorem spans_addressPattern_iff {t u : State} : addressPattern.Spans t u ↔
    t.before = [] ∧ (u.rest = [] ∨ u.rest = ['\n']) ∧ ∃ w, IsAddress w ∧ t.Reads w u := by
  have hat {t u : State} : (code .exact 64).Spans t u ↔ t.Reads ['@'] u := spans_code_iff (c := '@')
  have hpoint {t u : State} : (code .exact 46).Spans t u ↔ t.Reads ['.'] u := spans_code_iff (c := '.')
  have hstart : Edge.textStart.holds t = true ↔ t.before = [] := List.isEmpty_iff
  have hend : Edge.lastLineEnd.holds u = true ↔ u.rest = [] ∨ u.rest = ['\n'] := by simp [Edge.holds]
  simp only [addressPattern, Spans, spans_addressRun_iff, hat, hpoint]
  constructor
  · rintro ⟨_, ⟨hbefore, rfl⟩, _, ⟨name, hname, h₁⟩, _, h₂, _, ⟨front, hfront, h₃⟩, _, h₄, _, ⟨back, hback, h₅⟩,
      hlast, rfl⟩
    exact ⟨hstart.mp hbefore, hend.mp hlast, _, ⟨name, front, back, hname, hfront, hback, rfl⟩,
      h₁.trans (h₂.trans (h₃.trans (h₄.trans h₅)))⟩
  · rintro ⟨hbefore, hlast, _, ⟨name, front, back, hname, hfront, hback, rfl⟩, h⟩
    obtain ⟨t₁, h₁, h⟩ := State.Reads.append_iff.mp h
    obtain ⟨t₂, h₂, h⟩ := State.Reads.append_iff.mp (show t₁.Reads (['@'] ++ (front ++ '.' :: back)) u from h)
    obtain ⟨t₃, h₃, h⟩ := State.Reads.append_iff.mp h
    obtain ⟨t₄, h₄, h₅⟩ := State.Reads.append_iff.mp (show t₃.Reads (['.'] ++ back) u from h)
    exact ⟨t, ⟨hstart.mpr hbefore, rfl⟩, t₁, ⟨name, hname, h₁⟩, t₂, h₂, t₃, ⟨front, hfront, h₃⟩, t₄, h₄,
      u, ⟨back, hback, h₅⟩, hend.mpr hlast, rfl⟩

theorem isEmail_iff : isEmail s = true ↔ ∃ cs, IsAddress cs ∧ (s.toList = cs ∨ s.toList = cs ++ ['\n']) := by
  rw [isEmail, opens_iff (by rfl)]
  simp only [spans_addressPattern_iff, true_and]
  constructor
  · rintro ⟨u, hend, cs, hcs, hrest, -⟩
    refine ⟨cs, hcs, hend.imp (fun h => ?_) fun h => ?_⟩ <;> simpa only [h, List.append_nil] using hrest
  · rintro ⟨cs, hcs, h | h⟩
    · exact ⟨⟨cs.reverse, [], []⟩, .inl rfl, cs, hcs, by simp [h], by simp, rfl⟩
    · exact ⟨⟨cs.reverse, ['\n'], []⟩, .inr rfl, cs, hcs, h, by simp, rfl⟩

/-! ## The rule -/

theorem pure_inj {x y : Option Entries} (h : (pure x : Checking (Option Entries)) = pure y) : x = y :=
  Except.ok.inj (congrArg Prod.fst (congrFun h {}))

/-- The rule decides at once, whatever its bound: a text that is not empty passes if it is an address or an address
before a line break, and fails otherwise. What passes has no blank but the line break at its very end. -/
theorem check_email_iff {s : String} (hs : s ≠ "") (bound : Value) :
    (email.check (.text s) bound = pure none ∨ email.check (.text s) bound = pure (some [])) ∧
    (email.check (.text s) bound = pure none ↔ ∃ cs, IsAddress cs ∧ (s.toList = cs ∨ s.toList = cs ++ ['\n'])) ∧
    (email.check (.text s) bound = pure none →
      ∀ before c after, s.toList = before ++ c :: after → Text.isBlank c = true → c = '\n' ∧ after = []) := by
  have hcheck : email.check (.text s) bound = pure (if isEmail s = true then none else some []) := by
    simp [check, failure, Value.isBlank, Value.toText, hs]
    rfl
  have hpasses : email.check (.text s) bound = pure none ↔ isEmail s = true := by
    rw [hcheck]
    refine ⟨fun h => ?_, fun h => by rw [if_pos h]⟩
    simpa using pure_inj h
  refine ⟨?_, hpasses.trans isEmail_iff, fun h before c after hcs hblank => ?_⟩
  · rw [hcheck]
    split
    · exact .inl rfl
    · exact .inr rfl
  · obtain ⟨cs, haddress, hend⟩ := isEmail_iff.mp (hpasses.mp h)
    exact haddress.eq_of_blank hend hcs hblank

/-- A line break at the end is let through. -/
theorem check_email_iff_line_break :
    "a@b.co\n" ≠ "" ∧ email.check (.text "a@b.co\n") .undefined = pure none := by
  have hs : "a@b.co\n" ≠ "" := by decide
  have part {cs : List Char} (hne : cs ≠ []) (h : cs.all (fun c => !Text.isBlank c && c ≠ '@') = true) :
      IsAddressPart cs := ⟨hne, by simpa using h⟩
  refine ⟨hs, (check_email_iff hs .undefined).2.1.mpr ⟨"a@b.co".toList, ⟨['a'], ['b'], ['c', 'o'], ?_, ?_, ?_, ?_⟩, ?_⟩⟩
  · exact part nofun (by decide)
  · exact part nofun (by decide)
  · exact part nofun (by decide)
  · rfl
  · exact .inr rfl

end FormRules.Builtin
