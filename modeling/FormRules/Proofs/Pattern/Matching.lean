import FormRules.Pattern.Basic
import FormRules.Text.Class

/-!
# What a pattern matches

`Spans` says that a pattern can lead from one place in a text to another, with no word about priority or
backtracking. A pattern that does nothing but read (`isPlain`) is run completely: what has to follow can follow
if and only if it can at some place to which the pattern leads. Running refuses a round after one that read
nothing; no place is lost by that, since such a round can be left out.
-/

namespace FormRules.Pattern

/-! ## Reading -/

/-- Reading a piece of text leads from one place to another. -/
def State.Reads (s : State) (w : List Char) (t : State) : Prop :=
  s.rest = w ++ t.rest ∧ t.before = w.reverse ++ s.before ∧ t.captures = s.captures

namespace State.Reads
variable {s t u : State} {v w : List Char}

theorem refl (s : State) : s.Reads [] s := ⟨rfl, rfl, rfl⟩

theorem trans (h : s.Reads v t) (h' : t.Reads w u) : s.Reads (v ++ w) u := by
  obtain ⟨hrest, hbefore, hcaptures⟩ := h
  obtain ⟨hrest', hbefore', hcaptures'⟩ := h'
  refine ⟨?_, ?_, hcaptures'.trans hcaptures⟩
  · rw [hrest, hrest', List.append_assoc]
  · rw [hbefore', hbefore, List.reverse_append, List.append_assoc]

/-- What is read can be read piece by piece. -/
theorem append_iff : s.Reads (v ++ w) u ↔ ∃ t, s.Reads v t ∧ t.Reads w u := by
  constructor
  · rintro ⟨hrest, hbefore, hcaptures⟩
    refine ⟨⟨v.reverse ++ s.before, w ++ u.rest, s.captures⟩, ⟨?_, rfl, rfl⟩, rfl, ?_, hcaptures⟩
    · rw [hrest, List.append_assoc]
    · rw [hbefore, List.reverse_append, List.append_assoc]
  · rintro ⟨t, h, h'⟩
    exact h.trans h'

theorem eq_of_nil (h : s.Reads [] t) : s = t := by
  obtain ⟨before, rest, captures⟩ := s
  obtain ⟨hrest, hbefore, hcaptures⟩ := h
  cases t
  simp_all

theorem length_le (h : s.Reads w t) : t.rest.length ≤ s.rest.length := by
  rw [h.1, List.length_append]
  exact Nat.le_add_left _ _

theorem eq_of_length (h : s.Reads w t) (hlength : s.rest.length ≤ t.rest.length) : s = t := by
  rw [h.1, List.length_append] at hlength
  obtain rfl : w = [] := List.eq_nil_of_length_eq_zero (by omega)
  exact h.eq_of_nil

end State.Reads

/-! ## Places a pattern leads to -/

/-- A number of steps, one after another. -/
def Rounds (R : State → State → Prop) : Nat → State → State → Prop
  | 0, s, t => s = t
  | n + 1, s, u => ∃ t, R s t ∧ Rounds R n t u

/-- Whether a pattern does nothing but read, in any way in which it can: it captures and looks for nothing, never
insists on a way, and its counts are in order. -/
def isPlain : Pattern → Bool
  | .empty | .oneOf _ _ _ | .edge _ => true
  | .seq p q | .alt p q => p.isPlain && q.isPlain
  | .repetition p least most greed => p.isPlain && most.all (least ≤ ·) && greed ≠ .possessive
  | _ => false

/-- The pattern can lead from one place to another. -/
def Spans : Pattern → State → State → Prop
  | .empty, s, t => s = t
  | .oneOf casing negated items, s, t =>
    ∃ c : Char, ((items.any fun i => i.admits casing c.toNat) != negated) = true ∧ s.Reads [c] t
  | .seq p q, s, u => ∃ t, p.Spans s t ∧ q.Spans t u
  | .alt p q, s, t => p.Spans s t ∨ q.Spans s t
  | .repetition p least most _, s, t => ∃ n, least ≤ n ∧ (∀ m ∈ most, n ≤ m) ∧ Rounds p.Spans n s t
  | .edge e, s, t => e.holds s = true ∧ s = t
  | _, _, _ => False

variable {p : Pattern} {s t : State} {next : Next} {R : State → State → Prop}

theorem rounds_reads (hR : ∀ s t, R s t → ∃ w : List Char, s.Reads w t) {n : Nat} (h : Rounds R n s t) :
    ∃ w, s.Reads w t := by
  induction n generalizing s with
  | zero =>
    cases h
    exact ⟨[], .refl _⟩
  | succ n ih =>
    obtain ⟨u, hu, htail⟩ := h
    obtain ⟨v, hv⟩ := hR s u hu
    obtain ⟨w, hw⟩ := ih htail
    exact ⟨v ++ w, hv.trans hw⟩

theorem spans_reads (h : p.Spans s t) : ∃ w, s.Reads w t := by
  induction p generalizing s t with
  | empty =>
    cases h
    exact ⟨[], .refl _⟩
  | oneOf casing negated items =>
    obtain ⟨c, -, hc⟩ := h
    exact ⟨[c], hc⟩
  | seq p q ihp ihq =>
    obtain ⟨u, hp, hq⟩ := h
    obtain ⟨v, hv⟩ := ihp hp
    obtain ⟨w, hw⟩ := ihq hq
    exact ⟨v ++ w, hv.trans hw⟩
  | alt p q ihp ihq => exact h.elim ihp ihq
  | repetition p least most greed ih =>
    obtain ⟨n, -, -, hn⟩ := h
    exact rounds_reads (fun _ _ => ih) hn
  | edge e =>
    obtain ⟨-, rfl⟩ := h
    exact ⟨[], .refl _⟩
  | _ => cases h

/-! ## Running -/

/-- A body is run completely: what has to follow can follow if and only if it can where the body leads. -/
def Completes (body : State → Next → Option State) (R : State → State → Prop) : Prop :=
  ∀ s next, (body s next).isSome = true ↔ ∃ t, R s t ∧ (next t).isSome = true

section
variable {body : State → Next → Option State} {lazy : Bool} {least fuel done n : Nat} {most : Option Nat}
  {last : Option Nat}

theorem rounds_of_obligatory (hdone : done < least) :
    rounds body lazy least most (fuel + 1) done last s next =
      body s fun t => rounds body lazy least most fuel (done + 1) last t next := by
  rw [rounds, if_pos hdone]

/-- Beyond the obligatory rounds there may be an end, or a further round unless the last one read nothing. -/
theorem rounds_isSome_iff (hbody : Completes body R) (hdone : ¬ done < least) :
    (rounds body lazy least most (fuel + 1) done last s next).isSome = true ↔ (next s).isSome = true ∨
      (most.all (done < ·) = true ∧ last ≠ some s.rest.length) ∧ ∃ t, R s t ∧
        (rounds body lazy least most fuel (done + 1) (some s.rest.length) t next).isSome = true := by
  have again (x : Option State) : (if (most.all (done < ·) && last != some s.rest.length) = true then x else none).isSome
      = true ↔ (most.all (done < ·) = true ∧ last ≠ some s.rest.length) ∧ x.isSome = true := by
    split <;> simp_all
  rw [rounds, if_neg hdone, ← hbody s, ← again]
  cases lazy with
  | false => simp only [Bool.false_eq_true, if_false, Option.isSome_or, Bool.or_eq_true, or_comm]
  | true => simp only [if_true, Option.isSome_or, Bool.or_eq_true]

/-- Where the rounds end, the number of them is allowed. -/
theorem exists_of_rounds (hbody : Completes body R) (hmost : ∀ m ∈ most, least ≤ m ∧ done ≤ m)
    (h : (rounds body lazy least most fuel done last s next).isSome = true) :
    ∃ n t, least ≤ done + n ∧ (∀ m ∈ most, done + n ≤ m) ∧ Rounds R n s t ∧ (next t).isSome = true := by
  induction fuel generalizing done last s with
  | zero => cases h
  | succ fuel ih =>
    have step {last' : Option Nat} {u : State} (hu : R s u) (hmost' : ∀ m ∈ most, done + 1 ≤ m)
        (hrest : (rounds body lazy least most fuel (done + 1) last' u next).isSome = true) :
        ∃ n t, least ≤ done + n ∧ (∀ m ∈ most, done + n ≤ m) ∧ Rounds R n s t ∧ (next t).isSome = true := by
      obtain ⟨n, t, hleast, hm, hn, ht⟩ := ih (fun m hm => ⟨(hmost m hm).1, hmost' m hm⟩) hrest
      refine ⟨n + 1, t, by omega, fun m hmem => ?_, ⟨u, hu, hn⟩, ht⟩
      have := hm m hmem
      omega
    by_cases hdone : done < least
    · rw [rounds_of_obligatory hdone] at h
      obtain ⟨u, hu, hrest⟩ := (hbody _ _).mp h
      exact step hu (fun m hm => Nat.le_trans hdone (hmost m hm).1) hrest
    · obtain hnext | ⟨⟨hguard, -⟩, u, hu, hrest⟩ := (rounds_isSome_iff hbody hdone).mp h
      · exact ⟨0, s, by omega, fun m hm => (hmost m hm).2, rfl, hnext⟩
      · exact step hu (fun m hm => of_decide_eq_true ((Option.all_eq_true _ _).mp hguard m hm)) hrest

/-- Optional rounds: one that reads nothing is left out, so that `last` never stands in the way. -/
theorem rounds_of_optional (hbody : Completes body R) (hR : ∀ s t, R s t → ∃ w, s.Reads w t)
    (hdone : least ≤ done) (hn : Rounds R n s t) (hmost : ∀ m ∈ most, done + n ≤ m) (ht : (next t).isSome = true)
    (hlast : last ≠ some s.rest.length) (hfuel : s.rest.length < fuel) :
    (rounds body lazy least most fuel done last s next).isSome = true := by
  induction n generalizing fuel done last s with
  | zero =>
    cases hn
    obtain ⟨fuel, rfl⟩ := Nat.exists_eq_succ_of_ne_zero (Nat.ne_of_gt (Nat.zero_lt_of_lt hfuel))
    exact (rounds_isSome_iff hbody (Nat.not_lt.mpr hdone)).mpr (.inl ht)
  | succ n ih =>
    obtain ⟨u, hu, htail⟩ := hn
    obtain ⟨w, hw⟩ := hR s u hu
    by_cases hlength : s.rest.length ≤ u.rest.length
    · obtain rfl := hw.eq_of_length hlength
      exact ih hdone htail (fun m hm => Nat.le_of_succ_le (hmost m hm)) hlast hfuel
    · obtain ⟨fuel, rfl⟩ := Nat.exists_eq_succ_of_ne_zero (Nat.ne_of_gt (Nat.zero_lt_of_lt hfuel))
      refine (rounds_isSome_iff hbody (Nat.not_lt.mpr hdone)).mpr (.inr ⟨⟨?_, hlast⟩, u, hu, ?_⟩)
      · refine Option.all_eq_true _ _ |>.mpr fun m hm => ?_
        have := hmost m hm
        simp only [decide_eq_true_eq]
        omega
      · refine ih (by omega) htail (fun m hm => ?_) ?_ (by omega)
        · have := hmost m hm
          omega
        · rw [ne_eq, Option.some.injEq]
          omega

/-- All rounds: the obligatory ones come first, whatever they read. -/
theorem rounds_of_exists (hbody : Completes body R) (hR : ∀ s t, R s t → ∃ w, s.Reads w t)
    (hdone : done ≤ least) (hn : Rounds R n s t) (hleast : least ≤ done + n) (hmost : ∀ m ∈ most, done + n ≤ m)
    (ht : (next t).isSome = true) (hfuel : least + s.rest.length < done + fuel) :
    (rounds body lazy least most fuel done none s next).isSome = true := by
  induction n generalizing fuel done s with
  | zero => exact rounds_of_optional hbody hR (by omega) hn hmost ht nofun (by omega)
  | succ n ih =>
    by_cases heq : least ≤ done
    · exact rounds_of_optional hbody hR heq hn hmost ht nofun (by omega)
    obtain ⟨fuel, rfl⟩ := Nat.exists_eq_succ_of_ne_zero (show fuel ≠ 0 by omega)
    obtain ⟨u, hu, htail⟩ := hn
    obtain ⟨w, hw⟩ := hR s u hu
    have hle := hw.length_le
    rw [rounds_of_obligatory (Nat.not_le.mp heq)]
    refine (hbody _ _).mpr ⟨u, hu, ih (by omega) htail (by omega) (fun m hm => ?_) (by omega)⟩
    have := hmost m hm
    omega

theorem completes_rounds (hbody : Completes body R) (hR : ∀ s t, R s t → ∃ w, s.Reads w t)
    (hmost : ∀ m ∈ most, least ≤ m) :
    (rounds body lazy least most (least + s.rest.length + 2) 0 none s next).isSome = true ↔
      ∃ t, (∃ n, least ≤ n ∧ (∀ m ∈ most, n ≤ m) ∧ Rounds R n s t) ∧ (next t).isSome = true := by
  constructor
  · intro h
    obtain ⟨n, t, hleast, hm, hn, ht⟩ := exists_of_rounds hbody (fun m hm => ⟨hmost m hm, Nat.zero_le m⟩) h
    rw [Nat.zero_add] at hleast
    exact ⟨t, ⟨n, hleast, by simpa using hm, hn⟩, ht⟩
  · rintro ⟨t, ⟨n, hleast, hm, hn⟩, ht⟩
    exact rounds_of_exists hbody hR (Nat.zero_le least) hn (by omega) (by simpa using hm) ht (by omega)

end

/-- A pattern that does nothing but read is run completely. -/
theorem run_isSome_iff (hp : p.isPlain = true) (s : State) (next : Next) :
    (p.run s next).isSome = true ↔ ∃ t, p.Spans s t ∧ (next t).isSome = true := by
  induction p generalizing s next with
  | empty => simp [run, Spans]
  | oneOf casing negated items =>
    obtain ⟨before, rest, captures⟩ := s
    cases rest with
    | nil => simp [run, Spans, State.Reads]
    | cons c rest =>
      simp only [run, Spans, State.Reads]
      split
      · next h =>
        constructor
        · exact fun hnext => ⟨_, ⟨c, h, rfl, rfl, rfl⟩, hnext⟩
        · rintro ⟨⟨before', rest', captures'⟩, ⟨d, -, hrest, hbefore, hcaptures⟩, hnext⟩
          simp_all
      · next h =>
        constructor
        · nofun
        · rintro ⟨t, ⟨d, hd, hrest, -⟩, -⟩
          simp_all
  | seq p q ihp ihq =>
    rw [isPlain, Bool.and_eq_true] at hp
    simp only [run, Spans, ihp hp.1, ihq hp.2]
    constructor
    · rintro ⟨t, ht, u, hu, hnext⟩
      exact ⟨u, ⟨t, ht, hu⟩, hnext⟩
    · rintro ⟨u, ⟨t, ht, hu⟩, hnext⟩
      exact ⟨t, ht, u, hu, hnext⟩
  | alt p q ihp ihq =>
    rw [isPlain, Bool.and_eq_true] at hp
    simp only [run, Spans, Option.isSome_or, Bool.or_eq_true, ihp hp.1, ihq hp.2, or_and_right, exists_or]
  | repetition p least most greed ih =>
    rw [isPlain, Bool.and_eq_true, Bool.and_eq_true] at hp
    have hmost : ∀ m ∈ most, least ≤ m := by simpa [Option.all_eq_true] using hp.1.2
    have hbody : Completes (run p) p.Spans := ih hp.1.1
    cases greed with
    | greedy => exact completes_rounds hbody (fun _ _ => spans_reads) hmost
    | lazy => exact completes_rounds hbody (fun _ _ => spans_reads) hmost
    | possessive => simp at hp
  | edge e =>
    simp only [run, Spans]
    split <;> simp_all
  | _ => cases hp

/-! ## Runs of characters -/

/-- Any number of characters of a set, as many of them as can be read in a row. -/
theorem spans_run_iff {casing : Casing} {negated : Bool} {items : List SetItem} {least : Nat} {greed : Greed} :
    (Pattern.repetition (.oneOf casing negated items) least none greed).Spans s t ↔
      ∃ w : List Char, least ≤ w.length ∧
        (∀ c ∈ w, ((items.any fun i => i.admits casing c.toNat) != negated) = true) ∧ s.Reads w t := by
  have rounds_iff (n : Nat) (s : State) : Rounds (Pattern.oneOf casing negated items).Spans n s t ↔
      ∃ w : List Char, w.length = n ∧
        (∀ c ∈ w, ((items.any fun i => i.admits casing c.toNat) != negated) = true) ∧ s.Reads w t := by
    induction n generalizing s with
    | zero =>
      constructor
      · rintro rfl
        exact ⟨[], rfl, nofun, .refl s⟩
      · rintro ⟨w, hw, -, hreads⟩
        obtain rfl := List.eq_nil_of_length_eq_zero hw
        exact hreads.eq_of_nil
    | succ n ih =>
      constructor
      · rintro ⟨u, ⟨c, hc, hu⟩, htail⟩
        obtain ⟨w, rfl, hw, hreads⟩ := (ih u).mp htail
        exact ⟨c :: w, rfl, List.forall_mem_cons.mpr ⟨hc, hw⟩, hu.trans hreads⟩
      · rintro ⟨w, hw, hall, hreads⟩
        obtain ⟨c, w, rfl⟩ := List.exists_cons_of_length_eq_add_one hw
        obtain ⟨hc, hall⟩ := List.forall_mem_cons.mp hall
        obtain ⟨u, hu, htail⟩ := State.Reads.append_iff.mp (show s.Reads ([c] ++ w) t from hreads)
        exact ⟨u, ⟨c, hc, hu⟩, (ih u).mpr ⟨w, Nat.succ.inj hw, hall, htail⟩⟩
  constructor
  · rintro ⟨n, hn, -, hrounds⟩
    obtain ⟨w, rfl, hw, hreads⟩ := (rounds_iff n s).mp hrounds
    exact ⟨w, hn, hw, hreads⟩
  · rintro ⟨w, hn, hw, hreads⟩
    exact ⟨w.length, hn, nofun, (rounds_iff _ s).mpr ⟨w, rfl, hw, hreads⟩⟩

/-- A single character that has to be as it is written. -/
theorem spans_code_iff {c : Char} : (code .exact c.toNat).Spans s t ↔ s.Reads [c] t := by
  have admits (d : Char) : (([SetItem.range c.toNat c.toNat].any fun i => i.admits .exact d.toNat) != false) = true ↔
      d = c := by
    simp only [List.any_cons, List.any_nil, SetItem.admits, Casing.variants, Bool.or_false, Bool.bne_false,
      Bool.and_eq_true, decide_eq_true_eq]
    rw [← Char.toNat_inj]
    omega
  constructor
  · rintro ⟨d, hd, hreads⟩
    rwa [(admits d).mp hd] at hreads
  · exact fun h => ⟨c, (admits c).mpr rfl, h⟩

/-! ## Matching at the start of a text -/

theorem opens_iff (hp : p.isPlain = true) {text : String} :
    p.opens text = true ↔ ∃ t, p.Spans ⟨[], text.toList, []⟩ t := by
  simp [opens, run_isSome_iff hp]

end FormRules.Pattern
