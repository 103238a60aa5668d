import FormRules.Value.Json
import Mathlib.Data.Option.Basic

/-!
# Quoted text is read back

A text in double quotes is read back as itself, whatever follows the closing quote, so that quoted texts
are told apart wherever they stand.
-/

namespace FormRules

namespace Json
open Text

theorem hexValue?_hexDigit {d : Nat} (h : d < 16) : hexValue? (hexDigit d) = some d := by
  have all : ∀ d : Fin 16, hexValue? (hexDigit d) = some d.val := by decide
  exact all ⟨d, h⟩

/-- Four hexadecimal digits are read as the number they write. -/
theorem unit?_hexDigits {n : Nat} (h : n < 0x10000) (rest : List Char) :
    unit? (hexDigits 4 n ++ rest) = some (n, rest) := by
  have hdigit (m : Nat) : hexValue? (hexDigit (m % 16)) = some (m % 16) :=
    hexValue?_hexDigit (Nat.mod_lt m (by decide))
  have hsum : n / 16 / 16 / 16 % 16 * 4096 + n / 16 / 16 % 16 * 256 + n / 16 % 16 * 16 + n % 16 = n := by
    omega
  simp only [hexDigits, List.nil_append, List.cons_append, unit?, hdigit, Option.bind_eq_bind,
    Option.bind_some, hsum]
  rfl

theorem toNat_cases (c : Char) : c.toNat < 0xD800 ∨ 0xDFFF < c.toNat ∧ c.toNat < 0x110000 := c.valid

theorem unitChar_toNat (c : Char) : unitChar c.toNat = c := by
  rw [unitChar, if_pos (toNat_cases c), Char.ofNat_toNat]

variable {c : Char} {rest : List Char} {fuel n : Nat}

/-- What is read once a character has been read in front of it. -/
def prepend (c : Char) (r : Option (List Char × List Char)) : Option (List Char × List Char) :=
  r.map fun r => (c :: r.1, r.2)

theorem readText_short {e : Char} (h : escaped? e = some c) :
    readText (fuel + 1) ('\\' :: e :: rest) = prepend c (readText fuel rest) := by
  have he : e ≠ 'u' := by
    rintro rfl
    cases h
  rw [readText.eq_5 _ _ _ he, h]
  cases readText fuel rest <;> rfl

theorem readText_plain (h : 32 ≤ c.toNat) (hq : c ≠ '"') (hb : c ≠ '\\') :
    readText (fuel + 1) (c :: rest) = prepend c (readText fuel rest) := by
  rw [readText.eq_6 _ _ _ hq (fun _ hc => absurd hc hb) (fun _ _ hc => absurd hc hb)]
  have hguard : (decide (32 ≤ c.toNat) && c != '\\') = true := by
    rw [Bool.and_eq_true, decide_eq_true_iff, bne_iff_ne]
    exact ⟨h, hb⟩
  rw [hguard]
  cases readText fuel rest <;> rfl

/-- A unit that is no first half of a pair. -/
theorem readText_unit (h : n < 0xD800 ∨ 0xDFFF < n ∧ n < 0x10000) :
    readText (fuel + 1) (unitEscape n ++ rest) = prepend (unitChar n) (readText fuel rest) := by
  have hhalf : (decide (0xD800 ≤ n) && decide (n ≤ 0xDBFF)) = false := by
    rw [Bool.and_eq_false_iff, decide_eq_false_iff_not, decide_eq_false_iff_not]
    omega
  rw [unitEscape, List.cons_append, List.cons_append]
  show (unit? _ >>= _) = _
  rw [unit?_hexDigits (by omega)]
  simp only [Option.bind_eq_bind, Option.bind_some, hhalf]
  cases readText fuel rest <;> rfl

/-- Two units that are the halves of a pair. -/
theorem readText_pair {m : Nat} (hn : n < 0x400) (hm : m < 0x400) :
    readText (fuel + 1) (unitEscape (0xD800 + n) ++ unitEscape (0xDC00 + m) ++ rest) =
      prepend (Char.ofNat (0x10000 + n * 0x400 + m)) (readText fuel rest) := by
  have hhalf : (decide (0xD800 ≤ 0xD800 + n) && decide (0xD800 + n ≤ 0xDBFF)) = true := by
    rw [Bool.and_eq_true, decide_eq_true_iff, decide_eq_true_iff]
    omega
  have hlow : lowHalf? (unitEscape (0xDC00 + m) ++ rest) = some (0xDC00 + m, rest) := by
    rw [unitEscape, List.cons_append, List.cons_append, lowHalf?, unit?_hexDigits (by omega)]
    exact if_pos (by rw [Bool.and_eq_true, decide_eq_true_iff, decide_eq_true_iff]; omega)
  rw [List.append_assoc]
  generalize unitEscape (0xDC00 + m) ++ rest = after at hlow
  rw [unitEscape, List.cons_append, List.cons_append]
  show (unit? _ >>= _) = _
  rw [unit?_hexDigits (by omega)]
  simp only [Option.bind_eq_bind, Option.bind_some, hhalf, hlow, if_true, Nat.add_sub_cancel_left]
  cases readText fuel rest <;> rfl

/-- Every character is read back from its form inside double quotes, in one step. -/
theorem readText_asciiChar (c : Char) :
    readText (fuel + 1) (asciiChar c ++ rest) = prepend c (readText fuel rest) := by
  have hc := toNat_cases c
  unfold asciiChar
  split
  · next h =>
    rcases (by simpa using h : c = '"' ∨ c = '\\') with rfl | rfl
    · exact readText_short rfl
    · exact readText_short rfl
  split
  · next h => exact h ▸ readText_short rfl
  split
  · next h => exact h ▸ readText_short rfl
  split
  · next h => exact h ▸ readText_short rfl
  split
  · next h => exact h ▸ readText_short rfl
  split
  · next h => exact h ▸ readText_short rfl
  split
  · next hq _ _ _ _ _ h =>
    simp only [Bool.or_eq_true, decide_eq_true_eq, not_or] at hq
    simp only [Bool.and_eq_true, decide_eq_true_eq] at h
    exact readText_plain h.1 hq.1 hq.2
  split
  · rw [readText_unit (by omega), unitChar_toNat]
  · have hsum : 0x10000 + (c.toNat - 0x10000) / 0x400 * 0x400 + (c.toNat - 0x10000) % 0x400 = c.toNat := by
      omega
    dsimp only
    rw [readText_pair (by omega) (by omega), hsum, Char.ofNat_toNat]

/-- A quoted text is read back, up to its closing quote. -/
theorem readText_quoted (cs rest : List Char) (h : cs.length < fuel) :
    readText fuel (cs.flatMap asciiChar ++ '"' :: rest) = some (cs, rest) := by
  induction cs generalizing fuel with
  | nil =>
    obtain ⟨k, rfl⟩ : ∃ k, fuel = k + 1 := ⟨fuel - 1, by omega⟩
    rfl
  | cons c cs ih =>
    obtain ⟨k, rfl⟩ : ∃ k, fuel = k + 1 := ⟨fuel - 1, by omega⟩
    rw [List.flatMap_cons, List.append_assoc, readText_asciiChar, ih (by simpa using h)]
    rfl

end Json

namespace Text

theorem asciiQuote_toList (s : String) : (asciiQuote s).toList = '"' :: (s.toList.flatMap asciiChar ++ ['"']) :=
  String.toList_ofList

/-- Quoted texts are told apart wherever they stand. -/
theorem asciiQuote_cancel {s t : String} {r r' : List Char}
    (h : (asciiQuote s).toList ++ r = (asciiQuote t).toList ++ r') : s = t ∧ r = r' := by
  rw [asciiQuote_toList, asciiQuote_toList, List.cons_append, List.cons_append, List.append_assoc,
    List.append_assoc] at h
  have hs := Json.readText_quoted s.toList r (show _ < s.toList.length + t.toList.length + 1 by omega)
  have ht := Json.readText_quoted t.toList r' (show _ < s.toList.length + t.toList.length + 1 by omega)
  rw [show s.toList.flatMap asciiChar ++ '"' :: r = t.toList.flatMap asciiChar ++ '"' :: r' from
    (List.cons.inj h).2, ht] at hs
  obtain ⟨ht, rfl⟩ := Prod.mk.inj (Option.some.inj hs)
  exact ⟨String.toList_inj.mp ht.symm, rfl⟩

end Text
end FormRules
