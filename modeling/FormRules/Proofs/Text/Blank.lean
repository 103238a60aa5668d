import FormRules.Text.Class
import Mathlib.Data.List.TakeWhile
import Mathlib.Tactic.SplitIfs

/-!
# Blanks are no word characters

The codes of a set that is written by run lengths can be listed, so that what holds of all blanks is a
matter of looking at each. Trimming a text drops nothing but blanks.
-/

namespace FormRules.Text

/-- The codes in a set, from `start` on, where the runs begin outside or inside. -/
def runCodes : (inside : Bool) → (start : Nat) → List Nat → List Nat
  | _, _, [] => []
  | inside, start, r :: rs => (if inside then List.range' start r else []) ++ runCodes (!inside) (start + r) rs

theorem mem_runCodes {inside : Bool} {start n : Nat} {runs : List Nat} (h : inRunsFrom inside runs n = true) :
    start + n ∈ runCodes inside start runs := by
  induction runs generalizing inside start n with
  | nil => cases h
  | cons r rs ih =>
    rw [inRunsFrom] at h
    rw [runCodes, List.mem_append]
    split_ifs at h with hn
    · left
      rw [if_pos h, List.mem_range'_1]
      omega
    · right
      have hrest : start + r + (n - r) ∈ runCodes (!inside) (start + r) rs := ih h
      rwa [show start + r + (n - r) = start + n by omega] at hrest

theorem not_isWord_blank {c : Char} (h : isBlank c = true) : isWord c = false := by
  have all : ∀ n ∈ runCodes false 0 blankRuns, isWord (Char.ofNat n) = false := by decide +kernel
  have hc := all (0 + c.toNat) (mem_runCodes h)
  rwa [Nat.zero_add, Char.ofNat_toNat] at hc

theorem trim_append (cs : List Char) : trim cs ++ ((trimLeft cs).reverse.takeWhile isBlank).reverse = trimLeft cs := by
  rw [trim, trimRight, ← List.reverse_append, List.takeWhile_append_dropWhile, List.reverse_reverse]

/-- A text is its trimmed form between blanks. -/
theorem trim_between (cs : List Char) : ∃ lead trail, cs = lead ++ trim cs ++ trail ∧
    (∀ c ∈ lead, isBlank c = true) ∧ ∀ c ∈ trail, isBlank c = true := by
  refine ⟨cs.takeWhile isBlank, ((trimLeft cs).reverse.takeWhile isBlank).reverse, ?_, ?_, ?_⟩
  · rw [List.append_assoc, trim_append, trimLeft, List.takeWhile_append_dropWhile]
  · exact fun c hc => List.mem_takeWhile_imp hc
  · exact fun c hc => List.mem_takeWhile_imp (List.mem_reverse.mp hc)

/-- A trimmed text begins with no blank. -/
theorem head_trim {cs : List Char} : ∀ c ∈ (trim cs).head?, isBlank c = false := by
  intro c hc
  have hleft : (trimLeft cs).head? = some c := by
    rw [← trim_append, List.head?_append, hc]
    rfl
  have hnot := List.head?_dropWhile_not isBlank cs
  rwa [show cs.dropWhile isBlank = trimLeft cs from rfl, hleft] at hnot

/-- It ends with no blank. -/
theorem last_trim {cs : List Char} : ∀ c ∈ (trim cs).getLast?, isBlank c = false := by
  intro c hc
  rw [trim, trimRight, List.getLast?_reverse] at hc
  have hnot := List.head?_dropWhile_not isBlank (trimLeft cs).reverse
  rwa [hc] at hnot

end FormRules.Text
