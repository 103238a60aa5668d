import FormRules.Store.Order
import Mathlib.Data.List.Nodup
import Mathlib.Data.List.Perm.Basic
import Mathlib.Tactic.SplitIfs

/-!
# Lemmas on lists in order

Lists of the same items are put in the same order, if no two items have the same rank.
-/

namespace FormRules.Order
variable {α : Type} {le : α → α → Bool}

theorem insert_perm (a : α) (l : List α) : (insert le a l).Perm (a :: l) := by
  induction l with
  | nil => rfl
  | cons b l ih =>
    rw [insert]
    split_ifs
    · rfl
    · exact (ih.cons b).trans (.swap a b l)

theorem sort_perm (l : List α) : (sort le l).Perm l := by
  induction l with
  | nil => rfl
  | cons a l ih => exact (insert_perm a _).trans (ih.cons a)

variable {r : α → α → Prop}

theorem insert_pairwise (hle : ∀ a b, le a b = true → r a b) (hgt : ∀ a b, le a b = false → r b a)
    (htrans : ∀ a b c, r a b → r b c → r a c) {l : List α} (a : α) (h : l.Pairwise r) :
    (insert le a l).Pairwise r := by
  induction l with
  | nil => exact List.pairwise_singleton r a
  | cons b l ih =>
    obtain ⟨hb, hl⟩ := List.pairwise_cons.mp h
    rw [insert]
    split_ifs with hab
    · refine List.pairwise_cons.mpr ⟨fun c hc => ?_, h⟩
      rcases List.mem_cons.mp hc with rfl | hc
      · exact hle a c hab
      · exact htrans a b c (hle a b hab) (hb c hc)
    · refine List.pairwise_cons.mpr ⟨fun c hc => ?_, ih hl⟩
      rcases List.mem_cons.mp ((insert_perm a l).mem_iff.mp hc) with rfl | hc
      · exact hgt c b (Bool.eq_false_iff.mpr hab)
      · exact hb c hc

theorem sort_pairwise (hle : ∀ a b, le a b = true → r a b) (hgt : ∀ a b, le a b = false → r b a)
    (htrans : ∀ a b c, r a b → r b c → r a c) (l : List α) : (sort le l).Pairwise r := by
  induction l with
  | nil => exact List.Pairwise.nil
  | cons a l ih => exact insert_pairwise hle hgt htrans a ih

/-- Entries in the order of their names stand in one order only, if their names differ. -/
theorem sort_eq_of_perm {es fs : List (String × α)} (hp : es.Perm fs) (hn : (es.map (·.1)).Nodup) :
    sort (fun a b => !(b.1 < a.1)) es = sort (fun a b => !(b.1 < a.1)) fs := by
  have ordered (l : List (String × α)) : (sort (fun a b => !(b.1 < a.1)) l).Pairwise (·.1 ≤ ·.1) := by
    refine sort_pairwise (r := (·.1 ≤ ·.1)) (fun a b h => ?_) (fun a b h => ?_)
      (fun a b c hab hbc => String.le_trans hab hbc) l
    · exact String.not_lt.mp (by simpa using h)
    · rcases String.le_total b.1 a.1 with hba | hab
      · exact hba
      · exact absurd (by simpa using h : b.1 < a.1) (String.not_lt.mpr hab)
  refine List.Perm.eq_of_pairwise (fun a b ha hb hab hba => ?_) (ordered es) (ordered fs)
    ((sort_perm es).trans (hp.trans (sort_perm fs).symm))
  have ha' : a ∈ es := (sort_perm es).mem_iff.mp ha
  have hb' : b ∈ es := hp.mem_iff.mpr ((sort_perm fs).mem_iff.mp hb)
  exact List.inj_on_of_nodup_map hn ha' hb' (String.le_antisymm hab hba)

end FormRules.Order
