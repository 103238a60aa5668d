import FormRules.Store.Table
import Mathlib.Tactic.SplitIfs

/-!
# Lemmas on tables

Writing a key changes what is found under that key only, and every entry of the written table is the
written one or was there before.
-/

namespace FormRules.Table
variable {κ α : Type} [DecidableEq κ] {t : List (κ × α)} {j k : κ} {v w : α}

@[simp] theorem get?_nil : get? ([] : List (κ × α)) k = none := rfl

theorem get?_cons_self : get? ((k, v) :: t) k = some v := by simp [get?]

theorem get?_cons_of_ne (h : j ≠ k) : get? ((j, w) :: t) k = get? t k := by simp [get?, h]

@[simp] theorem get?_put_self : get? (put t k v) k = some v := by
  induction t with
  | nil => exact get?_cons_self
  | cons e t ih =>
    obtain ⟨j, w⟩ := e
    rw [put]
    split_ifs with h
    · exact get?_cons_self
    · rw [get?_cons_of_ne h, ih]

theorem get?_put_of_ne (h : j ≠ k) : get? (put t k v) j = get? t j := by
  induction t with
  | nil => exact get?_cons_of_ne (Ne.symm h)
  | cons e t ih =>
    obtain ⟨i, w⟩ := e
    rw [put]
    split_ifs with hi
    · subst hi
      rw [get?_cons_of_ne (Ne.symm h), get?_cons_of_ne (Ne.symm h)]
    · by_cases hj : i = j
      · subst hj
        rw [get?_cons_self, get?_cons_self]
      · rw [get?_cons_of_ne hj, get?_cons_of_ne hj, ih]

/-- Writing what is there already changes nothing. -/
theorem put_of_get? (h : get? t k = some v) : put t k v = t := by
  induction t with
  | nil => cases h
  | cons e t ih =>
    obtain ⟨j, w⟩ := e
    rw [put]
    split_ifs with hj
    · subst hj
      rw [get?_cons_self] at h
      rw [Option.some.inj h]
    · rw [get?_cons_of_ne hj] at h
      rw [ih h]

theorem has_put_of_has (h : has t j = true) : has (put t k v) j = true := by
  unfold has at *
  by_cases hj : j = k
  · rw [hj, get?_put_self]; rfl
  · rw [get?_put_of_ne hj]; exact h

theorem has_put_iff : has (put t k v) j = true ↔ j = k ∨ has t j = true := by
  unfold has
  by_cases hj : j = k
  · rw [hj, get?_put_self]
    simp
  · rw [get?_put_of_ne hj]
    simp [hj]

/-- A new key goes to the end. -/
theorem put_of_not_has (h : has t k = false) : put t k v = t ++ [(k, v)] := by
  induction t with
  | nil => rfl
  | cons e t ih =>
    obtain ⟨j, w⟩ := e
    by_cases hj : j = k
    · rw [has, hj, get?_cons_self] at h
      cases h
    · rw [has, get?_cons_of_ne hj] at h
      rw [put, if_neg hj, ih h, List.cons_append]

theorem of_get?_put (h : get? (put t k v) j = some w) : j = k ∧ v = w ∨ get? t j = some w := by
  by_cases hj : j = k
  · subst hj
    rw [get?_put_self] at h
    exact .inl ⟨rfl, Option.some.inj h⟩
  · rw [get?_put_of_ne hj] at h
    exact .inr h

theorem mem_of_get? (h : get? t k = some v) : (k, v) ∈ t := by
  obtain ⟨e, he, rfl⟩ := Option.map_eq_some_iff.mp h
  have hk : e.1 = k := by simpa using List.find?_some he
  rw [← hk]
  exact List.mem_of_find?_eq_some he

theorem has_iff_mem : has t k = true ↔ k ∈ t.map (·.1) := by
  refine ⟨fun h => ?_, fun h => ?_⟩
  · obtain ⟨v, hv⟩ := Option.isSome_iff_exists.mp h
    exact List.mem_map.mpr ⟨(k, v), mem_of_get? hv, rfl⟩
  · obtain ⟨e, he, rfl⟩ := List.mem_map.mp h
    unfold has get?
    rw [Option.isSome_map, List.find?_isSome]
    exact ⟨e, he, by simp⟩

theorem get?_of_not_mem (h : k ∉ t.map (·.1)) : get? t k = none := by
  cases hv : get? t k with
  | none => rfl
  | some v => exact absurd (List.mem_map.mpr ⟨(k, v), mem_of_get? hv, rfl⟩) h

theorem get?_of_mem (hn : (t.map (·.1)).Nodup) (h : (k, v) ∈ t) : get? t k = some v := by
  induction t with
  | nil => cases h
  | cons e t ih =>
    obtain ⟨hne, hn⟩ := List.nodup_cons.mp hn
    rcases List.mem_cons.mp h with rfl | h
    · exact get?_cons_self
    · have hk : e.1 ≠ k := fun he => hne (List.mem_map.mpr ⟨(k, v), h, he.symm⟩)
      rw [show get? (e :: t) k = get? t k from get?_cons_of_ne hk, ih hn h]

theorem map_fst_put (h : has t k = true) : (put t k v).map (·.1) = t.map (·.1) := by
  induction t with
  | nil => cases h
  | cons e t ih =>
    obtain ⟨j, w⟩ := e
    rw [put]
    split_ifs with hj
    · rw [hj]
      rfl
    · rw [List.map_cons, List.map_cons, ih]
      rwa [has, get?_cons_of_ne hj] at h

theorem of_mem_put {e : κ × α} (h : e ∈ put t k v) : e = (k, v) ∨ e ∈ t := by
  induction t with
  | nil => exact .inl (List.mem_singleton.mp h)
  | cons f t ih =>
    rw [put] at h
    split_ifs at h
    · exact (List.mem_cons.mp h).imp_right (List.mem_cons_of_mem f)
    · rcases List.mem_cons.mp h with rfl | h
      · exact .inr List.mem_cons_self
      · exact (ih h).imp_right (List.mem_cons_of_mem f)

/-- Writing a key makes no second entry of a key. -/
theorem nodup_put (h : (t.map (·.1)).Nodup) : ((put t k v).map (·.1)).Nodup := by
  induction t with
  | nil => exact List.nodup_cons.mpr ⟨List.not_mem_nil, List.nodup_nil⟩
  | cons f t ih =>
    obtain ⟨hf, ht⟩ := List.nodup_cons.mp h
    rw [put]
    split_ifs with hk
    · rw [← hk]
      exact h
    · refine List.nodup_cons.mpr ⟨fun hmem => ?_, ih ht⟩
      obtain ⟨e, he, hef⟩ := List.mem_map.mp hmem
      rcases of_mem_put he with rfl | he
      · exact hk hef.symm
      · exact hf (List.mem_map.mpr ⟨e, he, hef⟩)

theorem mem_of_mem_erase {e : κ × α} (h : e ∈ erase t k) : e ∈ t := (List.mem_filter.mp h).1

theorem ne_of_mem_erase {e : κ × α} (h : e ∈ erase t k) : e.1 ≠ k := by simpa using (List.mem_filter.mp h).2

theorem length_erase_le : (erase t k).length ≤ t.length := List.length_filter_le _ _

theorem nodup_erase (h : (t.map (·.1)).Nodup) : ((erase t k).map (·.1)).Nodup :=
  (List.filter_sublist.map _).nodup h

theorem erase_append_cons {u : List (κ × α)} (h : j ≠ k) :
    erase (t ++ (j, v) :: u) k = erase t k ++ (j, v) :: erase u k := by
  simp [erase, h]

end FormRules.Table
