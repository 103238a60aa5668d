import FormRules.Proofs.Number.Canonical
import FormRules.Proofs.Value.Equality
import Mathlib.Data.List.Forall2

/-!
# Transitivity of equality

Strict equality and the equality by which a change is told are transitive on all values, with NaN and with
mappings that have two entries of one key. Neither is reflexive on them.
-/

namespace FormRules

theorem Number.eq_trans {a b c : Number} (h : a.eq b = true) (h' : b.eq c = true) : a.eq c = true := by
  unfold Number.eq at *
  cases ha : a.standing <;> cases hb : b.standing <;> cases hc : c.standing <;>
    simp_all [Standing.eq]

namespace Value
variable {r : Value → Value → Bool} {as bs cs : Entries} {is js ks : List Value}

theorem strictEqItems_iff : strictEqItems is js = true ↔ List.Forall₂ (fun a b => a.strictEq b = true) is js := by
  induction is generalizing js with
  | nil => cases js <;> simp [strictEqItems, List.forall₂_nil_left_iff]
  | cons i is ih => cases js <;> simp [strictEqItems, ih, List.forall₂_nil_right_iff]

theorem sameItems_iff : sameItems is js = true ↔ List.Forall₂ (fun a b => a.sameContent b = true) is js := by
  induction is generalizing js with
  | nil => cases js <;> simp [sameItems, List.forall₂_nil_left_iff]
  | cons i is ih => cases js <;> simp [sameItems, ih, List.forall₂_nil_right_iff]

theorem strictEqEntries_iff : strictEqEntries as bs = true ↔
    ∀ e ∈ as, ∃ b, Table.get? bs e.1 = some b ∧ e.2.strictEq b = true := by
  induction as with
  | nil => simp [strictEqEntries]
  | cons e as ih =>
    rw [strictEqEntries, Bool.and_eq_true, ih, List.forall_mem_cons]
    cases Table.get? bs e.1 <;> simp

theorem sameEntries_iff : sameEntries as bs = true ↔
    ∀ e ∈ as, ∃ b, Table.get? bs e.1 = some b ∧ e.2.sameContent b = true := by
  induction as with
  | nil => simp [sameEntries]
  | cons e as ih =>
    rw [sameEntries, Bool.and_eq_true, ih, List.forall_mem_cons]
    cases Table.get? bs e.1 <;> simp

/-! ## What passes from the parts to containers -/

theorem items_trans (ih : ∀ a ∈ is, ∀ b c, r a b = true → r b c = true → r a c = true)
    (h : List.Forall₂ (fun a b => r a b = true) is js) (h' : List.Forall₂ (fun a b => r a b = true) js ks) :
    List.Forall₂ (fun a b => r a b = true) is ks := by
  induction h generalizing ks with
  | nil => exact h'
  | cons hab _ ihs =>
    obtain ⟨hbc, htail⟩ | ⟨hbc, htail⟩ := h'
    rw [List.forall_mem_cons] at ih
    exact .cons (ih.1 _ _ hab hbc) (ihs ih.2 htail)

theorem entries_trans (ih : ∀ e ∈ as, ∀ b c, r e.2 b = true → r b c = true → r e.2 c = true)
    (h : ∀ e ∈ as, ∃ b, Table.get? bs e.1 = some b ∧ r e.2 b = true)
    (h' : ∀ e ∈ bs, ∃ c, Table.get? cs e.1 = some c ∧ r e.2 c = true) :
    ∀ e ∈ as, ∃ c, Table.get? cs e.1 = some c ∧ r e.2 c = true := by
  intro e he
  obtain ⟨b, hb, hab⟩ := h e he
  obtain ⟨c, hc, hbc⟩ := h' (e.1, b) (Table.mem_of_get? hb)
  exact ⟨c, hc, ih e he b c hab hbc⟩

theorem has_trans (h : bs.all (fun e => Table.has as e.1) = true) (h' : cs.all (fun e => Table.has bs e.1) = true) :
    cs.all (fun e => Table.has as e.1) = true := by
  rw [List.all_eq_true] at *
  intro e he
  obtain ⟨b, hb⟩ := Option.isSome_iff_exists.mp (h' e he)
  exact h (e.1, b) (Table.mem_of_get? hb)

/-! ## Transitivity -/

theorem strictEq_trans {a b c : Value} (h : a.strictEq b = true) (h' : b.strictEq c = true) : a.strictEq c = true := by
  induction a using induct generalizing b c with
  | undefined | null | bool | text => cases b <;> cases c <;> simp_all [strictEq]
  | num n =>
    cases b <;> cases c <;> simp only [strictEq, Bool.false_eq_true] at h h' ⊢
    exact Number.eq_trans h h'
  | seq kind items ih =>
    cases b <;> cases c <;> simp only [strictEq, Bool.false_eq_true, strictEqItems_iff] at h h' ⊢
    exact items_trans (fun a ha b c => ih a ha) h h'
  | map es ih =>
    cases b <;> cases c <;> simp only [strictEq, Bool.false_eq_true, Bool.and_eq_true, strictEqEntries_iff] at h h' ⊢
    exact ⟨entries_trans (fun e he b c => ih e he) h.1 h'.1, has_trans h.2 h'.2⟩

/-- Booleans and numbers have the same content as what stands at the same place. -/
theorem sameContent_iff_of_number {a b : Value} {m : Number} (ha : a.asNumber? = some m) :
    a.sameContent b = true ↔ ∃ n, b.asNumber? = some n ∧ m.standing = n.standing := by
  cases a with
  | bool x =>
    cases ha
    cases hb : b.asNumber? with
    | none => simp [sameContent, hb]
    | some n => simp [sameContent, hb, Number.standing_eq_iff, Number.isNaN]
  | num x =>
    cases ha
    cases hb : b.asNumber? with
    | none => simp [sameContent, hb]
    | some n => simp [sameContent, hb, Number.standing_eq_iff]
  | _ => cases ha

theorem sameContent_trans_of_number {a b c : Value} {m : Number} (ha : a.asNumber? = some m)
    (h : a.sameContent b = true) (h' : b.sameContent c = true) : a.sameContent c = true := by
  obtain ⟨n, hb, hmn⟩ := (sameContent_iff_of_number ha).mp h
  obtain ⟨k, hc, hnk⟩ := (sameContent_iff_of_number hb).mp h'
  exact (sameContent_iff_of_number ha).mpr ⟨k, hc, hmn.trans hnk⟩

theorem sameContent_trans {a b c : Value} (h : a.sameContent b = true) (h' : b.sameContent c = true) :
    a.sameContent c = true := by
  induction a using induct generalizing b c with
  | undefined | null | text => cases b <;> cases c <;> simp_all [sameContent]
  | bool | num => exact sameContent_trans_of_number rfl h h'
  | seq kind items ih =>
    cases b <;> cases c <;> simp only [sameContent, Bool.false_eq_true, Bool.and_eq_true, decide_eq_true_eq,
      sameItems_iff] at h h' ⊢
    exact ⟨h.1.trans h'.1, items_trans (fun a ha b c => ih a ha) h.2 h'.2⟩
  | map es ih =>
    cases b <;> cases c <;> simp only [sameContent, Bool.false_eq_true, Bool.and_eq_true, decide_eq_true_eq,
      sameEntries_iff] at h h' ⊢
    exact ⟨h.1.trans h'.1, entries_trans (fun e he b c => ih e he) h.2 h'.2⟩

theorem unchanged_of_asNumber?_none {a b : Value} (ha : a.asNumber? = none) :
    a.unchanged b = (b.asNumber?.isNone && a.sameContent b) := by
  cases a with
  | bool x => cases ha
  | num x => cases ha
  | _ => cases b <;> rfl

/-- What changes nothing twice changes nothing. -/
theorem unchanged_trans {a b c : Value} (h : a.unchanged b = true) (h' : b.unchanged c = true) :
    a.unchanged c = true := by
  cases ha : a.asNumber? with
  | none =>
    rw [unchanged_of_asNumber?_none ha, Bool.and_eq_true, Option.isNone_iff_eq_none] at h ⊢
    rw [unchanged_of_asNumber?_none h.1, Bool.and_eq_true, Option.isNone_iff_eq_none] at h'
    exact ⟨h'.1, sameContent_trans h.2 h'.2⟩
  | some m =>
    cases a with
    | bool x => cases b <;> cases c <;> simp_all [unchanged]
    | num x =>
      obtain ⟨y, rfl⟩ : ∃ y, b = .num y := by cases x <;> cases b <;> simp_all [unchanged]
      obtain ⟨z, rfl⟩ : ∃ z, c = .num z := by cases y <;> cases c <;> simp_all [unchanged]
      cases x <;> cases y <;> cases z <;> simp only [unchanged, decide_eq_true_eq, Bool.false_eq_true] at h h' ⊢
      · exact h.trans h'
      · exact Number.eq_trans h h'
    | _ => cases ha

end Value
end FormRules
