import FormRules.Proofs.Value.Equality
import FormRules.Proofs.Value.Rearranged

/-!
# Strict equality as an equality

Strict equality is symmetric and transitive, and what equals anything has no NaN among its values. Keys are another
matter: a NaN that is a key is found as the object it is, so that a mapping with such a key equals a copy that shares
the object, and no copy that has a NaN of its own. A value without any NaN equals its copies.
-/

namespace FormRules

theorem Number.eq_symm {a b : Number} (h : a.eq b = true) : b.eq a = true := by
  unfold Number.eq at *
  cases ha : a.standing <;> cases hb : b.standing <;> simp_all [Standing.eq]

theorem Number.eq_comm (a b : Number) : a.eq b = b.eq a := Bool.eq_iff_iff.mpr ⟨eq_symm, eq_symm⟩

theorem Number.not_isNaN_of_eq {a b : Number} (h : a.eq b = true) : a.isNaN = false := by
  by_contra hn
  rw [Number.eq, (isNaN_iff a).mp (Bool.eq_true_of_not_eq_false hn)] at h
  cases h

namespace Value
variable {a b c copy : Value} {r : Value → Value → Bool} {as bs : Entries} {is js : List Value}

/-! ## What passes from the parts to containers -/

theorem items_symm (ih : ∀ a ∈ is, ∀ b ∈ js, r a b = true → r b a = true)
    (h : List.Forall₂ (fun a b => r a b = true) is js) : List.Forall₂ (fun a b => r a b = true) js is := by
  induction h with
  | nil => exact .nil
  | cons hab _ ihs =>
    refine .cons (ih _ List.mem_cons_self _ List.mem_cons_self hab) (ihs fun a ha b hb => ?_)
    exact ih a (List.mem_cons_of_mem _ ha) b (List.mem_cons_of_mem _ hb)

theorem exists_of_items (h : List.Forall₂ (fun a b => r a b = true) is js) {a : Value} (ha : a ∈ is) :
    ∃ b ∈ js, r a b = true := by
  induction h with
  | nil => cases ha
  | cons hab _ ihs =>
    rcases List.mem_cons.mp ha with rfl | ha
    · exact ⟨_, List.mem_cons_self, hab⟩
    · obtain ⟨b, hb, hab⟩ := ihs ha
      exact ⟨b, List.mem_cons_of_mem _ hb, hab⟩

theorem forall_of_items {P : Value → Prop} (ih : ∀ a ∈ is, ∀ b, r a b = true → P a)
    (h : List.Forall₂ (fun a b => r a b = true) is js) : ∀ a ∈ is, P a := by
  intro a ha
  obtain ⟨b, -, hab⟩ := exists_of_items h ha
  exact ih a ha b hab

/-- Where every entry of the first has an equal one in the second, and the second has no other keys, every entry of the
second has an equal one in the first. -/
theorem entries_symm (hbs : (bs.map (·.1)).Nodup) (hkeys : bs.all (fun e => Table.has as e.1) = true)
    (ih : ∀ e ∈ as, ∀ f ∈ bs, r e.2 f.2 = true → r f.2 e.2 = true)
    (h : ∀ e ∈ as, ∃ b, Table.get? bs e.1 = some b ∧ r e.2 b = true) :
    ∀ f ∈ bs, ∃ a, Table.get? as f.1 = some a ∧ r f.2 a = true := by
  intro f hf
  obtain ⟨a, ha⟩ := Option.isSome_iff_exists.mp (List.all_eq_true.mp hkeys f hf)
  have hmem : (f.1, a) ∈ as := Table.mem_of_get? ha
  obtain ⟨b, hb, hab⟩ := h (f.1, a) hmem
  obtain rfl : f.2 = b := Option.some.inj ((Table.get?_of_mem hbs hf).symm.trans hb)
  exact ⟨a, ha, ih (f.1, a) hmem f hf hab⟩

theorem has_of_entries (h : ∀ e ∈ as, ∃ b, Table.get? bs e.1 = some b ∧ r e.2 b = true) :
    as.all (fun e => Table.has bs e.1) = true := by
  rw [List.all_eq_true]
  intro e he
  obtain ⟨b, hb, -⟩ := h e he
  exact Option.isSome_iff_exists.mpr ⟨b, hb⟩

/-! ## Symmetry -/

theorem strictEq_symm (hb : b.hasDistinctKeys = true) (h : a.strictEq b = true) : b.strictEq a = true := by
  induction a using induct generalizing b with
  | undefined | null | bool | text => cases b <;> simp_all [strictEq]
  | num n =>
    cases b <;> simp only [strictEq, Bool.false_eq_true] at h ⊢
    exact Number.eq_symm h
  | seq kind items ih =>
    cases b <;> simp only [strictEq, Bool.false_eq_true, strictEqItems_iff] at h ⊢
    rw [hasDistinctKeys, allDistinctKeys_iff] at hb
    exact items_symm (fun a ha b hmem => ih a ha (hb b hmem)) h
  | map es ih =>
    cases b <;> simp only [strictEq, Bool.false_eq_true, Bool.and_eq_true, strictEqEntries_iff] at h ⊢
    rw [hasDistinctKeys, Bool.and_eq_true, decide_eq_true_iff, entriesDistinctKeys_iff] at hb
    exact ⟨entries_symm hb.1 h.2 (fun e he f hf => ih e he (hb.2 f hf)) h.1, has_of_entries h.1⟩

theorem strictEq_comm (ha : a.hasDistinctKeys = true) (hb : b.hasDistinctKeys = true) : a.strictEq b = b.strictEq a :=
  Bool.eq_iff_iff.mpr ⟨strictEq_symm hb, strictEq_symm ha⟩

/-! ## NaN -/

theorem hasNaNItem_eq_false_iff : hasNaNItem is = false ↔ ∀ v ∈ is, v.hasNaN = false := by
  induction is with
  | nil => simp [hasNaNItem]
  | cons v is ih => simp [hasNaNItem, ih]

theorem hasNaNEntry_eq_false_iff : hasNaNEntry as = false ↔ ∀ e ∈ as, e.2.hasNaN = false := by
  induction as with
  | nil => simp [hasNaNEntry]
  | cons e as ih => simp [hasNaNEntry, ih]

/-- What equals anything has no NaN in it. -/
theorem hasNaN_of_strictEq (h : a.strictEq b = true) : a.hasNaN = false := by
  induction a using induct generalizing b with
  | undefined | null | bool | text => rfl
  | num n =>
    cases b <;> simp only [strictEq, Bool.false_eq_true] at h
    exact Number.not_isNaN_of_eq h
  | seq kind items ih =>
    cases b <;> simp only [strictEq, Bool.false_eq_true, strictEqItems_iff] at h
    rw [hasNaN, hasNaNItem_eq_false_iff]
    exact forall_of_items (fun v hv w => ih v hv) h
  | map es ih =>
    cases b <;> simp only [strictEq, Bool.false_eq_true, Bool.and_eq_true, strictEqEntries_iff] at h
    rw [hasNaN, hasNaNEntry_eq_false_iff]
    intro e he
    obtain ⟨w, -, hew⟩ := h.1 e he
    exact ih e he hew

/-! ## Copies -/

/-- The entries of a mapping in another order. -/
theorem rearranged_of_perm (h : as.Perm bs) (has : (as.map (·.1)).Nodup) : Rearranged (.map as) (.map bs) := by
  have hkeys : (as.map (·.1)).Perm (bs.map (·.1)) := h.map _
  have hbs : (bs.map (·.1)).Nodup := hkeys.nodup_iff.mp has
  refine .map has hbs (fun k => ?_) fun k a b ha hb => ?_
  · rw [Bool.eq_iff_iff, Table.has_iff_mem, Table.has_iff_mem, hkeys.mem_iff]
  · have hmem : (k, b) ∈ as := h.mem_iff.mpr (Table.mem_of_get? hb)
    obtain rfl : a = b := Option.some.inj (ha.symm.trans (Table.get?_of_mem has hmem))
    exact .same a

end Value

theorem eq_of_zip {α : Type} {as bs : List α} (hlength : as.length = bs.length)
    (h : ∀ a b, (a, b) ∈ as.zip bs → a = b) : as = bs := by
  have heq : List.Forall₂ (· = ·) as bs := List.forall₂_iff_zip.mpr ⟨hlength, fun hmem => h _ _ hmem⟩
  rwa [List.forall₂_eq_eq_eq] at heq

namespace Key
variable {fresh : Nat → Prop} {k l : Key}

mutual

/-- The objects of the NaNs in a key. -/
def nanObjects : Key → List Nat
  | .nan i => [i]
  | .tuple items => nanObjectsOfItems items
  | .name _ | .index _ | .float _ _ | .null | .undefined => []

def nanObjectsOfItems : List Key → List Nat
  | [] => []
  | k :: ks => nanObjects k ++ nanObjectsOfItems ks

end

/-- Two keys that differ in the objects of their NaNs only, those of the second being fresh where they differ. -/
inductive Renewed (fresh : Nat → Prop) : Key → Key → Prop
  | same (k : Key) : Renewed fresh k k
  | nan (i : Nat) {j : Nat} (h : fresh j) : Renewed fresh (.nan i) (.nan j)
  | tuple {ks ls : List Key} (hlength : ks.length = ls.length)
      (h : ∀ k l, (k, l) ∈ ks.zip ls → Renewed fresh k l) : Renewed fresh (.tuple ks) (.tuple ls)

theorem nanObjectsOfItems_eq (ks : List Key) : nanObjectsOfItems ks = ks.flatMap nanObjects := by
  induction ks with
  | nil => rfl
  | cons k ks ih => rw [nanObjectsOfItems, ih, List.flatMap_cons]

/-- Nothing is fresh where there is no NaN before or no fresh one after. -/
theorem Renewed.eq (h : Renewed fresh k l) (hl : ∀ i ∈ k.nanObjects, ∀ j ∈ l.nanObjects, ¬ fresh j) : k = l := by
  induction h with
  | same k => rfl
  | @nan i j h => exact absurd h (hl i List.mem_cons_self j List.mem_cons_self)
  | @tuple ks ls hlength h ih =>
    rw [nanObjects, nanObjects, nanObjectsOfItems_eq, nanObjectsOfItems_eq] at hl
    refine congrArg Key.tuple (eq_of_zip hlength fun k l hmem => ih k l hmem fun i hi j hj => ?_)
    obtain ⟨hk, hl'⟩ := List.of_mem_zip hmem
    exact hl i (List.mem_flatMap_of_mem hk hi) j (List.mem_flatMap_of_mem hl' hj)

end Key

namespace Value
variable {a b c u v w : Value} {as bs : Entries} {is : List Value} {fresh : Nat → Prop}

mutual

/-- The objects of the NaNs that are keys inside a value. -/
def nanKeys : Value → List Nat
  | .seq _ items => nanKeysOfItems items
  | .map es => nanKeysOfEntries es
  | .undefined | .null | .bool _ | .num _ | .text _ => []

def nanKeysOfItems : List Value → List Nat
  | [] => []
  | v :: vs => nanKeys v ++ nanKeysOfItems vs

def nanKeysOfEntries : List (Key × Value) → List Nat
  | [] => []
  | (k, v) :: es => k.nanObjects ++ nanKeys v ++ nanKeysOfEntries es

end

/-- Two values that differ in the objects of the NaNs among their keys only. -/
inductive Renewed (fresh : Nat → Prop) : Value → Value → Prop
  | same (v : Value) : Renewed fresh v v
  | seq {kind : SeqKind} {vs ws : List Value} (hlength : vs.length = ws.length)
      (h : ∀ v w, (v, w) ∈ vs.zip ws → Renewed fresh v w) : Renewed fresh (.seq kind vs) (.seq kind ws)
  | map {es fs : Entries} (hlength : es.length = fs.length)
      (hkeys : ∀ e f, (e, f) ∈ es.zip fs → e.1.Renewed fresh f.1)
      (h : ∀ e f, (e, f) ∈ es.zip fs → Renewed fresh e.2 f.2) : Renewed fresh (.map es) (.map fs)

/-- A copy that has been built apart: the entries of mappings may stand in another order, and a NaN that is a key is the
same object, or one that is no key of the value. -/
def IsCopy (v w : Value) : Prop := ∃ u, Rearranged v u ∧ Renewed (· ∉ v.nanKeys) u w

theorem nanKeysOfItems_eq (is : List Value) : nanKeysOfItems is = is.flatMap nanKeys := by
  induction is with
  | nil => rfl
  | cons v is ih => rw [nanKeysOfItems, ih, List.flatMap_cons]

theorem nanKeysOfEntries_eq (as : Entries) :
    nanKeysOfEntries as = as.flatMap fun e => e.1.nanObjects ++ e.2.nanKeys := by
  induction as with
  | nil => rfl
  | cons e as ih => rw [nanKeysOfEntries, ih, List.flatMap_cons]

theorem mem_nanKeys_seq {kind : SeqKind} {i : Nat} : i ∈ (Value.seq kind is).nanKeys ↔ ∃ v ∈ is, i ∈ v.nanKeys := by
  rw [nanKeys, nanKeysOfItems_eq, List.mem_flatMap]

theorem mem_nanKeys_map {i : Nat} :
    i ∈ (Value.map as).nanKeys ↔ ∃ e ∈ as, i ∈ e.1.nanObjects ∨ i ∈ e.2.nanKeys := by
  simp only [nanKeys, nanKeysOfEntries_eq, List.mem_flatMap, List.mem_append]

theorem Renewed.eq (h : Renewed fresh v w) (hw : ∀ i ∈ v.nanKeys, ∀ j ∈ w.nanKeys, ¬ fresh j) : v = w := by
  induction h with
  | same v => rfl
  | @seq kind vs ws hlength h ih =>
    refine congrArg (Value.seq kind) (eq_of_zip hlength fun v w hmem => ih v w hmem fun i hi j hj => ?_)
    obtain ⟨hv, hw'⟩ := List.of_mem_zip hmem
    exact hw i (mem_nanKeys_seq.mpr ⟨v, hv, hi⟩) j (mem_nanKeys_seq.mpr ⟨w, hw', hj⟩)
  | @map es fs hlength hkeys h ih =>
    refine congrArg Value.map (eq_of_zip hlength fun e f hmem => ?_)
    obtain ⟨he, hf⟩ := List.of_mem_zip hmem
    refine Prod.ext ((hkeys e f hmem).eq fun i hi j hj => ?_) (ih e f hmem fun i hi j hj => ?_)
    · exact hw i (mem_nanKeys_map.mpr ⟨e, he, .inl hi⟩) j (mem_nanKeys_map.mpr ⟨f, hf, .inl hj⟩)
    · exact hw i (mem_nanKeys_map.mpr ⟨e, he, .inr hi⟩) j (mem_nanKeys_map.mpr ⟨f, hf, .inr hj⟩)

theorem Rearranged.nanKeys_subset (h : Rearranged v w) : w.nanKeys ⊆ v.nanKeys := by
  induction h with
  | same v => exact List.Subset.refl _
  | @seq kind vs ws hlength h ih =>
    intro i hi
    obtain ⟨w, hw, hi⟩ := mem_nanKeys_seq.mp hi
    rw [← List.map_snd_zip hlength.ge] at hw
    obtain ⟨⟨v, w⟩, hmem, rfl⟩ := List.mem_map.mp hw
    exact mem_nanKeys_seq.mpr ⟨v, (List.of_mem_zip hmem).1, ih v w hmem hi⟩
  | @map as bs has hbs hkeys h ih =>
    intro i hi
    obtain ⟨f, hf, hi⟩ := mem_nanKeys_map.mp hi
    have hb : Table.get? bs f.1 = some f.2 := Table.get?_of_mem hbs hf
    obtain ⟨a, ha⟩ := Option.isSome_iff_exists.mp ((hkeys f.1).trans (has_of_mem hf))
    exact mem_nanKeys_map.mpr ⟨(f.1, a), Table.mem_of_get? ha, hi.imp_right fun hi => ih f.1 a f.2 ha hb hi⟩

/-- What is equal has the same NaNs for keys. -/
theorem nanKeys_subset_of_strictEq (h : a.strictEq b = true) : a.nanKeys ⊆ b.nanKeys := by
  induction a using induct generalizing b with
  | undefined | null | bool | num | text => exact List.nil_subset _
  | seq kind items ih =>
    cases b <;> simp only [strictEq, Bool.false_eq_true, strictEqItems_iff] at h
    intro i hi
    obtain ⟨v, hv, hi⟩ := mem_nanKeys_seq.mp hi
    obtain ⟨w, hw, hvw⟩ := exists_of_items h hv
    exact mem_nanKeys_seq.mpr ⟨w, hw, ih v hv hvw hi⟩
  | map es ih =>
    cases b <;> simp only [strictEq, Bool.false_eq_true, Bool.and_eq_true, strictEqEntries_iff] at h
    intro i hi
    obtain ⟨e, he, hi⟩ := mem_nanKeys_map.mp hi
    obtain ⟨w, hw, hew⟩ := h.1 e he
    exact mem_nanKeys_map.mpr ⟨(e.1, w), Table.mem_of_get? hw, hi.imp_right fun hi => ih e he hew hi⟩

/-- A copy without new NaNs among its keys is the value with its entries in another order. -/
theorem IsCopy.rearranged (h : IsCopy a b) (hab : a.nanKeys = [] ∨ b.nanKeys ⊆ a.nanKeys) : Rearranged a b := by
  obtain ⟨u, hu, hb⟩ := h
  refine hb.eq (fun i hi j hj => ?_) ▸ hu
  rcases hab with ha | hab
  · have hmem : i ∈ a.nanKeys := hu.nanKeys_subset hi
    rw [ha] at hmem
    cases hmem
  · exact not_not_intro (hab hj)

theorem strictEq_of_rearranged (h : Rearranged a b) (ha : a.hasDistinctKeys = true) (hn : a.hasNaN = false) :
    a.strictEq b = true :=
  (h.strictEq_right a).symm.trans (strictEq_self a hn ha)

/-- Strict equality is a partial equivalence. A value without NaNs among its keys equals a copy if and only if there is
no NaN among its values; any value, if and only if moreover the copy has no other NaNs among its keys. -/
theorem strictEq_partial_equivalence (ha : a.hasDistinctKeys = true) (hb : b.hasDistinctKeys = true) :
    a.strictEq b = b.strictEq a ∧ (a.strictEq b = true → b.strictEq c = true → a.strictEq c = true) ∧
      (IsCopy a b → (a.nanKeys = [] → (a.strictEq b = true ↔ a.hasNaN = false)) ∧
        (a.strictEq b = true ↔ a.hasNaN = false ∧ b.nanKeys ⊆ a.nanKeys)) := by
  refine ⟨strictEq_comm ha hb, strictEq_trans, fun hcopy => ⟨fun hkeys => ?_, ?_⟩⟩
  · exact ⟨hasNaN_of_strictEq, strictEq_of_rearranged (hcopy.rearranged (.inl hkeys)) ha⟩
  · constructor
    · exact fun h => ⟨hasNaN_of_strictEq h, nanKeys_subset_of_strictEq (strictEq_symm hb h)⟩
    · exact fun ⟨hvalues, hkeys⟩ => strictEq_of_rearranged (hcopy.rearranged (.inr hkeys)) ha hvalues

/-- A mapping with an integer and a list equals the one with the binary64 number and the tuple of the same content, and
its own copy; with a NaN in the list, it would not equal its copy. A mapping with a NaN for key equals a copy that shares
the NaN, and does not equal one with another NaN. -/
theorem strictEq_partial_equivalence_reordered :
    let entries (last : Value) : Entries := [(.name "total", .int 0), (.index 1, .list [.text "x", last])]
    let a : Value := .map (entries .null)
    let b : Value := .map [(.index 1, .seq .tuple [.text "x", .null]), (.name "total", .num (.float .zero))]
    let keyed (object : Nat) : Value := .map [(.nan object, .int 1)]
    a.strictEq b = true ∧ b.strictEq a = true ∧ a.strictEq (.map (entries .null).reverse) = true ∧
      (Value.map (entries (.num .nan))).strictEq (.map (entries (.num .nan)).reverse) = false ∧
      (keyed 1).strictEq (keyed 1) = true ∧ (keyed 1).strictEq (keyed 2) = false := by
  intro entries a b keyed
  have hab : a.strictEq b = true := by decide +kernel
  have ha : a.hasDistinctKeys = true := by decide +kernel
  have hb : b.hasDistinctKeys = true := by decide +kernel
  have hcopy (v : Value) : IsCopy (.map (entries v)) (.map (entries v).reverse) := by
    have hkeys : ((entries v).map (·.1)).Nodup := show [Key.name "total", .index 1].Nodup by decide
    exact ⟨_, rearranged_of_perm (List.reverse_perm _).symm hkeys, .same _⟩
  have hother : IsCopy (keyed 1) (keyed 2) := by
    refine ⟨_, .same _, .map rfl (fun e f hmem => ?_) fun e f hmem => ?_⟩
    · cases List.mem_singleton.mp hmem
      exact .nan 1 (by decide)
    · cases List.mem_singleton.mp hmem
      exact .same _
  obtain ⟨hsymm, -, -⟩ := strictEq_partial_equivalence (c := a) ha hb
  obtain ⟨-, -, hself⟩ := strictEq_partial_equivalence (b := .map (entries .null).reverse) (c := a) ha rfl
  obtain ⟨-, -, hnan⟩ := strictEq_partial_equivalence (a := .map (entries (.num .nan)))
    (b := .map (entries (.num .nan)).reverse) (c := a) rfl rfl
  obtain ⟨-, -, hshared⟩ := strictEq_partial_equivalence (a := keyed 1) (b := keyed 1) (c := a) rfl rfl
  obtain ⟨-, -, hapart⟩ := strictEq_partial_equivalence (a := keyed 1) (b := keyed 2) (c := a) rfl rfl
  refine ⟨hab, hsymm ▸ hab, ((hself (hcopy .null)).1 rfl).mpr (by decide +kernel), ?_, ?_, ?_⟩
  · exact Bool.eq_false_iff.mpr fun h => absurd (((hnan (hcopy _)).1 rfl).mp h) (by decide +kernel)
  · exact (hshared ⟨_, .same _, .same _⟩).2.mpr ⟨rfl, List.Subset.refl _⟩
  · exact Bool.eq_false_iff.mpr fun h => absurd ((hapart hother).2.mp h).2 (by decide)

end Value
end FormRules
