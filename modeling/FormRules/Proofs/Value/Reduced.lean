import FormRules.Proofs.Value.Rearranged

/-!
# Data in which nothing is written in two ways

Whole numbers are integers, sequences are lists, and no mapping has two entries of one key, which reading and writing at
a path keeps. In such data strict equality leaves nothing open but the order of entries.
-/

namespace FormRules

namespace Number
variable {m n : Number}

/-- Whether the number is an integer if it is whole. -/
def isReduced : Number → Bool
  | .int _ => true
  | .float x => x.toInt?.isNone

theorem eq_of_isReduced (hm : m.isReduced = true) (hn : n.isReduced = true) (h : m.eq n = true) : m = n := by
  have hstanding : m.standing = n.standing := (standing_eq_iff m n).mpr (Bool.or_eq_true_iff.mpr (.inl h))
  have not_whole {x : Binary64} (hx : (Number.float x).isReduced = true) (i : Int) :
      (Number.float x).standing ≠ .units (i * oneUnits) := fun hi => by
    rw [isReduced, toInt?_of_standing (n := i) hi.symm] at hx
    cases hx
  cases m with
  | float x => exact eq_of_standing hstanding (not_whole hm)
  | int i =>
    cases n with
    | int j => rw [int_of_standing hstanding]
    | float y => exact absurd hstanding.symm (not_whole hn i)

end Number

namespace Value
open Rearranged

variable {v w x y : Value} {as es : Entries} {vs : List Value} {k : Key} {p : List Key} {n : Int}

mutual

/-- Whether whole numbers are integers, sequences are lists, and no mapping has two entries of one key. -/
def isReduced : Value → Bool
  | .num n => n.isReduced
  | .seq kind items => kind = .list && allReduced items
  | .map es => (es.map (·.1)).Nodup && entriesReduced es
  | .undefined | .null | .bool _ | .text _ => true

/-- Whether this holds of all items. -/
def allReduced : List Value → Bool
  | [] => true
  | v :: vs => isReduced v && allReduced vs

/-- Whether this holds of the values of all entries. -/
def entriesReduced : List (Key × Value) → Bool
  | [] => true
  | (_, v) :: es => isReduced v && entriesReduced es

end

theorem allReduced_iff : allReduced vs = true ↔ ∀ v ∈ vs, v.isReduced = true := by
  induction vs with
  | nil => simp [allReduced]
  | cons v vs ih => simp [allReduced, ih]

theorem entriesReduced_iff : entriesReduced as = true ↔ ∀ e ∈ as, e.2.isReduced = true := by
  induction as with
  | nil => simp [entriesReduced]
  | cons e as ih => simp [entriesReduced, ih]

/-- In such data strict equality leaves nothing open but the order of entries. -/
theorem rearranged_of_strictEq (v : Value) : ∀ w : Value, v.isReduced = true → w.isReduced = true →
    v.strictEq w = true → Rearranged v w := by
  induction v using induct with
  | undefined | null =>
    intro w _ _ h
    cases w <;> first | exact .same _ | (simp [strictEq] at h)
  | bool a | text a =>
    intro w _ _ h
    cases w <;> simp [strictEq] at h
    subst h
    exact .same _
  | num m =>
    intro w hv hw h
    cases w <;> simp [strictEq] at h
    rw [Number.eq_of_isReduced hv hw h]
    exact .same _
  | seq k vs ih =>
    intro w hv hw h
    cases w <;> simp only [strictEq, Bool.false_eq_true] at h
    next k' ws =>
      simp only [isReduced, Bool.and_eq_true, decide_eq_true_eq, allReduced_iff] at hv hw
      obtain ⟨rfl, hvs⟩ := hv
      obtain ⟨rfl, hws⟩ := hw
      have hitems := strictEqItems_iff.mp h
      refine .seq hitems.length_eq fun a b hmem => ?_
      obtain ⟨ha, hb⟩ := List.of_mem_zip hmem
      exact ih a ha b (hvs a ha) (hws b hb) (List.forall₂_zip hitems hmem)
  | map as ih =>
    intro w hv hw h
    cases w <;> simp only [strictEq, Bool.false_eq_true] at h
    next bs =>
      simp only [isReduced, Bool.and_eq_true, decide_eq_true_eq, entriesReduced_iff] at hv hw h
      obtain ⟨hentries, hhas⟩ := h
      rw [strictEqEntries_iff_get? hv.1] at hentries
      refine .map hv.1 hw.1 (fun k => ?_) fun k a b ha hb => ?_
      · rw [Bool.eq_iff_iff]
        refine ⟨fun hk => ?_, all_has_iff.mp hhas k⟩
        obtain ⟨a, ha⟩ := Option.isSome_iff_exists.mp hk
        obtain ⟨b, hb, -⟩ := hentries k a ha
        exact Option.isSome_iff_exists.mpr ⟨b, hb⟩
      · obtain ⟨b', hb', heq⟩ := hentries k a ha
        cases hb.symm.trans hb'
        have hma := Table.mem_of_get? ha
        exact ih (k, a) hma b (hv.2 _ hma) (hw.2 _ (Table.mem_of_get? hb)) heq

theorem not_rewritten (hv : v.isReduced = true) (hw : w.isReduced = true) : ¬ Rewritten v w :=
  fun h => h.2 (rearranged_of_strictEq v w hv hw h.1)

/-! ## Paths -/

theorem isReduced_map : (Value.map es).isReduced = true ↔ (es.map (·.1)).Nodup ∧ ∀ e ∈ es, e.2.isReduced = true := by
  rw [isReduced, Bool.and_eq_true, decide_eq_true_eq, entriesReduced_iff]

theorem isReduced_list : (list vs).isReduced = true ↔ ∀ v ∈ vs, v.isReduced = true := by
  rw [list, isReduced, allReduced_iff.symm, Bool.and_eq_true, decide_eq_true_eq, eq_self, true_and]

theorem isReduced_item? (h : ∀ v ∈ vs, v.isReduced = true) (hx : item? vs n = some x) : x.isReduced = true := by
  obtain ⟨hn, rfl, -⟩ := of_item? hx
  exact h _ (List.getElem_mem hn)

theorem isReduced_get? (h : (Value.map es).isReduced = true) (hx : Table.get? es k = some x) : x.isReduced = true :=
  (isReduced_map.mp h).2 _ (Table.mem_of_get? hx)

theorem isReduced_step? (hv : v.isReduced = true) (hx : v.step? k = some x) : x.isReduced = true := by
  cases v with
  | map es =>
    rw [step?_map] at hx
    exact isReduced_get? hv hx
  | seq kind vs =>
    simp only [isReduced, Bool.and_eq_true, allReduced_iff] at hv
    cases k with
    | index n => exact isReduced_item? hv.2 hx
    | name s =>
      obtain ⟨n, -, hx⟩ := Option.bind_eq_some_iff.mp hx
      exact isReduced_item? hv.2 hx
    | _ => cases hx
  | _ => cases hx

theorem isReduced_walk? (hv : v.isReduced = true) (hx : v.walk? p = some x) : x.isReduced = true := by
  induction p generalizing v with
  | nil =>
    cases hx
    exact hv
  | cons k p ih =>
    obtain ⟨y, hy, hx⟩ := Option.bind_eq_some_iff.mp hx
    exact ih (isReduced_step? hv hy) hx

/-- What is read from such data is such data. -/
theorem isReduced_getPath (hv : v.isReduced = true) (p : List Key) : (v.getPath p).isReduced = true := by
  unfold getPath
  split
  · rfl
  · cases hx : v.walk? p with
    | none => rfl
    | some x => exact isReduced_walk? hv hx

theorem isReduced_childFor (hv : v.isReduced = true) (k : Key) : (childFor v k).isReduced = true := by
  unfold childFor
  split
  · exact hv
  · exact hv
  · cases k <;> rfl

theorem isReduced_padTo (h : ∀ v ∈ vs, v.isReduced = true) (n : Int) : ∀ v ∈ padTo vs n, v.isReduced = true := by
  intro v hv
  rcases List.mem_append.mp hv with hv | hv
  · exact h v hv
  · rw [List.eq_of_mem_replicate hv]
    rfl

/-- A write that succeeds does so in the container that it puts in the place of anything else. -/
theorem setPath_childFor_of_ok (h : v.setPath (k :: p) x = .ok w) : (childFor v k).setPath (k :: p) x = .ok w := by
  by_cases hk : ∀ n, k = .index n → 0 ≤ n
  · rwa [setPath_childFor hk]
  · obtain ⟨n, rfl, hn⟩ : ∃ n, k = .index n ∧ n < 0 := by simpa using hk
    -- no list that is made up has an item at a negative position
    have hlist {written : Except PathFault Value} : (written >>= fun y =>
        replaceItem (List.replicate (n + 1).toNat .null) n y >>= fun l => pure (list l)) ≠ .ok w := by
      intro h
      obtain ⟨y, -, h⟩ := of_bind_ok h
      obtain ⟨l, hl, -⟩ := of_bind_ok h
      have hlength : (n + 1).toNat = 0 := by omega
      rw [hlength, replaceItem, if_pos hn, if_pos (.inl (by simpa using hn))] at hl
      cases hl
    cases v with
    | map es => exact h
    | seq kind vs =>
      cases kind with
      | list => exact h
      | tuple => exact absurd h hlist
    | _ => exact absurd h hlist

/-- Such data written into such data gives such data. -/
theorem isReduced_setPath (hv : v.isReduced = true) (hx : x.isReduced = true) (h : v.setPath p x = .ok w) :
    w.isReduced = true := by
  induction p generalizing v w with
  | nil =>
    cases h
    exact hx
  | cons k p ih =>
    have hrest {c y : Value} (hc : c.isReduced = true) (h : writeRest c p x = .ok y) : y.isReduced = true := by
      cases p with
      | nil => exact ih hc h
      | cons next p => exact ih (isReduced_childFor hc next) h
    have hchild := isReduced_childFor hv k
    replace h := setPath_childFor_of_ok h
    rcases childFor_cases v k with ⟨es, hes⟩ | ⟨vs, hvs⟩
    · rw [hes] at h hchild
      rw [setPath_map] at h
      obtain ⟨y, hy, rfl⟩ := of_map_ok h
      have hy : y.isReduced = true := by
        refine hrest ?_ hy
        cases hc : Table.get? es (writeKey es k) with
        | none => rfl
        | some c => exact isReduced_get? hchild hc
      obtain ⟨hnodup, hes⟩ := isReduced_map.mp hchild
      refine isReduced_map.mpr ⟨Table.nodup_put hnodup, fun e he => ?_⟩
      rcases Table.of_mem_put he with rfl | he
      · exact hy
      · exact hes e he
    · rw [hvs] at h hchild
      obtain ⟨n, i, hi, y, -, -, hy, rfl⟩ := setPath_list h
      have hitems := isReduced_padTo (isReduced_list.mp hchild) n
      refine isReduced_list.mpr fun c hc => ?_
      rcases List.mem_or_eq_of_mem_set hc with hc | rfl
      · exact hitems c hc
      · exact hrest (hitems _ (List.getElem_mem hi)) hy

end Value
end FormRules
