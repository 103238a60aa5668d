import FormRules.Proofs.Value.Equality
import FormRules.Value.Merge
import FormRules.Value.Path

/-!
# Laying a delta over a mapping

Under a key of the delta stands what the delta lays over the value that was there, and under any other key what was
there. So what the delta writes is found at its path, what it leaves out keeps its value, and laying the delta over
the result again changes nothing.
-/

namespace FormRules

/-- Whether a path leads through mappings of both values to a key that the second one does not have. -/
inductive Path.Leaves : List Key → Value → Value → Prop
  | here {k : Key} {p : List Key} {es us : Entries} (hk : Table.get? us k = none) : Leaves (k :: p) (.map es) (.map us)
  | inside {k : Key} {p : List Key} {es us : Entries} {v w : Value} (hv : Table.get? es k = some v)
    (hw : Table.get? us k = some w) (h : Leaves p v w) : Leaves (k :: p) (.map es) (.map us)

namespace Value
variable {es us : Entries} {k : Key} {p : List Key} {v w x : Value} {old : Option Value}

/-! ## One key -/

theorem get?_overlayEntries_of_none (h : Table.get? us k = none) :
    Table.get? (overlayEntries es us) k = Table.get? es k := by
  induction us generalizing es with
  | nil => rw [overlayEntries]
  | cons e us ih =>
    obtain ⟨j, w⟩ := e
    have hj : j ≠ k := by
      rintro rfl
      rw [Table.get?_cons_self] at h
      cases h
    rw [Table.get?_cons_of_ne hj] at h
    rw [overlayEntries, ih h, Table.get?_put_of_ne hj.symm]

theorem get?_overlayEntries_of_some (hn : (us.map (·.1)).Nodup) (h : Table.get? us k = some v) :
    Table.get? (overlayEntries es us) k = some (overlay (Table.get? es k) v) := by
  induction us generalizing es with
  | nil => cases h
  | cons e us ih =>
    obtain ⟨j, w⟩ := e
    obtain ⟨hj, hn⟩ := List.nodup_cons.mp hn
    rw [overlayEntries]
    by_cases hjk : j = k
    · subst hjk
      rw [Table.get?_cons_self] at h
      cases h
      rw [get?_overlayEntries_of_none (Table.get?_of_not_mem hj), Table.get?_put_self]
    · rw [Table.get?_cons_of_ne hjk] at h
      rw [ih hn h, Table.get?_put_of_ne (Ne.symm hjk)]

theorem overlay_of_isMap (h : v.isMap = false) : overlay old v = v := by
  cases v with
  | map us => cases h
  | _ =>
    rw [overlay]
    exact nofun

/-- A mapping is merged into a mapping, and takes the place of anything else. -/
theorem overlay_map_cases (old : Option Value) (us : Entries) :
    (∃ es, old = some (.map es) ∧ overlay old (.map us) = .map (overlayEntries es us)) ∨ overlay old (.map us) = .map us := by
  by_cases h : ∃ es, old = some (.map es)
  · obtain ⟨es, rfl⟩ := h
    exact .inl ⟨es, rfl, by rw [overlay]⟩
  · refine .inr ?_
    rw [overlay]
    exact fun es hes => h ⟨es, hes⟩

theorem overlay_none (v : Value) : overlay none v = v := by
  cases v with
  | map us => exact (overlay_map_cases none us).resolve_left nofun
  | _ => exact overlay_of_isMap rfl

/-! ## Merging again -/

/-- A delta changes nothing where every value of it is absorbed. -/
theorem overlayEntries_of_absorbed (h : ∀ e ∈ us, ∃ w, Table.get? es e.1 = some w ∧ overlay (some w) e.2 = w) :
    overlayEntries es us = es := by
  induction us with
  | nil => rw [overlayEntries]
  | cons e us ih =>
    obtain ⟨⟨w, hget, hw⟩, hus⟩ := List.forall_mem_cons.mp h
    rw [overlayEntries, hget, hw, Table.put_of_get? hget, ih hus]

/-- Entries whose values are absorbed once they have been laid over something. -/
theorem overlayEntries_overlayEntries (hn : (us.map (·.1)).Nodup)
    (h : ∀ e ∈ us, ∀ old, overlay (some (overlay old e.2)) e.2 = overlay old e.2) :
    overlayEntries (overlayEntries es us) us = overlayEntries es us :=
  overlayEntries_of_absorbed fun e he =>
    ⟨_, get?_overlayEntries_of_some hn (Table.get?_of_mem hn he), h e he _⟩

mutual

/-- What has been laid over something is absorbed. -/
theorem overlay_overlay (v : Value) (hd : v.hasDistinctKeys = true) (old : Option Value) :
    overlay (some (overlay old v)) v = overlay old v := by
  cases v with
  | map us =>
    rw [hasDistinctKeys, Bool.and_eq_true, decide_eq_true_iff] at hd
    have habsorbed := entries_overlay us hd.2
    rcases overlay_map_cases old us with ⟨es, -, heq⟩ | heq
    · rw [heq, overlay, overlayEntries_overlayEntries hd.1 habsorbed]
    · rw [heq, overlay, overlayEntries_of_absorbed fun e he => ⟨e.2, Table.get?_of_mem hd.1 he, ?_⟩]
      have hself := habsorbed e he none
      rwa [overlay_none] at hself
  | _ => rw [overlay_of_isMap rfl, overlay_of_isMap rfl]

theorem entries_overlay (us : Entries) (hd : entriesDistinctKeys us = true) :
    ∀ e ∈ us, ∀ old, overlay (some (overlay old e.2)) e.2 = overlay old e.2 := by
  cases us with
  | nil => exact nofun
  | cons e us =>
    obtain ⟨k, v⟩ := e
    rw [entriesDistinctKeys, Bool.and_eq_true] at hd
    exact List.forall_mem_cons.mpr ⟨overlay_overlay v hd.1, entries_overlay us hd.2⟩

end

/-! ## Paths -/

/-- A name is looked up as it stands. -/
theorem step?_map_of_name (h : k.isIndex = false) : (Value.map es).step? k = Table.get? es k := by
  rw [step?, if_neg (by rw [h]; exact Bool.false_ne_true)]
  cases Table.get? es k <;> rfl

/-- What a delta writes is found at its path. -/
theorem walk?_overlay (hp : ∀ k ∈ p, k.isIndex = false) (hd : v.hasDistinctKeys = true) (h : v.walk? p = some x)
    (hx : x.isMap = false) (old : Option Value) : (overlay old v).walk? p = some x := by
  induction p generalizing v old with
  | nil =>
    cases h
    rw [overlay_of_isMap hx, walk?]
  | cons k p ih =>
    cases v with
    | map us =>
      rcases overlay_map_cases old us with ⟨es, -, heq⟩ | heq
      · obtain ⟨hk, hp⟩ := List.forall_mem_cons.mp hp
        rw [hasDistinctKeys, Bool.and_eq_true, decide_eq_true_iff, entriesDistinctKeys_iff] at hd
        rw [walk?, step?_map_of_name hk] at h
        obtain ⟨c, hc, hwalk⟩ := Option.bind_eq_some_iff.mp h
        rw [heq, walk?, step?_map_of_name hk, get?_overlayEntries_of_some hd.1 hc]
        exact ih hp (hd.2 _ (Table.mem_of_get? hc)) hwalk _
      · rwa [heq]
    | _ => rwa [overlay_of_isMap rfl]

/-- What a delta leaves out keeps its value. -/
theorem walk?_overlay_of_leaves (hp : ∀ k ∈ p, k.isIndex = false) (hd : w.hasDistinctKeys = true)
    (h : Path.Leaves p v w) : (overlay (some v) w).walk? p = v.walk? p := by
  induction h with
  | here hk =>
    obtain ⟨hname, -⟩ := List.forall_mem_cons.mp hp
    rw [overlay, walk?, walk?, step?_map_of_name hname, step?_map_of_name hname, get?_overlayEntries_of_none hk]
  | inside hv hw _ ih =>
    obtain ⟨hname, hp⟩ := List.forall_mem_cons.mp hp
    rw [hasDistinctKeys, Bool.and_eq_true, decide_eq_true_iff, entriesDistinctKeys_iff] at hd
    rw [overlay, walk?, walk?, step?_map_of_name hname, step?_map_of_name hname, get?_overlayEntries_of_some hd.1 hw, hv,
      Option.bind_some, Option.bind_some]
    exact ih hp (hd.2 _ (Table.mem_of_get? hw))

theorem overlay_map_map : overlay (some (.map es)) (.map us) = .map (overlayEntries es us) := by rw [overlay]

theorem mergeDelta_map : (Value.map es).mergeDelta us = overlay (some (.map es)) (.map us) := by
  rw [mergeDelta, overlay_map_map]

/-- What is no mapping counts as an empty one. -/
theorem mergeDelta_cases (base : Value) (delta : Entries) :
    ∃ es, base.mergeDelta delta = overlay (some (.map es)) (.map delta) ∧ (base = .map es ∨ base.isMap = false) := by
  cases base with
  | map es => exact ⟨es, mergeDelta_map, .inl rfl⟩
  | _ => exact ⟨[], overlay_map_map.symm, .inr rfl⟩

/-- Laying a delta over a value a second time changes nothing. What the delta holds at a path, unless it is a mapping,
is found there, and where a path leaves the delta inside of the mappings of both, what was there before is found. -/
theorem mergeDelta_settles (base : Value) (delta : Entries) (hd : (Value.map delta).hasDistinctKeys = true) :
    (base.mergeDelta delta).mergeDelta delta = base.mergeDelta delta ∧
      ∀ p : List Key, (∀ k ∈ p, k.isIndex = false) →
        (∀ x, (Value.map delta).walk? p = some x → x.isMap = false → (base.mergeDelta delta).walk? p = some x) ∧
          (Path.Leaves p base (.map delta) → (base.mergeDelta delta).walk? p = base.walk? p) := by
  obtain ⟨es, hmerge, hbase⟩ := mergeDelta_cases base delta
  refine ⟨?_, fun p hp => ⟨fun x hx hmap => ?_, fun hleaves => ?_⟩⟩
  · rw [hmerge, overlay_map_map, mergeDelta_map, ← overlay_map_map]
    exact overlay_overlay (.map delta) hd _
  · rw [hmerge]
    exact walk?_overlay hp hd hx hmap _
  · rcases hbase with rfl | hbase
    · rw [mergeDelta_map]
      exact walk?_overlay_of_leaves hp hd hleaves
    · cases hleaves <;> cases hbase

/-- A mapping that holds a number. -/
def cell (n : Int) : Value := .map [(.name "a", int n)]

/-- The entries of a mapping with two names. -/
def pair (a b : Value) : Entries := [(.name "a", a), (.name "b", b)]

/-- A text where the delta has a mapping, and a mapping where the delta has an empty one. -/
theorem mergeDelta_settles_clash :
    (Value.map (pair (.text "x") (cell 1))).mergeDelta (pair (cell 3) (.map [])) = .map (pair (cell 3) (cell 1)) ∧
    (Value.map (pair (cell 3) (cell 1))).mergeDelta (pair (cell 3) (.map [])) = .map (pair (cell 3) (cell 1)) ∧
    (Value.map (pair (cell 3) (cell 1))).walk? [.name "a", .name "a"] = some (int 3) ∧
    (Value.map (pair (cell 3) (cell 1))).walk? [.name "b", .name "a"] = some (int 1) := by
  have hmerged : (Value.map (pair (.text "x") (cell 1))).mergeDelta (pair (cell 3) (.map [])) =
      .map (pair (cell 3) (cell 1)) := rfl
  obtain ⟨hagain, hpaths⟩ := mergeDelta_settles (.map (pair (.text "x") (cell 1))) (pair (cell 3) (.map []))
    (by decide +kernel)
  have hwritten := (hpaths [.name "a", .name "a"] (by simp [Key.isIndex])).1 (int 3) rfl rfl
  have hkept := (hpaths [.name "b", .name "a"] (by simp [Key.isIndex])).2 (.inside rfl rfl (.here rfl))
  rw [hmerged] at hagain hwritten hkept
  exact ⟨hmerged, hagain, hwritten, hkept⟩

end Value
end FormRules
