import FormRules.Proofs.Value.Equality
import FormRules.Proofs.Value.Exchange
import FormRules.Proofs.Value.Place
import FormRules.Proofs.Value.Transitivity

/-!
# Values with rearranged entries

Two values that differ in the order of the entries of mappings only cannot be told apart: they have the same text and
number and equal the same values. Strict equality does not tell more, except where a number or a sequence is written in
another way: `1` and `1.0` are strictly equal, and so are a list and a tuple of the same items.

Whether two values differ elsewhere than at a place is told by overwriting the place in both. That tells the truth if
the way to the place is the same in both (`SharePlace`): otherwise what is made up on it hides what was there before.
-/

namespace FormRules

namespace Value

/-- Two values that differ in the order of the entries of mappings only. -/
inductive Rearranged : Value → Value → Prop
  | same (v : Value) : Rearranged v v
  | seq {kind : SeqKind} {as bs : List Value} (hlength : as.length = bs.length)
      (h : ∀ a b, (a, b) ∈ as.zip bs → Rearranged a b) : Rearranged (.seq kind as) (.seq kind bs)
  | map {as bs : Entries} (has : (as.map (·.1)).Nodup) (hbs : (bs.map (·.1)).Nodup)
      (hkeys : ∀ k, Table.has as k = Table.has bs k)
      (h : ∀ k a b, Table.get? as k = some a → Table.get? bs k = some b → Rearranged a b) :
      Rearranged (.map as) (.map bs)

/-- Two values that are strictly equal although more than the order of entries differs. -/
def Rewritten (v w : Value) : Prop := v.strictEq w = true ∧ ¬ Rearranged v w

variable {v w v' w' a b c x : Value} {as bs : Entries} {vs ws : List Value} {j k : SeqKind} {key next : Key} {p : List Key}
  {s : String} {n : Int}

namespace Rearranged

theorem rel_cases {x y : Option Value} (h : Option.Rel Rearranged x y) :
    x = none ∧ y = none ∨ ∃ a b, x = some a ∧ y = some b ∧ Rearranged a b := by
  cases h with
  | none => exact .inl ⟨rfl, rfl⟩
  | some h => exact .inr ⟨_, _, rfl, rfl, h⟩

theorem of_items (h : List.Forall₂ Rearranged vs ws) : Rearranged (.seq k vs) (.seq k ws) :=
  .seq h.length_eq fun _ _ hmem => List.forall₂_zip h hmem

theorem same_items (vs : List Value) : List.Forall₂ Rearranged vs vs := List.forall₂_same.mpr fun v _ => .same v

theorem itemwise (hlength : vs.length = ws.length) (h : ∀ a b, (a, b) ∈ vs.zip ws → Rearranged a b) :
    List.Forall₂ Rearranged vs ws := List.forall₂_iff_zip.mpr ⟨hlength, fun hmem => h _ _ hmem⟩

theorem items (h : Rearranged (.seq j vs) (.seq k ws)) : List.Forall₂ Rearranged vs ws := by
  cases h with
  | same => exact same_items vs
  | seq hlength h => exact itemwise hlength h

theorem of_entries (has : (as.map (·.1)).Nodup) (hbs : (bs.map (·.1)).Nodup)
    (h : ∀ k, Option.Rel Rearranged (Table.get? as k) (Table.get? bs k)) : Rearranged (.map as) (.map bs) := by
  refine .map has hbs (fun k => ?_) fun k a b ha hb => ?_
  · rcases rel_cases (h k) with ⟨ha, hb⟩ | ⟨a, b, ha, hb, -⟩
    · rw [Table.has, Table.has, ha, hb]
    · rw [Table.has, Table.has, ha, hb]
      rfl
  · rcases rel_cases (h k) with ⟨ha', -⟩ | ⟨a', b', ha', hb', hab⟩
    · cases ha.symm.trans ha'
    · cases ha.symm.trans ha'
      cases hb.symm.trans hb'
      exact hab

theorem entries (h : Rearranged (.map as) (.map bs)) (key : Key) :
    Option.Rel Rearranged (Table.get? as key) (Table.get? bs key) := by
  cases h with
  | same =>
    cases Table.get? as key with
    | none => exact .none
    | some a => exact .some (.same a)
  | map _ _ hkeys h =>
    have hk := hkeys key
    unfold Table.has at hk
    cases ha : Table.get? as key with
    | none =>
      cases hb : Table.get? bs key with
      | none => exact .none
      | some b => simp [ha, hb] at hk
    | some a =>
      cases hb : Table.get? bs key with
      | none => simp [ha, hb] at hk
      | some b => exact .some (h key a b ha hb)

theorem getD {x y : Option Value} (h : Option.Rel Rearranged x y) (d : Value) : Rearranged (x.getD d) (y.getD d) := by
  cases h with
  | none => exact .same d
  | some h => exact h

end Rearranged

/-- Entries of the same keys in the same order, with values that are the same. -/
def Aligned {κ : Type} (as bs : List (κ × Value)) : Prop :=
  List.Forall₂ (fun a b => a.1 = b.1 ∧ Rearranged a.2 b.2) as bs

namespace Aligned
variable {κ : Type} {es gs : List (κ × Value)}

theorem refl (es : List (κ × Value)) : Aligned es es := List.forall₂_same.mpr fun _ _ => ⟨rfl, .same _⟩

theorem keys_eq (h : Aligned es gs) : es.map (·.1) = gs.map (·.1) := by
  induction h with
  | nil => rfl
  | cons hab _ ih => rw [List.map_cons, List.map_cons, hab.1, ih]

theorem get? [DecidableEq κ] (h : Aligned es gs) (k : κ) :
    Option.Rel Rearranged (Table.get? es k) (Table.get? gs k) := by
  induction h with
  | nil => exact .none
  | @cons a b es gs hab _ ih =>
    obtain ⟨i, v⟩ := a
    obtain ⟨j, w⟩ := b
    obtain ⟨rfl, hvw⟩ : i = j ∧ Rearranged v w := hab
    by_cases hi : i = k
    · subst hi
      rw [Table.get?_cons_self, Table.get?_cons_self]
      exact .some hvw
    · rw [Table.get?_cons_of_ne hi, Table.get?_cons_of_ne hi]
      exact ih

theorem lookup {es gs : List (String × Value)} (h : Aligned es gs) (name : String) :
    Option.Rel Rearranged (es.lookup name) (gs.lookup name) := by
  induction h with
  | nil => exact .none
  | @cons a b es gs hab _ ih =>
    rw [List.lookup_cons, List.lookup_cons, hab.1]
    cases name == b.1 with
    | true => exact .some hab.2
    | false => exact ih

end Aligned

namespace Rearranged

theorem of_aligned (h : Aligned as bs) (has : (as.map (·.1)).Nodup) : Rearranged (.map as) (.map bs) :=
  .of_entries has (h.keys_eq ▸ has) h.get?

theorem object_of_aligned {fields gs : List (String × Value)} (h : Aligned fields gs)
    (hfields : (fields.map (·.1)).Nodup) : Rearranged (.object fields) (.object gs) := by
  have hentries : Aligned (fields.map fun f => (Key.name f.1, f.2)) (gs.map fun f => (Key.name f.1, f.2)) :=
    List.rel_map (fun _ _ hab => ⟨congrArg Key.name hab.1, hab.2⟩) h
  refine of_aligned hentries ?_
  have hkeys : (fields.map fun f => (Key.name f.1, f.2)).map (·.1) = (fields.map (·.1)).map Key.name := by
    rw [List.map_map, List.map_map]
    rfl
  rw [hkeys]
  exact hfields.map fun _ _ => Key.name.inj

/-! ## What cannot be told apart -/

theorem isNullish_eq (h : Rearranged v w) : v.isNullish = w.isNullish := by cases h <;> rfl

theorem isUndefined_eq (h : Rearranged v w) : v.isUndefined = w.isUndefined := by cases h <;> rfl

theorem truthy_eq (h : Rearranged v w) : v.truthy = w.truthy := by cases h <;> rfl

theorem typeName_eq (h : Rearranged v w) : v.typeName = w.typeName := by cases h <;> rfl

theorem itemTexts_eq (h : List.Forall₂ (fun a b : Value => a.isNullish = b.isNullish ∧ a.toText = b.toText) vs ws) :
    itemTexts vs = itemTexts ws := by
  induction h with
  | nil => rfl
  | cons hab _ ih => rw [itemTexts, itemTexts, hab.1, hab.2, ih]

theorem toText_eq (h : Rearranged v w) : v.toText = w.toText := by
  induction h with
  | same v => rfl
  | seq hlength h ih =>
    have htexts := itemTexts_eq (List.forall₂_iff_zip.mpr ⟨hlength, fun hmem => ⟨(h _ _ hmem).isNullish_eq, ih _ _ hmem⟩⟩)
    rw [toText, toText, htexts]
  | map => rfl

theorem toNumber_eq (h : Rearranged v w) : v.toNumber = w.toNumber := by
  cases h with
  | same => rfl
  | map => rfl
  | seq hlength h =>
    cases itemwise hlength h with
    | nil => rfl
    | cons hab hrest =>
      cases hrest with
      | nil => rw [toNumber, toNumber, hab.isNullish_eq, hab.toText_eq]
      | cons => rfl

end Rearranged

/-! ### Strict equality -/

theorem has_of_mem {e : Key × Value} (h : e ∈ as) : Table.has as e.1 = true := by
  rw [Table.has, Table.get?, Option.isSome_map, List.find?_isSome]
  exact ⟨e, h, decide_eq_true rfl⟩

theorem all_has_iff : as.all (fun e => Table.has bs e.1) = true ↔
    ∀ key, Table.has as key = true → Table.has bs key = true := by
  rw [List.all_eq_true]
  constructor
  · intro h key hkey
    obtain ⟨a, ha⟩ := Option.isSome_iff_exists.mp hkey
    exact h (key, a) (Table.mem_of_get? ha)
  · exact fun h e he => h e.1 (has_of_mem he)

/-- Without two entries of one key it is the found entries that count. -/
theorem strictEqEntries_iff_get? (has : (as.map (·.1)).Nodup) : strictEqEntries as bs = true ↔
    ∀ key a, Table.get? as key = some a → ∃ b, Table.get? bs key = some b ∧ a.strictEq b = true := by
  rw [strictEqEntries_iff]
  constructor
  · exact fun h key a ha => h (key, a) (Table.mem_of_get? ha)
  · exact fun h e he => h e.1 e.2 (Table.get?_of_mem has he)

theorem strictEqItems_congr_left (h : List.Forall₂ (fun a b : Value => ∀ v, a.strictEq v = b.strictEq v) vs ws)
    (us : List Value) : strictEqItems vs us = strictEqItems ws us := by
  induction h generalizing us with
  | nil => rfl
  | cons hab _ ih =>
    cases us with
    | nil => rfl
    | cons u us => rw [strictEqItems, strictEqItems, hab, ih]

theorem strictEqItems_congr_right (h : List.Forall₂ (fun a b => ∀ v : Value, v.strictEq a = v.strictEq b) vs ws)
    (us : List Value) : strictEqItems us vs = strictEqItems us ws := by
  induction h generalizing us with
  | nil => rfl
  | cons hab _ ih =>
    cases us with
    | nil => rfl
    | cons u us => rw [strictEqItems, strictEqItems, hab, ih]

namespace Rearranged

theorem strictEq_left (h : Rearranged v v') (w : Value) : v.strictEq w = v'.strictEq w := by
  induction h generalizing w with
  | same v => rfl
  | seq hlength h ih =>
    cases w with
    | seq k us =>
      rw [strictEq, strictEq]
      exact strictEqItems_congr_left (List.forall₂_iff_zip.mpr ⟨hlength, fun hmem => ih _ _ hmem⟩) us
    | _ => rfl
  | @map as bs has hbs hkeys h ih =>
    cases w with
    | map cs =>
      have hrel := (Rearranged.map has hbs hkeys h).entries
      rw [strictEq, strictEq, Bool.eq_iff_iff, Bool.and_eq_true, Bool.and_eq_true, strictEqEntries_iff_get? has,
        strictEqEntries_iff_get? hbs]
      simp only [hkeys]
      refine and_congr_left fun _ => forall_congr' fun key => ?_
      rcases rel_cases (hrel key) with ⟨ha, hb⟩ | ⟨a, b, ha, hb, -⟩
      · simp [ha, hb]
      · simp [ha, hb, ih key a b ha hb]
    | _ => rfl

theorem strictEq_right (h : Rearranged w w') (v : Value) : v.strictEq w = v.strictEq w' := by
  induction h generalizing v with
  | same w => rfl
  | seq hlength h ih =>
    cases v with
    | seq k us =>
      rw [strictEq, strictEq]
      exact strictEqItems_congr_right (List.forall₂_iff_zip.mpr ⟨hlength, fun hmem => ih _ _ hmem⟩) us
    | _ => rfl
  | @map as bs has hbs hkeys h ih =>
    cases v with
    | map cs =>
      have hrel := (Rearranged.map has hbs hkeys h).entries
      rw [strictEq, strictEq, Bool.eq_iff_iff, Bool.and_eq_true, Bool.and_eq_true, strictEqEntries_iff,
        strictEqEntries_iff, all_has_iff, all_has_iff]
      simp only [hkeys]
      refine and_congr_left fun _ => forall₂_congr fun e _ => ?_
      rcases rel_cases (hrel e.1) with ⟨ha, hb⟩ | ⟨a, b, ha, hb, -⟩
      · simp [ha, hb]
      · simp [ha, hb, ih e.1 a b ha hb]
    | _ => rfl

theorem strictEq_eq (hv : Rearranged v v') (hw : Rearranged w w') : v.strictEq w = v'.strictEq w' :=
  (hv.strictEq_left w).trans (hw.strictEq_right v')

theorem looseEq_left (h : Rearranged v v') (w : Value) : v.looseEq w = v'.looseEq w := by
  have htext := h.toText_eq
  have heq := h.strictEq_left
  cases h with
  | same => rfl
  | seq => cases w <;> simp [looseEq, unbool, isNullish, int, htext, heq]
  | map => cases w <;> simp [looseEq, unbool, isNullish, int, htext, heq]

theorem looseEq_right (h : Rearranged w w') (v : Value) : v.looseEq w = v.looseEq w' := by
  have heq := h.strictEq_right
  cases h with
  | same => rfl
  | seq => cases v <;> simp [looseEq, unbool, isNullish, int, heq]
  | map => cases v <;> simp [looseEq, unbool, isNullish, int, heq]

theorem looseEq_eq (hv : Rearranged v v') (hw : Rearranged w w') : v.looseEq w = v'.looseEq w' :=
  (hv.looseEq_left w).trans (hw.looseEq_right v')

end Rearranged

/-! ### Places -/

namespace Rearranged

theorem item? (h : List.Forall₂ Rearranged vs ws) (n : Int) :
    Option.Rel Rearranged (Value.item? vs n) (Value.item? ws n) := by
  have get (i : Nat) : Option.Rel Rearranged vs[i]? ws[i]? := by
    induction h generalizing i with
    | nil => exact .none
    | cons hab _ ih =>
      cases i with
      | zero => exact .some hab
      | succ i => exact ih i
  unfold Value.item?
  split
  · exact .none
  · exact get _

theorem step? (h : Rearranged v w) (k : Key) : Option.Rel Rearranged (v.step? k) (w.step? k) := by
  have same (v : Value) : Option.Rel Rearranged (v.step? k) (v.step? k) := by
    cases v.step? k with
    | none => exact .none
    | some a => exact .some (.same a)
  cases h with
  | same => exact same v
  | seq hlength h =>
    have hitems := itemwise hlength h
    cases k with
    | index n => exact item? hitems n
    | name s =>
      show Option.Rel Rearranged ((Numeral.readInt? s.toList).bind _) ((Numeral.readInt? s.toList).bind _)
      cases Numeral.readInt? s.toList with
      | none => exact .none
      | some n => exact item? hitems n
    | _ => exact .none
  | @map as bs has hbs hkeys h =>
    have hentries := (Rearranged.map has hbs hkeys h).entries
    have hread : readKey as k = readKey bs k := by rw [readKey, readKey, hkeys]
    rw [step?_map, step?_map, hread]
    exact hentries _

theorem walk? (h : Rearranged v w) (p : List Key) : Option.Rel Rearranged (v.walk? p) (w.walk? p) := by
  induction p generalizing v w with
  | nil => exact .some h
  | cons k p ih =>
    rw [Value.walk?, Value.walk?]
    rcases rel_cases (h.step? k) with ⟨hv, hw⟩ | ⟨a, b, hv, hw, hab⟩
    · rw [hv, hw]
      exact .none
    · rw [hv, hw]
      exact ih hab

theorem getPath (h : Rearranged v w) (p : List Key) : Rearranged (v.getPath p) (w.getPath p) := by
  unfold Value.getPath
  split
  · exact .same _
  · exact getD (h.walk? p) _

end Rearranged

end Value

/-! ## Values that are the same but for one place -/

namespace Value
open Rearranged

variable {v w v' w' c d x y z : Value} {es : Entries} {items : List Value} {p : List Key} {s : String} {n : Int}

/-- Two values with a place on the same way through mappings and lists, up to where both lack an entry or are the same. -/
inductive SharePlace : List Key → Value → Value → Prop
  | same {p : List Key} {v w : Value} (h : Rearranged v w) : SharePlace p v w
  | absent {s : String} {p : List Key} {es gs : Entries} (hv : Table.get? es (.name s) = none)
      (hw : Table.get? gs (.name s) = none) : SharePlace (.name s :: p) (.map es) (.map gs)
  | entry {s : String} {p : List Key} {es gs : Entries} {c d : Value} (hc : Table.get? es (.name s) = some c)
      (hd : Table.get? gs (.name s) = some d) (h : SharePlace p c d) : SharePlace (.name s :: p) (.map es) (.map gs)
  | item {n : Int} {p : List Key} {vs ws : List Value} {c d : Value} (hc : item? vs n = some c) (hd : item? ws n = some d)
      (h : SharePlace p c d) : SharePlace (.index n :: p) (.seq .list vs) (.seq .list ws)

theorem setPath_entry : setPath (.map es) (.name s :: p) x =
    (writeRest ((Table.get? es (.name s)).getD .undefined) p x).map fun y => .map (Table.put es (.name s) y) := by
  have hkey : writeKey es (.name s) = .name s := by simp [writeKey, Key.isIndex]
  rw [setPath_map, hkey]

theorem setPath_item (h : item? items n = some c) : setPath (.seq .list items) (.index n :: p) x =
    (writeRest c p x).map fun y => .list (items.set n.toNat y) := by
  obtain ⟨hn, hc, h0⟩ := of_item? h
  have hpad : padTo items n = items := by
    rw [padTo, show (n + 1).toNat - items.length = 0 by omega, List.replicate_zero, List.append_nil]
  have hneg : ¬ n < 0 := by omega
  have hreplace (y : Value) : replaceItem items n y = .ok (items.set n.toNat y) := by
    unfold replaceItem
    rw [if_neg hneg]
    exact if_neg (by omega)
  have hwrite : setPath (.seq .list items) (.index n :: p) x =
      (writeRest c p x >>= fun y => replaceItem items n y >>= fun l => pure (.list l)) := by
    unfold setPath
    dsimp only
    rw [hpad, if_neg hneg, h]
    cases p <;> rfl
  rw [hwrite]
  cases writeRest c p x with
  | error e => rfl
  | ok y =>
    show (replaceItem items n y >>= fun l => pure (list l)) = _
    rw [hreplace]
    rfl

/-- Below a key, too, values are the same if they are with the place overwritten. -/
theorem SharePlace.deeper (h : SharePlace p c d) (hy : writeRest c p x = .ok y) (hz : writeRest d p x = .ok z)
    (hcd : c.setPath p x = .ok y → d.setPath p x = .ok z → Rearranged c d) : Rearranged c d := by
  cases h with
  | same h => exact h
  | absent => exact hcd hy hz
  | entry => exact hcd hy hz
  | item => exact hcd hy hz

/-- Values that are the same with a place overwritten are the same if they share the place. -/
theorem SharePlace.rearranged (h : SharePlace p v w) (hdv : v.hasDistinctKeys = true) (hdw : w.hasDistinctKeys = true)
    (hv : v.setPath p x = .ok v') (hw : w.setPath p x = .ok w') (hrest : Rearranged v' w') : Rearranged v w := by
  induction h generalizing v' w' with
  | same h => exact h
  | @absent s p es gs hes hgs =>
    rw [setPath_entry] at hv hw
    obtain ⟨y, -, rfl⟩ := of_map_ok hv
    obtain ⟨z, -, rfl⟩ := of_map_ok hw
    simp only [hasDistinctKeys, Bool.and_eq_true, decide_eq_true_eq] at hdv hdw
    refine .of_entries hdv.1 hdw.1 fun key => ?_
    by_cases hs : key = .name s
    · rw [hs, hes, hgs]
      exact .none
    · have hkey := hrest.entries key
      rwa [Table.get?_put_of_ne hs, Table.get?_put_of_ne hs] at hkey
  | @entry s p es gs c d hc hd h ih =>
    rw [setPath_entry, hc] at hv
    rw [setPath_entry, hd] at hw
    obtain ⟨y, hy, rfl⟩ := of_map_ok hv
    obtain ⟨z, hz, rfl⟩ := of_map_ok hw
    simp only [hasDistinctKeys, Bool.and_eq_true, decide_eq_true_eq, entriesDistinctKeys_iff] at hdv hdw
    refine .of_entries hdv.1 hdw.1 fun key => ?_
    have hkey := hrest.entries key
    by_cases hs : key = .name s
    · subst hs
      rw [Table.get?_put_self, Table.get?_put_self] at hkey
      obtain ⟨hyz⟩ : Option.Rel Rearranged (some y) (some z) := hkey
      rw [hc, hd]
      exact .some (h.deeper hy hz fun hy hz =>
        ih (hdv.2 _ (Table.mem_of_get? hc)) (hdw.2 _ (Table.mem_of_get? hd)) hy hz hyz)
    · rwa [Table.get?_put_of_ne hs, Table.get?_put_of_ne hs] at hkey
  | @item n p vs ws c d hc hd h ih =>
    rw [setPath_item hc] at hv
    rw [setPath_item hd] at hw
    obtain ⟨y, hy, rfl⟩ := of_map_ok hv
    obtain ⟨z, hz, rfl⟩ := of_map_ok hw
    simp only [hasDistinctKeys, allDistinctKeys_iff] at hdv hdw
    obtain ⟨hn, rfl, -⟩ := of_item? hc
    obtain ⟨hn', rfl, -⟩ := of_item? hd
    obtain ⟨hlength, hitems⟩ := List.forall₂_iff_get.mp hrest.items
    rw [List.length_set, List.length_set] at hlength
    refine .of_items (List.forall₂_iff_get.mpr ⟨hlength, fun i hi hi' => ?_⟩)
    have hitem := hitems i (by rwa [List.length_set]) (by rwa [List.length_set])
    simp only [List.get_eq_getElem, List.getElem_set] at hitem ⊢
    by_cases hin : n.toNat = i
    · subst hin
      rw [if_pos rfl, if_pos rfl] at hitem
      exact h.deeper hy hz fun hy hz => ih (hdv _ (List.getElem_mem hn)) (hdw _ (List.getElem_mem hn')) hy hz hitem
    · rwa [if_neg hin, if_neg hin] at hitem

end Value
end FormRules
