import FormRules.Proofs.Results
import FormRules.Proofs.Store.Table
import FormRules.Value.Merge
import FormRules.Value.Path

/-!
# Places inside a value

What is written at a path is found there again, and stays there while other places are written. Both
hold of a path that leads through lists and mappings only (`seat?`), which it does once it has been
written. The one exception is an index of a mapping that is `undefined` beside an entry under the text
of the index: it is read under the index, but written under the text (`isHidden`).
-/

namespace FormRules

/-- Whether two keys may lead to the same place: an index and its text may, and so may two indices of
which one counts from the end. -/
def Key.meets (a b : Key) : Bool :=
  a.text = b.text || match a, b with
    | .index m, .index n => m < 0 || n < 0
    | _, _ => false

namespace Path

/-- Whether two paths may lead to the same place, or one of them to a place inside that of the other. -/
def overlap : List Key → List Key → Bool
  | a :: p, b :: q => a.meets b && overlap p q
  | _, _ => true

/-- Whether a path of names leads to a place that a delta does not reach. -/
def Escapes : List Key → Entries → Prop
  | .name s :: p, us => ∀ e ∈ us, e.1.text = s → ∃ vs, e = (.name s, .map vs) ∧ Escapes p vs
  | _, _ => False

end Path

namespace Value
variable {es fs us : Entries} {items : List Value} {k a b : Key} {p q : List Key} {v w x c new : Value}
  {n : Int}

/-- Whether a mapping has an index that is `undefined` beside an entry under the text of the index. -/
def isHidden (es : Entries) (k : Key) : Bool :=
  k.isIndex && (Table.get? es k).any isUndefined && Table.has es (.name k.text)

/-- Whether a path leads through an index that is written under another key than it is read. -/
def hides : Value → List Key → Bool
  | .map es, k :: p => isHidden es k || hides (((Value.map es).step? k).getD .undefined) p
  | .seq .list items, .index n :: p => hides ((item? items n).getD .undefined) p
  | _, _ => false

/-- What is read at a path that leads through lists and mappings only. -/
def seat? : Value → List Key → Option Value
  | v, [] => some v
  | .map es, k :: p => if isHidden es k then some .undefined else ((Value.map es).step? k).bind (seat? · p)
  | .seq .list items, .index n :: p => (item? items n).bind (seat? · p)
  | _, _ => none

/-- The key under which a mapping is read. -/
def readKey (es : Entries) (k : Key) : Key :=
  if k.isIndex && !Table.has es k then .name k.text else k

/-- The key under which a mapping is written. -/
def writeKey (es : Entries) (k : Key) : Key :=
  if ((Table.get? es k).getD .undefined).isUndefined && k.isIndex && Table.has es (.name k.text) then
    .name k.text
  else k

/-- Writes the rest of a path into what lies under its first key. -/
def writeRest (child : Value) (p : List Key) (new : Value) : Except PathFault Value :=
  match p with
  | [] => .ok new
  | next :: _ => setPath (childFor child next) p new

/-! ## One step of a path -/

theorem step?_map : (Value.map es).step? k = Table.get? es (readKey es k) := by
  unfold step? readKey Table.has
  cases h : Table.get? es k <;> cases hk : k.isIndex <;> simp [h, hk]

theorem setPath_map : setPath (.map es) (k :: p) new =
    (writeRest ((Table.get? es (writeKey es k)).getD .undefined) p new).map
      fun x => .map (Table.put es (writeKey es k) x) := by
  unfold setPath writeKey
  dsimp only
  split
  · cases p <;> rfl
  · cases p <;> rfl

theorem of_item? (h : item? items n = some c) :
    ∃ hn : n.toNat < items.length, items[n.toNat] = c ∧ 0 ≤ n := by
  unfold item? at h
  split at h
  · cases h
  · obtain ⟨hi, rfl⟩ := List.getElem?_eq_some_iff.mp h
    exact ⟨hi, rfl, by omega⟩

theorem of_replaceItem {l : List Value} (h : replaceItem items n v = .ok l) :
    l = items.set (if n < 0 then n + items.length else n).toNat v := by
  unfold replaceItem at h
  generalize (if n < 0 then n + items.length else n) = i at h ⊢
  dsimp only at h
  split at h
  · cases h
  · exact (Except.ok.inj h).symm

/-- A list is written by position only, and the rest of the path into what is at that position. -/
theorem setPath_list (h : setPath (.seq .list items) (k :: p) new = .ok w) :
    ∃ (n : Int) (i : Nat) (hi : i < (padTo items n).length) (x : Value),
      k = .index n ∧ (i : Int) = (if n < 0 then n + (padTo items n).length else n) ∧
        writeRest (padTo items n)[i] p new = .ok x ∧ w = .list ((padTo items n).set i x) := by
  unfold setPath at h
  cases k with
  | name s =>
    dsimp only at h
    cases hn : Numeral.readInt? s.toList with
    | none => rw [hn] at h; cases h
    | some n =>
      rw [hn] at h
      dsimp only at h
      split at h
      · cases h
      · obtain ⟨x, _, hx⟩ := of_bind_ok h
        cases hx
  | float | nan | null | undefined | tuple => cases h
  | index n =>
    dsimp only at h
    split at h
    · cases h
    next child hc =>
      obtain ⟨hi, rfl, hn⟩ := of_item? hc
      obtain ⟨x, hx, hw⟩ := of_bind_ok h
      obtain ⟨l, hl, hw⟩ := of_bind_ok (show replaceItem _ n x >>= (fun l => pure (list l)) = .ok w from hw)
      cases hw
      refine ⟨n, _, hi, x, rfl, by omega, ?_, by rw [of_replaceItem hl]⟩
      cases p <;> exact hx

/-! ## Keys of a mapping -/

theorem isHidden_iff : isHidden es k = true ↔
    k.isIndex = true ∧ Table.get? es k = some .undefined ∧ Table.has es (.name k.text) = true := by
  unfold isHidden
  cases h : Table.get? es k with
  | none => simp
  | some v => cases v <;> simp [isUndefined]

theorem text_readKey : (readKey es k).text = k.text := by
  unfold readKey
  split <;> rfl

theorem text_writeKey : (writeKey es k).text = k.text := by
  unfold writeKey
  split <;> rfl

theorem readKey_of_has (h : Table.has es k = true) : readKey es k = k := by
  rw [readKey, h, Bool.not_true, Bool.and_false]
  exact if_neg Bool.false_ne_true

/-- An index that holds nothing is not written while there is an entry under its text. -/
theorem writeKey_ne (hi : a.isIndex = true) (ha : ((Table.get? es a).getD .undefined).isUndefined = true)
    (ht : Table.has es (.name a.text) = true) : writeKey es b ≠ a := by
  intro h
  have hb : b = a := by
    unfold writeKey at h
    split at h
    · rw [← h] at hi; cases hi
    · exact h
  subst hb
  rw [writeKey, ha, hi, ht] at h
  rw [← h] at hi
  cases hi

/-- A mapping is read under the same key before and after it is written. -/
theorem readKey_put (h : Table.get? es (readKey es a) = some c) :
    readKey (Table.put es (writeKey es b) v) a = readKey es a := by
  cases ha : Table.has es a with
  | true => rw [readKey_of_has ha, readKey_of_has (Table.has_put_of_has ha)]
  | false =>
    have hn : Table.get? es a = none := by simpa [Table.has] using ha
    cases hi : a.isIndex with
    | false => simp [readKey, hi] at h; rw [hn] at h; cases h
    | true =>
      have hr : readKey es a = .name a.text := by simp [readKey, hi, ha]
      rw [hr] at h ⊢
      have hw : writeKey es b ≠ a := writeKey_ne hi (by rw [hn]; rfl) (by rw [Table.has, h]; rfl)
      simp [readKey, hi, Table.has, Table.get?_put_of_ne hw.symm, hn]

/-- A key that is not hidden is written where it is read, or is new. -/
theorem writeKey_cases (h : isHidden es k = false) :
    (∃ c, Table.get? es (readKey es k) = some c) ∧ writeKey es k = readKey es k ∨
    Table.get? es k = none ∧ Table.get? es (readKey es k) = none ∧ writeKey es k = k := by
  cases hk : Table.get? es k with
  | some v =>
    rw [readKey_of_has (by rw [Table.has, hk]; rfl), writeKey, hk]
    refine .inl ⟨⟨v, rfl⟩, ?_⟩
    cases hv : v.isUndefined with
    | false => simp [hv]
    | true => simp only [isHidden, hk, Option.any_some, hv, Bool.and_true] at h; simp [hv, h]
  | none =>
    cases hi : k.isIndex with
    | false => exact .inr ⟨rfl, by simpa [readKey, hi] using hk, by simp [writeKey, hi]⟩
    | true =>
      have hr : readKey es k = .name k.text := by simp [readKey, hi, Table.has, hk]
      rw [hr]
      cases ht : Table.get? es (.name k.text) with
      | none => exact .inr ⟨rfl, rfl, by simp [writeKey, Table.has, ht]⟩
      | some v => exact .inl ⟨⟨v, rfl⟩, by simp [writeKey, hk, hi, Table.has, ht, isUndefined]⟩

/-- What has been written under a key is read under it. -/
theorem get?_put_writeKey (h : isHidden es k = false) :
    Table.get? (Table.put es (writeKey es k) v) (readKey (Table.put es (writeKey es k) v) k) = some v := by
  rcases writeKey_cases h with ⟨⟨c, hc⟩, hw⟩ | ⟨-, -, hw⟩
  · rw [readKey_put hc, hw, Table.get?_put_self]
  · rw [hw, readKey_of_has (by rw [Table.has, Table.get?_put_self]; rfl), Table.get?_put_self]

theorem get?_writeKey (h : isHidden es k = false) :
    (Table.get? es (writeKey es k)).getD .undefined = ((Value.map es).step? k).getD .undefined := by
  rw [step?_map]
  rcases writeKey_cases h with ⟨-, hw⟩ | ⟨hk, hr, hw⟩
  · rw [hw]
  · rw [hw, hk, hr]

/-- An index stays hidden while other keys are written. -/
theorem isHidden_put (h : isHidden es a = true) : isHidden (Table.put es (writeKey es b) v) a = true := by
  obtain ⟨hi, ha, ht⟩ := isHidden_iff.mp h
  have hw : writeKey es b ≠ a := writeKey_ne hi (by rw [ha]; rfl) ht
  exact isHidden_iff.mpr ⟨hi, by rw [Table.get?_put_of_ne hw.symm, ha], Table.has_put_of_has ht⟩

/-! ## Seats -/

theorem seat?_map (h : Table.get? es (readKey es k) = some c) (hc : c.seat? p = some x) :
    (Value.map es).seat? (k :: p) = some x := by
  cases hh : isHidden es k with
  | false => rw [seat?, hh, step?_map, h]; exact hc
  | true =>
    obtain ⟨-, hk, -⟩ := isHidden_iff.mp hh
    rw [readKey_of_has (by rw [Table.has, hk]; rfl), hk] at h
    cases h
    rw [seat?, hh]
    cases p with
    | nil => exact hc
    | cons a p => cases hc

theorem of_seat?_map (h : (Value.map es).seat? (k :: p) = some x) :
    isHidden es k = true ∧ x = .undefined ∨
    ∃ c, Table.get? es (readKey es k) = some c ∧ c.seat? p = some x := by
  rw [seat?, step?_map] at h
  cases hh : isHidden es k with
  | true => rw [hh] at h; exact .inl ⟨rfl, (Option.some.inj h).symm⟩
  | false => rw [hh] at h; exact .inr (Option.bind_eq_some_iff.mp h)

/-- The entries under the text of the first key are all that counts. -/
theorem seat?_map_congr (h : ∀ k, k.text = a.text → Table.get? fs k = Table.get? es k) :
    (Value.map fs).seat? (a :: p) = (Value.map es).seat? (a :: p) := by
  have hr : readKey fs a = readKey es a := by rw [readKey, readKey, Table.has, Table.has, h a rfl]
  have hh : isHidden fs a = isHidden es a := by
    rw [isHidden, isHidden, Table.has, Table.has, h a rfl, h (.name a.text) rfl]
  rw [seat?, seat?, step?_map, step?_map, hh, hr, h _ text_readKey]

theorem childFor_of_seat? (h : c.seat? (k :: p) = some x) (next : Key) : childFor c next = c := by
  cases c with
  | map es => rfl
  | seq kind items =>
    cases kind with
    | list => rfl
    | tuple => cases h
  | _ => cases h

theorem getD_walk?_of_seat? (h : v.seat? p = some x) : (v.walk? p).getD .undefined = x := by
  induction p generalizing v with
  | nil => exact Option.some.inj h
  | cons k p ih =>
    rw [walk?]
    cases v with
    | map es =>
      rcases of_seat?_map h with ⟨hh, rfl⟩ | ⟨c, hc, hx⟩
      · obtain ⟨-, hk, -⟩ := isHidden_iff.mp hh
        rw [step?, hk]
        cases p <;> rfl
      · rw [step?_map, hc]
        exact ih hx
    | seq kind items =>
      cases kind with
      | tuple => cases h
      | list =>
        cases k with
        | index n =>
          obtain ⟨c, hc, hx⟩ := Option.bind_eq_some_iff.mp h
          rw [step?, hc]
          exact ih hx
        | _ => cases h
    | _ => cases h

theorem getPath_of_seat? (hp : p ≠ []) (h : v.seat? p = some x) : v.getPath p = x := by
  rw [getPath, if_neg (by simpa using hp), getD_walk?_of_seat? h]

@[simp] theorem hides_nil : v.hides [] = false := by
  unfold hides
  split
  · contradiction
  · contradiction
  · rfl

theorem hides_undefined : Value.undefined.hides p = false := by cases p <;> rfl

/-- Behind a hidden index nothing is read. -/
theorem seat?_of_hides (h : v.hides p = true) : v.seat? p = some .undefined := by
  induction p generalizing v with
  | nil => rw [hides_nil] at h; cases h
  | cons k p ih =>
    cases v with
    | map es =>
      rw [hides, step?_map, Bool.or_eq_true] at h
      rcases h with h | h
      · rw [seat?, h]; rfl
      · cases hc : Table.get? es (readKey es k) with
        | none => rw [hc] at h; exact absurd (hides_undefined.symm.trans h) Bool.false_ne_true
        | some c => rw [hc] at h; exact seat?_map hc (ih h)
    | seq kind items =>
      cases kind with
      | tuple => cases h
      | list =>
        cases k with
        | index n =>
          rw [hides] at h
          cases hc : item? items n with
          | none => rw [hc] at h; exact absurd (hides_undefined.symm.trans h) Bool.false_ne_true
          | some c => rw [hc] at h; rw [seat?, hc]; exact ih h
        | _ => cases h
    | _ => cases h

/-! ## Writing and reading the same place -/

theorem hides_fresh : (freshContainer k).hides (k :: p) = false := by
  cases k with
  | index n =>
    rw [freshContainer, list, hides, show item? [] n = none by unfold item?; split <;> rfl]
    exact hides_undefined
  | _ => exact hides_undefined

theorem hides_childFor : (childFor c k).hides (k :: p) = c.hides (k :: p) := by
  cases c with
  | map es => rfl
  | seq kind items =>
    cases kind with
    | list => rfl
    | tuple => exact hides_fresh
  | _ => exact hides_fresh

theorem childFor_cases (c : Value) (k : Key) :
    (∃ es, childFor c k = .map es) ∨ ∃ items, childFor c k = .list items := by
  unfold childFor
  split
  · exact .inl ⟨_, rfl⟩
  · exact .inr ⟨_, rfl⟩
  · cases k with
    | index n => exact .inr ⟨[], rfl⟩
    | _ => exact .inl ⟨[], rfl⟩

theorem item?_of_nonneg (h : 0 ≤ n) : item? items n = items[n.toNat]? := if_neg (by omega)

/-- A key that is no index makes a mapping of what is no container. -/
theorem setPath_map_nil (hk : k.isIndex = false) (hv : childFor v k = .map []) :
    setPath (.map []) (k :: p) new = setPath v (k :: p) new := by
  have hmap : setPath (.map []) (k :: p) new =
      (writeRest .undefined p new >>= fun x => pure (.map [(k, x)])) := by
    cases k with
    | index n => cases hk
    | _ => cases p <;> rfl
  rw [hmap]
  cases v with
  | map es => cases hv; exact hmap.symm
  | seq kind items =>
    cases kind with
    | list => cases hv
    | tuple =>
      cases k with
      | index n => cases hk
      | _ => cases p <;> rfl
  | _ =>
    cases k with
    | index n => cases hk
    | _ => cases p <;> rfl

theorem setPath_fresh (hk : ∀ n, k = .index n → 0 ≤ n) (hv : childFor v k = freshContainer k) :
    setPath (freshContainer k) (k :: p) new = setPath v (k :: p) new := by
  cases k with
  | index n =>
    have h0 : 0 ≤ n := hk n rfl
    have hpad : padTo [] n = List.replicate (n + 1).toNat .null := by simp [padTo]
    have hnull : item? (padTo [] n) n = some .null := by
      rw [item?_of_nonneg h0, hpad, List.getElem?_replicate, if_pos (by omega)]
    have hlist : setPath (.list []) (.index n :: p) new =
        (writeRest .null p new >>= fun x => replaceItem (padTo [] n) n x >>= fun l => pure (.list l)) := by
      unfold setPath list
      dsimp only
      rw [if_neg (by omega), hnull]
      cases p <;> rfl
    rw [freshContainer, hlist, hpad]
    cases v with
    | map es => cases hv
    | seq kind items =>
      cases kind with
      | list => cases hv; exact hpad ▸ hlist.symm
      | tuple => cases p <;> rfl
    | _ => cases p <;> rfl
  | _ => exact setPath_map_nil rfl hv

/-- Writing below a key puts a container for the key where there is none. -/
theorem setPath_childFor (hk : ∀ n, k = .index n → 0 ≤ n) :
    setPath (childFor v k) (k :: p) new = setPath v (k :: p) new := by
  cases v with
  | map es => rfl
  | seq kind items =>
    cases kind with
    | list => rfl
    | tuple => exact setPath_fresh hk rfl
  | _ => exact setPath_fresh hk rfl

theorem hides_padTo {i : Nat} (hi : i < (padTo items n).length) :
    ((items[i]?).getD .undefined).hides p = (padTo items n)[i].hides p := by
  cases h : items[i]? with
  | some c =>
    obtain ⟨hl, rfl⟩ := List.getElem?_eq_some_iff.mp h
    simp only [padTo, List.getElem_append_left hl]
    rfl
  | none =>
    have hl : items.length ≤ i := List.getElem?_eq_none_iff.mp h
    simp only [padTo, List.getElem_append_right hl, List.getElem_replicate]
    cases p <;> rfl

/-- What is written at a path is found there, unless an index on the way is hidden. -/
theorem seat?_setPath (hp : ∀ n, .index n ∈ p → 0 ≤ n) (h : setPath v p new = .ok w) :
    w.seat? p = some (if v.hides p then .undefined else new) := by
  induction p generalizing v w with
  | nil =>
    cases h
    rw [hides_nil]
    rfl
  | cons k p ih =>
    have hk (n : Int) (hn : k = .index n) : 0 ≤ n := hp n (hn ▸ List.mem_cons_self)
    have ih {c x : Value} (h : setPath c p new = .ok x) := ih (fun n hn => hp n (List.mem_cons_of_mem _ hn)) h
    have rest {c x : Value} (h : writeRest c p new = .ok x) :
        x.seat? p = some (if c.hides p then .undefined else new) := by
      cases p with
      | nil => exact ih h
      | cons next p => rw [← hides_childFor]; exact ih h
    rw [← setPath_childFor hk] at h
    rw [← hides_childFor]
    rcases childFor_cases v k with ⟨es, hc⟩ | ⟨items, hc⟩
    · rw [hc] at h ⊢
      rw [setPath_map] at h
      obtain ⟨x, hx, rfl⟩ := of_map_ok h
      rw [hides]
      cases hh : isHidden es k with
      | true => rw [seat?, isHidden_put hh]; rfl
      | false =>
        rw [← get?_writeKey hh, Bool.false_or]
        exact seat?_map (get?_put_writeKey hh) (rest hx)
    · rw [hc] at h ⊢
      obtain ⟨n, i, hi, x, rfl, hn, hx, rfl⟩ := setPath_list h
      have h0 : 0 ≤ n := hk n rfl
      have hin : i = n.toNat := by split at hn <;> omega
      subst hin
      rw [list, list, seat?, hides, item?_of_nonneg h0, item?_of_nonneg h0, hides_padTo hi,
        List.getElem?_set_self hi]
      exact rest hx

/-! ## Writing elsewhere -/

/-- What is written elsewhere leaves a place as it is. -/
theorem seat?_setPath_of_disjoint (hq : Path.overlap p q = false) (h : setPath v q new = .ok w)
    (hv : v.seat? p = some x) : w.seat? p = some x := by
  induction p generalizing v q w with
  | nil => cases hq
  | cons a p ih =>
    cases q with
    | nil => cases hq
    | cons b q =>
      -- below keys that may meet, the rests of the paths are apart
      have rest {c y : Value} (hm : a.meets b = true) (hc : c.seat? p = some x)
          (hy : writeRest c q new = .ok y) : y.seat? p = some x := by
        have hpq : Path.overlap p q = false := by simpa [Path.overlap, hm] using hq
        cases p with
        | nil => cases hpq
        | cons k p =>
          cases q with
          | nil => cases hpq
          | cons next q =>
            rw [writeRest, childFor_of_seat? hc] at hy
            exact ih hpq hy hc
      cases v with
      | map es =>
        rw [setPath_map] at h
        obtain ⟨y, hy, rfl⟩ := of_map_ok h
        rcases of_seat?_map hv with ⟨hh, rfl⟩ | ⟨c, hc, hx⟩
        · rw [seat?, isHidden_put hh]; rfl
        · by_cases hk : writeKey es b = readKey es a
          · have hm : a.meets b = true := by
              have ht : a.text = b.text :=
                text_readKey.symm.trans ((congrArg Key.text hk.symm).trans text_writeKey)
              simp [Key.meets, ht]
            rw [hk, hc] at hy
            refine seat?_map ?_ (rest hm hx hy)
            rw [readKey_put hc, hk, Table.get?_put_self]
          · refine seat?_map ?_ hx
            rw [readKey_put hc, Table.get?_put_of_ne (Ne.symm hk), hc]
      | seq kind items =>
        cases kind with
        | tuple => cases hv
        | list =>
          cases a with
          | index n =>
            obtain ⟨c, hc, hx⟩ := Option.bind_eq_some_iff.mp hv
            obtain ⟨hl, rfl, h0⟩ := of_item? hc
            obtain ⟨m, i, hi, y, rfl, him, hy, rfl⟩ := setPath_list h
            rw [list, seat?, item?_of_nonneg h0]
            by_cases hin : i = n.toNat
            · subst hin
              have hm : (Key.index n).meets (.index m) = true := by
                split at him
                · simp [Key.meets, *]
                · have : n = m := by omega
                  simp [Key.meets, this]
              simp only [padTo, List.getElem_append_left hl] at hy
              rw [List.getElem?_set_self hi]
              exact rest hm hx hy
            · rw [List.getElem?_set_ne hin, padTo, List.getElem?_append_left hl, List.getElem?_eq_getElem hl]
              exact hx
          | _ => cases hv
      | _ => cases hv

theorem map_of_escapes (hp : Path.Escapes p us) (h : v.seat? p = some x) : ∃ es, v = .map es := by
  cases p with
  | nil => cases hp
  | cons k p =>
    cases k with
    | name s =>
      cases v with
      | map es => exact ⟨es, rfl⟩
      | seq kind items => cases kind <;> cases h
      | _ => cases h
    | _ => cases hp

/-- A delta leaves the places that it does not reach as they are. -/
theorem seat?_overlayEntries (hp : Path.Escapes p us) (h : (Value.map es).seat? p = some x) :
    (Value.map (overlayEntries es us)).seat? p = some x := by
  induction p generalizing es us with
  | nil => cases hp
  | cons k p ih =>
    cases k with
    | name s =>
      rw [Path.Escapes] at hp
      induction us generalizing es with
      | nil => rw [overlayEntries]; exact h
      | cons e us ihu =>
        obtain ⟨k, v⟩ := e
        rw [overlayEntries]
        refine ihu (fun e he => hp e (List.mem_cons_of_mem _ he)) ?_
        by_cases hk : k.text = s
        · obtain ⟨vs, hvs, hp'⟩ := hp (k, v) List.mem_cons_self hk
          cases hvs
          rcases of_seat?_map h with ⟨hh, -⟩ | ⟨c, hc, hx⟩
          · exact absurd (isHidden_iff.mp hh).1 Bool.false_ne_true
          · obtain ⟨cs, rfl⟩ := map_of_escapes hp' hx
            refine seat?_map ?_ (ih hp' hx)
            rw [show Table.get? es (.name s) = some (.map cs) from hc, overlay]
            exact Table.get?_put_self
        · have same (j : Key) (hj : j.text = s) : j ≠ k := fun hjk => hk (hjk ▸ hj)
          rw [seat?_map_congr (a := .name s) fun j hj => Table.get?_put_of_ne (same j hj)]
          exact h
    | _ => cases hp

theorem seat?_mergeDelta (hp : Path.Escapes p us) (h : v.seat? p = some x) :
    (v.mergeDelta us).seat? p = some x := by
  obtain ⟨es, rfl⟩ := map_of_escapes hp h
  exact seat?_overlayEntries hp h

end Value
end FormRules
