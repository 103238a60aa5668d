import FormRules.Proofs.Number.Canonical
import FormRules.Proofs.Value.Place

/-!
# One place for one path

In data whose sequences are lists, and whose mappings have no index beside an entry under its text, a path of
proper keys leads to one place: what is written there is found there, and nothing else that could be found
before has changed.
-/

namespace FormRules

/-- Whether a key names one place only: an index counts from the front, and a name spells no integer, be it one of
more digits than can be read. -/
def Key.IsProper : Key → Prop
  | .index n => 0 ≤ n
  | .name s => Numeral.readInt? s.toList = none ∧ ∀ n, s ≠ intText n
  | _ => False

theorem Key.IsProper.of_meets {a b : Key} (ha : a.IsProper) (hb : b.IsProper) (h : a.meets b = true) : a = b := by
  unfold meets at h
  rw [Bool.or_eq_true, decide_eq_true_iff] at h
  cases a with
  | index m =>
    cases b with
    | index n =>
      have hm : 0 ≤ m := ha
      have hn : 0 ≤ n := hb
      rcases h with h | h
      · exact congrArg Key.index (intText_injective h)
      · simp only [Bool.or_eq_true, decide_eq_true_eq] at h
        omega
    | name t => exact absurd (h.resolve_right nofun).symm (hb.2 m)
    | _ => exact hb.elim
  | name s =>
    cases b with
    | index n => exact absurd (h.resolve_right nofun) (ha.2 n)
    | name t => exact congrArg Key.name (h.resolve_right nofun)
    | _ => exact hb.elim
  | _ => exact ha.elim

/-- Of two paths of proper keys that may lead to one place, or one into the other, one begins with the other. -/
theorem Path.prefix_of_overlap {p q : List Key} (hp : ∀ k ∈ p, k.IsProper) (hq : ∀ k ∈ q, k.IsProper)
    (h : overlap p q = true) : p <+: q ∨ q <+: p := by
  induction p generalizing q with
  | nil => exact .inl List.nil_prefix
  | cons a p ih =>
    cases q with
    | nil => exact .inr List.nil_prefix
    | cons b q =>
      rw [overlap, Bool.and_eq_true] at h
      obtain ⟨ha, hp⟩ := List.forall_mem_cons.mp hp
      obtain ⟨hb, hq⟩ := List.forall_mem_cons.mp hq
      rw [ha.of_meets hb h.1, List.prefix_cons_inj, List.prefix_cons_inj]
      exact ih hp hq h.2

namespace Value
variable {v w new : Value} {es : Entries} {items : List Value} {p : List Key} {x : Value}

mutual

/-- Whether the sequences inside a value are lists, and no mapping has an index beside an entry under its text. -/
def isUnmixed : Value → Bool
  | .undefined | .null | .bool _ | .num _ | .text _ => true
  | .seq kind items => kind = .list && allUnmixed items
  | .map es => es.all (fun e => !(e.1.isIndex && Table.has es (.name e.1.text))) && entriesUnmixed es

def allUnmixed : List Value → Bool
  | [] => true
  | v :: vs => isUnmixed v && allUnmixed vs

def entriesUnmixed : List (Key × Value) → Bool
  | [] => true
  | (_, v) :: es => isUnmixed v && entriesUnmixed es

end

theorem allUnmixed_iff : allUnmixed items = true ↔ ∀ v ∈ items, v.isUnmixed = true := by
  induction items with
  | nil => simp [allUnmixed]
  | cons v items ih => simp [allUnmixed, ih]

theorem entriesUnmixed_iff : entriesUnmixed es = true ↔ ∀ e ∈ es, e.2.isUnmixed = true := by
  induction es with
  | nil => simp [entriesUnmixed]
  | cons e es ih => simp [entriesUnmixed, ih]

theorem isUnmixed_of_item? {n : Int} (h : (seq .list items).isUnmixed = true) (hx : item? items n = some x) :
    x.isUnmixed = true := by
  rw [isUnmixed, Bool.and_eq_true, allUnmixed_iff] at h
  obtain ⟨hn, rfl, -⟩ := of_item? hx
  exact h.2 _ (List.getElem_mem hn)

theorem isUnmixed_of_get? {k : Key} (h : (map es).isUnmixed = true) (hx : Table.get? es k = some x) :
    x.isUnmixed = true := by
  rw [isUnmixed, Bool.and_eq_true, entriesUnmixed_iff] at h
  exact h.2 _ (Table.mem_of_get? hx)

theorem isHidden_of_isUnmixed (h : (map es).isUnmixed = true) (k : Key) : isHidden es k = false := by
  rw [isUnmixed, Bool.and_eq_true, List.all_eq_true] at h
  rw [Bool.eq_false_iff]
  intro hk
  obtain ⟨hindex, hget, hhas⟩ := isHidden_iff.mp hk
  have hmem := h.1 _ (Table.mem_of_get? hget)
  rw [hindex, hhas] at hmem
  cases hmem

/-- Nothing is written where it is not read. -/
theorem hides_of_isUnmixed (h : v.isUnmixed = true) (p : List Key) : v.hides p = false := by
  induction p generalizing v with
  | nil => exact hides_nil
  | cons k p ih =>
    cases v with
    | map es =>
      rw [hides, isHidden_of_isUnmixed h, step?_map, Bool.false_or]
      cases hx : Table.get? es (readKey es k) with
      | none => exact hides_undefined
      | some x => exact ih (isUnmixed_of_get? h hx)
    | seq kind items =>
      cases kind with
      | tuple => rfl
      | list =>
        cases k with
        | index n =>
          rw [hides]
          cases hx : item? items n with
          | none => exact hides_undefined
          | some x => exact ih (isUnmixed_of_item? h hx)
        | _ => rfl
    | _ => rfl

/-- What is found at a path of proper keys has its seat there. -/
theorem seat?_of_walk? (h : v.isUnmixed = true) (hp : ∀ k ∈ p, k.IsProper) (hx : v.walk? p = some x) :
    v.seat? p = some x := by
  induction p generalizing v with
  | nil => exact hx
  | cons k p ih =>
    obtain ⟨hk, hrest⟩ := List.forall_mem_cons.mp hp
    obtain ⟨c, hc, hcx⟩ := Option.bind_eq_some_iff.mp hx
    cases v with
    | map es =>
      rw [step?_map] at hc
      exact seat?_map hc (ih (isUnmixed_of_get? h hc) hrest hcx)
    | seq kind items =>
      cases kind with
      | tuple => cases h
      | list =>
        cases k with
        | name s =>
          rw [step?, hk.1] at hc
          cases hc
        | index n =>
          rw [seat?, show item? items n = some c from hc]
          exact ih (isUnmixed_of_item? h hc) hrest hcx
        | _ => cases hc
    | _ => cases hc

/-- What is written at a path is found there, and what could be found elsewhere is found there still. -/
theorem getPath_setPath (hv : v.isUnmixed = true) (hp : ∀ k ∈ p, k.IsProper) (hne : p ≠ [])
    (h : v.setPath p new = .ok w) : w.getPath p = new ∧
      ∀ q : List Key, (∀ k ∈ q, k.IsProper) → v.getPath q ≠ .undefined → ¬ p <+: q → ¬ q <+: p →
        w.getPath q = v.getPath q := by
  refine ⟨?_, fun q hq hfound hpq hqp => ?_⟩
  · have hseat := seat?_setPath (fun n hn => hp (.index n) hn) h
    rw [hides_of_isUnmixed hv] at hseat
    exact getPath_of_seat? hne hseat
  · -- neither path begins with the other, so they lead to places apart
    have hqne : q ≠ [] := fun hq => hqp (hq ▸ List.nil_prefix)
    have hapart : Path.overlap q p = false := by
      rw [Bool.eq_false_iff]
      exact fun ho => (Path.prefix_of_overlap hq hp ho).elim hqp hpq
    cases hx : v.walk? q with
    | none =>
      rw [getPath, hx] at hfound
      simp at hfound
    | some x =>
      have hseat := seat?_of_walk? hv hq hx
      rw [getPath_of_seat? hqne hseat, getPath_of_seat? hqne (seat?_setPath_of_disjoint hapart h hseat)]

/-- A list of rows under a name, with a cell under the text of an index. -/
def rowsWith (cell : Value) : Value :=
  .map [(.name "rows", list [.map [(.name "5", cell), (.name "b", int 2)]]), (.index 0, .null)]

/-- An index is written under its text where the text has an entry, and a list made there is filled up to the index. -/
theorem getPath_setPath_text :
    setPath (rowsWith (int 1)) [.name "rows", .index 0, .index 5, .index 1] (.bool true) =
      .ok (rowsWith (list [.null, .bool true])) ∧
    (rowsWith (list [.null, .bool true])).getPath [.name "rows", .index 0, .index 5, .index 1] = .bool true ∧
    (rowsWith (list [.null, .bool true])).getPath [.name "rows", .index 0, .name "b"] =
      (rowsWith (int 1)).getPath [.name "rows", .index 0, .name "b"] := by
  have hname (s : String) (hs : Numeral.readInt? s.toList = none) (c : Char) (hc : c ∈ s.toList)
      (hplain : ¬ (c.isDigit = true ∨ c = '-')) : (Key.name s).IsProper :=
    ⟨hs, fun n hn => hplain (plain_intChars n c (by rwa [hn, intText_toList] at hc))⟩
  have hrows : (Key.name "rows").IsProper := hname "rows" (by decide) 'r' (by decide) (by decide)
  have hb : (Key.name "b").IsProper := hname "b" (by decide) 'b' (by decide) (by decide)
  have hindex (n : Nat) : (Key.index n).IsProper := Int.natCast_nonneg n
  have hw : setPath (rowsWith (int 1)) [.name "rows", .index 0, .index 5, .index 1] (.bool true) =
      .ok (rowsWith (list [.null, .bool true])) := rfl
  have h := getPath_setPath (by decide +kernel)
    (List.forall_mem_cons.mpr ⟨hrows, by simpa using ⟨hindex 0, hindex 5, hindex 1⟩⟩) (by simp) hw
  exact ⟨hw, h.1, h.2 _ (by simpa using ⟨hrows, hindex 0, hb⟩) nofun (by decide) (by decide)⟩

end Value
end FormRules
