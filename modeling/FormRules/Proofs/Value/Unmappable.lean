import FormRules.Proofs.Results
import FormRules.Value.Conversion

/-!
# Mappings that are given as something else

A description may give a mapping as a sequence of pairs, or not at all. Everything else makes up no mapping, and what
breaks on it is the conversion itself: it tells no cause (`Breaks`), and which breach comes of it depends on the first
member that is no pair (`Unmappable`).
-/

namespace FormRules
open Value

/-! ## Telling and breaking -/

/-- Besides a result and faults that tell a cause, a computation has exactly these breaches. -/
structure Breaks {α : Type} (x : Outcome α) (P : Breach → Prop) : Prop where
  told : ∀ f, x = .error f → (∃ cause, f = .shape cause) ∨ ∃ b, f = .breach b
  exact : ∀ b, x = .error (.breach b) ↔ P b

namespace Breaks
variable {α β : Type} {x : Outcome α} {k : α → Outcome β} {a : α} {P P' : Breach → Prop} {Q : α → Breach → Prop}
  {b : Breach} {cause : ShapeCause} {as : List α} {g : α → Outcome β}

theorem congr (h : Breaks x P) (hP : ∀ b, P b ↔ P' b) : Breaks x P' := ⟨h.told, fun b => (h.exact b).trans (hP b)⟩

theorem ok : Breaks (.ok a : Outcome α) fun _ => False := ⟨nofun, fun _ => ⟨nofun, nofun⟩⟩

theorem shape : Breaks (.error (.shape cause) : Outcome α) fun _ => False :=
  ⟨fun _ h => .inl ⟨cause, (Except.error.inj h).symm⟩, fun _ => ⟨nofun, nofun⟩⟩

theorem ok_of_not (h : ∀ b, ¬ P b) : Breaks (.ok a) P := ok.congr fun b => ⟨nofun, h b⟩

theorem shape_of_not (h : ∀ b, ¬ P b) : Breaks (.error (.shape cause) : Outcome α) P := shape.congr fun b => ⟨nofun, h b⟩

theorem breach : Breaks (.error (.breach b) : Outcome α) (b = ·) :=
  ⟨fun _ h => .inr ⟨b, (Except.error.inj h).symm⟩, fun c => by rw [Except.error.injEq, Fault.breach.injEq]⟩

theorem bind (hx : Breaks x P) (hk : ∀ a, x = .ok a → Breaks (k a) (Q a)) :
    Breaks (x >>= k) fun b => P b ∨ ∃ a, x = .ok a ∧ Q a b := by
  cases x with
  | ok a =>
    refine (hk a rfl).congr fun b => ?_
    simp [← hx.exact]
  | error f =>
    refine ⟨fun g h => hx.told g (congrArg _ (Except.error.inj h)), fun b => ?_⟩
    rw [← hx.exact]
    simp [Bind.bind, Except.bind]

/-- What only works on the result breaks as the computation of it does. -/
theorem map (hx : Breaks x P) (r : α → β) : Breaks (do return r (← x)) P :=
  (hx.bind fun _ _ => .ok).congr fun b => by simp

/-- One by one, the first item that gives no result decides. -/
theorem mapM (h : ∀ a ∈ as, Breaks (g a) (Q a)) : Breaks (as.mapM g) fun b =>
    ∃ before a after, as = before ++ a :: after ∧ (∀ u ∈ before, ∃ r, g u = .ok r) ∧ Q a b := by
  induction as with
  | nil => exact ok.congr (by simp)
  | cons a as ih =>
    obtain ⟨ha, has⟩ := List.forall_mem_cons.mp h
    rw [List.mapM_cons]
    refine (ha.bind fun r _ => (ih has).map (r :: ·)).congr fun b => ⟨?_, ?_⟩
    · rintro (hb | ⟨r, hr, before, w, after, rfl, hbefore, hb⟩)
      · exact ⟨[], a, as, rfl, nofun, hb⟩
      · exact ⟨a :: before, w, after, rfl, List.forall_mem_cons.mpr ⟨⟨r, hr⟩, hbefore⟩, hb⟩
    · rintro ⟨before, w, after, heq, hbefore, hb⟩
      cases before with
      | nil =>
        cases heq
        exact .inl hb
      | cons u before =>
        cases heq
        obtain ⟨⟨r, hr⟩, hbefore⟩ := List.forall_mem_cons.mp hbefore
        exact .inr ⟨r, hr, before, w, after, rfl, hbefore, hb⟩

end Breaks

/-! ## Mappings given as pairs -/

namespace Value
variable {v w k : Value} {items : List Value} {kind : SeqKind} {b : Breach} {es : Entries} {name : String}

/-- A pair: two characters, the keys of two entries, or two items the first of which can be looked up. -/
inductive IsPair : Value → Prop
  | text {s : String} (h : s.toList.length = 2) : IsPair (.text s)
  | keys {es : Entries} (h : List.length es = 2) : IsPair (.map es)
  | items {kind : SeqKind} {k w : Value} (h : k.isHashable = true) : IsPair (.seq kind [k, w])

/-- What comes of a value that is taken for a pair and is none. -/
def pairBreach : Value → Breach
  | .seq _ [_, _] => .wrongKind
  | .seq _ _ | .text _ | .map _ => .badValue
  | .undefined | .null | .bool _ | .num _ => .wrongKind

mutual

theorem isSome_key? (v : Value) : v.key?.isSome = v.isHashable := by
  cases v with
  | seq kind items =>
    cases kind with
    | list => rfl
    | tuple => rw [key?, isHashable, Option.isSome_map, isSome_keys? items]
  | _ => rfl

theorem isSome_keys? (items : List Value) : (keys? items).isSome = allHashable items := by
  cases items with
  | nil => rfl
  | cons v vs =>
    rw [allHashable, ← isSome_key? v, ← isSome_keys? vs, keys?]
    cases v.key? <;> cases keys? vs <;> rfl

end

theorem toKey_of_isHashable (h : v.isHashable = true) : ∃ key, v.toKey = .ok key := by
  obtain ⟨key, hkey⟩ := Option.isSome_iff_exists.mp ((isSome_key? v).trans h)
  exact ⟨key, by rw [toKey, hkey]⟩

theorem toKey_of_not_isHashable (h : v.isHashable = false) : v.toKey = .error (.breach .wrongKind) := by
  rw [toKey, Option.isNone_iff_eq_none.mp (Option.isSome_eq_false_iff.mp ((isSome_key? v).trans h))]
  rfl

mutual

theorem ofKey_isHashable (key : Key) : (ofKey key).isHashable = true := by
  cases key with
  | tuple items => exact ofKeys_allHashable items
  | _ => rfl

theorem ofKeys_allHashable (keys : List Key) : allHashable (ofKeys keys) = true := by
  cases keys with
  | nil => rfl
  | cons k ks => rw [ofKeys, allHashable, ofKey_isHashable k, ofKeys_allHashable ks, Bool.and_self]

end

/-- Two members make an entry, if the first can be looked up. -/
theorem toEntry_of_members (h : v.members = .ok [k, w]) (hk : k.isHashable = true) : ∃ e, v.toEntry = .ok e := by
  obtain ⟨key, hkey⟩ := toKey_of_isHashable hk
  refine ⟨(key, w), ?_⟩
  rw [toEntry, h]
  show (do return (← k.toKey, w)) = _
  rw [hkey]
  rfl

theorem toEntry_of_length {ms : List Value} (h : v.members = .ok ms) (hms : ms.length ≠ 2) :
    v.toEntry = .error (.breach .badValue) := by
  rw [toEntry, h]
  match ms, hms with
  | [], _ | [_], _ | _ :: _ :: _ :: _, _ => rfl
  | [_, _], h => exact absurd rfl h

theorem toEntry_of_isPair (h : IsPair v) : ∃ e, v.toEntry = .ok e := by
  cases h with
  | text h =>
    obtain ⟨c, d, hs⟩ := List.length_eq_two.mp h
    exact toEntry_of_members (by rw [members, hs]; rfl) rfl
  | keys h =>
    obtain ⟨e, f, rfl⟩ := List.length_eq_two.mp h
    exact toEntry_of_members rfl (ofKey_isHashable e.1)
  | items h => exact toEntry_of_members rfl h

theorem toEntry_of_not_isPair (h : ¬ IsPair v) : v.toEntry = .error (.breach v.pairBreach) := by
  cases v with
  | undefined | null | bool _ | num _ => rfl
  | text s => exact toEntry_of_length rfl fun hs => h (.text (by simpa using hs))
  | map es => exact toEntry_of_length rfl fun hes => h (.keys (by simpa using hes))
  | seq kind items =>
    by_cases hlen : items.length = 2
    · obtain ⟨k, w, rfl⟩ := List.length_eq_two.mp hlen
      have hk : k.isHashable = false := by
        cases hk : k.isHashable with
        | false => rfl
        | true => exact absurd (.items hk) h
      show (do return (← k.toKey, w)) = _
      rw [toKey_of_not_isHashable hk]
      rfl
    · rw [toEntry_of_length rfl hlen, pairBreach]
      rintro k w rfl
      exact hlen rfl

theorem exists_toEntry_iff : (∃ e, v.toEntry = .ok e) ↔ IsPair v := by
  refine ⟨fun ⟨e, he⟩ => ?_, toEntry_of_isPair⟩
  by_contra h
  rw [toEntry_of_not_isPair h] at he
  cases he

theorem toEntry_breaks (v : Value) : Breaks v.toEntry fun b => ¬ IsPair v ∧ v.pairBreach = b := by
  by_cases h : IsPair v
  · obtain ⟨e, he⟩ := toEntry_of_isPair h
    rw [he]
    exact .ok_of_not fun b => by simp [h]
  · rw [toEntry_of_not_isPair h]
    exact Breaks.breach.congr fun b => by simp [h]

/-- What is given for a mapping is none, and not made up of pairs either. -/
inductive Unmappable : Value → Breach → Prop
  | bool : Unmappable (.bool true) .wrongKind
  | num {n : Number} (h : n.isZero = false) : Unmappable (.num n) .wrongKind
  /-- The characters of a text are no pairs. -/
  | text {s : String} (h : s ≠ "") : Unmappable (.text s) .badValue
  | seq {kind : SeqKind} {before after : List Value} {w : Value} (hbefore : ∀ u ∈ before, IsPair u) (hw : ¬ IsPair w) :
    Unmappable (.seq kind (before ++ w :: after)) w.pairBreach

theorem not_isPair_singleton (c : Char) : ¬ IsPair (.text (String.singleton c)) := by
  rintro ⟨h⟩
  simp at h

theorem toMapping_text {s : String} (h : s ≠ "") : (Value.text s).toMapping = .error (.breach .badValue) := by
  obtain ⟨c, cs, hs⟩ := List.exists_cons_of_ne_nil (fun hnil => h (String.toList_eq_nil_iff.mp hnil))
  refine (if_neg (by simp [given, h])).trans ?_
  show (do return Table.ofEntries (← (s.toList.map _).mapM toEntry)) = _
  rw [hs, List.map_cons, List.mapM_cons, toEntry_of_not_isPair (not_isPair_singleton c)]
  rfl

theorem toMapping_seq (kind : SeqKind) (items : List Value) :
    (Value.seq kind items).toMapping = do return Table.ofEntries (← items.mapM toEntry) := by
  cases items <;> rfl

theorem toMapping_breaks (v : Value) : Breaks v.toMapping (Unmappable v) := by
  cases v with
  | undefined => exact .ok_of_not (by rintro _ ⟨⟩)
  | null => exact .ok_of_not (by rintro _ ⟨⟩)
  | bool a =>
    cases a with
    | false => exact .ok_of_not (by rintro _ ⟨⟩)
    | true => exact Breaks.breach.congr fun b => ⟨(· ▸ .bool), by rintro ⟨⟩; rfl⟩
  | num n =>
    cases h : n.isZero with
    | false =>
      rw [show (Value.num n).toMapping = _ from if_neg (by simp [given, h])]
      exact Breaks.breach.congr fun b => ⟨(· ▸ .num h), by rintro ⟨⟩; rfl⟩
    | true =>
      rw [show (Value.num n).toMapping = _ from if_pos (by simp [given, h])]
      refine .ok_of_not ?_
      rintro b ⟨⟩
      next hn => rw [h] at hn; cases hn
  | text s =>
    by_cases h : s = ""
    · subst h
      refine .ok_of_not ?_
      rintro b ⟨⟩
      next hs => exact hs rfl
    · rw [toMapping_text h]
      exact Breaks.breach.congr fun b => ⟨(· ▸ .text h), by rintro ⟨⟩; rfl⟩
  | map es => cases es <;> exact .ok_of_not (by rintro _ ⟨⟩)
  | seq kind items =>
    rw [toMapping_seq]
    refine ((Breaks.mapM fun v _ => toEntry_breaks v).map Table.ofEntries).congr fun b => ⟨?_, ?_⟩
    · rintro ⟨before, w, after, rfl, hbefore, hw, rfl⟩
      exact .seq (fun u hu => exists_toEntry_iff.mp (hbefore u hu)) hw
    · rintro ⟨⟩
      next before after w hbefore hw =>
        exact ⟨before, w, after, rfl, fun u hu => exists_toEntry_iff.mpr (hbefore u hu), hw, rfl⟩

end Value
end FormRules
