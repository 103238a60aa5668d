import FormRules.Proofs.Condition.Composite
import FormRules.Proofs.Value.Unmappable

/-!
# Malformed descriptions

Reading the description of a condition tells what is wrong with it. Some data it cannot even ask: a type or
an operator that cannot be looked up, parameters that make up no mapping, a duration without end. There
reading breaks and tells nothing, at whatever depth it meets such data first (`Trips`); everywhere else it
gives a condition or tells the cause.
-/

namespace FormRules
open Value

namespace ConditionType
variable {v : Value}

theorem ofValue_breaks (v : Value) : Breaks (ofValue v) fun b => v.isHashable = false ∧ .wrongKind = b := by
  cases h : v.isHashable with
  | false =>
    rw [show ofValue v = .error (.breach .wrongKind) from if_pos (by simp [h])]
    exact Breaks.breach.congr fun b => by simp
  | true =>
    rw [show ofValue v = _ from if_neg (by simp [h])]
    split
    · split
      · exact .ok_of_not fun b => by simp
      · exact .shape_of_not fun b => by simp
    · exact .shape_of_not fun b => by simp

end ConditionType

/-! ## Durations -/

namespace Condition
variable {es fallback : Entries} {name : String} {v : Value} {b : Breach}

/-- The value is infinite, as a duration cannot be. -/
def IsEndless (v : Value) : Prop := ∃ negative, v = .num (.float (.infinity negative))

/-- Of the durations that an inquiry is given, the first that cannot be read is infinite. -/
inductive Endless (es fallback : Entries) : Prop
  | cache (h : IsEndless (field es "cacheDurationMs"))
  | debounce {ms : Option Int} (hcache : optionalInt es "cacheDurationMs" = .ok ms) (h : IsEndless (field es "debounceMs"))
  | fallback {ms : Option Int} (hcache : optionalInt es "cacheDurationMs" = .ok ms) (hown : field es "debounceMs" = .null)
    (h : IsEndless (field fallback "debounceMs"))

theorem tooLarge_of_isEndless (h : IsEndless v) : v.nonNull? = some v ∧ v.toInteger = .error .tooLarge := by
  obtain ⟨negative, rfl⟩ := h
  exact ⟨rfl, rfl⟩

theorem isEndless_of_tooLarge (h : v.toInteger = .error .tooLarge) : IsEndless v := by
  unfold toInteger at h
  split at h
  case h_3 negative => exact ⟨negative, rfl⟩
  case h_6 => split at h <;> cases h
  all_goals cases h

theorem eq_of_nonNull?_eq_some {w : Value} (h : v.nonNull? = some w) : v = w := by
  cases v <;> first | exact Option.some.inj h | cases h

theorem optionalInt_breaks (es : Entries) (name : String) :
    Breaks (optionalInt es name) fun b => IsEndless (field es name) ∧ .tooLarge = b := by
  -- No reading but that of an infinite number is too large.
  have not_endless {r : Except Breach Int} (hr : (field es name).toInteger = r) (h : r ≠ .error .tooLarge) (b : Breach) :
      ¬ (IsEndless (field es name) ∧ .tooLarge = b) := fun he =>
    h (hr ▸ (tooLarge_of_isEndless he.1).2)
  unfold optionalInt
  split
  · next hnull =>
    refine .ok_of_not fun b hb => ?_
    rw [(tooLarge_of_isEndless hb.1).1] at hnull
    cases hnull
  · next hsome =>
    obtain rfl := eq_of_nonNull?_eq_some hsome
    split
    · next hn => exact .ok_of_not (not_endless hn nofun)
    · next hlarge => exact Breaks.breach.congr fun b => by simp [isEndless_of_tooLarge hlarge]
    · next hne hother => exact .shape_of_not (not_endless hother fun h => hne (Except.error.inj h))

theorem eq_null_of_nonNull?_eq_none (h : v.nonNull? = none) : v = .null := by cases v <;> first | rfl | cases h

theorem optionalInt_eq_none_iff : optionalInt es name = .ok none ↔ field es name = .null := by
  unfold optionalInt
  split
  · next h => exact ⟨fun _ => eq_null_of_nonNull?_eq_none h, fun _ => rfl⟩
  · next h =>
    refine ⟨fun hnone => ?_, fun hnull => by rw [hnull] at h; cases h⟩
    split at hnone <;> cases hnone

theorem optionalIntIn_breaks (es fallback : Entries) (name : String) : Breaks (optionalIntIn es fallback name) fun b =>
    (IsEndless (field es name) ∨ field es name = .null ∧ IsEndless (field fallback name)) ∧ .tooLarge = b := by
  refine ((optionalInt_breaks es name).bind (Q := fun own b =>
    own = none ∧ IsEndless (field fallback name) ∧ .tooLarge = b) fun own _ => ?_).congr fun b => ?_
  · cases own with
    | none => exact (optionalInt_breaks fallback name).congr fun b => by simp
    | some n => exact .ok_of_not nofun
  · rw [← optionalInt_eq_none_iff]
    constructor
    · rintro (⟨h, hb⟩ | ⟨own, hown, rfl, h, hb⟩)
      · exact ⟨.inl h, hb⟩
      · exact ⟨.inr ⟨hown, h⟩, hb⟩
    · rintro ⟨h | ⟨hown, h⟩, hb⟩
      · exact .inl ⟨h, hb⟩
      · exact .inr ⟨none, hown, rfl, h, hb⟩

theorem optionalIntIn_nil (es : Entries) (name : String) : optionalIntIn es [] name = optionalInt es name := by
  unfold optionalIntIn
  cases optionalInt es name with
  | error f => rfl
  | ok own => cases own <;> rfl

/-- The durations of an inquiry, the one for remembering answers first. -/
theorem durations_breaks (es fallback : Entries) (make : Option Int → Option Int → Condition) :
    Breaks (do return make (← optionalInt es "cacheDurationMs") (← optionalIntIn es fallback "debounceMs")) fun b =>
      Endless es fallback ∧ .tooLarge = b := by
  refine ((optionalInt_breaks es _).bind fun ms hms => (optionalIntIn_breaks es fallback _).map (make ms)).congr fun b =>
    ⟨?_, ?_⟩
  · rintro (⟨h, rfl⟩ | ⟨ms, hms, h | ⟨hown, h⟩, rfl⟩)
    · exact ⟨.cache h, rfl⟩
    · exact ⟨.debounce hms h, rfl⟩
    · exact ⟨.fallback hms hown h, rfl⟩
  · rintro ⟨h | ⟨hms, h⟩ | ⟨hms, hown, h⟩, rfl⟩
    · exact .inl ⟨h, rfl⟩
    · exact .inr ⟨_, hms, .inl h, rfl⟩
    · exact .inr ⟨_, hms, .inr ⟨hown, h⟩, rfl⟩

end Condition

/-! ## Requests -/

/-- Reading a request that names a URL breaks on its parameters or, if it does not, on its headers. -/
inductive Request.Trips : Value → Breach → Prop
  | queryParams {es : Entries} {b : Breach} (hurl : (field es "url").given = true) (h : Unmappable (field es "queryParams") b) :
    Trips (.map es) b
  | headers {es params : Entries} {b : Breach} (hurl : (field es "url").given = true)
    (hparams : (field es "queryParams").toMapping = .ok params) (h : Unmappable (field es "headers") b) : Trips (.map es) b

namespace Request

theorem parse_breaks (v : Value) : Breaks (parse v) (Trips v) := by
  unfold parse
  split
  · next es =>
    cases hurl : (field es "url").given with
    | false =>
      simp only [hurl, Bool.not_false, ↓reduceIte]
      refine Breaks.shape_of_not fun b h => ?_
      rcases h with ⟨h, -⟩ | ⟨h, -, -⟩ <;> simp [hurl] at h
    | true =>
      simp only [hurl, Bool.not_true, Bool.false_eq_true, ↓reduceIte]
      refine ((toMapping_breaks _).bind fun ps hps => (toMapping_breaks _).map _).congr fun b => ⟨?_, ?_⟩
      · rintro (h | ⟨ps, hps, h⟩)
        · exact .queryParams hurl h
        · exact .headers hurl hps h
      · rintro (⟨-, h⟩ | ⟨-, hps, h⟩)
        · exact .inl h
        · exact .inr ⟨_, hps, h⟩
  · next h => exact .shape_of_not fun b ht => by cases ht <;> exact h _ rfl

end Request

/-! ## Conditions -/

namespace Condition
variable {es : Entries} {v : Value} {b : Breach}

theorem require_breaks (es : Entries) (name : String) (alternative : Option String) :
    Breaks (require es name alternative) fun _ => False := by
  unfold require
  split
  · exact .ok
  · exact .shape

/-- What is asked for under one name is there, unless it is `null`. -/
theorem require_eq_ok_iff {name : String} {w : Value} :
    require es name none = .ok w ↔ field es name = w ∧ w ≠ .null := by
  have hiff : (field es name).nonNull? = some w ↔ field es name = w ∧ w ≠ .null := by
    cases field es name <;> simp only [nonNull?, Option.some.injEq, reduceCtorEq, false_iff, iff_self_and, not_and,
      not_not] <;> rintro rfl <;> simp
  rw [← hiff, require, Option.bind_none, Option.orElse_eq_orElse, Option.orElse_eq_or, Option.or_none]
  cases (field es name).nonNull? <;> simp

theorem requireOperator_breaks (es : Entries) :
    Breaks (requireOperator es) fun b => (field es "operator").isHashable = false ∧ .wrongKind = b := by
  unfold requireOperator
  refine ((require_breaks es _ _).bind (Q := fun v b => v.isHashable = false ∧ .wrongKind = b) fun v hv => ?_).congr
    fun b => ?_
  · cases hhash : v.isHashable with
    | false =>
      simp only [Bool.not_false, ↓reduceIte]
      exact Breaks.breach.congr fun b => by simp
    | true =>
      simp only [Bool.not_true, Bool.false_eq_true, ↓reduceIte]
      split
      · split
        · exact .ok_of_not nofun
        · exact .shape_of_not nofun
      · exact .shape_of_not nofun
  · simp only [require_eq_ok_iff, false_or]
    constructor
    · rintro ⟨v, ⟨rfl, -⟩, hb⟩
      exact hb
    · rintro ⟨h, hb⟩
      exact ⟨_, ⟨rfl, fun hnull => by simp [hnull, isHashable] at h⟩, h, hb⟩

/-- A mapping is the description of a condition of a type. -/
abbrev Typed (es : Entries) (type : ConditionType) : Prop := ConditionType.ofValue (field es "type") = .ok type

/-- The mapping that the durations of a service may also stand in. -/
def requestFields : Value → Entries
  | .map es => es
  | _ => []

/-- Reading the description of a condition breaks; everything that it reads before is in order. -/
inductive Trips : Value → Breach → Prop
  | type {es : Entries} (h : (field es "type").isHashable = false) : Trips (.map es) .wrongKind
  | fieldOperator {es : Entries} (htype : Typed es .fieldValue) (hpath : field es "fieldPath" ≠ .null)
    (h : (field es "operator").isHashable = false) : Trips (.map es) .wrongKind
  | formOperator {es : Entries} (htype : Typed es .formValue) (h : (field es "operator").isHashable = false) :
    Trips (.map es) .wrongKind
  | part {es : Entries} {kind : SeqKind} {before after : List Value} {w : Value} {b : Breach}
    (htype : Typed es .all ∨ Typed es .any) (hparts : field es "conditions" = .seq kind (before ++ w :: after))
    (hbefore : ∀ u ∈ before, ∃ c, parse u = .ok c) (h : Trips w b) : Trips (.map es) b
  | request {es : Entries} {raw : Value} {b : Breach} (htype : Typed es .remote)
    (hraw : require es "request" (some "http") = .ok raw) (h : Request.Trips raw b) : Trips (.map es) b
  | params {es : Entries} {name : Value} {b : Breach} (htype : Typed es .async)
    (hname : require es "functionName" (some "asyncFunctionName") = .ok name) (h : Unmappable (field es "params") b) :
    Trips (.map es) b
  | remoteDuration {es : Entries} {raw : Value} {r : Request} (htype : Typed es .remote)
    (hraw : require es "request" (some "http") = .ok raw) (hrequest : Request.parse raw = .ok r)
    (h : Endless es (requestFields raw)) : Trips (.map es) .tooLarge
  | asyncDuration {es : Entries} {name : Value} {params : Entries} (htype : Typed es .async)
    (hname : require es "functionName" (some "asyncFunctionName") = .ok name)
    (hparams : (field es "params").toMapping = .ok params) (h : Endless es []) : Trips (.map es) .tooLarge

theorem parseList_eq (items : List Value) : parseList items = items.mapM parse := by
  induction items with
  | nil => rfl
  | cons v items ih => rw [parseList, List.mapM_cons, ih]

theorem toTest_breaks (composite : String) (c : Condition) : Breaks (c.toTest composite) fun _ => False := by
  cases c with
  | test t => exact .ok
  | inquiry i => exact .shape

theorem parseRemote_breaks (es : Entries) : Breaks (parseRemote es) fun b => ∃ raw,
    require es "request" (some "http") = .ok raw ∧ (Request.Trips raw b ∨
      ∃ r, Request.parse raw = .ok r ∧ Endless es (requestFields raw) ∧ .tooLarge = b) := by
  unfold parseRemote
  refine ((require_breaks es _ _).bind fun raw _ => (Request.parse_breaks raw).bind fun r _ =>
    durations_breaks es (requestFields raw) _).congr fun b => by simp

theorem parseAsync_breaks (es : Entries) : Breaks (parseAsync es) fun b => ∃ name,
    require es "functionName" (some "asyncFunctionName") = .ok name ∧ (Unmappable (field es "params") b ∨
      ∃ params, (field es "params").toMapping = .ok params ∧ Endless es [] ∧ .tooLarge = b) := by
  unfold parseAsync
  simp only [← optionalIntIn_nil es "debounceMs"]
  exact ((require_breaks es _ _).bind fun name _ => (toMapping_breaks _).bind fun params _ =>
    durations_breaks es [] _).congr fun b => by simp

/-- Reading the parts of a composite breaks on one of them. -/
def PartsTrip (v : Value) (b : Breach) : Prop :=
  ∃ kind before w after, v = .seq kind (before ++ w :: after) ∧ (∀ u ∈ before, ∃ c, parse u = .ok c) ∧ Trips w b

/-- A composite takes its parts for tests, which tells a cause where one is none. -/
theorem composite_breaks {composite : String} (make : List Test → Condition)
    (h : Breaks (parseParts composite es) (PartsTrip (field es "conditions"))) :
    Breaks (do return make (← (← parseParts composite es).mapM (toTest composite)))
      (PartsTrip (field es "conditions")) := by
  refine (h.bind fun cs _ => (Breaks.mapM fun c _ => toTest_breaks composite c).map make).congr fun b => ?_
  simp

theorem not_trips_of_not_map (h : ∀ es, v ≠ .map es) (b : Breach) : ¬ Trips v b := by
  intro ht
  cases ht <;> exact h _ rfl

theorem isHashable_of_typed {type : ConditionType} (h : Typed es type) : (field es "type").isHashable = true := by
  cases hhash : (field es "type").isHashable with
  | true => rfl
  | false =>
    have := ((ConditionType.ofValue_breaks (field es "type")).exact .wrongKind).mpr ⟨hhash, rfl⟩
    rw [h] at this
    cases this

/-- What a description breaks on, by its type. -/
def TripsAs (es : Entries) : ConditionType → Breach → Prop
  | .fieldValue, b => field es "fieldPath" ≠ .null ∧ (field es "operator").isHashable = false ∧ .wrongKind = b
  | .formValue, b => (field es "operator").isHashable = false ∧ .wrongKind = b
  | .expression, _ | .custom, _ => False
  | .all, b | .any, b => PartsTrip (field es "conditions") b
  | .remote, b => ∃ raw, require es "request" (some "http") = .ok raw ∧ (Request.Trips raw b ∨
      ∃ r, Request.parse raw = .ok r ∧ Endless es (requestFields raw) ∧ .tooLarge = b)
  | .async, b => ∃ name, require es "functionName" (some "asyncFunctionName") = .ok name ∧
      (Unmappable (field es "params") b ∨ ∃ params, (field es "params").toMapping = .ok params ∧ Endless es [] ∧ .tooLarge = b)

theorem tripsAs_of_trips {type : ConditionType} (htype : Typed es type) (h : Trips (.map es) b) : TripsAs es type b := by
  have same {other : ConditionType} (h : Typed es other) : other = type := Except.ok.inj (h.symm.trans htype)
  cases h with
  | type h =>
    rw [isHashable_of_typed htype] at h
    cases h
  | fieldOperator ht hpath h =>
    cases same ht
    exact ⟨hpath, h, rfl⟩
  | formOperator ht h =>
    cases same ht
    exact ⟨h, rfl⟩
  | part ht hparts hbefore h =>
    rcases ht with ht | ht
    all_goals
      cases same ht
      exact ⟨_, _, _, _, hparts, hbefore, h⟩
  | request ht hraw h =>
    cases same ht
    exact ⟨_, hraw, .inl h⟩
  | params ht hname h =>
    cases same ht
    exact ⟨_, hname, .inl h⟩
  | remoteDuration ht hraw hrequest h =>
    cases same ht
    exact ⟨_, hraw, .inr ⟨_, hrequest, h, rfl⟩⟩
  | asyncDuration ht hname hparams h =>
    cases same ht
    exact ⟨_, hname, .inr ⟨_, hparams, h, rfl⟩⟩

theorem trips_of_tripsAs {type : ConditionType} (htype : Typed es type) (h : TripsAs es type b) : Trips (.map es) b := by
  cases type with
  | fieldValue =>
    obtain ⟨hpath, h, rfl⟩ := h
    exact .fieldOperator htype hpath h
  | formValue =>
    obtain ⟨h, rfl⟩ := h
    exact .formOperator htype h
  | expression => cases h
  | custom => cases h
  | all =>
    obtain ⟨_, _, _, _, hparts, hbefore, h⟩ := h
    exact .part (.inl htype) hparts hbefore h
  | any =>
    obtain ⟨_, _, _, _, hparts, hbefore, h⟩ := h
    exact .part (.inr htype) hparts hbefore h
  | remote =>
    obtain ⟨raw, hraw, h | ⟨r, hrequest, h, rfl⟩⟩ := h
    · exact .request htype hraw h
    · exact .remoteDuration htype hraw hrequest h
  | async =>
    obtain ⟨name, hname, h | ⟨params, hparams, h, rfl⟩⟩ := h
    · exact .params htype hname h
    · exact .asyncDuration htype hname hparams h

theorem typed_of_trips (h : Trips (.map es) b) :
    ((field es "type").isHashable = false ∧ .wrongKind = b) ∨ ∃ type, Typed es type := by
  cases h with
  | type h => exact .inl ⟨h, rfl⟩
  | part ht => exact .inr (ht.elim (⟨_, ·⟩) (⟨_, ·⟩))
  | fieldOperator ht | formOperator ht | request ht | params ht | remoteDuration ht | asyncDuration ht => exact .inr ⟨_, ht⟩

theorem trips_map_iff : Trips (.map es) b ↔
    ((field es "type").isHashable = false ∧ .wrongKind = b) ∨ ∃ type, Typed es type ∧ TripsAs es type b := by
  constructor
  · intro h
    exact (typed_of_trips h).imp_right fun ⟨type, htype⟩ => ⟨type, htype, tripsAs_of_trips htype h⟩
  · rintro (⟨h, rfl⟩ | ⟨type, htype, h⟩)
    · exact .type h
    · exact trips_of_tripsAs htype h

mutual

theorem parse_breaks (v : Value) : Breaks (parse v) (Trips v) := by
  cases v with
  | bool a => exact .ok_of_not (not_trips_of_not_map nofun)
  | undefined => exact .shape_of_not (not_trips_of_not_map nofun)
  | null => exact .shape_of_not (not_trips_of_not_map nofun)
  | num n => exact .shape_of_not (not_trips_of_not_map nofun)
  | text s => exact .shape_of_not (not_trips_of_not_map nofun)
  | seq kind items => exact .shape_of_not (not_trips_of_not_map nofun)
  | map es =>
    rw [parse]
    refine ((ConditionType.ofValue_breaks (field es "type")).bind (Q := TripsAs es) fun type _ => ?_).congr
      fun b => trips_map_iff.symm
    cases type with
    | fieldValue =>
      refine ((require_breaks es _ _).bind (Q := fun _ b => (field es "operator").isHashable = false ∧ .wrongKind = b)
        fun path _ => (requireOperator_breaks es).map _).congr fun b => ?_
      simp [require_eq_ok_iff, TripsAs]
    | formValue => exact (requireOperator_breaks es).map _
    | expression => exact (require_breaks es _ _).map _
    | custom => exact (require_breaks es _ _).map _
    | all => exact composite_breaks (.test ∘ .all) (parseParts_breaks "and" es)
    | any => exact composite_breaks (.test ∘ .any) (parseParts_breaks "or" es)
    | remote => exact parseRemote_breaks es
    | async => exact parseAsync_breaks es

theorem parseParts_breaks (composite : String) (es : List (Key × Value)) :
    Breaks (parseParts composite es) (PartsTrip (field es "conditions")) := by
  cases es with
  | nil => exact .ok_of_not nofun
  | cons e es =>
    obtain ⟨k, v⟩ := e
    rw [parseParts]
    split
    · next h =>
      rw [h]
      exact parseItems_breaks composite v
    · next h =>
      rw [field, field?, Table.get?_cons_of_ne h]
      exact parseParts_breaks composite es

theorem parseItems_breaks (composite : String) (v : Value) : Breaks (parseItems composite v) (PartsTrip v) := by
  unfold parseItems
  split
  · next kind items =>
    rw [parseList_eq]
    refine (Breaks.mapM (parseList_breaks items)).congr fun b => ?_
    simp [PartsTrip]
  · next h =>
    split
    · exact .shape_of_not fun b ⟨_, _, _, _, hv, _⟩ => h _ _ hv
    · exact .ok_of_not fun b ⟨_, _, _, _, hv, _⟩ => h _ _ hv

theorem parseList_breaks (items : List Value) (v : Value) (hv : v ∈ items) : Breaks (parse v) (Trips v) := by
  cases items with
  | nil => cases hv
  | cons w items =>
    rcases List.mem_cons.mp hv with rfl | hv
    · exact parse_breaks v
    · exact parseList_breaks items v hv

end

/-- Whatever is malformed, reading a description gives a condition or tells the cause, unless it breaks on data that it
cannot ask; and then the breach is the one of the first such data. -/
theorem parse_malformed (v : Value) :
    ((∃ c, parse v = .ok c) ∨ (∃ cause, parse v = .error (.shape cause)) ↔ ∀ b, ¬ Trips v b) ∧
      ∀ b, parse v = .error (.breach b) ↔ Trips v b := by
  have h := parse_breaks v
  refine ⟨⟨?_, fun hnot => ?_⟩, h.exact⟩
  · rintro (⟨c, hc⟩ | ⟨cause, hcause⟩) b hb
    · have := (h.exact b).mpr hb
      rw [hc] at this
      cases this
    · have := (h.exact b).mpr hb
      rw [hcause] at this
      cases this
  · cases hv : parse v with
    | ok c => exact .inl ⟨c, rfl⟩
    | error f =>
      obtain ⟨cause, rfl⟩ | ⟨b, rfl⟩ := h.told f hv
      · exact .inr ⟨cause, rfl⟩
      · exact absurd ((h.exact b).mp hv) (hnot b)

example : parse (.object [("type", .text "or"), ("conditions", .list [.bool true, .object [("type", .list [.text "and"])]])]) =
    .error (.breach .wrongKind) := rfl

end Condition
end FormRules
