import FormRules.Proofs.Store.Table
import FormRules.Value.Equality

/-!
# Equality of values

A value without NaN equals itself. Mappings are compared by looking keys up, so that this takes
mappings without two entries of one key.

Two values are alike if they differ in the order of the entries of mappings only, numbers being compared by
where they stand, a NaN being like a NaN, and booleans being no numbers. This is the equality that keys of
caches stand for.
-/

namespace FormRules

theorem Standing.eq_self {s : Standing} (h : s ≠ .nowhere) : s.eq s = true := by
  cases s with
  | nowhere => exact absurd rfl h
  | _ => simp [eq]

theorem Number.standing_ne_nowhere {a : Number} (h : a.isNaN = false) : a.standing ≠ .nowhere := by
  cases a with
  | int n => exact nofun
  | float x =>
    cases x with
    | nan => cases h
    | infinity s => cases s <;> exact nofun
    | negativeZero => exact nofun
    | finite n h => exact nofun

theorem Number.eq_self {a : Number} (h : a.isNaN = false) : a.eq a = true :=
  Standing.eq_self (standing_ne_nowhere h)

theorem Key.isName_iff {k : Key} : k.isName = true ↔ ∃ s, k = .name s := by cases k <;> simp [isName]

theorem Number.eq_nan (a : Number) : a.eq .nan = false := by
  rw [eq, show Number.nan.standing = .nowhere from rfl]
  cases a.standing <;> rfl

namespace Value

mutual

/-- Whether no mapping inside the value has two entries of one key. -/
def hasDistinctKeys : Value → Bool
  | .seq _ items => allDistinctKeys items
  | .map es => (es.map (·.1)).Nodup && entriesDistinctKeys es
  | .undefined | .null | .bool _ | .num _ | .text _ => true

/-- Whether this holds of all items. -/
def allDistinctKeys : List Value → Bool
  | [] => true
  | v :: vs => hasDistinctKeys v && allDistinctKeys vs

/-- Whether this holds of the values of all entries. -/
def entriesDistinctKeys : List (Key × Value) → Bool
  | [] => true
  | (_, v) :: es => hasDistinctKeys v && entriesDistinctKeys es

end

theorem allDistinctKeys_iff {items : List Value} :
    allDistinctKeys items = true ↔ ∀ v ∈ items, v.hasDistinctKeys = true := by
  induction items with
  | nil => simp [allDistinctKeys]
  | cons v items ih => simp [allDistinctKeys, ih]

theorem entriesDistinctKeys_iff {es : Entries} :
    entriesDistinctKeys es = true ↔ ∀ e ∈ es, e.2.hasDistinctKeys = true := by
  induction es with
  | nil => simp [entriesDistinctKeys]
  | cons e es ih => simp [entriesDistinctKeys, ih]

mutual

theorem strictEq_self (v : Value) (hn : v.hasNaN = false) (hd : v.hasDistinctKeys = true) :
    v.strictEq v = true := by
  cases v with
  | undefined => rw [strictEq]
  | null => rw [strictEq]
  | bool b => simp [strictEq]
  | num n => rw [strictEq]; exact Number.eq_self hn
  | text s => simp [strictEq]
  | seq kind items => rw [strictEq]; exact strictEqItems_self items hn hd
  | map es =>
    rw [hasDistinctKeys, Bool.and_eq_true, decide_eq_true_iff] at hd
    have found (e : Key × Value) (he : e ∈ es) : Table.get? es e.1 = some e.2 := Table.get?_of_mem hd.1 he
    rw [strictEq, strictEqEntries_self es es found hn hd.2, Bool.true_and, List.all_eq_true]
    intro e he
    rw [Table.has, found e he]
    rfl

theorem strictEqItems_self (items : List Value) (hn : hasNaNItem items = false)
    (hd : allDistinctKeys items = true) : strictEqItems items items = true := by
  cases items with
  | nil => rw [strictEqItems]
  | cons v vs =>
    rw [hasNaNItem, Bool.or_eq_false_iff] at hn
    rw [allDistinctKeys, Bool.and_eq_true] at hd
    rw [strictEqItems, strictEq_self v hn.1 hd.1, strictEqItems_self vs hn.2 hd.2, Bool.and_self]

theorem strictEqEntries_self (es fs : Entries) (hf : ∀ e ∈ es, Table.get? fs e.1 = some e.2)
    (hn : hasNaNEntry es = false) (hd : entriesDistinctKeys es = true) : strictEqEntries es fs = true := by
  cases es with
  | nil => rw [strictEqEntries]
  | cons e es =>
    obtain ⟨k, v⟩ := e
    rw [hasNaNEntry, Bool.or_eq_false_iff] at hn
    rw [entriesDistinctKeys, Bool.and_eq_true] at hd
    rw [strictEqEntries, hf (k, v) List.mem_cons_self]
    dsimp only
    rw [strictEq_self v hn.1 hd.1, Bool.true_and]
    exact strictEqEntries_self es fs (fun e he => hf e (List.mem_cons_of_mem _ he)) hn.2 hd.2

end

theorem undefined_strictEq_iff {v : Value} : Value.undefined.strictEq v = true ↔ v = .undefined := by
  cases v <;> simp [strictEq]

/-! ## Values that are alike -/

/-- Induction over values, with what holds of the items and of the values of the entries. -/
@[elab_as_elim]
theorem induct {P : Value → Prop} (undefined : P .undefined) (null : P .null) (bool : ∀ b, P (.bool b))
    (num : ∀ n, P (.num n)) (text : ∀ s, P (.text s))
    (seq : ∀ kind items, (∀ v ∈ items, P v) → P (.seq kind items))
    (map : ∀ es : Entries, (∀ e ∈ es, P e.2) → P (.map es)) (v : Value) : P v := by
  refine @Value.rec P (fun items => ∀ v ∈ items, P v) (fun es => ∀ e ∈ es, P e.2) (fun e => P e.2)
    undefined null bool num text seq map nofun ?items nofun ?entries (fun _ _ h => h) v
  case items => exact fun _ _ hv hvs => List.forall_mem_cons.mpr ⟨hv, hvs⟩
  case entries => exact fun _ _ he hes => List.forall_mem_cons.mpr ⟨he, hes⟩

mutual

/-- Whether the value is data that JSON can write, `undefined` and the words for numbers added: its
sequences are lists, and its mappings have names for keys, no two of them the same. -/
def isJson : Value → Bool
  | .undefined | .null | .bool _ | .num _ | .text _ => true
  | .seq kind items => kind = .list && allJson items
  | .map es => (es.map (·.1)).Nodup && entriesJson es

/-- Whether this holds of all items. -/
def allJson : List Value → Bool
  | [] => true
  | v :: vs => isJson v && allJson vs

/-- Whether the keys are names, and this holds of the values. -/
def entriesJson : List (Key × Value) → Bool
  | [] => true
  | (k, v) :: es => k.isName && isJson v && entriesJson es

end

mutual

/-- Equality up to the order of entries and the writing of numbers. -/
def alike : Value → Value → Bool
  | .undefined, .undefined | .null, .null => true
  | .bool a, .bool b => a = b
  | .num a, .num b => a.eq b || (a.isNaN && b.isNaN)
  | .text a, .text b => a = b
  | .seq j as, .seq k bs => j = k && alikeItems as bs
  | .map as, .map bs => as.length = bs.length && alikeEntries as bs
  | _, _ => false

def alikeItems : List Value → List Value → Bool
  | [], [] => true
  | a :: as, b :: bs => alike a b && alikeItems as bs
  | _, _ => false

/-- Every entry of the first has one in the second that is alike. -/
def alikeEntries : List (Key × Value) → List (Key × Value) → Bool
  | [], _ => true
  | (k, a) :: as, bs =>
    (match Table.get? bs k with
      | some b => alike a b
      | none => false) && alikeEntries as bs

end

theorem allJson_iff {items : List Value} : allJson items = true ↔ ∀ v ∈ items, v.isJson = true := by
  induction items with
  | nil => simp [allJson]
  | cons v vs ih => simp [allJson, ih]

theorem entriesJson_iff {es : Entries} :
    entriesJson es = true ↔ ∀ e ∈ es, e.1.isName = true ∧ e.2.isJson = true := by
  induction es with
  | nil => simp [entriesJson]
  | cons e es ih => simp [entriesJson, ih]

theorem alikeEntries_iff {es fs : Entries} :
    alikeEntries es fs = true ↔ ∀ e ∈ es, ∃ b, Table.get? fs e.1 = some b ∧ e.2.alike b = true := by
  induction es with
  | nil => simp [alikeEntries]
  | cons e es ih =>
    obtain ⟨k, a⟩ := e
    rw [alikeEntries, Bool.and_eq_true, ih, List.forall_mem_cons]
    cases Table.get? fs k with
    | none => simp
    | some b => simp

end Value
end FormRules
