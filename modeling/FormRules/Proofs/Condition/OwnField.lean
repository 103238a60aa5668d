import FormRules.Condition.Dependence
import FormRules.Condition.Eval
import FormRules.Proofs.Value.Place

/-!
# The target's own field

Whether a path names the target of a rule is told from keys alone: it has the same keys, or, inside of an
array item, the keys of the target from the item on. What is read under the path is a matter of the data:
the item is asked first, and the whole form where there is no item or the item has no such field. The two
agree as long as the item answers a relative path, and does not answer a full one.
-/

namespace FormRules

namespace Path
variable {p t front rest : List Key} {n : Int}

/-- The path of the array item that a path runs through: up to its last index, unless that is its first
key. -/
def toItem (t : List Key) : List Key :=
  match t.reverse.dropWhile fun k => !k.isIndex with
  | i :: k :: ks => (i :: k :: ks).reverse
  | _ => []

/-- A path has no index, or splits at its last one. -/
theorem names_or_lastIndex (t : List Key) : (∀ k ∈ t, k.isIndex = false) ∨
    ∃ front n rest, t = front ++ .index n :: rest ∧ ∀ k ∈ rest, k.isIndex = false := by
  induction t with
  | nil => exact .inl nofun
  | cons k t ih =>
    rcases ih with ht | ⟨front, n, rest, rfl, hrest⟩
    · cases k with
      | index n => exact .inr ⟨[], n, t, rfl, ht⟩
      | _ => exact .inl (List.forall_mem_cons.mpr ⟨rfl, ht⟩)
    · exact .inr ⟨k :: front, n, rest, rfl, hrest⟩

theorem afterLastIndex?_of_names (h : ∀ k ∈ t, k.isIndex = false) : afterLastIndex? t = none := by
  induction t with
  | nil => rfl
  | cons k t ih =>
    obtain ⟨hk, ht⟩ := List.forall_mem_cons.mp h
    simp [afterLastIndex?, ih ht, hk]

theorem afterLastIndex?_append (h : ∀ k ∈ rest, k.isIndex = false) :
    afterLastIndex? (front ++ .index n :: rest) = some rest := by
  induction front with
  | nil => simp [afterLastIndex?, afterLastIndex?_of_names h, Key.isIndex]
  | cons k front ih => simp [afterLastIndex?, ih]

theorem dropWhile_reverse (h : ∀ k ∈ rest, k.isIndex = false) :
    (front ++ .index n :: rest).reverse.dropWhile (fun k => !k.isIndex) = .index n :: front.reverse := by
  rw [List.reverse_append, List.reverse_cons, List.append_assoc, List.dropWhile_append_of_pos]
  · rfl
  · intro k hk
    simp [h k (List.mem_reverse.mp hk)]

theorem toItem_of_names (h : ∀ k ∈ t, k.isIndex = false) : toItem t = [] := by
  have ht : (t.reverse ++ []).dropWhile (fun k : Key => !k.isIndex) = [] :=
    List.dropWhile_append_of_pos fun k hk => by simp [h k (List.mem_reverse.mp hk)]
  rw [toItem, ← List.append_nil t.reverse, ht]

theorem toItem_append (h : ∀ k ∈ rest, k.isIndex = false) :
    toItem (front ++ .index n :: rest) = if front = [] then [] else front ++ [.index n] := by
  rw [toItem, dropWhile_reverse h]
  cases hf : front.reverse with
  | nil => simp [List.reverse_eq_nil_iff.mp hf]
  | cons k ks =>
    obtain rfl : front = (k :: ks).reverse := by rw [← hf, List.reverse_reverse]
    simp

/-- A path that designates a target of other keys is what follows the last index of the target. -/
theorem of_designates (h : designates p t = true) (hne : p ≠ t) :
    ∃ front n, t = front ++ .index n :: p ∧ ∀ k ∈ p, k.isIndex = false := by
  have ha : afterLastIndex? t = some p := by
    simp only [designates, Bool.and_eq_true, Bool.or_eq_true, decide_eq_true_eq] at h
    exact h.2.resolve_left hne
  rcases names_or_lastIndex t with ht | ⟨front, n, rest, rfl, hrest⟩
  · rw [afterLastIndex?_of_names ht] at ha
    cases ha
  · rw [afterLastIndex?_append hrest] at ha
    cases ha
    exact ⟨front, n, rfl, hrest⟩

theorem ne_nil_of_designates (h : designates p t = true) : p ≠ [] := by
  intro hp
  subst hp
  cases h

end Path

namespace Value
variable {v root : Value} {p q : List Key}

theorem walk?_append : v.walk? (p ++ q) = (v.walk? p).bind (·.walk? q) := by
  induction p generalizing v with
  | nil => rfl
  | cons k p ih =>
    rw [List.cons_append, walk?, walk?, Option.bind_assoc]
    exact congrArg _ (funext fun c => ih)

theorem walk?_undefined (h : p ≠ []) : Value.undefined.walk? p = none := by
  cases p with
  | nil => contradiction
  | cons k p => rfl

/-- What lies at the end of a path lies in what is at the end of its first part. -/
theorem getPath_append (hp : p ≠ []) (hq : q ≠ []) : v.getPath (p ++ q) = (v.getPath p).getPath q := by
  rw [getPath, getPath, getPath, if_neg (by simp [hp]), if_neg (by simpa using hq), if_neg (by simpa using hp),
    walk?_append]
  cases v.walk? p with
  | none => rw [Option.getD_none, walk?_undefined hq]; rfl
  | some c => rfl

theorem hasPath_undefined : Value.undefined.hasPath p = false := by cases p <;> rfl

theorem eq_undefined (h : v.isUndefined = true) : v = .undefined := by
  cases v <;> first | rfl | cases h

end Value

namespace Context
variable {root external : Value} {p t front rest : List Key} {n : Int}

theorem arrayItem?_go_of_names {ks : List Key} (h : ∀ k ∈ t, k.isIndex = false) :
    arrayItem?.go root (t ++ ks) = arrayItem?.go root ks := by
  induction t with
  | nil => rfl
  | cons k t ih =>
    obtain ⟨hk, ht⟩ := List.forall_mem_cons.mp h
    cases k with
    | index n => cases hk
    | _ => rw [List.cons_append, arrayItem?.go, ih ht]; exact nofun

/-- The item of a context is the one at `Path.toItem`. -/
theorem arrayItem?_eq (root : Value) (t : List Key) : (arrayItem? root t).map (·.1) =
    if Path.toItem t = [] then none else some (root.getPath (Path.toItem t)) := by
  rcases Path.names_or_lastIndex t with ht | ⟨front, n, rest, rfl, hrest⟩
  · rw [Path.toItem_of_names ht, arrayItem?, ← List.append_nil t.reverse,
      arrayItem?_go_of_names fun k hk => ht k (List.mem_reverse.mp hk)]
    rfl
  · rw [Path.toItem_append hrest, arrayItem?, List.reverse_append, List.reverse_cons, List.append_assoc,
      arrayItem?_go_of_names fun k hk => hrest k (List.mem_reverse.mp hk)]
    cases hf : front.reverse with
    | nil =>
      rw [List.reverse_eq_nil_iff.mp hf]
      rfl
    | cons k ks =>
      obtain rfl : front = (k :: ks).reverse := by rw [← hf, List.reverse_reverse]
      simp [arrayItem?.go]

/-- What is read at a path: the item is asked first, the whole form where there is no item, or the item is
a mapping without the path. -/
theorem fieldAt_forKeys {current : Option Value} : (forKeys root t external current).fieldAt p =
    if (root.getPath (Path.toItem t)).isUndefined || (root.getPath (Path.toItem t)).isMap &&
      !(root.getPath (Path.toItem t)).hasPath p then root.getPath p
    else (root.getPath (Path.toItem t)).getPath p := by
  have hitem := arrayItem?_eq root t
  cases ha : arrayItem? root t with
  | none =>
    have ht : Path.toItem t = [] := by
      rw [ha] at hitem
      split at hitem
      · assumption
      · cases hitem
    simp [fieldAt, isArrayScoped, forKeys, ha, ht, Value.getPath, Value.isUndefined]
  | some i =>
    obtain ⟨item, n, array⟩ := i
    obtain ⟨-, hi⟩ : Path.toItem t ≠ [] ∧ item = root.getPath (Path.toItem t) := by simpa [ha] using hitem
    rw [← hi]
    cases hu : item.isUndefined <;> cases hm : item.isMap <;> cases hp : item.hasPath p <;>
      simp [fieldAt, isArrayScoped, forKeys, ha, hu, hm, hp]

variable {path target : String}

theorem designates_of_sameField (hp : Path.keys path = .ok p) (ht : Path.keys target = .ok t)
    (h : Path.sameField path target = .ok true) : Path.designates p t = true := by
  rw [Path.sameField, hp, ht] at h
  exact Except.ok.inj h

/-- A path that names the target is read as the target's own field where the array item, if there is one,
answers a relative path and does not answer a full one. Otherwise the order of asking shows: a missing
item, or one that is a mapping without the field, leaves a relative path to the whole form, and an item that
has the full path inside of it answers with that. -/
theorem fieldAt_of_sameField (hp : Path.keys path = .ok p) (ht : Path.keys target = .ok t)
    (h : Path.sameField path target = .ok true) (root external : Value) :
    let item := root.getPath (Path.toItem t)
    let read := (forKeys root t external none).fieldAt p
    (p = t → (item.isUndefined || item.isMap) = true →
      read = if item.hasPath t then item.getPath t else root.getPath t) ∧
    (p ≠ t → Path.toItem t ≠ [] →
      read = if item.isUndefined || item.isMap && !item.hasPath p then root.getPath p else root.getPath t) := by
  have hd : Path.designates p t = true := designates_of_sameField hp ht h
  dsimp only
  rw [fieldAt_forKeys]
  constructor
  · rintro rfl hitem
    generalize root.getPath (Path.toItem p) = item at hitem ⊢
    cases hu : item.isUndefined with
    | true => simp [Value.eq_undefined hu, Value.hasPath_undefined]
    | false =>
      rw [hu, Bool.false_or] at hitem
      cases hi : item.hasPath p <;> simp [hitem]
  · intro hne htoItem
    obtain ⟨front, n, rfl, hnames⟩ := Path.of_designates hd hne
    rw [Path.toItem_append hnames] at htoItem ⊢
    have hfront : front ≠ [] := fun hf => htoItem (if_pos hf)
    have hown : root.getPath (front ++ .index n :: p) = (root.getPath (front ++ [.index n])).getPath p := by
      rw [← Value.getPath_append (by simp) (Path.ne_nil_of_designates hd), List.append_assoc]
      rfl
    rw [if_neg hfront, hown]

theorem fieldAt_of_sameField_priced :
    Path.keys "price" = .ok [.name "price"] ∧
    Path.keys "items[0].price" = .ok [.name "items", .index 0, .name "price"] ∧
    Path.sameField "price" "items[0].price" = .ok true ∧
    (forKeys (.object [("price", .int 9), ("items", .list [.object [("price", .int 5)]])])
      [.name "items", .index 0, .name "price"] .undefined none).fieldAt [.name "price"] = .int 5 :=
  have hp : Path.keys "price" = .ok [.name "price"] := rfl
  have ht : Path.keys "items[0].price" = .ok [.name "items", .index 0, .name "price"] := rfl
  have hs : Path.sameField "price" "items[0].price" = .ok true := rfl
  ⟨hp, ht, hs, (fieldAt_of_sameField hp ht hs _ _).2 (by decide) (by decide)⟩

/-- An item without a price is not asked for its own: the price of the form is read in its place. -/
theorem fieldAt_ne_own_of_missing : ¬ ∀ (root : Value) (path target : String) (p t : List Key),
    Path.keys path = .ok p → Path.keys target = .ok t → Path.sameField path target = .ok true →
    (forKeys root t .undefined none).fieldAt p = root.getPath t := by
  intro h
  have hread := h (.object [("price", .int 9), ("items", .list [.map []])]) "price" "items[0].price" _ _
    rfl rfl rfl
  have h9 : Value.int 9 = .undefined := hread
  cases h9

end Context
end FormRules

/-!
## The fields of an array item

Inside of an array item a field is the item's own, if the item has it. If it has not, the form is asked only
for an item that is a mapping, or is `undefined`: below a list, a text, a number or `null`, a field that the
form has is not found.
-/

namespace FormRules

namespace Value
variable {v c : Value} {p : List Key}

theorem getPath_of_walk? (hp : p ≠ []) (h : v.walk? p = some c) : v.getPath p = c := by
  rw [getPath, if_neg (by simpa using hp), h, Option.getD_some]

theorem getPath_of_not_hasPath (h : v.hasPath p = false) : v.getPath p = .undefined := by
  cases p with
  | nil => rfl
  | cons k p =>
    have hnone : v.walk? (k :: p) = none := by simpa [hasPath] using h
    rw [getPath, hnone, Option.getD_none, ite_self]

end Value

namespace Context
variable {root external item : Value} {current : Option Value} {place below p : List Key} {n : Int}

/-- The context of a path through an existing item reads in this item. -/
theorem fieldAt_item (hplace : place ≠ []) (hbelow : ∀ k ∈ below, k.isIndex = false)
    (hitem : root.walk? (place ++ [.index n]) = some item) :
    (forKeys root (place ++ .index n :: below) external current).fieldAt p =
      if item.hasPath p then item.getPath p
      else if item.isUndefined || item.isMap then root.getPath p else .undefined := by
  have hat : root.getPath (Path.toItem (place ++ .index n :: below)) = item := by
    rw [Path.toItem_append hbelow, if_neg hplace, Value.getPath_of_walk? (by simp) hitem]
  rw [fieldAt_forKeys, hat]
  cases hp : item.hasPath p with
  | true =>
    have hu : item.isUndefined = false := by
      cases hu : item.isUndefined with
      | false => rfl
      | true =>
        rw [Value.eq_undefined hu, Value.hasPath_undefined] at hp
        cases hp
    simp [hu]
  | false =>
    rw [Value.getPath_of_not_hasPath hp]
    cases item.isUndefined <;> cases item.isMap <;> simp

/-- A field is read from the item that has it, and from the form otherwise, exactly where the item is a mapping
or `undefined`, has the field, or the form has nothing there either. -/
theorem fieldAt_item_or_root (hplace : place ≠ []) (hbelow : ∀ k ∈ below, k.isIndex = false)
    (hitem : root.walk? (place ++ [.index n]) = some item) (external : Value) (current : Option Value)
    (p : List Key) :
    let read := (forKeys root (place ++ .index n :: below) external current).fieldAt p
    (item.isMap = false → item.isUndefined = false → item.hasPath p = false → read = .undefined) ∧
    (read = (if item.hasPath p then item.getPath p else root.getPath p) ↔
      item.isMap = true ∨ item.isUndefined = true ∨ item.hasPath p = true ∨ root.getPath p = .undefined) := by
  dsimp only
  rw [fieldAt_item hplace hbelow hitem]
  constructor
  · intro hm hu hp
    simp [hm, hu, hp]
  · cases item.hasPath p <;> cases item.isMap <;> cases item.isUndefined <;> simp [eq_comm]

/-- A text has no price: it is not asked of the form. -/
theorem fieldAt_item_or_root_of_tag :
    let root : Value := .object [("tags", .list [.text "a"]), ("price", .int 9)]
    (root.walk? [.name "tags", .index 0] = some (.text "a") ∧ root.getPath [.name "price"] = .int 9) ∧
    (forKeys root [.name "tags", .index 0] .undefined none).fieldAt [.name "price"] = .undefined := by
  intro root
  have hplace : [Key.name "tags"] ≠ [] := by decide
  have hbelow : ∀ k ∈ ([] : List Key), k.isIndex = false := nofun
  have hitem : root.walk? [.name "tags", .index 0] = some (.text "a") := rfl
  have hread := fieldAt_item_or_root hplace hbelow hitem .undefined none [.name "price"]
  exact ⟨⟨hitem, rfl⟩, hread.1 rfl rfl rfl⟩

end Context
end FormRules
