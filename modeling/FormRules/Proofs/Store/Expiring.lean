import FormRules.Proofs.Store.Table
import FormRules.Store.Expiring
import Mathlib.Data.Finset.Card

/-!
# How long an entry is kept

Whatever is done to a table, an entry holds what was stored last under its key, and the entries stand in
the order in which they were stored (`Sound`). A key is found with the last value stored under it, until
that value expires or as many other keys have been stored since as the table has room for. It may be found
for longer: an entry that has been looked up after it expired makes room for another one.
-/

namespace FormRules.Expiring
variable {α : Type}

/-- What can be done to a table. Asking whether a key has a value looks it up as well. -/
inductive Operation (α : Type)
  | put (key : String) (v : α) (lifetime : Int)
  | find (key : String)
  | has (key : String)
  | clear

/-- Something that is done at a moment. -/
structure Event (α : Type) where
  moment : Int
  operation : Operation α

/-- The key that a value is stored under. -/
def Event.stored? (e : Event α) : Option String :=
  match e.operation with
  | .put key _ _ => some key
  | _ => none

/-- The table after one thing more has been done to it. -/
def after (t : Expiring α) (e : Event α) : Expiring α :=
  match e.operation with
  | .put key v lifetime => t.put e.moment key v lifetime
  | .find key | .has key => (t.find? e.moment key).2
  | .clear => t.clear

/-- The table that was empty before all this was done to it, the last thing first. -/
def run (capacity : Nat) (past : List (Event α)) : Expiring α := past.foldr (fun e t => t.after e) { capacity }

/-- A value stored under a key at a moment, to be kept for a while. -/
structure Storing (α : Type) where
  moment : Int
  key : String
  value : α
  lifetime : Int

namespace Storing

def event (s : Storing α) : Event α := ⟨s.moment, .put s.key s.value s.lifetime⟩

/-- The entry that is made of it. -/
def entry (s : Storing α) : String × Kept α := (s.key, ⟨s.value, s.moment + max s.lifetime 0⟩)

/-- Whether it is the last under its key since the table was emptied, and this was done after it. -/
inductive IsLast (s : Storing α) : List (Event α) → List (Event α) → Prop
  | now (past : List (Event α)) : IsLast s (s.event :: past) []
  | still {past later : List (Event α)} {e : Event α} (h : IsLast s past later) (hkey : e.stored? ≠ some s.key)
      (hclear : e.operation ≠ .clear) : IsLast s (e :: past) (e :: later)

end Storing

/-- The keys that something was stored under. -/
def storedKeys (es : List (Event α)) : Finset String := (es.filterMap Event.stored?).toFinset

/-- What is in a table has been stored last under its key, and what was stored last is there unless it has expired
or has had to make way; what was stored after it comes after it. -/
structure Sound (capacity : Nat) (past : List (Event α)) (t : Expiring α) : Prop where
  capacity_eq : t.capacity = capacity
  size_le : t.size ≤ capacity
  nodup : (t.entries.map (·.1)).Nodup
  last : ∀ e ∈ t.entries, ∃ (s : Storing α) (later : List (Event α)), s.IsLast past later ∧ e = s.entry
  there : ∀ (s : Storing α) (later : List (Event α)), s.IsLast past later → (∀ e ∈ later, e.moment < s.entry.2.expires) →
    (storedKeys later).card < capacity →
      ∃ older newer, t.entries = older ++ s.entry :: newer ∧ ∀ e ∈ newer, e.1 ∈ storedKeys later

section
variable {t : Expiring α} {now lifetime : Int} {key : String} {v : α} {e : String × Kept α}
  {older newer : List (String × Kept α)}

theorem mem_of_find? (h : (t.find? now key).1 = some v) :
    ∃ expires, (key, ⟨v, expires⟩) ∈ t.entries ∧ now < expires := by
  unfold find? at h
  split at h
  · cases h
  · next kept hk =>
    split at h
    · cases h
    · next hlt =>
      obtain rfl := Option.some.inj h
      exact ⟨kept.expires, Table.mem_of_get? hk, Int.not_le.mp hlt⟩

/-- Looking a key up changes nothing, or drops the entry of the key, which has expired. -/
theorem find?_cases (t : Expiring α) (now : Int) (key : String) : (t.find? now key).2 = t ∨
    ∃ kept, Table.get? t.entries key = some kept ∧ kept.expires ≤ now ∧
      (t.find? now key).2 = { t with entries := Table.erase t.entries key } := by
  unfold find?
  split
  · exact .inl rfl
  · next kept hk =>
    split
    · next hle => exact .inr ⟨kept, hk, hle, rfl⟩
    · exact .inl rfl

theorem capacity_find? (t : Expiring α) (now : Int) (key : String) : (t.find? now key).2.capacity = t.capacity := by
  obtain ht | ⟨kept, -, -, ht⟩ := t.find?_cases now key <;> rw [ht]

theorem find?_sublist (t : Expiring α) (now : Int) (key : String) : (t.find? now key).2.entries.Sublist t.entries := by
  obtain ht | ⟨kept, -, -, ht⟩ := t.find?_cases now key <;> rw [ht]
  exact List.filter_sublist

theorem mem_of_mem_find? (h : e ∈ (t.find? now key).2.entries) : e ∈ t.entries := (t.find?_sublist now key).subset h

/-- Looking a key up leaves an entry that has not expired in its place. -/
theorem find?_append_cons (hn : (t.entries.map (·.1)).Nodup) (ht : t.entries = older ++ e :: newer)
    (hfresh : now < e.2.expires) :
    ∃ older' newer', (t.find? now key).2.entries = older' ++ e :: newer' ∧ newer' ⊆ newer := by
  obtain hsame | ⟨kept, hkept, hexpired, herased⟩ := t.find?_cases now key
  · rw [hsame]
    exact ⟨older, newer, ht, List.Subset.refl _⟩
  · -- what has been dropped has expired, so it is another entry
    have hne : e.1 ≠ key := by
      rintro rfl
      have hget := Table.get?_of_mem hn (ht ▸ List.mem_append_right _ List.mem_cons_self : e ∈ t.entries)
      obtain rfl := Option.some.inj (hkept.symm.trans hget)
      exact absurd hfresh (Int.not_lt.mpr hexpired)
    refine ⟨Table.erase older key, Table.erase newer key, ?_, fun x hx => Table.mem_of_mem_erase hx⟩
    rw [herased, ht]
    exact Table.erase_append_cons hne

/-- Storing a value drops what the key had before, and the oldest entry of what is left if there is no room. -/
theorem put_cases (t : Expiring α) (now : Int) (key : String) (v : α) (lifetime : Int) :
    ∃ kept, (t.put now key v lifetime).entries = kept ++ [(key, ⟨v, now + max lifetime 0⟩)] ∧
      (kept = Table.erase t.entries key ∧ kept.length < t.capacity ∨
        t.capacity ≤ (Table.erase t.entries key).length ∧ kept = (Table.erase t.entries key).drop 1) := by
  refine ⟨_, rfl, ?_⟩
  split
  · next h => exact .inr ⟨h, rfl⟩
  · next h => exact .inl ⟨rfl, Nat.not_le.mp h⟩

theorem put_sublist (t : Expiring α) (now : Int) (key : String) (v : α) (lifetime : Int) :
    ∃ kept, (t.put now key v lifetime).entries = kept ++ [(key, ⟨v, now + max lifetime 0⟩)] ∧
      kept.Sublist (Table.erase t.entries key) := by
  obtain ⟨kept, hentries, ⟨rfl, -⟩ | ⟨-, rfl⟩⟩ := t.put_cases now key v lifetime
  · exact ⟨_, hentries, List.Sublist.refl _⟩
  · exact ⟨_, hentries, List.drop_sublist _ _⟩

theorem mem_of_mem_put (h : e ∈ (t.put now key v lifetime).entries) :
    e ∈ t.entries ∧ e.1 ≠ key ∨ e = (key, ⟨v, now + max lifetime 0⟩) := by
  obtain ⟨kept, hentries, hsub⟩ := t.put_sublist now key v lifetime
  rw [hentries] at h
  rcases List.mem_append.mp h with h | h
  · have hmem := hsub.subset h
    exact .inl ⟨Table.mem_of_mem_erase hmem, Table.ne_of_mem_erase hmem⟩
  · exact .inr (List.mem_singleton.mp h)

theorem size_put_le (hc : 1 ≤ t.capacity) (h : t.size ≤ t.capacity) : (t.put now key v lifetime).size ≤ t.capacity := by
  obtain ⟨kept, hentries, hkept⟩ := t.put_cases now key v lifetime
  have hle : (Table.erase t.entries key).length ≤ t.size := Table.length_erase_le
  rw [size, hentries, List.length_append, List.length_singleton]
  obtain ⟨rfl, hlt⟩ | ⟨-, rfl⟩ := hkept
  · omega
  · rw [List.length_drop]
    omega

theorem nodup_put (h : (t.entries.map (·.1)).Nodup) : ((t.put now key v lifetime).entries.map (·.1)).Nodup := by
  obtain ⟨kept, hentries, hsub⟩ := t.put_sublist now key v lifetime
  rw [hentries, List.map_append, List.nodup_append]
  refine ⟨(hsub.map _).nodup (Table.nodup_erase h), List.nodup_singleton _, fun a ha b hb => ?_⟩
  obtain ⟨x, hx, rfl⟩ := List.mem_map.mp ha
  obtain rfl := List.mem_singleton.mp hb
  exact Table.ne_of_mem_erase (hsub.subset hx)

/-- Storing a value leaves an entry of another key in its place if what comes after it does not fill the table. -/
theorem put_append_cons (t : Expiring α) (now : Int) (v : α) (lifetime : Int) (ht : t.entries = older ++ e :: newer)
    (hne : e.1 ≠ key) (hroom : (Table.erase newer key).length + 1 < t.capacity) :
    ∃ older', (t.put now key v lifetime).entries =
      older' ++ e :: (Table.erase newer key ++ [(key, ⟨v, now + max lifetime 0⟩)]) := by
  obtain ⟨kept, hentries, hkept⟩ := t.put_cases now key v lifetime
  have herase : Table.erase t.entries key = Table.erase older key ++ e :: Table.erase newer key := by
    rw [ht]
    exact Table.erase_append_cons hne
  rw [hentries]
  obtain ⟨rfl, -⟩ | ⟨hfull, rfl⟩ := hkept
  · refine ⟨Table.erase older key, ?_⟩
    rw [herase, List.append_assoc, List.cons_append]
  · -- the entry that makes way is older
    cases hold : Table.erase older key with
    | nil =>
      rw [herase, hold, List.nil_append, List.length_cons] at hfull
      omega
    | cons x rest =>
      refine ⟨rest, ?_⟩
      rw [herase, hold, List.cons_append, List.drop_one, List.tail_cons, List.append_assoc, List.cons_append]

end

section
variable {past later : List (Event α)} {s : Storing α} {e : Event α}

theorem Storing.IsLast.cases_cons (h : s.IsLast (e :: past) later) : e = s.event ∧ later = [] ∨
    ∃ later', later = e :: later' ∧ s.IsLast past later' ∧ e.stored? ≠ some s.key ∧ e.operation ≠ .clear := by
  cases h with
  | now => exact .inl ⟨rfl, rfl⟩
  | still h hkey hclear => exact .inr ⟨_, rfl, h, hkey, hclear⟩

theorem Storing.IsLast.subset (h : s.IsLast past later) : later ⊆ past := by
  induction h with
  | now past => exact List.nil_subset _
  | still h hkey hclear ih => exact List.cons_subset_cons _ ih

theorem mem_storedKeys {key : String} {es : List (Event α)} :
    key ∈ storedKeys es ↔ ∃ e ∈ es, e.stored? = some key := by
  rw [storedKeys, List.mem_toFinset, List.mem_filterMap]

theorem storedKeys_subset_cons : storedKeys later ⊆ storedKeys (e :: later) := by
  intro key h
  obtain ⟨e', he, hk⟩ := mem_storedKeys.mp h
  exact mem_storedKeys.mpr ⟨e', List.mem_cons_of_mem _ he, hk⟩

end

/-! ## What every operation keeps -/

namespace Sound
variable {capacity : Nat} {past : List (Event α)} {t : Expiring α} {e : Event α} {key : String}

theorem empty : Sound capacity [] ({ capacity } : Expiring α) :=
  ⟨rfl, Nat.zero_le _, List.nodup_nil, nofun, nofun⟩

/-- What was stored last and has not had to make way, if it was so before something else was stored. -/
theorem there_before (h : Sound capacity past t) {s : Storing α} {later : List (Event α)} (hs : s.IsLast past later)
    (hfresh : ∀ e' ∈ e :: later, e'.moment < s.entry.2.expires) (hroom : (storedKeys (e :: later)).card < capacity) :
    ∃ older newer, t.entries = older ++ s.entry :: newer ∧ ∀ e' ∈ newer, e'.1 ∈ storedKeys later :=
  h.there s later hs (fun e' he => hfresh e' (List.mem_cons_of_mem _ he))
    ((Finset.card_le_card storedKeys_subset_cons).trans_lt hroom)

theorem cleared (h : Sound capacity past t) (he : e.operation = .clear) : Sound capacity (e :: past) t.clear := by
  refine ⟨h.capacity_eq, Nat.zero_le _, List.nodup_nil, nofun, fun s later hs => ?_⟩
  obtain ⟨rfl, -⟩ | ⟨later', -, -, -, hclear⟩ := hs.cases_cons
  · cases he
  · exact absurd he hclear

theorem looked (h : Sound capacity past t) (he : e.stored? = none) (hclear : e.operation ≠ .clear) (key : String) :
    Sound capacity (e :: past) (t.find? e.moment key).2 := by
  have hsub := t.find?_sublist e.moment key
  refine ⟨(t.capacity_find? _ _).trans h.capacity_eq, hsub.length_le.trans h.size_le, (hsub.map _).nodup h.nodup,
    fun x hx => ?_, fun s later hs hfresh hroom => ?_⟩
  · obtain ⟨s, later, hs, rfl⟩ := h.last x (hsub.subset hx)
    exact ⟨s, e :: later, hs.still (by rw [he]; nofun) hclear, rfl⟩
  · obtain ⟨rfl, -⟩ | ⟨later, rfl, hs, -, -⟩ := hs.cases_cons
    · cases he
    obtain ⟨older, newer, ht, hnewer⟩ := h.there_before hs hfresh hroom
    obtain ⟨older, newer, ht, hsubset⟩ := find?_append_cons h.nodup ht (hfresh e List.mem_cons_self)
    exact ⟨older, newer, ht, fun x hx => storedKeys_subset_cons (hnewer x (hsubset hx))⟩

/-- The entries that come after one that stays are too few to fill the table. -/
theorem newer_lt (h : Sound capacity past t) {s : Storing α} {later : List (Event α)} {older newer : List (String × Kept α)}
    (ht : t.entries = older ++ s.entry :: newer) (hnewer : ∀ x ∈ newer, x.1 ∈ storedKeys later)
    (he : e.stored? = some key) (hroom : (storedKeys (e :: later)).card < capacity) :
    (Table.erase newer key).length + 1 < capacity := by
  have hnodup : ((Table.erase newer key).map (·.1)).Nodup := by
    refine Table.nodup_erase (List.Sublist.nodup ?_ h.nodup)
    rw [ht]
    exact ((List.sublist_cons_self _ _).trans (List.sublist_append_right _ _)).map _
  have hkey : key ∈ storedKeys (e :: later) := mem_storedKeys.mpr ⟨e, List.mem_cons_self, he⟩
  -- their keys are distinct, and all stored later; the key that is stored now is one more
  have hsub : ((Table.erase newer key).map (·.1)).toFinset ⊆ (storedKeys (e :: later)).erase key := by
    intro j hj
    obtain ⟨x, hx, rfl⟩ := List.mem_map.mp (List.mem_toFinset.mp hj)
    exact Finset.mem_erase.mpr ⟨Table.ne_of_mem_erase hx, storedKeys_subset_cons (hnewer x (Table.mem_of_mem_erase hx))⟩
  have hcard := Finset.card_le_card hsub
  rw [List.toFinset_card_of_nodup hnodup, List.length_map, Finset.card_erase_of_mem hkey] at hcard
  have hpos := Finset.card_pos.mpr ⟨key, hkey⟩
  omega

theorem stored (h : Sound capacity past t) (hc : 1 ≤ capacity) {v : α} {lifetime : Int}
    (he : e.operation = .put key v lifetime) : Sound capacity (e :: past) (t.put e.moment key v lifetime) := by
  obtain ⟨moment, operation⟩ := e
  obtain rfl : operation = .put key v lifetime := he
  obtain rfl := h.capacity_eq
  refine ⟨rfl, size_put_le hc h.size_le, nodup_put h.nodup, fun x hx => ?_, fun s later hs hfresh hroom => ?_⟩
  · obtain ⟨hx, hne⟩ | rfl := mem_of_mem_put hx
    · obtain ⟨s, later, hs, rfl⟩ := h.last x hx
      exact ⟨s, _, hs.still (fun hk => hne (Option.some.inj hk).symm) nofun, rfl⟩
    · exact ⟨⟨moment, key, v, lifetime⟩, [], .now past, rfl⟩
  · obtain ⟨heq, rfl⟩ | ⟨later, rfl, hs, hkey, -⟩ := hs.cases_cons
    · obtain ⟨kept, hentries, -⟩ := t.put_sublist moment key v lifetime
      cases heq
      exact ⟨kept, [], hentries, nofun⟩
    obtain ⟨older, newer, ht, hnewer⟩ := h.there_before hs hfresh hroom
    obtain ⟨older', ht'⟩ := t.put_append_cons moment v lifetime ht
      (fun hk => hkey (congrArg some hk.symm)) (h.newer_lt ht hnewer rfl hroom)
    refine ⟨older', _, ht', fun x hx => ?_⟩
    rcases List.mem_append.mp hx with hx | hx
    · exact storedKeys_subset_cons (hnewer x (Table.mem_of_mem_erase hx))
    · obtain rfl := List.mem_singleton.mp hx
      exact mem_storedKeys.mpr ⟨_, List.mem_cons_self, rfl⟩

/-- Every operation keeps what is in a table in order. -/
theorem after (h : Sound capacity past t) (hc : 1 ≤ capacity) : Sound capacity (e :: past) (t.after e) := by
  unfold Expiring.after
  split
  · next he => exact h.stored hc he
  · next he => exact h.looked (by rw [Event.stored?, he]) (by rw [he]; nofun) _
  · next he => exact h.looked (by rw [Event.stored?, he]) (by rw [he]; nofun) _
  · next he => exact h.cleared he

theorem of_run (hc : 1 ≤ capacity) (past : List (Event α)) : Sound capacity past (run capacity past) := by
  induction past with
  | nil => exact .empty
  | cons e past ih => exact ih.after hc

end Sound

variable {capacity : Nat} {past : List (Event α)} {now : Int}

/-- What is found has been stored last under its key, less than its lifetime ago, and is found as long as too few
other keys have been stored since to fill the table, which never holds more than it has room for. -/
theorem find?_run (hc : 1 ≤ capacity) (hclock : (now :: past.map (·.moment)).Pairwise (· ≥ ·)) :
    (∀ key v, ((run capacity past).find? now key).1 = some v → ∃ (s : Storing α) (later : List (Event α)),
      s.IsLast past later ∧ s.key = key ∧ s.value = v ∧ now - s.moment < max s.lifetime 0) ∧
    (∀ (s : Storing α) (later : List (Event α)), s.IsLast past later → now - s.moment < max s.lifetime 0 →
      (storedKeys later).card < capacity → ((run capacity past).find? now s.key).1 = some s.value) ∧
    (run capacity past).size ≤ capacity := by
  have h := Sound.of_run hc past
  refine ⟨fun key v hv => ?_, fun s later hs hlt hroom => ?_, h.size_le⟩
  · obtain ⟨expires, hmem, hlt⟩ := mem_of_find? hv
    obtain ⟨s, later, hs, he⟩ := h.last _ hmem
    simp only [Storing.entry, Prod.mk.injEq, Kept.mk.injEq] at he
    exact ⟨s, later, hs, he.1.symm, he.2.1.symm, by omega⟩
  · have hnow (e : Event α) (he : e ∈ later) : e.moment ≤ now :=
      (List.pairwise_cons.mp hclock).1 _ (List.mem_map.mpr ⟨e, hs.subset he, rfl⟩)
    obtain ⟨older, newer, ht, -⟩ := h.there s later hs
      (fun e he => (hnow e he).trans_lt (by simp only [Storing.entry]; omega)) hroom
    have hget := Table.get?_of_mem h.nodup (ht ▸ List.mem_append_right _ List.mem_cons_self : s.entry ∈ _)
    have hfresh : ¬ s.moment + max s.lifetime 0 ≤ now := by omega
    unfold find?
    rw [hget]
    simp only [if_neg hfresh]

/-- A value stored anew is newer than those stored between, and makes way after them. -/
theorem find?_run_renewed :
    ((run 2 [⟨6, .put "c" 4 1000⟩, ⟨5, .has "b"⟩, ⟨5, .put "a" 3 100⟩, ⟨2, .put "b" 2 1000⟩, ⟨0, .put "a" 1 1000⟩]).find?
      104 "a").1 = some 3 := by
  have h := @find?_run Nat 2 [⟨6, .put "c" 4 1000⟩, ⟨5, .has "b"⟩, ⟨5, .put "a" 3 100⟩, ⟨2, .put "b" 2 1000⟩,
    ⟨0, .put "a" 1 1000⟩] 104 (by decide) (by decide)
  exact h.2.1 ⟨5, "a", 3, 100⟩ _ (((Storing.IsLast.now _).still (by decide) (by simp)).still (by decide) (by simp))
    (by decide) (by decide)

end FormRules.Expiring
