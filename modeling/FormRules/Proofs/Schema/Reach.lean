import FormRules.Proofs.Schema.Collect
import FormRules.Schema.Reach

/-!
# What is within reach

An application leads to a definition, and from there to those that its sub-schemas lead to. The search enters every
registered name once, so that it ends on registries whose schemas apply each other, and it finds just the definitions
that the application leads to.
-/

namespace FormRules

/-- The definitions that a schema leads to: its own, and those that the sub-schemas of one lead to. -/
inductive Within (registry : SchemaRegistry) (ref : SchemaRef) : Schema → Prop
  | here {s : Schema} (h : ref.resolve registry = some s) : Within registry ref s
  | deeper {s t : Schema} {a : SchemaApplication} (h : Within registry ref s) (ha : a ∈ s.subSchemas)
    (ht : a.schema.resolve registry = some t) : Within registry ref t

variable {registry : SchemaRegistry} {P : Schema → Prop} {r r' r'' : Reached} {s : Schema} {ref : SchemaRef}
  {enter enter' : String → Reached → Reached} {m : Nat}

namespace Reached

/-- A schema leads to a definition that has been found, or to none. -/
def Covers (registry : SchemaRegistry) (r : Reached) (ref : SchemaRef) : Prop :=
  ∀ s, ref.resolve registry = some s → s ∈ r.schemas

/-- The definition of every name that has been entered has been found. -/
def Sound (registry : SchemaRegistry) (r : Reached) : Prop := ∀ n ∈ r.names, r.Covers registry (.named n)

/-- The number of registered names that have not been entered. -/
def unentered (registry : SchemaRegistry) (r : Reached) : Nat := (registry.filter fun e => e.1 ∉ r.names).length

/-- What a search may do: every definition that it finds has a property, and what the sub-schemas of the definition lead
to is found as well. -/
structure Explores (registry : SchemaRegistry) (P : Schema → Prop) (r r' : Reached) : Prop where
  names : r.names ⊆ r'.names
  schemas : r.schemas ⊆ r'.schemas
  sound : r'.Sound registry
  found : ∀ s ∈ r'.schemas, s ∉ r.schemas → P s ∧ ∀ a ∈ s.subSchemas, r'.Covers registry a.schema

theorem Covers.mono (h : r.Covers registry ref) (hr : r.schemas ⊆ r'.schemas) : r'.Covers registry ref :=
  fun s hs => hr (h s hs)

theorem unentered_le (h : r.names ⊆ r'.names) : unentered registry r' ≤ unentered registry r := by
  refine List.Sublist.length_le (List.monotone_filter_right registry fun e he => ?_)
  simp only [decide_eq_true_eq] at he ⊢
  exact fun hm => he (h hm)

theorem unentered_lt {n : String} (h : Table.get? registry n = some s) (hn : n ∉ r.names) :
    unentered registry { r with names := n :: r.names } < unentered registry r := by
  have hfilter : (registry.filter fun e => e.1 ∉ n :: r.names) =
      (registry.filter fun e => e.1 ∉ r.names).filter fun e => e.1 ≠ n := by
    simp [List.filter_filter, not_or]
  rw [unentered, unentered, hfilter]
  refine List.length_filter_lt_length_iff_exists.mpr ⟨(n, s), ?_, by simp⟩
  simpa using ⟨Table.mem_of_get? h, hn⟩

namespace Explores

theorem refl (h : r.Sound registry) : Explores registry P r r :=
  ⟨List.Subset.refl _, List.Subset.refl _, h, fun _ hs hn => absurd hs hn⟩

theorem trans (h : Explores registry P r r') (h' : Explores registry P r' r'') : Explores registry P r r'' := by
  refine ⟨List.Subset.trans h.names h'.names, List.Subset.trans h.schemas h'.schemas, h'.sound, fun s hs hn => ?_⟩
  by_cases hs' : s ∈ r'.schemas
  · obtain ⟨hP, hsubs⟩ := h.found s hs' hn
    exact ⟨hP, fun a ha => (hsubs a ha).mono h'.schemas⟩
  · exact h'.found s hs hs'

/-- A definition is found first, and what its sub-schemas lead to afterwards. -/
theorem of_add (h : Explores registry P (r.add s) r') (hs : P s)
    (hsubs : ∀ a ∈ s.subSchemas, r'.Covers registry a.schema)
    {names : List String} (hn : names ⊆ r.names) : Explores registry P { r with names } r' := by
  refine ⟨List.Subset.trans hn h.names, List.Subset.trans (List.subset_append_left _ _) h.schemas, h.sound,
    fun t ht hnew => ?_⟩
  by_cases hts : t = s
  · exact hts ▸ ⟨hs, hsubs⟩
  · exact h.found t ht fun hmem => (List.mem_append.mp hmem).elim hnew fun hm => hts (List.mem_singleton.mp hm)

end Explores
end Reached

open Reached (Covers Sound unentered Explores)

/-- What a schema leads to has a property that goes on to sub-schemas. -/
def Leading (registry : SchemaRegistry) (P : Schema → Prop) (ref : SchemaRef) : Prop :=
  ∀ s, ref.resolve registry = some s → P s

/-- Entering a name explores what it leads to, as long as few enough names have not been entered. -/
def Enters (registry : SchemaRegistry) (P : Schema → Prop) (m : Nat) (enter : String → Reached → Reached) : Prop :=
  ∀ n r, r.Sound registry → unentered registry r ≤ m → Leading registry P (.named n) →
    Explores registry P r (enter n r) ∧ (enter n r).Covers registry (.named n)

/-- A property goes on from definitions to what their sub-schemas lead to. -/
def GoesOn (registry : SchemaRegistry) (P : Schema → Prop) : Prop :=
  ∀ s, P s → ∀ a ∈ s.subSchemas, Leading registry P a.schema

mutual

theorem Schema.reach_explores (hP : GoesOn registry P) (henter : Enters registry P m enter) (s : Schema) (r : Reached)
    (hs : P s) (hr : (r.add s).Sound registry) (hm : unentered registry r ≤ m) :
    Explores registry P (r.add s) (s.reach enter r) ∧
      ∀ a ∈ s.subSchemas, (s.reach enter r).Covers registry a.schema := by
  cases s with
  | mk name description vs ls subs =>
    rw [Schema.reach]
    exact SchemaApplication.reachAll_explores hP henter subs _ (hP _ hs) hr hm

theorem SchemaApplication.reachAll_explores (hP : GoesOn registry P) (henter : Enters registry P m enter)
    (as : List SchemaApplication) (r : Reached) (has : ∀ a ∈ as, Leading registry P a.schema)
    (hr : r.Sound registry) (hm : unentered registry r ≤ m) :
    Explores registry P r (SchemaApplication.reachAll enter as r) ∧
      ∀ a ∈ as, (SchemaApplication.reachAll enter as r).Covers registry a.schema := by
  cases as with
  | nil => exact ⟨.refl hr, nofun⟩
  | cons a as =>
    obtain ⟨ha, has⟩ := List.forall_mem_cons.mp has
    obtain ⟨hrest, hcovers⟩ := SchemaApplication.reachAll_explores hP henter as r has hr hm
    obtain ⟨hfirst, hcover⟩ := SchemaApplication.reach_explores hP henter a _ ha hrest.sound
      (Nat.le_trans (Reached.unentered_le hrest.names) hm)
    rw [SchemaApplication.reachAll]
    exact ⟨hrest.trans hfirst, List.forall_mem_cons.mpr ⟨hcover, fun b hb => (hcovers b hb).mono hfirst.schemas⟩⟩

theorem SchemaApplication.reach_explores (hP : GoesOn registry P) (henter : Enters registry P m enter)
    (a : SchemaApplication) (r : Reached) (ha : Leading registry P a.schema) (hr : r.Sound registry)
    (hm : unentered registry r ≤ m) :
    Explores registry P r (a.reach enter r) ∧ (a.reach enter r).Covers registry a.schema := by
  cases a with
  | mk kind ref predicate path =>
    cases ref with
    | named n => exact henter n r hr hm ha
    | inline s =>
      have hs : P s := ha s rfl
      have hadd : (r.add s).Sound registry := fun n hn => (hr n hn).mono (List.subset_append_left _ _)
      obtain ⟨hexplores, hsubs⟩ := Schema.reach_explores hP henter s r hs hadd hm
      refine ⟨hexplores.of_add hs hsubs (List.Subset.refl _), fun t ht => ?_⟩
      obtain rfl : s = t := Option.some.inj ht
      exact hexplores.schemas (List.mem_append_right _ (List.mem_singleton_self _))

end

namespace SchemaRegistry
variable {n : String}

theorem follow_of_mem (h : n ∈ r.names) (fuel : Nat) : registry.follow fuel n r = r := by
  cases fuel with
  | zero => rfl
  | succ fuel => rw [follow, if_pos (by simpa using h)]

theorem follow_of_none (h : Table.get? registry n = none) (fuel : Nat) : registry.follow fuel n r = r := by
  cases fuel with
  | zero => rfl
  | succ fuel => rw [follow, h, ite_self]

theorem follow_of_some (hn : n ∉ r.names) (h : Table.get? registry n = some s) (fuel : Nat) :
    registry.follow (fuel + 1) n r = s.reach (registry.follow fuel) { r with names := n :: r.names } := by
  rw [follow, if_neg (by simpa using hn), h]

end SchemaRegistry

/-- One name is entered less for the search behind it, so that it does not end early. -/
theorem SchemaRegistry.follow_enters (hP : GoesOn registry P) (m : Nat) : Enters registry P m (registry.follow m) := by
  induction m with
  | zero =>
    intro n r hr hm hn
    refine ⟨.refl hr, fun s hs => ?_⟩
    by_cases hmem : n ∈ r.names
    · exact hr n hmem s hs
    · exact absurd (Reached.unentered_lt hs hmem) (by omega)
  | succ m ih =>
    intro n r hr hm hn
    by_cases hmem : n ∈ r.names
    · rw [follow_of_mem hmem]
      exact ⟨.refl hr, hr n hmem⟩
    cases hget : Table.get? registry n with
    | none =>
      rw [follow_of_none hget]
      exact ⟨.refl hr, fun s hs => nomatch hget.symm.trans hs⟩
    | some s =>
      rw [follow_of_some hmem hget]
      have hlt := Reached.unentered_lt hget hmem
      have hs : P s := hn s hget
      have hadd : (Reached.add { r with names := n :: r.names } s).Sound registry := by
        refine List.forall_mem_cons.mpr ⟨fun t ht => ?_, fun n' hn' => (hr n' hn').mono (List.subset_append_left _ _)⟩
        obtain rfl : s = t := Option.some.inj (hget.symm.trans ht)
        exact List.mem_append_right _ (List.mem_singleton_self _)
      obtain ⟨hexplores, hsubs⟩ := Schema.reach_explores hP ih s _ hs hadd (by omega)
      refine ⟨hexplores.of_add hs hsubs (List.subset_cons_self _ _), fun t ht => ?_⟩
      obtain rfl : s = t := Option.some.inj (hget.symm.trans ht)
      exact hexplores.schemas (List.mem_append_right _ (List.mem_singleton_self _))

/-- The definitions within reach of an application are those that it leads to. -/
theorem SchemaRegistry.mem_reachable {a : SchemaApplication} :
    s ∈ registry.reachable a ↔ Within registry a.schema s := by
  have hgoesOn : GoesOn registry (Within registry a.schema) := fun t ht b hb u hu => .deeper ht hb hu
  obtain ⟨hexplores, hcovers⟩ := SchemaApplication.reach_explores hgoesOn (follow_enters hgoesOn registry.length) a {}
    (fun t ht => .here ht) nofun (List.length_filter_le _ _)
  constructor
  · intro hs
    exact (hexplores.found s hs List.not_mem_nil).1
  · intro hs
    induction hs with
    | here h => exact hcovers _ h
    | deeper h ha ht ih => exact (hexplores.found _ ih List.not_mem_nil).2 _ ha _ ht

/-! ## More fuel -/

/-- Searches that enter alike as long as few enough names have not been entered, and forget no name. -/
def Agree (registry : SchemaRegistry) (m : Nat) (enter enter' : String → Reached → Reached) : Prop :=
  ∀ n r, unentered registry r ≤ m → enter n r = enter' n r ∧ r.names ⊆ (enter n r).names

mutual

theorem Schema.reach_congr (h : Agree registry m enter enter') (s : Schema) (r : Reached)
    (hm : unentered registry r ≤ m) : s.reach enter r = s.reach enter' r ∧ r.names ⊆ (s.reach enter r).names := by
  cases s with
  | mk name description vs ls subs =>
    rw [Schema.reach, Schema.reach]
    exact SchemaApplication.reachAll_congr h subs _ hm

theorem SchemaApplication.reachAll_congr (h : Agree registry m enter enter') (as : List SchemaApplication) (r : Reached)
    (hm : unentered registry r ≤ m) :
    SchemaApplication.reachAll enter as r = SchemaApplication.reachAll enter' as r ∧
      r.names ⊆ (SchemaApplication.reachAll enter as r).names := by
  cases as with
  | nil => exact ⟨rfl, List.Subset.refl _⟩
  | cons a as =>
    obtain ⟨hrest, hnames⟩ := SchemaApplication.reachAll_congr h as r hm
    obtain ⟨hfirst, hnames'⟩ := SchemaApplication.reach_congr h a _ (Nat.le_trans (Reached.unentered_le hnames) hm)
    rw [SchemaApplication.reachAll, SchemaApplication.reachAll, ← hrest]
    exact ⟨hfirst, List.Subset.trans hnames hnames'⟩

theorem SchemaApplication.reach_congr (h : Agree registry m enter enter') (a : SchemaApplication) (r : Reached)
    (hm : unentered registry r ≤ m) : a.reach enter r = a.reach enter' r ∧ r.names ⊆ (a.reach enter r).names := by
  cases a with
  | mk kind ref predicate path =>
    cases ref with
    | named n => exact h n r hm
    | inline s => exact Schema.reach_congr h s r hm

end

namespace SchemaRegistry

theorem follow_eq_of_entered {n : String} (h : unentered registry r = 0) (fuel : Nat) :
    registry.follow fuel n r = r := by
  by_cases hmem : n ∈ r.names
  · exact follow_of_mem hmem fuel
  cases hget : Table.get? registry n with
  | none => exact follow_of_none hget fuel
  | some s => exact absurd (Reached.unentered_lt hget hmem) (by omega)

theorem follow_agree (registry : SchemaRegistry) (m k : Nat) :
    Agree registry m (registry.follow m) (registry.follow (m + k)) := by
  induction m with
  | zero =>
    intro n r hm
    have hzero : unentered registry r = 0 := Nat.le_zero.mp hm
    rw [follow_eq_of_entered hzero, follow_eq_of_entered hzero]
    exact ⟨rfl, List.Subset.refl _⟩
  | succ m ih =>
    intro n r hm
    rw [Nat.add_right_comm m 1 k]
    by_cases hmem : n ∈ r.names
    · rw [follow_of_mem hmem, follow_of_mem hmem]
      exact ⟨rfl, List.Subset.refl _⟩
    cases hget : Table.get? registry n with
    | none =>
      rw [follow_of_none hget, follow_of_none hget]
      exact ⟨rfl, List.Subset.refl _⟩
    | some s =>
      rw [follow_of_some hmem hget, follow_of_some hmem hget]
      have hlt := Reached.unentered_lt hget hmem
      obtain ⟨hsame, hnames⟩ := Schema.reach_congr ih s { r with names := n :: r.names } (by omega)
      exact ⟨hsame, List.Subset.trans (List.subset_cons_self _ _) hnames⟩

/-- The number of registered names is fuel enough, whatever the schemas apply: more of it finds nothing else. -/
theorem reach_follow_eq (a : SchemaApplication) {fuel : Nat} (h : registry.length ≤ fuel) :
    (a.reach (registry.follow fuel) {}).schemas = registry.reachable a := by
  obtain ⟨k, rfl⟩ := Nat.exists_eq_add_of_le h
  obtain ⟨hsame, -⟩ := SchemaApplication.reach_congr (registry.follow_agree registry.length k) a {}
    (List.length_filter_le _ _)
  rw [reachable, hsame]

end SchemaRegistry

/-! ## What is collected -/

namespace Schema
variable {root : Value} {place : List Key} {ls : List Link} {applications : List (String × SchemaApplication)}
  {c : Chain}

theorem Leads.within (h : Leads registry root s place ls) (hs : Within registry ref s) :
    Within registry ref (s.last ls) := by
  induction h with
  | here => exact hs
  | link declared holds rest ih =>
    rw [last_cons]
    exact ih (.deeper hs (List.mem_of_getElem? declared) holds.resolved)

/-- The definition at the end of an admissible chain is within reach of the application at its start. -/
theorem Chain.Admissible.reaches (h : c.Admissible registry root applications) :
    ∃ p ∈ applications, c.definition ∈ registry.reachable p.2 := by
  obtain ⟨path, hat, -⟩ := h.started
  refine ⟨_, List.mem_of_getElem? hat, SchemaRegistry.mem_reachable.mpr ?_⟩
  exact h.leads.within (.here h.holds.resolved)

end Schema

/-- What is collected at all are the rules of definitions within reach of the applications, with guards added. -/
theorem SchemaRegistry.of_collect {root : Value} {applications : List (String × SchemaApplication)} {j : Journal}
    {rules : Rules} (h : ((registry.collect root applications).run.run j).1 = .ok rules) :
    (∀ b ∈ rules.validators, ∃ p ∈ applications, ∃ s ∈ registry.reachable p.2, b.schema = some s.name ∧
      ∃ v ∈ s.validators, ∃ gs, b.rule = { v with guards := gs ++ v.guards }) ∧
    ∀ b ∈ rules.logic, ∃ p ∈ applications, ∃ s ∈ registry.reachable p.2, b.schema = some s.name ∧
      ∃ l ∈ s.logic, ∃ gs, b.rule = { l with guards := gs ++ l.guards } := by
  have hlists := (Schema.collect_lists registry root applications 0).congr (fun _ => Schema.Chain.admissible_iff)
    fun _ => Iff.rfl
  cases hlists with
  | stuck f hf comes => exact absurd ((comes j).symm.trans h) nofun
  | all chains mem sorted free comes =>
    obtain rfl : Rules.flat (chains.map Schema.Chain.rules) = rules := Except.ok.inj ((comes j).symm.trans h)
    constructor
    · intro b hb
      obtain ⟨_, hr, hb⟩ := List.mem_flatMap.mp hb
      obtain ⟨c, hc, rfl⟩ := List.mem_map.mp hr
      obtain ⟨v, hv, rfl⟩ := List.mem_map.mp hb
      obtain ⟨p, hp, hs⟩ := ((mem c).mp hc).reaches
      exact ⟨p, hp, c.definition, hs, rfl, v, hv, c.guards, rfl⟩
    · intro b hb
      obtain ⟨_, hr, hb⟩ := List.mem_flatMap.mp hb
      obtain ⟨c, hc, rfl⟩ := List.mem_map.mp hr
      obtain ⟨l, hl, rfl⟩ := List.mem_map.mp hb
      obtain ⟨p, hp, hs⟩ := ((mem c).mp hc).reaches
      exact ⟨p, hp, c.definition, hs, rfl, l, hl, c.guards, rfl⟩

end FormRules
