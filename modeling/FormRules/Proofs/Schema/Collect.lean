import FormRules.Proofs.Schema.Entering
import FormRules.Proofs.Store.Table

/-!
# What schemas bring in

Collecting lists the rules of all admissible chains, in the order of declaration with the items in their order, unless
an obstacle stops it. Registered definitions are followed through each other no deeper than there are entries, since
each of them that is entered leaves one less to be seen.
-/

namespace FormRules
open Checking (Comes)

namespace Schema
variable {registry : SchemaRegistry} {root : Value} {named : Schema → Place → Checking Rules} {s : Schema}
  {p : Place} {m : Nat} {l : Link} {f : Fault}

/-! ## Registered definitions -/

/-- The number of registered definitions that are not on the way. -/
def unseen (registry : SchemaRegistry) (stack : List String) : Nat :=
  (registry.filter fun e => e.2.name ∉ stack).length

theorem unseen_append (registry : SchemaRegistry) (stack : List String) (name : String) :
    unseen registry (stack ++ [name]) =
      ((registry.filter fun e => e.2.name ∉ stack).filter fun e => e.2.name ≠ name).length := by
  simp [unseen, List.filter_filter, not_or, and_comm]

theorem unseen_append_le (registry : SchemaRegistry) (stack : List String) (name : String) :
    unseen registry (stack ++ [name]) ≤ unseen registry stack := by
  rw [unseen_append]
  exact List.length_filter_le _ _

/-- A registered definition is one less to be seen behind it. -/
theorem unseen_append_lt {stack : List String} {name : String} (h : Table.get? registry name = some s)
    (hnew : s.name ∉ stack) : unseen registry (stack ++ [s.name]) < unseen registry stack := by
  rw [unseen_append]
  refine List.length_filter_lt_length_iff_exists.mpr ⟨(name, s), ?_, by simp⟩
  simpa using ⟨Table.mem_of_get? h, hnew⟩

/-- The computation of a definition lists what follows it, wherever fewer than so many definitions are to be seen. -/
def Covers (registry : SchemaRegistry) (root : Value) (s : Schema) (m : Nat) (enters : Place → Checking Rules) : Prop :=
  ∀ p : Place, p.stack.Nodup → unseen registry p.stack < m →
    Lists trail (p.brings s) (Follows registry root s p) (Stuck registry root s p) (enters p)

theorem nodup_after (hp : p.stack.Nodup) (hnew : l.definition.name ∉ p.stack) : (p.after l).stack.Nodup :=
  hp.append (List.nodup_singleton _) (by simpa using hnew)

/-- The computation of every registered definition lists what follows it. -/
def CoversNamed (registry : SchemaRegistry) (root : Value) (m : Nat) (named : Schema → Place → Checking Rules) : Prop :=
  ∀ name s, Table.get? registry name = some s → Covers registry root s m (named s)

mutual

/-- A definition lists its own rules and then what its applications list. The induction is on the definitions that are
written inside of it; one that is registered is left to `named`, with fewer to be seen. -/
theorem rules_lists (hnamed : CoversNamed registry root m named) (s : Schema) :
    Covers registry root s (m + 1) (s.rules registry root named) := by
  intro p hp hm
  cases s with
  | mk name description vs ls subs =>
    have hown : Lists trail (p.brings (.mk name description vs ls subs)) (fun links => links = []) (fun _ => False)
        (Pure.pure (p.rulesOf name vs ls)) := .single [] (fun _ => Iff.rfl) (fun _ => id) (.pure _)
    have hbelow : Lists trail (p.brings (.mk name description vs ls subs))
        (fun links => ∃ c, (∃ x ∈ subs.zipIdx, Runs registry root p x c) ∧ c.links = links)
        (fun f => ∃ x ∈ subs.zipIdx, StuckAt registry root p x f)
        (SchemaApplication.rulesAll registry root named subs p) :=
      (rulesAll_lists hnamed subs 0 p hp hm).map (fun _ => Iff.rfl) (fun _ => Iff.rfl) (fun _ _ h => h)
        fun c _ => p.brings_links _ c
    have hboth := hown.append hbelow fun _ _ hnil ⟨c, _, hc⟩ => by
      rw [hnil, ← hc]
      exact trail_lt_cons
    rw [Schema.rules]
    refine Lists.congr ?_ (fun _ => follows_iff hp) (fun _ => stuck_iff hp)
    simpa [subSchemas] using hboth

theorem rulesAll_lists (hnamed : CoversNamed registry root m named) (as : List SchemaApplication) (n : Nat) (p : Place)
    (hp : p.stack.Nodup) (hm : unseen registry p.stack < m + 1) :
    Lists (trail ·.links) p.emits (fun c => ∃ x ∈ as.zipIdx n, Runs registry root p x c)
      (fun f => ∃ x ∈ as.zipIdx n, StuckAt registry root p x f)
      (SchemaApplication.rulesAll registry root named as p) := by
  cases as with
  | nil => exact .nothing (by simp) (by simp) (.pure _)
  | cons a as =>
    have hboth := (application_lists hnamed a n p hp hm).append (rulesAll_lists hnamed as (n + 1) p hp hm)
      fun c c' hc ⟨x, hx, hc'⟩ => hc.trail_lt hc' (List.le_snd_of_mem_zipIdx hx)
    rw [SchemaApplication.rulesAll, List.zipIdx_cons]
    exact hboth.congr (fun _ => List.exists_mem_cons_iff ..) fun _ => List.exists_mem_cons_iff ..

theorem application_lists (hnamed : CoversNamed registry root m named) (a : SchemaApplication) (n : Nat) (p : Place)
    (hp : p.stack.Nodup) (hm : unseen registry p.stack < m + 1) :
    Lists (trail ·.links) p.emits (Runs registry root p (a, n)) (StuckAt registry root p (a, n))
      (a.rules registry root named p) := by
  cases a with
  | mk kind ref predicate path =>
    cases ref with
    | named name =>
      rw [SchemaApplication.rules, SchemaRef.rules]
      cases hget : Table.get? registry name with
      | some s =>
        refine enter_lists (a := .mk kind (.named name) predicate path) hget fun l hl hnew => ?_
        subst hl
        have hless := unseen_append_lt hget hnew
        exact hnamed name _ hget (p.after l) (nodup_after hp hnew) (by simp only [Place.after]; omega)
      | none => exact missing_lists hget ((Comes.report _).bind (.pure _))
    | inline s =>
      rw [SchemaApplication.rules, SchemaRef.rules]
      refine enter_lists (a := .mk kind (.inline s) predicate path) rfl fun l hl hnew => ?_
      have hless := unseen_append_le registry p.stack l.definition.name
      exact rules_lists hnamed s (p.after l) (nodup_after hp (hl ▸ hnew)) (by simp only [Place.after]; omega)

end

theorem rulesWithin_covers (registry : SchemaRegistry) (root : Value) (m : Nat) (s : Schema) :
    Covers registry root s m (registry.rulesWithin root m s) := by
  induction m generalizing s with
  | zero => exact fun p _ hm => absurd hm (Nat.not_lt_zero _)
  | succ m ih => exact rules_lists (fun _ s _ => ih s) s

/-! ## Collecting -/

/-- A chain from the application at a position, with the keys of its path. -/
def Starts (registry : SchemaRegistry) (root : Value) (x : (String × SchemaApplication) × Nat) (c : Chain) : Prop :=
  ∃ keys, Path.keys x.1.1 = .ok keys ∧ Runs registry root { keys } (x.1.2, x.2) c

/-- What stops the expansion of the application at a position. -/
def Stops (registry : SchemaRegistry) (root : Value) (x : (String × SchemaApplication) × Nat) (f : Fault) : Prop :=
  Path.keys x.1.1 = .error f ∨ ∃ keys, Path.keys x.1.1 = .ok keys ∧ StuckAt registry root { keys } (x.1.2, x.2) f

def Chain.rules (c : Chain) : Rules := ⟨c.validators, c.logic⟩

theorem Chain.emits_eq (c : Chain) : ({ keys := c.base } : Place).emits c = c.rules := by
  have hplace : c.rest.foldl Place.after (({ keys := c.base } : Place).after c.first) =
      ⟨c.base ++ c.links.flatMap Link.path, c.guards, names c.links⟩ := by
    have hall := ({ keys := c.base } : Place).foldl_after c.links
    simpa [Chain.links, Chain.guards] using hall
  unfold Place.emits Place.brings
  rw [hplace]
  rfl

theorem collect_lists (registry : SchemaRegistry) (root : Value) (as : List (String × SchemaApplication)) (n : Nat) :
    Lists (trail ·.links) Chain.rules (fun c => ∃ x ∈ as.zipIdx n, Starts registry root x c)
      (fun f => ∃ x ∈ as.zipIdx n, Stops registry root x f) (registry.collect root as) := by
  induction as generalizing n with
  | nil => exact .nothing (by simp) (by simp) (.pure _)
  | cons x as ih =>
    obtain ⟨path, a⟩ := x
    rw [SchemaRegistry.collect, List.zipIdx_cons]
    cases hkeys : Path.keys path with
    | error f => exact .stuck f ⟨_, List.mem_cons_self, .inl hkeys⟩ (Comes.of_outcome _).fail
    | ok keys =>
      have hall := application_lists (fun _ s _ => rulesWithin_covers registry root registry.length s) a n { keys }
        List.nodup_nil (Nat.lt_succ_of_le (List.length_filter_le ..))
      have hfirst : Lists (trail ·.links) Chain.rules (Starts registry root ((path, a), n))
          (Stops registry root ((path, a), n))
          (a.rules registry root (registry.rulesWithin root registry.length) { keys }) := by
        refine hall.map (g := id) (fun c => ?_) (fun f => ?_) (fun _ _ h => h) fun c hc => ?_
        · simp [Starts, hkeys]
        · simp [Stops, hkeys]
        · rw [id_eq, ← c.emits_eq, hc.base]
      have hboth := hfirst.append (ih (n + 1)) fun c c' ⟨_, _, hc⟩ ⟨x, hx, _, _, hc'⟩ =>
        have hlt : n + 1 ≤ x.2 := List.le_snd_of_mem_zipIdx hx
        hc.trail_lt hc' hlt
      exact .after (.of_outcome _) (hboth.congr (fun _ => List.exists_mem_cons_iff ..) fun _ => List.exists_mem_cons_iff ..)

/-- A chain is admissible if and only if an expansion follows it from an application of the form. -/
theorem Chain.admissible_iff {applications : List (String × SchemaApplication)} {c : Chain} :
    c.Admissible registry root applications ↔ ∃ x ∈ applications.zipIdx, Starts registry root x c := by
  constructor
  · rintro ⟨⟨path, hat, hkeys⟩, holds, leads, distinct⟩
    exact ⟨((path, c.first.application), c.first.position), List.mem_zipIdx_iff_getElem?.mpr hat, c.base, hkeys, rfl, rfl,
      rfl, holds, leads, distinct⟩
  · rintro ⟨x, hx, keys, hkeys, hbase, ha, hn, holds, leads, distinct⟩
    subst hbase
    refine ⟨⟨x.1.1, ?_, hkeys⟩, holds, leads, distinct⟩
    rw [ha, hn]
    exact List.mem_zipIdx_iff_getElem?.mp hx

theorem obstacle_iff {applications : List (String × SchemaApplication)} :
    Obstacle registry root applications f ↔ ∃ x ∈ applications.zipIdx, Stops registry root x f := by
  constructor
  · rintro (@⟨path, a, hmem, hf⟩ | @⟨path, a, hmem, ⟨keys, hkeys⟩, hhalts⟩ | @⟨c, a, hc, hmem, hhalts⟩)
    · obtain ⟨i, hi⟩ := List.mem_iff_getElem?.mp hmem
      exact ⟨((path, a), i), List.mem_zipIdx_iff_getElem?.mpr hi, .inl hf⟩
    · obtain ⟨i, hi⟩ := List.mem_iff_getElem?.mp hmem
      exact ⟨((path, a), i), List.mem_zipIdx_iff_getElem?.mpr hi, .inr ⟨keys, hkeys, .inl hhalts⟩⟩
    · obtain ⟨x, hx, keys, hkeys, hruns⟩ := Chain.admissible_iff.mp hc
      exact ⟨x, hx, .inr ⟨keys, hkeys, .inr ⟨c.first, hruns.application, hruns.position, hruns.holds,
        hruns.follows.fresh, c.rest, hruns.follows, a, hmem, hhalts⟩⟩⟩
  · rintro ⟨x, hx, hf | ⟨keys, hkeys, hhalts | ⟨l, ha, hn, hl, -, ls, hls, a, hmem, hhalts⟩⟩⟩
    · exact .base (List.fst_mem_of_mem_zipIdx hx) hf
    · exact .first (List.fst_mem_of_mem_zipIdx hx) ⟨keys, hkeys⟩ hhalts
    · have hc : Chain.Admissible registry root applications ⟨keys, l, ls⟩ :=
        Chain.admissible_iff.mpr ⟨x, hx, keys, hkeys, rfl, ha, hn, hl, hls⟩
      exact .next hc hmem hhalts

end Schema

open Schema in
/-- Collecting gives the rules of the admissible chains, each chain once, in the order of declaration with the items in
their order, or it faults as an obstacle does, which it does only if there is one. -/
theorem SchemaRegistry.collect_admissible (registry : SchemaRegistry) (root : Value)
    (applications : List (String × SchemaApplication)) :
    (∃ f, Obstacle registry root applications f ∧
      ∀ j, ((registry.collect root applications).run.run j).1 = .error f) ∨
    (∀ f, ¬ Obstacle registry root applications f) ∧
      ∃ chains : List Chain, (∀ c, c ∈ chains ↔ c.Admissible registry root applications) ∧
        chains.Pairwise (trail ·.links < trail ·.links) ∧
        ∀ j, ((registry.collect root applications).run.run j).1 =
          .ok ⟨chains.flatMap Chain.validators, chains.flatMap Chain.logic⟩ := by
  have hlists := (collect_lists registry root applications 0).congr (fun _ => Chain.admissible_iff) fun _ => obstacle_iff
  cases hlists with
  | stuck f h comes => exact .inl ⟨f, h, comes⟩
  | all chains mem sorted free comes =>
    refine .inr ⟨free, chains, mem, sorted, ?_⟩
    simp only [Rules.flat, List.flatMap_map] at comes
    exact comes

-- Figures that are no numeral are an obstacle.
example (registry : SchemaRegistry) (root : Value) (a : SchemaApplication) :
    Schema.Obstacle registry root [("²", a)] .badValue := .base (List.mem_singleton_self _) rfl

end FormRules
