import FormRules.Proofs.Schema.Chain
import FormRules.Proofs.Schema.Listing

/-!
# Entering a definition

An application is expanded at a place: it leads to the same definition at the place itself, at none, or at each item of
the list there. What the expansion lists behind a place are the links that lead on from a definition and enter no name
that is on the way (`Follows`); one application lists the chains that start with it (`Runs`), as long as the definition
lists what follows it wherever the application takes effect.
-/

namespace FormRules
open Checking (Comes)

/-! ## Where an application takes effect -/

theorem Value.satisfies_comes (v predicate : Value) :
    Comes (v.satisfies predicate) (if predicate.isHashable then .ok (v.meets predicate) else .error .wrongKind) := by
  unfold satisfies
  by_cases h : predicate.isHashable = true
  · simp only [h, Bool.not_true, Bool.false_eq_true, if_false, if_true]
    cases he : Expr.evaluateValue predicate [("value", v)] with
    | ok w =>
      have hw : v.upholds predicate = w.truthy := by rw [upholds, he]
      cases predicate with
      | text s =>
        cases hs : v.isOfType? s with
        | some b => simp only [meets, hs, Option.getD_some]; exact .pure b
        | none => simp only [meets, hs, hw, Option.getD_none]; exact .pure _
      | _ => simp only [meets, hw]; exact .pure _
    | error f =>
      have hw : v.upholds predicate = false := by rw [upholds, he]
      cases predicate with
      | text s =>
        cases hs : v.isOfType? s with
        | some b => simp only [meets, hs, Option.getD_some]; exact .pure b
        | none => simp only [meets, hs, hw, Option.getD_none]; exact (Comes.report _).bind (.pure _)
      | _ => simp only [meets, hw]; exact (Comes.report _).bind (.pure _)
  · simp only [h, Bool.not_false, if_true, if_false, Bool.false_eq_true]
    exact Comes.fail fun _ => rfl

namespace Place
open Schema (Link Chain names)

/-- The place of the definition that a link enters. -/
def after (p : Place) (l : Link) : Place :=
  ⟨p.keys ++ l.path, p.guards ++ l.application.kind.guards, p.stack ++ [l.definition.name]⟩

/-- The rules of the definition that links lead to from a definition at a place. -/
def brings (p : Place) (s : Schema) (ls : List Link) : Rules :=
  (ls.foldl after p).rulesOf (s.last ls).name (s.last ls).validators (s.last ls).logic

/-- The rules of the definition that a chain from a place leads to. -/
def emits (p : Place) (c : Chain) : Rules := (p.after c.first).brings c.first.definition c.rest

theorem brings_links (p : Place) (s : Schema) (c : Chain) : p.brings s c.links = p.emits c := by
  simp [brings, emits, Chain.links]

theorem foldl_after (p : Place) (ls : List Link) :
    ls.foldl after p = ⟨p.keys ++ ls.flatMap Link.path,
      p.guards ++ ls.flatMap fun l => l.application.kind.guards, p.stack ++ names ls⟩ := by
  induction ls generalizing p with
  | nil => simp [names]
  | cons l ls ih => simp [ih, after, names]

/-- The items at which an application takes effect, and the places that these are. -/
theorem targets_comes (p : Place) (kind : ApplicationKind) (predicate root : Value) :
    (kind = .forType ∧ predicate.isHashable = false) ∧ Comes (p.targets kind predicate root) (.error .wrongKind) ∨
      ¬ (kind = .forType ∧ predicate.isHashable = false) ∧ ∃ items : List (Option Nat),
        (∀ i, i ∈ items ↔ kind.Takes predicate (root.getPath p.keys) i) ∧
        items.Pairwise (·.getD 0 < ·.getD 0) ∧
        Comes (p.targets kind predicate root) (.ok (items.map fun i =>
          ⟨p.keys ++ i.toList.map fun (n : Nat) => .index n, p.guards ++ kind.guards, p.stack⟩)) := by
  cases kind with
  | always =>
    refine .inr ⟨by simp, [none], fun i => ?_, List.pairwise_singleton _ _, ?_⟩
    · cases i <;> simp [ApplicationKind.Takes]
    · simpa [targets, ApplicationKind.guards] using Comes.pure [p]
  | whenever c =>
    refine .inr ⟨by simp, [none], fun i => ?_, List.pairwise_singleton _ _, ?_⟩
    · cases i <;> simp [ApplicationKind.Takes]
    · simpa [targets, ApplicationKind.guards] using Comes.pure [({ p with guards := p.guards ++ [c] } : Place)]
  | forType =>
    have hmet := (root.getPath p.keys).satisfies_comes predicate
    by_cases hh : predicate.isHashable = true
    · rw [if_pos hh] at hmet
      refine .inr ⟨by simp [hh], if (root.getPath p.keys).meets predicate then [none] else [], fun i => ?_, ?_, ?_⟩
      · cases i <;> simp [ApplicationKind.Takes, hh]
      · split_ifs <;> simp
      · refine hmet.bind ?_
        split_ifs with hm
        · simpa [ApplicationKind.guards, hm] using Comes.pure [p]
        · exact .pure []
    · rw [if_neg hh] at hmet
      exact .inl ⟨⟨rfl, by simpa using hh⟩, hmet.fail⟩
  | forEach =>
    unfold targets
    cases hv : root.getPath p.keys with
    | seq kind items =>
      refine .inr ⟨by simp, (List.range items.length).map some, fun i => ?_, ?_, ?_⟩
      · cases i <;> simp [ApplicationKind.Takes]
      · simpa [List.pairwise_map] using List.pairwise_lt_range
      · simpa [ApplicationKind.guards, Function.comp_def] using Comes.pure _
    | _ => exact .inr ⟨by simp, [], fun i => by cases i <;> simp [ApplicationKind.Takes], .nil, .pure []⟩

end Place

namespace Schema
variable {registry : SchemaRegistry} {root : Value} {s : Schema} {a : SchemaApplication} {p : Place} {n : Nat} {l : Link}
  {ls : List Link} {f : Fault}

/-! ## Links behind a place -/

theorem trail_lt_cons : trail [] < trail (l :: ls) := List.nil_lt_cons _ _

theorem trail_cons_lt {l' : Link} {ls' : List Link} :
    trail (l :: ls) < trail (l' :: ls') ↔ l.position < l'.position ∨ l.position = l'.position ∧
      (l.item.getD 0 < l'.item.getD 0 ∨ l.item.getD 0 = l'.item.getD 0 ∧ trail ls < trail ls') := by
  simp [trail, List.cons_lt_cons_iff]

/-- Links that an expansion follows from a definition at a place on. -/
structure Follows (registry : SchemaRegistry) (root : Value) (s : Schema) (p : Place) (ls : List Link) : Prop where
  leads : Leads registry root s p.keys ls
  distinct : (p.stack ++ names ls).Nodup

/-- A chain that an expansion follows from the application at a position on. -/
structure Runs (registry : SchemaRegistry) (root : Value) (p : Place) (x : SchemaApplication × Nat) (c : Chain) :
    Prop where
  base : c.base = p.keys
  application : c.first.application = x.1
  position : c.first.position = x.2
  holds : c.first.Holds registry root p.keys
  follows : Follows registry root c.first.definition (p.after c.first) c.rest

theorem Runs.trail_lt {q : Place} {x y : SchemaApplication × Nat} {c c' : Chain} (hc : Runs registry root p x c)
    (hc' : Runs registry root q y c') (h : x.2 < y.2) : trail c.links < trail c'.links := by
  refine trail_cons_lt.mpr (.inl ?_)
  rwa [hc.position, hc'.position]

/-- What stops an expansion behind a definition at a place. -/
def Stuck (registry : SchemaRegistry) (root : Value) (s : Schema) (p : Place) (f : Fault) : Prop :=
  ∃ ls, Follows registry root s p ls ∧ ∃ a ∈ (s.last ls).subSchemas, Halts registry (p.stack ++ names ls) a f

/-- What stops the expansion of the application at a position. -/
def StuckAt (registry : SchemaRegistry) (root : Value) (p : Place) (x : SchemaApplication × Nat) (f : Fault) : Prop :=
  Halts registry p.stack x.1 f ∨ ∃ l : Link, l.application = x.1 ∧ l.position = x.2 ∧ l.Holds registry root p.keys ∧
    l.definition.name ∉ p.stack ∧ Stuck registry root l.definition (p.after l) f

theorem follows_cons : Follows registry root s p (l :: ls) ↔ s.subSchemas[l.position]? = some l.application ∧
    l.Holds registry root p.keys ∧ Follows registry root l.definition (p.after l) ls := by
  constructor
  · rintro ⟨_ | ⟨declared, holds, rest⟩, distinct⟩
    exact ⟨declared, holds, rest, by simpa [Place.after, names] using distinct⟩
  · rintro ⟨declared, holds, rest, distinct⟩
    exact ⟨.link declared holds rest, by simpa [Place.after, names] using distinct⟩

theorem Follows.fresh (h : Follows registry root l.definition (p.after l) ls) : l.definition.name ∉ p.stack := by
  have h := (List.nodup_append.mp h.distinct).1
  exact fun hmem => (List.nodup_append.mp h).2.2 _ hmem _ (List.mem_singleton_self _) rfl

/-- A definition is followed to its own rules, or along a chain from one of its applications. -/
theorem follows_iff (hp : p.stack.Nodup) : Follows registry root s p ls ↔
    ls = [] ∨ ∃ c, (∃ x ∈ s.subSchemas.zipIdx, Runs registry root p x c) ∧ c.links = ls := by
  cases ls with
  | nil =>
    refine ⟨fun _ => .inl rfl, fun _ => ⟨.here, by simpa [names] using hp⟩⟩
  | cons l ls =>
    rw [follows_cons]
    constructor
    · rintro ⟨declared, holds, rest⟩
      exact .inr ⟨⟨p.keys, l, ls⟩, ⟨(l.application, l.position), List.mem_zipIdx_iff_getElem?.mpr declared, rfl, rfl, rfl,
        holds, rest⟩, rfl⟩
    · rintro (h | ⟨c, ⟨x, hx, -, ha, hn, holds, rest⟩, hc⟩)
      · simp at h
      · obtain ⟨rfl, rfl⟩ := List.cons.inj hc
        refine ⟨?_, holds, rest⟩
        rw [ha, hn]
        exact List.mem_zipIdx_iff_getElem?.mp hx

theorem stuck_iff (hp : p.stack.Nodup) :
    Stuck registry root s p f ↔ ∃ x ∈ s.subSchemas.zipIdx, StuckAt registry root p x f := by
  constructor
  · rintro ⟨_ | ⟨l, ls⟩, hls, a, ha, hf⟩
    · obtain ⟨i, hi⟩ := List.mem_iff_getElem?.mp ha
      exact ⟨(a, i), List.mem_zipIdx_iff_getElem?.mpr hi, .inl (by simpa [names] using hf)⟩
    · obtain ⟨declared, holds, rest⟩ := follows_cons.mp hls
      refine ⟨(l.application, l.position), List.mem_zipIdx_iff_getElem?.mpr declared, .inr ⟨l, rfl, rfl, holds, rest.fresh,
        ls, rest, a, ?_, ?_⟩⟩
      · simpa using ha
      · simpa [Place.after, names] using hf
  · rintro ⟨x, hx, hf | ⟨l, ha, hn, holds, hnew, ls, rest, b, hb, hf⟩⟩
    · exact ⟨[], (follows_iff hp).mpr (.inl rfl), x.1, by simpa using List.fst_mem_of_mem_zipIdx hx,
        by simpa [names] using hf⟩
    · have declared : s.subSchemas[l.position]? = some l.application := by
        rw [ha, hn]
        exact List.mem_zipIdx_iff_getElem?.mp hx
      refine ⟨l :: ls, follows_cons.mpr ⟨declared, holds, rest⟩, b, ?_, ?_⟩
      · simpa using hb
      · simpa [Place.after, names] using hf

/-! ## Entering a definition -/

/-- The link that an application at a position is when it takes effect. -/
theorem Link.eq_of_holds {keys : List Key} (hs : a.schema.resolve registry = some s) (hkeys : a.path.pathKeys = .ok keys)
    {place : List Key} (ha : l.application = a) (hn : l.position = n) (h : l.Holds registry root place) :
    l = ⟨n, a, s, keys, l.item⟩ ∧ a.kind.Takes a.typePredicate (root.getPath (place ++ keys)) l.item := by
  obtain ⟨n', a', s', keys', i⟩ := l
  obtain ⟨rfl, rfl⟩ : a' = a ∧ n' = n := ⟨ha, hn⟩
  obtain rfl : s' = s := Option.some.inj (h.resolved.symm.trans hs)
  obtain rfl : keys' = keys := Except.ok.inj (h.readable.symm.trans hkeys)
  exact ⟨rfl, h.taken⟩

/-- The chains behind an application are listed item by item. -/
theorem items_lists {keys : List Key} {items : List (Option Nat)} {enters : Place → Checking Rules}
    (hs : a.schema.resolve registry = some s) (hkeys : a.path.pathKeys = .ok keys) (hnew : s.name ∉ p.stack)
    (hpredicate : ¬ (a.kind = .forType ∧ a.typePredicate.isHashable = false))
    (hitems : ∀ i, i ∈ items ↔ a.kind.Takes a.typePredicate (root.getPath (p.keys ++ keys)) i)
    (hsorted : items.Pairwise (·.getD 0 < ·.getD 0))
    (h : ∀ l : Link, l.definition = s → Lists trail ((p.after l).brings s) (Follows registry root s (p.after l))
      (Stuck registry root s (p.after l)) (enters (p.after l))) :
    Lists (trail ·.links) p.emits (Runs registry root p (a, n)) (StuckAt registry root p (a, n))
      (items.mapM (fun i => enters (p.after ⟨n, a, s, keys, i⟩)) >>= fun each => pure (each.foldl Rules.append {})) := by
  -- The items of one application share the link but for the item, so their chains are told apart by it alone.
  have hone (i : Option Nat) : Lists (trail ·.links) p.emits
      (fun c => ∃ ls, Follows registry root s (p.after ⟨n, a, s, keys, i⟩) ls ∧ ⟨p.keys, ⟨n, a, s, keys, i⟩, ls⟩ = c)
      (Stuck registry root s (p.after ⟨n, a, s, keys, i⟩)) (enters (p.after ⟨n, a, s, keys, i⟩)) := by
    refine (h ⟨n, a, s, keys, i⟩ rfl).map (fun _ => Iff.rfl) (fun _ => Iff.rfl) ?_ fun _ _ => ?_
    · exact fun ls ls' hlt => trail_cons_lt.mpr (.inr ⟨rfl, .inr ⟨rfl, hlt⟩⟩)
    · rfl
  have heach := Lists.each (fun i _ => hone i) (hsorted.imp fun hij c c' ⟨_, _, hc⟩ ⟨_, _, hc'⟩ => by
    rw [← hc, ← hc']
    exact trail_cons_lt.mpr (.inr ⟨rfl, .inl hij⟩))
  refine heach.congr (fun c => ?_) fun f => ?_
  · constructor
    · rintro ⟨hbase, ha, hn, hl, hfollows⟩
      obtain ⟨hlink, htaken⟩ := Link.eq_of_holds hs hkeys ha hn hl
      refine ⟨c.first.item, (hitems _).mpr htaken, c.rest, ?_, ?_⟩
      · rwa [hlink] at hfollows
      · rw [← hbase, ← hlink]
    · rintro ⟨i, hi, ls, hls, rfl⟩
      exact ⟨rfl, rfl, rfl, ⟨hs, hkeys, (hitems i).mp hi⟩, hls⟩
  · constructor
    · rintro (⟨-, herror | ⟨-, hforType⟩⟩ | ⟨l, ha, hn, hl, -, hstuck⟩)
      · rw [hkeys] at herror
        cases herror
      · exact absurd ⟨hforType.1, hforType.2.1⟩ hpredicate
      · obtain ⟨hlink, htaken⟩ := Link.eq_of_holds hs hkeys ha hn hl
        exact ⟨l.item, (hitems _).mpr htaken, by rwa [hlink] at hstuck⟩
    · rintro ⟨i, hi, hstuck⟩
      exact .inr ⟨⟨n, a, s, keys, i⟩, rfl, rfl, ⟨hs, hkeys, (hitems i).mp hi⟩, hnew, hstuck⟩

/-- Entering a definition lists the chains that start with its application, given what the definition lists wherever
the application takes effect. -/
theorem enter_lists {enters : Place → Checking Rules} (hs : a.schema.resolve registry = some s)
    (h : ∀ l : Link, l.definition = s → s.name ∉ p.stack →
      Lists trail ((p.after l).brings s) (Follows registry root s (p.after l)) (Stuck registry root s (p.after l))
        (enters (p.after l))) :
    Lists (trail ·.links) p.emits (Runs registry root p (a, n)) (StuckAt registry root p (a, n))
      (p.enter a.kind a.typePredicate a.path root s.name enters) := by
  unfold Place.enter
  by_cases hstack : p.stack.contains s.name = true
  · -- Every link from this application would enter a name that is on the way.
    have hmem : s.name ∈ p.stack := by simpa using hstack
    have hlink {l : Link} (ha : l.application = a) (hl : l.Holds registry root p.keys) : l.definition.name ∈ p.stack := by
      have hresolved := hl.resolved
      rw [ha, hs] at hresolved
      exact Option.some.inj hresolved ▸ hmem
    rw [if_pos hstack]
    refine .nothing ?_ ?_ ((Comes.report _).bind (.pure _))
    · exact fun c hc => hc.follows.fresh (hlink hc.application hc.holds)
    · rintro f (⟨⟨s', hs', hnew⟩, -⟩ | ⟨l, ha, -, hl, hnew, -⟩)
      · exact hnew (Option.some.inj (hs'.symm.trans hs) ▸ hmem)
      · exact hnew (hlink ha hl)
  · have hnew : s.name ∉ p.stack := by simpa using hstack
    rw [if_neg hstack]
    cases hkeys : a.path.pathKeys with
    | error f => exact .stuck f (.inl ⟨⟨s, hs, hnew⟩, .inl hkeys⟩) (Comes.of_outcome _).fail
    | ok keys =>
      refine .after (.of_outcome _) ?_
      rcases ({ p with keys := p.keys ++ keys } : Place).targets_comes a.kind a.typePredicate root with
        ⟨hpredicate, hx⟩ | ⟨hpredicate, items, hitems, hsorted, hx⟩
      · exact .stuck _ (.inl ⟨⟨s, hs, hnew⟩, .inr ⟨⟨keys, hkeys⟩, hpredicate.1, hpredicate.2, rfl⟩⟩) hx.fail
      · refine .after hx ?_
        have hlists := items_lists (n := n) hs hkeys hnew hpredicate hitems hsorted fun l hl => h l hl hnew
        rw [List.mapM_map]
        simpa [Place.after, Link.path, Function.comp_def] using hlists

/-- An application of a schema that is not found brings in nothing. -/
theorem missing_lists {x : Checking Rules} (hs : a.schema.resolve registry = none) (hx : Comes x (.ok {})) :
    Lists (trail ·.links) p.emits (Runs registry root p (a, n)) (StuckAt registry root p (a, n)) x := by
  have hlink {l : Link} (ha : l.application = a) (hl : l.Holds registry root p.keys) : False := by
    have hresolved := hl.resolved
    rw [ha, hs] at hresolved
    cases hresolved
  refine .nothing (fun c hc => hlink hc.application hc.holds) ?_ hx
  rintro f (⟨⟨s, hs', -⟩, -⟩ | ⟨l, ha, -, hl, -⟩)
  · rw [hs] at hs'
    cases hs'
  · exact hlink ha hl

end Schema
end FormRules
