import FormRules.Proofs.Condition.Evaluated
import FormRules.Proofs.Derivation.Order

/-!
# Whether it can be told what derivations read

What a derivation reads is told by the fields that its condition compares, among others, and such a field is named
by a path. Derivations have a graph unless one of their conditions names a path that cannot be read.
-/

namespace FormRules

/-- Every field that the condition compares is named by a path that can be read. -/
def Condition.NamesPaths (c : Condition) : Prop := ∀ p, c.Names p → ∃ keys, Path.keys p = .ok keys

namespace Test
variable {t : Test} {ts : List Test}

theorem allDependencies_cases (ts : List Test) :
    (∃ l, allDependencies ts = .ok l ∧ ∀ t ∈ ts, ∃ l, t.dependencies = .ok l) ∨
      ∃ f, allDependencies ts = .error f ∧ ∃ t ∈ ts, t.dependencies = .error f := by
  induction ts with
  | nil => exact .inl ⟨[], rfl, nofun⟩
  | cons t ts ih =>
    rw [allDependencies]
    cases ht : t.dependencies with
    | error f => exact .inr ⟨f, rfl, t, List.mem_cons_self, ht⟩
    | ok l =>
      rcases ih with ⟨ls, hls, hts⟩ | ⟨f, hf, u, hu, hfault⟩
      · rw [hls]
        exact .inl ⟨_, rfl, List.forall_mem_cons.mpr ⟨⟨l, ht⟩, hts⟩⟩
      · rw [hf]
        exact .inr ⟨f, rfl, u, List.mem_cons_of_mem t hu, hfault⟩

/-- What a test reads is told unless a path cannot be read. -/
theorem dependencies_cases (t : Test) : (∃ l, t.dependencies = .ok l) ∧ (Condition.test t).NamesPaths ∨
    ∃ f, t.dependencies = .error f ∧ Unreadable t.Names f := by
  -- the tests of a group are all looked at, whatever the others are
  have group {ts : List Test} {names : String → Prop} (hin : ∀ t ∈ ts, ∀ p, t.Names p → names p)
      (hout : ∀ p, names p → ∃ t ∈ ts, t.Names p)
      (ih : ∀ t ∈ ts, (∃ l, t.dependencies = .ok l) ∧ (Condition.test t).NamesPaths ∨
        ∃ f, t.dependencies = .error f ∧ Unreadable t.Names f) :
      (∃ l, allDependencies ts = .ok l) ∧ (∀ p, names p → ∃ keys, Path.keys p = .ok keys) ∨
        ∃ f, allDependencies ts = .error f ∧ Unreadable names f := by
    rcases allDependencies_cases ts with ⟨l, hl, hts⟩ | ⟨f, hf, t, ht, hfault⟩
    · refine .inl ⟨⟨l, hl⟩, fun p hp => ?_⟩
      obtain ⟨t, ht, hname⟩ := hout p hp
      rcases ih t ht with ⟨-, hpaths⟩ | ⟨f, hf, -⟩
      · exact hpaths p hname
      · obtain ⟨l, hl⟩ := hts t ht
        exact nomatch hl.symm.trans hf
    · rcases ih t ht with ⟨⟨l, hl⟩, -⟩ | ⟨f', hf', hunreadable⟩
      · exact nomatch hl.symm.trans hfault
      · obtain rfl : f' = f := Except.error.inj (hf'.symm.trans hfault)
        exact .inr ⟨f', hf, hunreadable.mono (hin t ht)⟩
  induction t using Test.induct with
  | literal b => exact .inl ⟨⟨_, rfl⟩, nofun⟩
  | formValue op v => exact .inl ⟨⟨_, rfl⟩, nofun⟩
  | expression code => exact .inl ⟨⟨_, rfl⟩, nofun⟩
  | custom name => exact .inl ⟨⟨_, rfl⟩, nofun⟩
  | fieldValue path op v =>
    rw [dependencies]
    cases hpath : Path.keys path with
    | error f => exact .inr ⟨f, rfl, path, .fieldValue, hpath⟩
    | ok keys =>
      refine .inl ⟨?_, fun p hp => ?_⟩
      · cases keys with
        | nil => exact ⟨_, rfl⟩
        | cons k ks => exact ⟨_, rfl⟩
      · cases hp
        exact ⟨keys, hpath⟩
  | all ts ih => exact group (fun t ht p hp => .all ht hp) (fun p hp => by cases hp with | all ht h => exact ⟨_, ht, h⟩) ih
  | any ts ih => exact group (fun t ht p hp => .any ht hp) (fun p hp => by cases hp with | any ht h => exact ⟨_, ht, h⟩) ih

end Test

namespace Derivation
variable {ds : List Derivation} {d : Derivation} {f : Fault}

/-- An expression and declared dependences are texts. -/
structure IsTyped (d : Derivation) : Prop where
  expression : ∀ code, d.source = .expression code → ∃ s, code = .text s
  dependsOn : ∀ v ∈ d.dependsOn, ∃ s, v = .text s

/-- Every field that the condition compares, if there is one, is named by a path that can be read. -/
def NamesPaths (d : Derivation) : Prop := ∀ c, d.condition = some c → c.NamesPaths

/-- What a derivation reads is what its condition reads, besides what can be told. -/
theorem IsTyped.dependencies_eq (h : d.IsTyped) : ∃ own, d.dependencies = do
    let gate ← match d.condition with
      | some c => c.dependencies
      | none => pure []
    return (own ++ gate).eraseDups := by
  unfold dependencies
  dsimp only
  split
  · obtain ⟨own, hown⟩ : ∃ own, DerivationSource.dependencies d.source = .ok own := by
      cases hsource : d.source with
      | expression code =>
        obtain ⟨s, rfl⟩ := h.expression code hsource
        rw [DerivationSource.dependencies, pathsOf]
        split <;> exact ⟨_, rfl⟩
      | function name => exact ⟨_, rfl⟩
      | asyncFunction name => exact ⟨_, rfl⟩
      | fixed v => exact ⟨_, rfl⟩
      | http r e => exact ⟨_, rfl⟩
    rw [hown]
    exact ⟨own, by cases d.condition <;> rfl⟩
  · obtain ⟨own, hown⟩ : ∃ own, d.dependsOn.mapM declared = .ok own := by
      refine exists_mapM fun v hv => ?_
      obtain ⟨s, rfl⟩ := h.dependsOn v hv
      exact ⟨s, rfl⟩
    rw [hown]
    exact ⟨own, by cases d.condition <;> rfl⟩

/-- What a derivation reads is told unless its condition compares a field by a path that cannot be read. -/
theorem IsTyped.dependencies_cases (h : d.IsTyped) : d.Resolves ∧ d.NamesPaths ∨
    ∃ f, d.dependencies = .error f ∧ ∃ c, d.condition = some c ∧ Unreadable c.Names f := by
  obtain ⟨own, heq⟩ := h.dependencies_eq
  unfold Resolves NamesPaths
  rw [heq]
  cases d.condition with
  | none => exact .inl ⟨⟨_, rfl⟩, nofun⟩
  | some c =>
    cases c with
    | inquiry i => exact .inl ⟨⟨_, rfl⟩, fun c hc => by cases hc; exact nofun⟩
    | test t =>
      rcases t.dependencies_cases with ⟨⟨l, hl⟩, hpaths⟩ | ⟨f, hf, hunreadable⟩
      · exact .inl ⟨⟨(own ++ l).eraseDups, by dsimp only; rw [Condition.dependencies, hl]; rfl⟩,
          fun c hc => by cases hc; exact hpaths⟩
      · exact .inr ⟨f, by dsimp only; rw [Condition.dependencies, hf]; rfl, .test t, rfl, hunreadable⟩

/-- A graph is wanting only for want of the dependences of some derivation. -/
theorem graph_error (h : graph ds = .error f) : ∃ d ∈ ds, d.dependencies = .error f := by
  unfold graph at h
  rcases of_bind_error h with h | ⟨edges, -, h⟩
  · obtain ⟨d, hd, h⟩ := of_mapM_error h
    rcases of_bind_error h with h | ⟨l, -, h⟩
    · unfold readTargets at h
      rcases of_bind_error h with h | ⟨deps, -, h⟩
      · exact ⟨d, hd, h⟩
      · cases h
    · cases h
  · cases h

/-- Derivations have a graph just if every condition names its fields by paths that can be read. -/
theorem exists_graph_iff (h : ∀ d ∈ ds, d.IsTyped) : (∃ g, graph ds = .ok g) ↔ ∀ d ∈ ds, d.NamesPaths := by
  refine ⟨fun ⟨g, hg⟩ d hd => ?_, fun hnames => exists_graph fun d hd => ?_⟩
  · obtain ⟨deps, hdeps⟩ := resolves_of_graph hg d hd
    rcases (h d hd).dependencies_cases with ⟨-, hpaths⟩ | ⟨f, hf, -⟩
    · exact hpaths
    · cases hdeps.symm.trans hf
  · rcases (h d hd).dependencies_cases with ⟨hr, -⟩ | ⟨f, -, c, hc, p, hp, hunreadable⟩
    · exact hr
    · obtain ⟨keys, hkeys⟩ := hnames d hd c hc p hp
      cases hkeys.symm.trans hunreadable

/-- What keeps derivations from having a graph is the fault of a path that some condition names. -/
theorem graph_unreadable (h : ∀ d ∈ ds, d.IsTyped) (hf : graph ds = .error f) :
    ∃ d ∈ ds, ∃ c, d.condition = some c ∧ Unreadable c.Names f := by
  obtain ⟨d, hd, hdeps⟩ := graph_error hf
  rcases (h d hd).dependencies_cases with ⟨⟨deps, hok⟩, -⟩ | ⟨f', hf', hunreadable⟩
  · cases hok.symm.trans hdeps
  · obtain rfl : f' = f := Except.error.inj (hf'.symm.trans hdeps)
    exact ⟨d, hd, hunreadable⟩

/-- A derivation that has declared what it depends on. -/
def declaring (target : String) (reads : List String) : Derivation where
  target
  source := .fixed .null
  condition := none
  dependsOn := reads.map .text
  debounceMs := none

theorem isTyped_declaring (target : String) (reads : List String) : (declaring target reads).IsTyped where
  expression := nofun
  dependsOn v hv := by
    obtain ⟨s, -, rfl⟩ := List.mem_map.mp hv
    exact ⟨s, rfl⟩

theorem namesPaths_declaring (target : String) (reads : List String) : (declaring target reads).NamesPaths :=
  nofun

/-- A derivation under a condition on a field that no path names: a digit by its look that stands for no number. -/
def misnamed : Derivation where
  target := "a"
  source := .fixed .null
  condition := some (.test (.fieldValue "²" .equals .null))
  dependsOn := []
  debounceMs := none

theorem isTyped_misnamed : misnamed.IsTyped where
  expression := nofun
  dependsOn := nofun

theorem not_namesPaths_misnamed : ¬ misnamed.NamesPaths := fun hall => by
  obtain ⟨keys, hkeys⟩ := hall _ rfl "²" .fieldValue
  have hnone : (Path.keys "²").isOk = false := by decide +kernel
  rw [hkeys] at hnone
  cases hnone

end Derivation
end FormRules
