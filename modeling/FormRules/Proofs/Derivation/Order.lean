import FormRules.Derivation.Engine
import FormRules.Proofs.Derivation.Loop
import FormRules.Proofs.Results
import FormRules.Proofs.Store.Order
import FormRules.Proofs.Store.Table
import Mathlib.Data.List.Nodup

/-!
# The order in which derivations are applied

The graph of derivations has an edge from a target to another one just if the derivation of the first reads
the second. Where the graph is acyclic, adding the derivations succeeds, and each is applied after those that
it reads, whatever order they were added in.
-/

namespace FormRules

theorem eraseDups_of_nodup {α : Type} [BEq α] [LawfulBEq α] {l : List α} (h : l.Nodup) : l.eraseDups = l := by
  induction l with
  | nil => rfl
  | cons a l ih =>
    obtain ⟨ha, hl⟩ := List.nodup_cons.mp h
    have hkeep : l.filter (fun b => !(b == a)) = l :=
      List.filter_eq_self.mpr fun b hb => by
        have hne : b ≠ a := fun he => ha (he ▸ hb)
        simpa using hne
    rw [List.eraseDups_cons, hkeep, ih hl]

theorem nodup_eraseDups {α : Type} [BEq α] [LawfulBEq α] (l : List α) : l.eraseDups.Nodup := by
  induction hn : l.length using Nat.strongRecOn generalizing l with
  | ind n ih =>
    cases l with
    | nil => exact List.nodup_nil
    | cons a l =>
      rw [List.eraseDups_cons]
      refine List.nodup_cons.mpr ⟨fun ha => ?_, ih _ ?_ _ rfl⟩
      · simpa using (List.mem_filter.mp (List.mem_eraseDups.mp ha)).2
      · rw [← hn, List.length_cons]
        exact Nat.lt_succ_of_le (List.length_filter_le _ l)

namespace Derivation
variable {ds es : List Derivation} {d : Derivation} {g : Graph} {a b t : String}

/-- Whether what is computed for a target is said to depend on another one. -/
def Reads (d : Derivation) (t : String) : Prop :=
  ∃ deps, d.dependencies = .ok deps ∧ ∃ p ∈ deps, p ≠ allFields ∧ overlaps p t = true

/-- Whether it can be said what a derivation depends on. -/
def Resolves (d : Derivation) : Prop := ∃ deps, d.dependencies = .ok deps

theorem Resolves.readTargets (h : d.Resolves) (targets : List String) : ∃ l, d.readTargets targets = .ok l := by
  obtain ⟨deps, hdeps⟩ := h
  exact ⟨targets.filter fun t => t ≠ d.target && (deps.filter (· ≠ allFields)).any (overlaps · t),
    by rw [Derivation.readTargets, hdeps]; rfl⟩

theorem mem_readTargets {targets l : List String} (h : d.readTargets targets = .ok l) :
    t ∈ l ↔ t ∈ targets ∧ t ≠ d.target ∧ d.Reads t := by
  unfold readTargets at h
  obtain ⟨deps, hd, h⟩ := of_bind_ok h
  cases h
  have hreads : d.Reads t ↔ ∃ p ∈ deps, p ≠ allFields ∧ overlaps p t = true :=
    ⟨fun ⟨_, he, hp⟩ => by cases hd.symm.trans he; exact hp, fun hp => ⟨deps, hd, hp⟩⟩
  rw [hreads, List.mem_filter, Bool.and_eq_true, decide_eq_true_iff, List.any_eq_true]
  simp only [List.mem_filter, decide_eq_true_iff, and_assoc]

theorem exists_graph (h : ∀ d ∈ ds, d.Resolves) : ∃ g, graph ds = .ok g := by
  have hedge (targets : List String) : ∀ d ∈ ds, ∃ e,
      (do return (d.target, ← d.readTargets targets) : Outcome (String × List String)) = .ok e := by
    intro d hd
    obtain ⟨l, hl⟩ := (h d hd).readTargets targets
    exact ⟨(d.target, l), by rw [hl]; rfl⟩
  obtain ⟨edges, he⟩ := exists_mapM (hedge (ds.map (·.target)).eraseDups)
  unfold graph
  dsimp only
  rw [he]
  exact ⟨_, rfl⟩

/-- The graph lists the targets, and for each the targets that its derivations read. -/
theorem graph_cases (h : graph ds = .ok g) : ∃ edges : List (String × List String),
    (∀ e, e ∈ edges ↔ ∃ d ∈ ds, e.1 = d.target ∧ d.readTargets (ds.map (·.target)).eraseDups = .ok e.2) ∧
      g = (ds.map (·.target)).eraseDups.map fun t =>
        (t, Fault.sorted ((edges.filter (·.1 = t)).flatMap (·.2)).eraseDups) := by
  unfold graph at h
  obtain ⟨edges, he, h⟩ := of_bind_ok h
  cases h
  refine ⟨edges, fun e => (mem_of_mapM he e).trans ?_, rfl⟩
  refine exists_congr fun d => and_congr_right fun _ => ⟨fun hde => ?_, fun ⟨ht, hl⟩ => ?_⟩
  · obtain ⟨l, hl, hde⟩ := of_bind_ok hde
    cases hde
    exact ⟨rfl, hl⟩
  · rw [hl, ← ht]
    rfl

theorem nodes_graph_eq (h : graph ds = .ok g) : g.nodes = (ds.map (·.target)).eraseDups := by
  obtain ⟨edges, -, rfl⟩ := graph_cases h
  rw [Graph.nodes, List.map_map]
  exact List.map_id _

theorem nodes_graph (hn : (ds.map (·.target)).Nodup) (h : graph ds = .ok g) : g.nodes = ds.map (·.target) := by
  rw [nodes_graph_eq h, eraseDups_of_nodup hn]

/-- The edges lead from a target to the ones that its derivations read. -/
theorem leads_iff (hr : ∀ d ∈ ds, d.Resolves) (h : graph ds = .ok g) :
    g.Leads a b ↔ ∃ d ∈ ds, d.target = a ∧ b ∈ ds.map (·.target) ∧ b ≠ a ∧ d.Reads b := by
  obtain ⟨edges, he, rfl⟩ := graph_cases h
  have hedge : b ∈ Fault.sorted ((edges.filter (·.1 = a)).flatMap (·.2)).eraseDups ↔
      ∃ d ∈ ds, d.target = a ∧ b ∈ ds.map (·.target) ∧ b ≠ a ∧ d.Reads b := by
    rw [Fault.sorted, (Order.sort_perm _).mem_iff, List.mem_eraseDups, List.mem_flatMap]
    constructor
    · rintro ⟨e, hmem, hb⟩
      obtain ⟨hmem, ha⟩ := List.mem_filter.mp hmem
      obtain ⟨d, hd, ht, hl⟩ := (he e).mp hmem
      have hda : d.target = a := ht.symm.trans (of_decide_eq_true ha)
      obtain ⟨hb, hne, hreads⟩ := (mem_readTargets hl).mp hb
      exact ⟨d, hd, hda, List.mem_eraseDups.mp hb, hda ▸ hne, hreads⟩
    · rintro ⟨d, hd, rfl, hb, hne, hreads⟩
      obtain ⟨l, hl⟩ := (hr d hd).readTargets (ds.map (·.target)).eraseDups
      exact ⟨(d.target, l), List.mem_filter.mpr ⟨(he _).mpr ⟨d, hd, rfl, hl⟩, by simp⟩,
        (mem_readTargets hl).mpr ⟨List.mem_eraseDups.mpr hb, hne, hreads⟩⟩
  rw [← hedge]
  unfold Graph.Leads Graph.successors
  by_cases ha : a ∈ (ds.map (·.target)).eraseDups
  · rw [Table.get?_of_mem (v := Fault.sorted ((edges.filter (·.1 = a)).flatMap (·.2)).eraseDups)]
    · rfl
    · rw [List.map_map, show (fun e : String × List String => e.1) ∘ _ = id from rfl, List.map_id]
      exact nodup_eraseDups _
    · exact List.mem_map.mpr ⟨a, ha, rfl⟩
  · rw [Table.get?_of_not_mem fun hm => ha ?_]
    · refine ⟨nofun, fun hb => absurd ?_ ha⟩
      obtain ⟨d, hd, rfl, -⟩ := hedge.mp hb
      exact List.mem_eraseDups.mpr (List.mem_map.mpr ⟨d, hd, rfl⟩)
    · rwa [List.map_map, show (fun e : String × List String => e.1) ∘ _ = id from rfl, List.map_id] at hm

theorem mem_nodes_graph (h : graph ds = .ok g) : t ∈ g.nodes ↔ t ∈ ds.map (·.target) := by
  rw [nodes_graph_eq h, List.mem_eraseDups]

theorem closed_graph (hr : ∀ d ∈ ds, d.Resolves) (h : graph ds = .ok g) : g.Closed := by
  intro a b hab
  obtain ⟨d, -, -, hb, -⟩ := (leads_iff hr h).mp hab
  exact (mem_nodes_graph h).mpr hb

/-- Derivations have a graph only if it can be said what each depends on. -/
theorem resolves_of_graph (h : graph ds = .ok g) : ∀ d ∈ ds, d.Resolves := by
  unfold graph at h
  obtain ⟨edges, hedges, -⟩ := of_bind_ok h
  intro d hd
  obtain ⟨e, he⟩ := ok_of_mapM hedges d hd
  obtain ⟨l, hl, -⟩ := of_bind_ok he
  obtain ⟨deps, hdeps, -⟩ := of_bind_ok hl
  exact ⟨deps, hdeps⟩

/-- Whether the graph of derivations is acyclic. -/
def Acyclic (ds : List Derivation) : Prop := ∀ g, graph ds = .ok g → g.Acyclic

/-- Fewer derivations have fewer edges. -/
theorem Acyclic.subset (ha : Acyclic ds) (hr : ∀ d ∈ ds, d.Resolves) (hes : es ⊆ ds) : Acyclic es := by
  intro g hg n hcycle
  obtain ⟨g', hg'⟩ := exists_graph hr
  have hre : ∀ d ∈ es, d.Resolves := fun d hd => hr d (hes hd)
  have hle : g.Leads ≤ g'.Leads := by
    intro a b hab
    obtain ⟨d, hd, ht, hb, hreads⟩ := (leads_iff hre hg).mp hab
    exact (leads_iff hr hg').mpr ⟨d, hes hd, ht, List.map_subset _ hes hb, hreads⟩
  exact ha g' hg' n (Relation.TransGen.mono hle n n hcycle)

/-- Derivations are applied after those that they read. -/
theorem order_sound (hs : ∀ d ∈ ds, d.isAsync = false) (hn : (ds.map (·.target)).Nodup)
    (hr : ∀ d ∈ ds, d.Resolves) (ha : Acyclic ds) : ∃ order, Derivation.order ds = .ok order ∧
      (∀ d, d ∈ order ↔ d ∈ ds) ∧ order.Pairwise fun d e => d.target ≠ e.target ∧ ¬ d.Reads e.target := by
  obtain ⟨g, hg⟩ := exists_graph hr
  obtain ⟨hmem, hnodup, hordered⟩ := Graph.postorder_sound (closed_graph hr hg) (ha g hg)
  have hkeep : ds.filter (fun d => !d.isAsync) = ds :=
    List.filter_eq_self.mpr fun d hd => by rw [hs d hd]; rfl
  refine ⟨g.postorder.flatMap fun t => ds.filter (·.target = t), ?_, fun d => ?_, ?_⟩
  · rw [Derivation.order, hkeep, evaluationOrder, hg]
    rfl
  · rw [List.mem_flatMap]
    constructor
    · rintro ⟨t, -, hd⟩
      exact (List.mem_filter.mp hd).1
    · intro hd
      refine ⟨d.target, (hmem _).mpr ?_, List.mem_filter.mpr ⟨hd, decide_eq_true rfl⟩⟩
      rw [nodes_graph hn hg]
      exact List.mem_map.mpr ⟨d, hd, rfl⟩
  · have hne : ds.Pairwise fun d e => d.target ≠ e.target := List.pairwise_map.mp hn
    refine List.pairwise_flatMap.mpr ⟨fun t _ => ?_, ?_⟩
    · refine (hne.filter _).imp_of_mem fun hd he hde => absurd ?_ hde
      exact (of_decide_eq_true (List.mem_filter.mp hd).2).trans (of_decide_eq_true (List.mem_filter.mp he).2).symm
    · have target {t : String} {d : Derivation} (hd : d ∈ ds.filter (·.target = t)) : d ∈ ds ∧ d.target = t :=
        ⟨(List.mem_filter.mp hd).1, of_decide_eq_true (List.mem_filter.mp hd).2⟩
      refine (hnodup.and hordered).imp fun {t u} htu d hd e he => ?_
      obtain ⟨hmd, rfl⟩ := target hd
      obtain ⟨hme, rfl⟩ := target he
      refine ⟨htu.1, fun hreads => htu.2 ((leads_iff hr hg).mpr ⟨d, hmd, rfl, ?_, htu.1.symm, hreads⟩)⟩
      exact List.mem_map.mpr ⟨e, hme, rfl⟩

/-- Whether the function of a derivation, if it has one, is registered. -/
def Registered (fs : Functions) (d : Derivation) : Prop :=
  ∀ name, d.source = .function name → ∃ f, Functions.find fs.derivations .derivation name = .ok f

theorem add_of_acyclic {fs : Functions} (hs : d.isAsync = false) (hf : d.Registered fs)
    (hr : ∀ e ∈ ds ++ [d], e.Resolves) (ha : Acyclic (ds ++ [d])) :
    Derivation.add fs ds d = .ok (ds ++ [d]) := by
  obtain ⟨g, hg⟩ := exists_graph hr
  have hcycle : cycle? (ds ++ [d]) = .ok none := by
    rw [cycle?, hg]
    exact congrArg Except.ok (Graph.cycle?_of_acyclic (closed_graph hr hg) (ha g hg))
  unfold Derivation.add
  rw [hcycle]
  cases hsource : d.source with
  | function name =>
    obtain ⟨f, hfind⟩ := hf name hsource
    dsimp only
    rw [hfind]
    rfl
  | expression code => rfl
  | fixed v => rfl
  | http r e => simp [isAsync, hsource] at hs
  | asyncFunction name => simp [isAsync, hsource] at hs

/-- Derivations with an acyclic graph can be added one after another. -/
theorem foldlM_add {fs : Functions} (hs : ∀ d ∈ ds ++ es, d.isAsync = false) (hf : ∀ d ∈ ds ++ es, d.Registered fs)
    (hr : ∀ d ∈ ds ++ es, d.Resolves) (ha : Acyclic (ds ++ es)) :
    es.foldlM (Derivation.add fs) ds = .ok (ds ++ es) := by
  induction es generalizing ds with
  | nil => rw [List.append_nil]; rfl
  | cons d es ih =>
    have hsplit : ds ++ d :: es = (ds ++ [d]) ++ es := by simp
    rw [hsplit] at hs hf hr ha ⊢
    have hsub : ds ++ [d] ⊆ (ds ++ [d]) ++ es := List.subset_append_left _ _
    rw [List.foldlM_cons, add_of_acyclic (hs d (by simp)) (hf d (by simp)) (fun e he => hr e (hsub he))
      (ha.subset hr hsub)]
    exact ih hs hf hr ha

end Derivation
end FormRules
