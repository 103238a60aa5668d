import FormRules.Proofs.Derivation.Cycle

/-!
# What ordering derivations keeps

Ordering rearranges derivations: those of one target stay together and keep their order, and what a target reads
comes before it, unless that leads back to the target. It gives an order unless a condition compares a field by a
path that cannot be read.
-/

namespace FormRules.Derivation
variable {ds order : List Derivation} {d : Derivation} {g : Graph} {t u : String} {ts : List String}

/-! ## Derivations by target -/

/-- Derivations by target, the targets in some order. -/
def grouped (ts : List String) (ds : List Derivation) : List Derivation := ts.flatMap fun t => ds.filter (·.target = t)

theorem evaluationOrder_of_graph (h : graph ds = .ok g) : evaluationOrder ds = .ok (grouped g.postorder ds) := by
  rw [evaluationOrder, h]
  rfl

theorem mem_grouped : d ∈ grouped ts ds ↔ d ∈ ds ∧ d.target ∈ ts := by
  rw [grouped, List.mem_flatMap]
  simp only [List.mem_filter, decide_eq_true_iff]
  exact ⟨fun ⟨t, ht, hd, hdt⟩ => ⟨hd, hdt ▸ ht⟩, fun ⟨hd, hdt⟩ => ⟨d.target, hdt, hd, rfl⟩⟩

theorem grouped_perm (hn : ts.Nodup) (h : ∀ d ∈ ds, d.target ∈ ts) : (grouped ts ds).Perm ds := by
  induction ts generalizing ds with
  | nil =>
    rw [List.eq_nil_iff_forall_not_mem.mpr fun d hd => List.not_mem_nil (h d hd)]
    exact .nil
  | cons t ts ih =>
    obtain ⟨ht, hn⟩ := List.nodup_cons.mp hn
    have hrest : grouped ts ds = grouped ts (ds.filter fun d => !decide (d.target = t)) := by
      refine List.flatMap_congr fun u hu => ?_
      rw [List.filter_filter]
      refine List.filter_congr fun d _ => ?_
      have hut : u ≠ t := fun heq => ht (heq ▸ hu)
      by_cases hdu : d.target = u
      · simp [hdu, hut]
      · simp [hdu]
    have hperm : (grouped ts (ds.filter fun d => !decide (d.target = t))).Perm
        (ds.filter fun d => !decide (d.target = t)) := by
      refine ih hn fun d hd => ?_
      obtain ⟨hd, hne⟩ := List.mem_filter.mp hd
      exact (List.mem_cons.mp (h d hd)).resolve_left (by simpa using hne)
    show (ds.filter (·.target = t) ++ grouped ts ds).Perm ds
    rw [hrest]
    exact (hperm.append_left _).trans (List.filter_append_perm _ ds)

/-- The derivations of one target stand together, in their order. -/
theorem grouped_together (ds : List Derivation) (hn : ts.Nodup) (t : String) : ∃ before after,
    grouped ts ds = before ++ (if t ∈ ts then ds.filter (·.target = t) else []) ++ after ∧
      ∀ d ∈ before ++ after, d.target ≠ t := by
  have others {us : List String} (hu : t ∉ us) : ∀ d ∈ grouped us ds, d.target ≠ t :=
    fun d hd heq => hu (heq ▸ (mem_grouped.mp hd).2)
  by_cases ht : t ∈ ts
  · obtain ⟨before, after, rfl⟩ := List.append_of_mem ht
    obtain ⟨-, hafter, hapart⟩ := List.nodup_append.mp hn
    refine ⟨grouped before ds, grouped after ds, ?_, fun d hd => ?_⟩
    · rw [if_pos ht, grouped, List.flatMap_append, List.flatMap_cons, ← List.append_assoc]
      rfl
    · rcases List.mem_append.mp hd with hd | hd
      · exact others (fun hmem => hapart t hmem t List.mem_cons_self rfl) d hd
      · exact others (List.nodup_cons.mp hafter).1 d hd
  · exact ⟨grouped ts ds, [], by rw [if_neg ht, List.append_nil, List.append_nil],
      fun d hd => others ht d (by simpa using hd)⟩

theorem filter_grouped (hn : ts.Nodup) (ht : t ∈ ts) : (grouped ts ds).filter (·.target = t) = ds.filter (·.target = t) := by
  obtain ⟨before, after, heq, hothers⟩ := grouped_together ds hn t
  have drop {l : List Derivation} (hl : l ⊆ before ++ after) : l.filter (·.target = t) = [] :=
    List.filter_eq_nil_iff.mpr fun d hd => by simpa using hothers d (hl hd)
  rw [heq, if_pos ht, List.filter_append, List.filter_append, drop (List.subset_append_left _ _),
    drop (List.subset_append_right _ _), List.nil_append, List.append_nil, List.filter_filter]
  simp

theorem grouped_grouped (hn : ts.Nodup) : grouped ts (grouped ts ds) = grouped ts ds :=
  List.flatMap_congr fun _ ht => filter_grouped hn ht

theorem grouped_pairwise (ds : List Derivation) {R : String → String → Prop} (hrefl : ∀ t, R t t) (h : ts.Pairwise R) :
    (grouped ts ds).Pairwise fun d e => R d.target e.target := by
  have target {t : String} {d : Derivation} (hd : d ∈ ds.filter (·.target = t)) : d.target = t :=
    of_decide_eq_true (List.mem_filter.mp hd).2
  refine List.pairwise_flatMap.mpr ⟨fun t _ => ?_, h.imp fun {t u} htu d hd e he => ?_⟩
  · refine List.pairwise_of_forall_mem_list fun d hd e he => ?_
    rw [target hd, target he]
    exact hrefl t
  · rw [target hd, target he]
    exact htu

theorem eraseDups_grouped (hn : ts.Nodup) (h : ∀ t ∈ ts, ∃ d ∈ ds, d.target = t) :
    ((grouped ts ds).map (·.target)).eraseDups = ts := by
  induction ts with
  | nil => rfl
  | cons t ts ih =>
    obtain ⟨ht, hn⟩ := List.nodup_cons.mp hn
    obtain ⟨⟨d, hd, hdt⟩, hts⟩ := List.forall_mem_cons.mp h
    have hmem : d ∈ ds.filter (·.target = t) := List.mem_filter.mpr ⟨hd, decide_eq_true hdt⟩
    obtain ⟨e, es, hes⟩ := List.exists_cons_of_ne_nil (List.ne_nil_of_mem hmem)
    have htarget : ∀ x ∈ e :: es, x.target = t := fun x hx =>
      of_decide_eq_true (List.mem_filter.mp (hes ▸ hx : x ∈ ds.filter (·.target = t))).2
    obtain ⟨he, hes'⟩ := List.forall_mem_cons.mp htarget
    have hgroup : (es.map (·.target)).filter (fun b => !(b == t)) = [] :=
      List.filter_eq_nil_iff.mpr fun b hb => by
        obtain ⟨x, hx, rfl⟩ := List.mem_map.mp hb
        simp [hes' x hx]
    have hrest : ((grouped ts ds).map (·.target)).filter (fun b => !(b == t)) = (grouped ts ds).map (·.target) :=
      List.filter_eq_self.mpr fun b hb => by
        obtain ⟨x, hx, rfl⟩ := List.mem_map.mp hb
        have hne : x.target ≠ t := fun heq => ht (heq ▸ (mem_grouped.mp hx).2)
        simpa using hne
    show ((ds.filter (·.target = t) ++ grouped ts ds).map (·.target)).eraseDups = t :: ts
    rw [hes, List.cons_append, List.map_cons, he, List.eraseDups_cons, List.map_append, List.filter_append, hgroup,
      hrest, List.nil_append, ih hn hts]

/-! ## Ordering -/

/-- Ordering again, where no target leads back to itself, changes nothing. -/
theorem evaluationOrder_grouped (h : graph ds = .ok g) (ha : g.Acyclic) :
    evaluationOrder (grouped g.postorder ds) = .ok (grouped g.postorder ds) := by
  have hr := resolves_of_graph h
  obtain ⟨hmem, hnodup, hordered⟩ := Graph.postorder_sound (closed_graph hr h) ha
  have hsame (d : Derivation) : d ∈ grouped g.postorder ds ↔ d ∈ ds := by
    rw [mem_grouped, and_iff_left_of_imp]
    exact fun hd => (hmem _).mpr ((mem_nodes_graph h).mpr (List.mem_map_of_mem hd))
  have hr' : ∀ d ∈ grouped g.postorder ds, d.Resolves := fun d hd => hr d ((hsame d).mp hd)
  obtain ⟨g', hg'⟩ := exists_graph hr'
  have hleads (a b : String) : g'.Leads a b ↔ g.Leads a b := by
    rw [leads_iff hr' hg', leads_iff hr h]
    simp only [List.mem_map, hsame]
  have hnodes : g'.nodes = g.postorder := by
    rw [nodes_graph_eq hg', eraseDups_grouped hnodup]
    exact fun t ht => List.mem_map.mp ((mem_nodes_graph h).mp ((hmem t).mp ht))
  have hpostorder : g'.postorder = g.postorder := by
    rw [Graph.postorder_eq_nodes (closed_graph hr' hg'), hnodes]
    · exact hnodes ▸ hnodup
    · rw [hnodes]
      exact hordered.imp fun hab hab' => hab ((hleads _ _).mp hab')
  rw [evaluationOrder_of_graph hg', hpostorder, grouped_grouped hnodup]

/-- What is asked of an order: it rearranges the derivations, those of one target stay together in the order in which
they were declared, and those of a target that another one reads come first, unless it leads back to that one. -/
structure Arranges (g : Graph) (ds order : List Derivation) : Prop where
  perm : order.Perm ds
  together : ∀ t, ∃ before after, order = before ++ ds.filter (·.target = t) ++ after ∧
    ∀ d ∈ before ++ after, d.target ≠ t
  first : ∀ t u, g.Leads t u → ¬ g.Reaches u t → ∀ (i j : Nat) (d e : Derivation),
    order[i]? = some d → order[j]? = some e → d.target = u → e.target = t → i < j

theorem grouped_arranges (hg : graph ds = .ok g) : Arranges g ds (grouped g.postorder ds) := by
  obtain ⟨hmem, hnodup, hordered⟩ := Graph.postorder_ordered (closed_graph (resolves_of_graph hg) hg)
  have htarget : ∀ d ∈ ds, d.target ∈ g.postorder := fun d hd =>
    (hmem _).mpr ((mem_nodes_graph hg).mpr (List.mem_map_of_mem hd))
  refine ⟨grouped_perm hnodup htarget, fun t => ?_, ?_⟩
  · obtain ⟨before, after, heq, hothers⟩ := grouped_together ds hnodup t
    have hnone (ht : t ∉ g.postorder) : ds.filter (·.target = t) = [] :=
      List.filter_eq_nil_iff.mpr fun d hd hdt => ht (of_decide_eq_true hdt ▸ htarget d hd)
    refine ⟨before, after, ?_, hothers⟩
    rw [heq]
    split
    · rfl
    · next ht => rw [hnone ht]
  · rintro t u htu hback i j d e hi hj rfl rfl
    -- the derivations of one target trivially lead back to each other
    have hpairs := grouped_pairwise ds (R := fun a b => g.Leads a b → g.Reaches b a) (fun t _ => .refl) hordered
    obtain ⟨hilt, rfl⟩ := List.getElem?_eq_some_iff.mp hi
    obtain ⟨hjlt, rfl⟩ := List.getElem?_eq_some_iff.mp hj
    rcases Nat.lt_trichotomy i j with hij | rfl | hji
    · exact hij
    · exact absurd .refl hback
    · exact absurd (List.pairwise_iff_getElem.mp hpairs j i hjlt hilt hji htu) hback

/-- An order is given unless a condition compares a field by a path that cannot be read. It arranges the derivations,
and where no target leads back to itself, ordering once more changes nothing. -/
theorem evaluationOrder_arranges (h : ∀ d ∈ ds, d.IsTyped) :
    (¬ (∀ d ∈ ds, d.NamesPaths) → ∃ f, evaluationOrder ds = .error f ∧
      ∃ d ∈ ds, ∃ c, d.condition = some c ∧ Unreadable c.Names f) ∧
    ((∀ d ∈ ds, d.NamesPaths) → ∃ g order, graph ds = .ok g ∧ evaluationOrder ds = .ok order ∧
      Arranges g ds order ∧ (g.Acyclic → evaluationOrder order = .ok order)) := by
  constructor
  · intro hnames
    cases hgraph : graph ds with
    | error f => exact ⟨f, by rw [evaluationOrder, hgraph]; rfl, graph_unreadable h hgraph⟩
    | ok g => exact absurd ((exists_graph_iff h).mp ⟨g, hgraph⟩) hnames
  · intro hnames
    obtain ⟨g, hg⟩ := (exists_graph_iff h).mpr hnames
    exact ⟨g, grouped g.postorder ds, hg, evaluationOrder_of_graph hg, grouped_arranges hg, evaluationOrder_grouped hg⟩

/-- Two targets that read each other, one of them also a third one, the other one computed twice. -/
def pairAndThird : List Derivation :=
  [declaring "a" ["b"], declaring "b" ["a", "c"], declaring "c" [], declaring "a" []]

/-- The third target comes first; a path that cannot be read leaves no order. -/
theorem evaluationOrder_arranges_pair : (∀ d ∈ pairAndThird, d.IsTyped) ∧ (∀ d ∈ pairAndThird, d.NamesPaths) ∧
    misnamed.IsTyped ∧
    (∃ order, evaluationOrder pairAndThird = .ok order ∧ order.map (·.target) = ["c", "b", "a", "a"] ∧
      ∀ (i j : Nat) (d e : Derivation), order[i]? = some d → order[j]? = some e → d.target = "c" → e.target = "b" → i < j) ∧
    ∃ f, evaluationOrder [misnamed] = .error f := by
  have htyped : ∀ d ∈ pairAndThird, d.IsTyped := by
    simp only [pairAndThird, List.forall_mem_cons, isTyped_declaring, true_and]
    exact List.forall_mem_nil _
  have hnames : ∀ d ∈ pairAndThird, d.NamesPaths := by
    simp only [pairAndThird, List.forall_mem_cons, namesPaths_declaring, true_and]
    exact List.forall_mem_nil _
  have hgraph : graph pairAndThird = .ok [("a", ["b"]), ("b", ["a", "c"]), ("c", [])] := rfl
  have htargets : (evaluationOrder pairAndThird).map (·.map (·.target)) = .ok ["c", "b", "a", "a"] := rfl
  have hleads : "c" ∈ Graph.successors [("a", ["b"]), ("b", ["a", "c"]), ("c", [])] "b" := by decide
  have hback : ¬ Graph.Reaches [("a", ["b"]), ("b", ["a", "c"]), ("c", [])] "c" "b" := fun hreaches => by
    rcases Relation.ReflTransGen.cases_head hreaches with heq | ⟨t, ht, -⟩
    · exact absurd heq (by decide)
    · exact absurd ht List.not_mem_nil
  refine ⟨htyped, hnames, isTyped_misnamed, ?_, ?_⟩
  · obtain ⟨g, order, hg, horder, harranges, -⟩ := (evaluationOrder_arranges htyped).2 hnames
    obtain rfl : g = [("a", ["b"]), ("b", ["a", "c"]), ("c", [])] := Except.ok.inj (hg.symm.trans hgraph)
    rw [horder] at htargets
    exact ⟨order, horder, Except.ok.inj htargets, harranges.first "b" "c" hleads hback⟩
  · obtain ⟨f, hf, -⟩ := (evaluationOrder_arranges (List.forall_mem_singleton.mpr isTyped_misnamed)).1 fun hall =>
      not_namesPaths_misnamed (hall misnamed List.mem_cons_self)
    exact ⟨f, hf⟩

end FormRules.Derivation
