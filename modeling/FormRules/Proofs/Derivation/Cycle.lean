import FormRules.Proofs.Derivation.Dependences

/-!
# Cycles of derivations

Derivations are rejected just if three targets lead to one another in their graph, and what is reported is a
shortest loop among such targets. That loop may be a pair of targets that read each other, although pairs are
permitted: where pairs are the only loops, a target in two of them is rejected.
-/

namespace FormRules.Derivation
variable {ds : List Derivation} {g : Graph}

theorem cycle?_of_graph (h : graph ds = .ok g) : cycle? ds = .ok g.cycle? := by
  rw [cycle?, h]
  rfl

theorem not_leads_self (h : graph ds = .ok g) (t : String) : ¬ g.Leads t t := by
  intro ht
  obtain ⟨-, -, -, -, hne, -⟩ := (leads_iff (resolves_of_graph h) h).mp ht
  exact hne rfl

/-- Whether the function that a derivation is computed by, if there is one, is known. -/
def Known (fs : Functions) (d : Derivation) : Prop :=
  match d.source with
  | .function name => ∃ f, Functions.find fs.derivations .derivation name = .ok f
  | .asyncFunction name => ∃ f, Functions.find fs.asyncDerivations .asyncDerivation name = .ok f
  | _ => True

theorem find_ne_cycle {α : Type} {table : List (String × α)} {kind : FunctionKind} {name : Value}
    {walk : List String} : Functions.find table kind name ≠ .error (.cycle walk) := by
  unfold Functions.find
  dsimp only
  split
  · exact nofun
  · split <;> exact nofun

/-- A derivation is rejected for a cycle just if its function is known and the cycle is reported. -/
theorem add_eq_cycle_iff {fs : Functions} {d : Derivation} {walk : List String} (h : graph (ds ++ [d]) = .ok g) :
    Derivation.add fs ds d = .error (.cycle walk) ↔ Known fs d ∧ cycle? (ds ++ [d]) = .ok (some walk) := by
  have report {k : Option (List String) → Outcome (List Derivation)} (hnone : k none = .ok (ds ++ [d]))
      (hsome : ∀ w, k (some w) = .error (.cycle w)) :
      cycle? (ds ++ [d]) >>= k = .error (.cycle walk) ↔ cycle? (ds ++ [d]) = .ok (some walk) := by
    rw [cycle?_of_graph h]
    cases g.cycle? with
    | none => exact ⟨fun he => (nomatch hnone.symm.trans he), nofun⟩
    | some w => exact ⟨fun he => by cases (hsome w).symm.trans he; rfl, fun he => by cases he; exact hsome walk⟩
  -- a function that is not known is reported first
  have look {α : Type} {x : Outcome α} {y : Outcome (List Derivation)} (hx : x ≠ .error (.cycle walk))
      (hy : y = .error (.cycle walk) ↔ cycle? (ds ++ [d]) = .ok (some walk)) :
      (x >>= fun _ => y) = .error (.cycle walk) ↔ (∃ f, x = .ok f) ∧ cycle? (ds ++ [d]) = .ok (some walk) := by
    cases x with
    | error e =>
      exact ⟨fun he => absurd (congrArg Except.error (Except.error.inj he)) hx, fun ⟨⟨_, hf⟩, _⟩ => nomatch hf⟩
    | ok f => exact hy.trans ⟨fun hr => ⟨⟨f, rfl⟩, hr⟩, And.right⟩
  unfold Derivation.add Known
  cases d.source with
  | function name => exact look find_ne_cycle (report rfl fun _ => rfl)
  | asyncFunction name => exact look find_ne_cycle (report rfl fun _ => rfl)
  | expression code => exact (report rfl fun _ => rfl).trans (iff_of_eq (true_and _)).symm
  | fixed v => exact (report rfl fun _ => rfl).trans (iff_of_eq (true_and _)).symm
  | http r e => exact (report rfl fun _ => rfl).trans (iff_of_eq (true_and _)).symm

/-- A loop is looked for unless a condition compares a field by a path that cannot be read. Nothing is reported just
if no three targets lead to one another. Otherwise a loop is: it starts at a target, follows edges back to it and
comes to no other target twice, inside of a component of three targets or more, in which the search in breadth always
finds it. -/
theorem cycle?_eq_none_iff (h : ∀ d ∈ ds, d.IsTyped) :
    (¬ (∀ d ∈ ds, d.NamesPaths) → ∃ f, cycle? ds = .error f ∧
      ∃ d ∈ ds, ∃ c, d.condition = some c ∧ Unreadable c.Names f) ∧
    ((∀ d ∈ ds, d.NamesPaths) → ∃ g, graph ds = .ok g ∧
      (cycle? ds = .ok none ↔ ¬ ∃ a ∈ g.nodes, ∃ b c, g.Tangled a b c) ∧
      (cycle? ds ≠ .ok none → ∃ component start ns,
        cycle? ds = .ok (some (start :: ns ++ [start])) ∧ g.IsLoop start ns ∧ start :: ns ⊆ component ∧
        g.IsComponent component ∧ 3 ≤ component.length ∧ g.knots.head? = some component ∧
        g.closedWalk? component start component.length { queue := [start] } = some (start :: ns ++ [start]))) := by
  constructor
  · intro hnames
    cases hgraph : graph ds with
    | error f => exact ⟨f, by rw [cycle?, hgraph]; rfl, graph_unreadable h hgraph⟩
    | ok g => exact absurd ((exists_graph_iff h).mp ⟨g, hgraph⟩) hnames
  · intro hnames
    obtain ⟨g, hg⟩ := (exists_graph_iff h).mpr hnames
    have hclosed := closed_graph (resolves_of_graph hg) hg
    refine ⟨g, hg, ?_⟩
    rw [cycle?_of_graph hg]
    rcases Graph.cycle?_cases hclosed with
      ⟨hnone, hnot⟩ | ⟨component, start, ns, hsome, hfirst, hcomponent, hlen, hshows⟩
    · exact ⟨⟨fun _ => hnot, fun _ => congrArg Except.ok hnone⟩, fun hne => absurd (congrArg Except.ok hnone) hne⟩
    · refine ⟨⟨fun heq => ?_, fun hnot => ?_⟩, fun _ => ⟨component, start, ns, congrArg Except.ok hsome, hshows.loop,
        hshows.inside, hcomponent, hlen, hfirst, hshows.walk⟩⟩
      · rw [hsome] at heq
        cases heq
      · obtain ⟨a, b, c, -, htangled⟩ := hcomponent.tangled hlen
        have ha := Graph.mem_nodes_of_reaches hclosed htangled.2.2.2.1.2 htangled.1.symm
        exact absurd ⟨a, ha, b, c, htangled⟩ hnot

/-- Three targets of which each reads the next one. -/
def threeInRound : List Derivation := [declaring "a" ["c"], declaring "b" ["a"], declaring "c" ["b"]]

/-- The three lead to one another; under a path that cannot be read no loop is looked for. -/
theorem cycle?_eq_none_iff_round : (∀ d ∈ threeInRound, d.IsTyped) ∧ (∀ d ∈ threeInRound, d.NamesPaths) ∧
    misnamed.IsTyped ∧
    (∃ g, graph threeInRound = .ok g ∧ ∃ a ∈ g.nodes, ∃ b c, g.Tangled a b c) ∧
    ∃ f, cycle? [misnamed] = .error f := by
  have htyped : ∀ d ∈ threeInRound, d.IsTyped := by
    simp only [threeInRound, List.forall_mem_cons, isTyped_declaring, true_and]
    exact List.forall_mem_nil _
  have hnames : ∀ d ∈ threeInRound, d.NamesPaths := by
    simp only [threeInRound, List.forall_mem_cons, namesPaths_declaring, true_and]
    exact List.forall_mem_nil _
  refine ⟨htyped, hnames, isTyped_misnamed, ?_, ?_⟩
  · obtain ⟨g, hg, hnone, -⟩ := (cycle?_eq_none_iff htyped).2 hnames
    refine ⟨g, hg, not_not.mp fun hnot => ?_⟩
    have hsome : cycle? threeInRound = .ok (some ["a", "c", "b", "a"]) := rfl
    cases hsome.symm.trans (hnone.mpr hnot)
  · obtain ⟨f, hf, -⟩ := (cycle?_eq_none_iff (List.forall_mem_singleton.mpr isTyped_misnamed)).1 fun hall =>
      not_namesPaths_misnamed (hall misnamed List.mem_cons_self)
    exact ⟨f, hf⟩

/-- What is reported is a loop of three targets at least just if its first target is in no pair. Where all loops
are pairs, something is reported just if two pairs have a target in common. An engine rejects a derivation for the
loop that is reported. -/
theorem cycle?_of_pairs (h : graph ds = .ok g) :
    (∀ walk, cycle? ds = .ok (some walk) → ∃ start ns, walk = start :: ns ++ [start] ∧ g.IsLoop start ns ∧
      (3 ≤ (start :: ns).length ↔ ∀ b, ¬ g.Paired start b)) ∧
    ((∀ start ns, g.IsLoop start ns → (start :: ns).length ≤ 2) →
      ((∃ walk, cycle? ds = .ok (some walk)) ↔ ∃ a b c, a ≠ c ∧ g.Paired a b ∧ g.Paired b c)) ∧
    ∀ fs before d walk, ds = before ++ [d] →
      (Derivation.add fs before d = .error (.cycle walk) ↔ Known fs d ∧ cycle? ds = .ok (some walk)) := by
  have hclosed := closed_graph (resolves_of_graph h) h
  have hcases := Graph.cycle?_cases hclosed
  refine ⟨fun walk hwalk => ?_, fun hpairs => ?_, ?_⟩
  · rw [cycle?_of_graph h] at hwalk
    rcases hcases with ⟨hnone, -⟩ | ⟨component, start, ns, hsome, -, -, -, hshows⟩
    · rw [hnone] at hwalk
      cases hwalk
    · rw [hsome] at hwalk
      cases hwalk
      refine ⟨start, ns, rfl, hshows.loop, ?_⟩
      rw [List.length_cons, Nat.succ_le_succ_iff]
      exact Graph.two_le_length_iff (not_leads_self h) hshows.loop hshows.shortest
  · have htangled := Graph.exists_tangled_iff (not_leads_self h) fun start ns hloop =>
      Nat.le_of_succ_le_succ (hpairs start ns hloop)
    rw [← htangled, cycle?_of_graph h]
    rcases hcases with ⟨hnone, hnot⟩ | ⟨component, start, ns, hsome, -, hcomponent, hlen, -⟩
    · refine ⟨fun ⟨walk, hwalk⟩ => ?_, fun ⟨a, b, c, habc⟩ => ?_⟩
      · rw [hnone] at hwalk
        cases hwalk
      · have ha := Graph.mem_nodes_of_reaches hclosed habc.2.2.2.1.2 habc.1.symm
        exact absurd ⟨a, ha, b, c, habc⟩ hnot
    · refine ⟨fun _ => ?_, fun _ => ⟨_, congrArg Except.ok hsome⟩⟩
      obtain ⟨a, b, c, -, habc⟩ := hcomponent.tangled hlen
      exact ⟨a, b, c, habc⟩
  · rintro fs before d walk rfl
    exact add_eq_cycle_iff h

/-- Two pairs with a target in common have no loop of three. They are rejected, and one of them is reported. -/
theorem cycle?_of_pairs_chained :
    graph [declaring "a" ["b"], declaring "b" ["a", "c"], declaring "c" ["b"]] =
        .ok [("a", ["b"]), ("b", ["a", "c"]), ("c", ["b"])] ∧
      (∀ start ns, Graph.IsLoop [("a", ["b"]), ("b", ["a", "c"]), ("c", ["b"])] start ns → (start :: ns).length ≤ 2) ∧
      Derivation.add {} [declaring "a" ["b"], declaring "b" ["a", "c"]] (declaring "c" ["b"]) =
        .error (.cycle ["a", "b", "a"]) ∧
      (∃ b, Graph.Paired [("a", ["b"]), ("b", ["a", "c"]), ("c", ["b"])] "a" b) ∧
      ∃ a b c, a ≠ c ∧ Graph.Paired [("a", ["b"]), ("b", ["a", "c"]), ("c", ["b"])] a b ∧
        Graph.Paired [("a", ["b"]), ("b", ["a", "c"]), ("c", ["b"])] b c := by
  have hgraph : graph [declaring "a" ["b"], declaring "b" ["a", "c"], declaring "c" ["b"]] =
      .ok [("a", ["b"]), ("b", ["a", "c"]), ("c", ["b"])] := rfl
  have hcycle : cycle? [declaring "a" ["b"], declaring "b" ["a", "c"], declaring "c" ["b"]] =
      .ok (some ["a", "b", "a"]) := rfl
  have hleads (u v : String) (h : Graph.Leads [("a", ["b"]), ("b", ["a", "c"]), ("c", ["b"])] u v) :
      u = "b" ∧ v ≠ "b" ∨ u ≠ "b" ∧ v = "b" := by
    unfold Graph.Leads Graph.successors Table.get? at h
    by_cases hb : u = "b"
    · subst hb
      have hv : v = "a" ∨ v = "c" := by simpa using h
      rcases hv with rfl | rfl <;> exact .inl ⟨rfl, by decide⟩
    · refine .inr ⟨hb, ?_⟩
      by_cases ha : "a" = u
      · simpa [ha] using h
      · by_cases hc : "c" = u <;> simp [ha, hc, Ne.symm hb] at h
        exact h
  have hpairs (start : String) (ns : List String)
      (h : Graph.IsLoop [("a", ["b"]), ("b", ["a", "c"]), ("c", ["b"])] start ns) : (start :: ns).length ≤ 2 := by
    have hchain := h.chain
    obtain ⟨hstart, hns⟩ := List.nodup_cons.mp h.nodup
    match ns with
    | [] => exact Nat.le_succ 1
    | [x] => exact Nat.le_refl 2
    | x :: y :: rest =>
      -- every other node on a walk is the middle one
      obtain ⟨hsx, hchain⟩ := List.isChain_cons_cons.mp hchain
      obtain ⟨hxy, hchain⟩ := List.isChain_cons_cons.mp hchain
      rcases hleads start x hsx with ⟨hs, hx⟩ | ⟨hs, hx⟩
      · have hy := ((hleads x y hxy).resolve_left fun h => hx h.1).2
        exact absurd (by simp [hs, hy]) hstart
      · have hy := ((hleads x y hxy).resolve_right fun h => h.1 hx).2
        cases rest with
        | nil =>
          have hys := (List.isChain_cons_cons.mp hchain).1
          exact absurd ((hleads y start hys).resolve_left fun h => hy h.1).2 hs
        | cons z rest =>
          have hyz := (List.isChain_cons_cons.mp hchain).1
          have hz := ((hleads y z hyz).resolve_left fun h => hy h.1).2
          exact absurd (by simp [hx, hz]) (List.nodup_cons.mp hns).1
  obtain ⟨hloop, hiff, hadd⟩ := cycle?_of_pairs hgraph
  refine ⟨hgraph, hpairs, (hadd {} [declaring "a" ["b"], declaring "b" ["a", "c"]] _ _ rfl).mpr ⟨trivial, hcycle⟩,
    ?_, (hiff hpairs).mp ⟨_, hcycle⟩⟩
  obtain ⟨start, ns, hwalk, hns, hpair⟩ := hloop _ hcycle
  obtain ⟨rfl, -⟩ : "a" = start ∧ ["b", "a"] = ns ++ [start] := List.cons_eq_cons.mp hwalk
  have hle := hpairs "a" ns hns
  by_contra hnot
  have hge := hpair.mpr (not_exists.mp hnot)
  omega

end FormRules.Derivation
