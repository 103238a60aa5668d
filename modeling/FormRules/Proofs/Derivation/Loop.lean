import FormRules.Proofs.Derivation.ClosedWalk
import FormRules.Proofs.Store.Order

/-!
# Loops

A loop is reported just if three nodes lead to one another: a shortest one from the least node of the first
component that has them. Two nodes that lead to each other are a loop as well, so that what is reported may be a
pair; where pairs are the only loops, there is something to report just if two pairs have a node in common.
-/

namespace FormRules.Graph
variable {g : Graph} {a b c start : String} {ns ms component : List String}

/-! ## Walks as lists -/

/-- All nodes on a walk are reached from its first node, and lead to its last. -/
theorem reaches_of_isChain (h : (a :: ms ++ [b]).IsChain g.Leads) :
    g.Reaches a b ∧ ∀ m ∈ ms, g.Reaches a m ∧ g.Reaches m b := by
  induction ms generalizing a with
  | nil => exact ⟨.single (List.isChain_cons_cons.mp h).1, nofun⟩
  | cons m ms ih =>
    obtain ⟨ham, h⟩ := List.isChain_cons_cons.mp h
    obtain ⟨hmb, hms⟩ := ih h
    refine ⟨.head ham hmb, List.forall_mem_cons.mpr ⟨⟨.single ham, hmb⟩, fun x hx => ?_⟩⟩
    exact ⟨.head ham (hms x hx).1, (hms x hx).2⟩

/-- A walk can be cut short until it comes to no node twice. -/
theorem exists_nodup_isChain (h : g.Reaches a b) :
    ∃ ms, (a :: ms).IsChain g.Leads ∧ (a :: ms).getLast? = some b ∧ (a :: ms).Nodup := by
  induction h using Relation.ReflTransGen.head_induction_on with
  | refl => exact ⟨[], .singleton b, rfl, List.nodup_singleton b⟩
  | @head a c hac _ ih =>
    obtain ⟨ms, hchain, hlast, hnodup⟩ := ih
    by_cases ha : a ∈ c :: ms
    · obtain ⟨before, after, hsplit⟩ := List.append_of_mem ha
      rw [hsplit] at hchain hlast hnodup
      exact ⟨after, hchain.right_of_append, by rwa [List.getLast?_append_cons] at hlast,
        (List.nodup_append.mp hnodup).2.1⟩
    · exact ⟨c :: ms, .cons_cons hac hchain, by rwa [List.getLast?_cons_cons], List.nodup_cons.mpr ⟨ha, hnodup⟩⟩

/-- An edge between nodes that lead to each other is part of a loop. -/
theorem exists_isLoop (hab : g.Leads a b) (hba : g.Reaches b a) (hne : a ≠ b) : ∃ ns, g.IsLoop a (b :: ns) := by
  obtain ⟨ms, hchain, hlast, hnodup⟩ := exists_nodup_isChain hba
  obtain ⟨ls, hls⟩ : ∃ ls, b :: ms = ls ++ [a] := ⟨_, (List.dropLast_append_getLast? a hlast).symm⟩
  cases ls with
  | nil => exact absurd (List.head_eq_of_cons_eq hls).symm hne
  | cons l ls =>
    obtain ⟨rfl, rfl⟩ : b = l ∧ ms = ls ++ [a] := List.cons_eq_cons.mp hls
    have hcons : (b :: ls ++ [a]).Nodup := hnodup
    exact ⟨ls, .cons_cons hab hchain, List.nodup_append_comm.mp hcons⟩

theorem IsComponent.subset (hc : g.IsComponent component) (hs : start ∈ component)
    (h : (start :: ms ++ [start]).IsChain g.Leads) : ms ⊆ component :=
  fun m hm => (hc.mem_iff start hs m).mpr ((reaches_of_isChain h).2 m hm)

/-! ## Components of more than two nodes -/

theorem mem_nodes_of_reaches (hc : g.Closed) (h : g.Reaches a b) (hne : a ≠ b) : b ∈ g.nodes := by
  rcases Relation.ReflTransGen.cases_tail h with heq | ⟨c, -, hcb⟩
  · exact absurd heq.symm hne
  · exact hc c b hcb

/-- Three nodes that lead to one another. -/
def Tangled (g : Graph) (a b c : String) : Prop := a ≠ b ∧ a ≠ c ∧ b ≠ c ∧ g.Mutual a b ∧ g.Mutual b c

theorem IsComponent.tangled (hc : g.IsComponent component) (hlen : 2 < component.length) :
    ∃ a b c, [a, b, c] ⊆ component ∧ g.Tangled a b c := by
  match component, hlen with
  | a :: b :: c :: rest, _ =>
    have hn := hc.nodup
    simp only [List.nodup_cons, List.mem_cons, not_or] at hn
    have ha : a ∈ a :: b :: c :: rest := List.mem_cons_self
    have hb : b ∈ a :: b :: c :: rest := by simp
    have hc' : c ∈ a :: b :: c :: rest := by simp
    exact ⟨a, b, c, by simp, hn.1.1, hn.1.2.1, hn.2.1.1, (hc.mem_iff a ha b).mp hb, (hc.mem_iff b hb c).mp hc'⟩

theorem IsComponent.of_tangled (hc : g.IsComponent component) (ha : a ∈ component) (h : g.Tangled a b c) :
    2 < component.length := by
  obtain ⟨hab, hac, hbc, hmab, hmbc⟩ := h
  have hb := (hc.mem_iff a ha b).mpr hmab
  have hsub : [a, b, c] ⊆ component := by
    simpa using ⟨ha, hb, (hc.mem_iff b hb c).mpr hmbc⟩
  exact (List.subperm_of_subset (by simp [hab, hac, hbc]) hsub).length_le

/-- There is a component of more than two nodes just if three nodes lead to one another. -/
theorem knots_eq_nil_iff (hc : g.Closed) : g.knots = [] ↔ ¬ ∃ a ∈ g.nodes, ∃ b c, g.Tangled a b c := by
  obtain ⟨hknots, hknown⟩ := knots_sound hc
  constructor
  · rintro hnil ⟨a, ha, b, c, h⟩
    obtain ⟨component, hcomponent, hac, hmem⟩ := hknown a ha
    exact List.not_mem_nil (hnil ▸ hmem (hcomponent.of_tangled hac h))
  · intro hnot
    refine List.eq_nil_iff_forall_not_mem.mpr fun component hmem => hnot ?_
    obtain ⟨hcomponent, hlen⟩ := hknots component hmem
    obtain ⟨a, b, c, -, h⟩ := hcomponent.tangled hlen
    exact ⟨a, mem_nodes_of_reaches hc h.2.2.2.1.2 h.1.symm, b, c, h⟩

/-! ## The loop that is reported -/

/-- What is reported of a component: a shortest loop from its least node. -/
structure Shows (g : Graph) (component : List String) (start : String) (ns : List String) : Prop where
  walk : g.closedWalk? component start component.length { queue := [start] } = some (start :: ns ++ [start])
  loop : g.IsLoop start ns
  inside : start :: ns ⊆ component
  least : ∀ a ∈ component, start ≤ a
  shortest : ∀ ms, (start :: ms ++ [start]).IsChain g.Leads → ns.length ≤ ms.length

theorem sorted_head_le {l : List String} (h : Fault.sorted l = a :: ms) : a ∈ l ∧ ∀ b ∈ l, a ≤ b := by
  have hmem (b : String) : b ∈ l ↔ b ∈ a :: ms := by
    rw [← h]
    exact (Order.sort_perm l).mem_iff.symm
  have hordered : (Fault.sorted l).Pairwise (· ≤ ·) := by
    refine Order.sort_pairwise (r := (· ≤ ·)) (fun a b hab => ?_) (fun a b hab => ?_) (fun _ _ _ => String.le_trans) l
    · exact String.not_lt.mp (by simpa using hab)
    · exact (String.le_total b a).resolve_right fun hle => absurd (by simpa using hab : b < a) (String.not_lt.mpr hle)
  rw [h] at hordered
  refine ⟨(hmem a).mpr List.mem_cons_self, fun b hb => ?_⟩
  rcases List.mem_cons.mp ((hmem b).mp hb) with rfl | hb
  · exact String.le_refl b
  · exact (List.pairwise_cons.mp hordered).1 b hb

/-- There is a loop to show in every component of more than two nodes. -/
theorem IsComponent.shows (hc : g.IsComponent component) (hlen : 2 < component.length) :
    ∃ start rest ns, Fault.sorted component = start :: rest ∧ g.Shows component start ns := by
  have hperm : (Fault.sorted component).Perm component := Order.sort_perm component
  cases hsorted : Fault.sorted component with
  | nil =>
    have hlength := hperm.length_eq
    rw [hsorted, List.length_nil] at hlength
    omega
  | cons start rest =>
    obtain ⟨hs, hleast⟩ := sorted_head_le hsorted
    obtain ⟨m, hm, hne⟩ : ∃ m ∈ component, m ≠ start := by
      by_contra hnot
      have hsub : component ⊆ [start] := fun m hm => List.mem_singleton.mpr (not_not.mp fun hne => hnot ⟨m, hm, hne⟩)
      have hle := (List.subperm_of_subset hc.nodup hsub).length_le
      rw [List.length_singleton] at hle
      omega
    obtain ⟨ns, hwalk, hloop, hsub, hshort⟩ := closedWalk?_sound hc hs hm hne component.length (.first hs)
      (List.forall_mem_nil _) (Nat.le_add_right _ _)
    exact ⟨start, rest, ns, rfl, hwalk, hloop, List.cons_subset.mpr ⟨hs, hsub⟩, hleast,
      fun ms hchain => hshort ms (hc.subset hs hchain) hchain⟩

/-- Either no three nodes lead to one another and nothing is reported, or a loop is. -/
theorem cycle?_cases (hc : g.Closed) :
    (g.cycle? = none ∧ ¬ ∃ a ∈ g.nodes, ∃ b c, g.Tangled a b c) ∨
      ∃ component start ns, g.cycle? = some (start :: ns ++ [start]) ∧ g.knots.head? = some component ∧
        g.IsComponent component ∧ 2 < component.length ∧ g.Shows component start ns := by
  cases hknots : g.knots with
  | nil => exact .inl ⟨by rw [cycle?, hknots]; rfl, (knots_eq_nil_iff hc).mp hknots⟩
  | cons component rest =>
    obtain ⟨hcomponent, hlen⟩ := (knots_sound hc).1 component (hknots ▸ List.mem_cons_self)
    obtain ⟨start, tail, ns, hsorted, hshows⟩ := hcomponent.shows hlen
    refine .inr ⟨component, start, ns, ?_, rfl, hcomponent, hlen, hshows⟩
    rw [cycle?, hknots, List.head?_cons, Option.bind_some, hsorted]
    dsimp only
    rw [hshows.walk, Option.getD_some]

/-- Without a loop, none is reported. -/
theorem cycle?_of_acyclic (hc : g.Closed) (ha : g.Acyclic) : g.cycle? = none := by
  rcases cycle?_cases hc with ⟨hnone, -⟩ | ⟨component, start, ns, -, -, -, -, hshows⟩
  · exact hnone
  · exfalso
    cases ns with
    | nil => exact ha start (.single (List.isChain_cons_cons.mp hshows.loop.chain).1)
    | cons n ns =>
      obtain ⟨hsn, hchain⟩ := List.isChain_cons_cons.mp hshows.loop.chain
      exact ha start (.head' hsn (reaches_of_isChain hchain).1)

/-! ## Pairs -/

/-- Two nodes with edges to each other. -/
def Paired (g : Graph) (a b : String) : Prop := g.Leads a b ∧ g.Leads b a

theorem Paired.symm (h : g.Paired a b) : g.Paired b a := ⟨h.2, h.1⟩

/-- A shortest loop from a node has two more nodes at least just if the node is in no pair. -/
theorem two_le_length_iff (hirrefl : ∀ a, ¬ g.Leads a a) (hloop : g.IsLoop start ns)
    (hshort : ∀ ms, (start :: ms ++ [start]).IsChain g.Leads → ns.length ≤ ms.length) :
    2 ≤ ns.length ↔ ∀ b, ¬ g.Paired start b := by
  constructor
  · rintro hlen b ⟨hsb, hbs⟩
    have hle := hshort [b] (.cons_cons hsb (.cons_cons hbs (.singleton start)))
    rw [List.length_singleton] at hle
    omega
  · intro hnot
    have hchain := hloop.chain
    match ns with
    | [] => exact absurd (List.isChain_cons_cons.mp hchain).1 (hirrefl start)
    | [b] =>
      obtain ⟨hsb, hchain⟩ := List.isChain_cons_cons.mp hchain
      exact absurd ⟨hsb, (List.isChain_cons_cons.mp hchain).1⟩ (hnot b)
    | b :: c :: ns => exact Nat.le_add_left 2 ns.length

/-- A walk that leaves a set does so along an edge. -/
theorem exists_leads_of_reaches {S : String → Prop} (h : g.Reaches a b) (ha : S a) (hb : ¬ S b) :
    ∃ u v, S u ∧ ¬ S v ∧ g.Leads u v ∧ g.Reaches v b := by
  induction h using Relation.ReflTransGen.head_induction_on with
  | refl => exact absurd ha hb
  | @head a c hac hcb ih =>
    by_cases hc : S c
    · exact ih hc
    · exact ⟨a, c, ha, hc, hac, hcb⟩

/-- Where all loops are pairs, three nodes lead to one another just if two pairs have a node in common. -/
theorem exists_tangled_iff (hirrefl : ∀ a, ¬ g.Leads a a) (hpairs : ∀ start ns, g.IsLoop start ns → ns.length ≤ 1) :
    (∃ a b c, g.Tangled a b c) ↔ ∃ a b c, a ≠ c ∧ g.Paired a b ∧ g.Paired b c := by
  have hpaired {u v : String} (huv : g.Leads u v) (hvu : g.Reaches v u) : g.Paired u v := by
    obtain ⟨ns, hloop⟩ := exists_isLoop huv hvu fun he => hirrefl u (he ▸ huv)
    cases ns with
    | nil => exact ⟨huv, (List.isChain_cons_cons.mp (List.isChain_cons_cons.mp hloop.chain).2).1⟩
    | cons n ns =>
      have hle := hpairs u (v :: n :: ns) hloop
      simp at hle
  constructor
  · rintro ⟨a, b, c, hab, hac, hbc, hmab, hmbc⟩
    -- an edge from `a`, then one that leaves the pair
    obtain ⟨a, x, rfl, hxa, hax, hxb⟩ := exists_leads_of_reaches hmab.1 (S := (· = a)) rfl hab.symm
    have hpax : g.Paired a x := hpaired hax (hxb.trans hmab.2)
    obtain ⟨d, hda, hdx, had⟩ : ∃ d, d ≠ a ∧ d ≠ x ∧ g.Mutual a d := by
      by_cases hbx : b = x
      · exact ⟨c, hac.symm, fun hcx => hbc (hbx.trans hcx.symm), hmab.trans hmbc⟩
      · exact ⟨b, hab.symm, hbx, hmab⟩
    obtain ⟨u, w, hu, hw, huw, hwd⟩ := exists_leads_of_reaches had.1 (S := fun n => n = a ∨ n = x) (.inl rfl)
      (not_or.mpr ⟨hda, hdx⟩)
    obtain ⟨hwa, hwx⟩ := not_or.mp hw
    have hwa' : g.Reaches w a := hwd.trans had.2
    rcases hu with rfl | rfl
    · exact ⟨x, u, w, Ne.symm hwx, hpax.symm, hpaired huw hwa'⟩
    · exact ⟨a, u, w, Ne.symm hwa, hpax, hpaired huw (hwa'.trans (.single hax))⟩
  · rintro ⟨a, b, c, hac, hab, hbc⟩
    have hne {u v : String} (h : g.Paired u v) : u ≠ v := fun he => hirrefl u (he ▸ h.1)
    exact ⟨a, b, c, hne hab, hac, hne hbc, ⟨.single hab.1, .single hab.2⟩, ⟨.single hbc.1, .single hbc.2⟩⟩

end FormRules.Graph
