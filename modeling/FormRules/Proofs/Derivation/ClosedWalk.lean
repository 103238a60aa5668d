import FormRules.Proofs.Derivation.Components
import Mathlib.Data.List.Chain
import Mathlib.Data.List.Nodup

/-!
# Shortest closed walks

A search in breadth through a component finds a closed walk, and none that is shorter exists. The nodes it has
come to stand in the order of their distance, which is the length of the way back that has been kept for them
(`Tour.Sound`). It cannot run out of nodes, since some node of the component has an edge to the first one.
-/

namespace FormRules.Graph

/-- A walk from a node back to it that comes to no node twice; `ns` are the nodes on the way. -/
structure IsLoop (g : Graph) (start : String) (ns : List String) : Prop where
  chain : (start :: ns ++ [start]).IsChain g.Leads
  nodup : (start :: ns).Nodup

variable {g : Graph} {start n m p a b : String} {origins : List (String × String)}

/-! ## Ways back -/

/-- The nodes that have been come to, in order. -/
def seen (start : String) (origins : List (String × String)) : List String := start :: (origins.map (·.1)).reverse

/-- How far a node is from the first one. -/
def depth (origins : List (String × String)) (n : String) : Nat := (trail origins n).length

/-- Whether every node that has been come to was so along an edge from one that had been come to before. -/
inductive Traced (g : Graph) (start : String) : List (String × String) → Prop
  | nil : Traced g start []
  | cons {origins : List (String × String)} {m p : String} (h : Traced g start origins)
      (hm : m ∉ seen start origins) (hp : p ∈ seen start origins) (hpm : g.Leads p m) :
      Traced g start ((m, p) :: origins)

theorem seen_cons : seen start ((m, p) :: origins) = seen start origins ++ [m] := by
  simp [seen]

theorem mem_seen_iff : n ∈ seen start origins ↔ n = start ∨ Table.has origins n = true := by
  rw [Table.has_iff_mem, seen, List.mem_cons, List.mem_reverse]

theorem trail_cons_self : trail ((m, p) :: origins) m = m :: trail origins p := if_pos rfl

theorem trail_cons_of_ne (h : n ≠ m) : trail ((m, p) :: origins) n = trail origins n := if_neg h

theorem depth_cons_self : depth ((m, p) :: origins) m = depth origins p + 1 := by
  rw [depth, trail_cons_self, List.length_cons, depth]

theorem depth_cons_of_ne (h : n ≠ m) : depth ((m, p) :: origins) n = depth origins n := by
  rw [depth, trail_cons_of_ne h, depth]

namespace Traced

theorem nodup (h : Traced g start origins) : (seen start origins).Nodup := by
  induction h with
  | nil => exact List.nodup_singleton start
  | cons _ hm _ _ ih =>
    rw [seen_cons, ← List.concat_eq_append]
    exact ih.concat hm

theorem trail_start (h : Traced g start origins) : trail origins start = [start] := by
  induction h with
  | nil => rfl
  | cons _ hm _ _ ih =>
    have hne : start ≠ _ := fun he => hm (he ▸ List.mem_cons_self)
    rw [trail_cons_of_ne hne]
    exact ih

/-- The way back from a node, turned round, leads to it from the first one and comes to no node twice. -/
theorem reverse_trail (h : Traced g start origins) (hn : n ∈ seen start origins) :
    ∃ ns, (trail origins n).reverse = start :: ns ∧ (start :: ns).Nodup ∧ start :: ns ⊆ seen start origins ∧
      (start :: ns).IsChain g.Leads ∧ (start :: ns).getLast? = some n := by
  induction h generalizing n with
  | nil =>
    obtain rfl := List.mem_singleton.mp hn
    exact ⟨[], rfl, List.nodup_singleton n, List.Subset.refl _, .singleton n, rfl⟩
  | @cons origins m p h hm hp hpm ih =>
    rw [seen_cons] at hn ⊢
    by_cases hnm : n = m
    · subst hnm
      obtain ⟨ns, hrev, hnodup, hsub, hchain, hlast⟩ := ih hp
      refine ⟨ns ++ [n], ?_, ?_, ?_, ?_, ?_⟩
      · rw [trail_cons_self, List.reverse_cons, hrev, List.cons_append]
      · rw [← List.cons_append, ← List.concat_eq_append]
        exact hnodup.concat fun hmem => hm (hsub hmem)
      · rw [← List.cons_append]
        exact List.append_subset.mpr ⟨List.subset_append_of_subset_left _ hsub, List.subset_append_right _ _⟩
      · rw [← List.cons_append]
        refine hchain.append (.singleton n) fun x hx y hy => ?_
        obtain rfl := Option.some.inj (hlast.symm.trans hx)
        obtain rfl := Option.some.inj hy
        exact hpm
      · rw [← List.cons_append, List.getLast?_concat]
    · have hn' : n ∈ seen start origins :=
        (List.mem_append.mp hn).resolve_right fun hmem => hnm (List.mem_singleton.mp hmem)
      obtain ⟨ns, hrev, hnodup, hsub, hrest⟩ := ih hn'
      rw [trail_cons_of_ne hnm]
      exact ⟨ns, hrev, hnodup, List.subset_append_of_subset_left _ hsub, hrest⟩

end Traced

/-! ## The search in breadth -/

namespace Tour
variable {component done queue ms : List String} {t t' : Tour} {k : Nat}

/-- What holds of a search in breadth when the nodes of `done` have been taken from the queue, the last one of
distance `k`. -/
structure Sound (g : Graph) (component : List String) (start : String) (done : List String) (k : Nat) (t : Tour) :
    Prop where
  traced : Traced g start t.origins
  order : done ++ t.queue = seen start t.origins
  inside : seen start t.origins ⊆ component
  done_le : ∀ a ∈ done, depth t.origins a ≤ k
  queue_le : ∀ a ∈ t.queue, k ≤ depth t.origins a ∧ depth t.origins a ≤ k + 1
  sorted : t.queue.Pairwise fun a b => depth t.origins a ≤ depth t.origins b

/-- Whether all edges of a node inside of the component have been followed, and none leads to the first node. -/
def Followed (g : Graph) (component : List String) (start : String) (t : Tour) (a : String) : Prop :=
  ¬ g.Leads a start ∧ ∀ b ∈ component, g.Leads a b →
    b ∈ seen start t.origins ∧ depth t.origins b ≤ depth t.origins a + 1

/-- The search comes to more nodes, and keeps the ways back to the others. -/
structure Extends (start : String) (t t' : Tour) : Prop where
  seen : seen start t.origins ⊆ seen start t'.origins
  depth : ∀ a ∈ Graph.seen start t.origins, depth t'.origins a = depth t.origins a

theorem Extends.refl (t : Tour) : Extends start t t := ⟨List.Subset.refl _, fun _ _ => rfl⟩

theorem Extends.trans {t'' : Tour} (h : Extends start t t') (h' : Extends start t' t'') : Extends start t t'' :=
  ⟨List.Subset.trans h.seen h'.seen, fun a ha => (h'.depth a (h.seen ha)).trans (h.depth a ha)⟩

theorem Followed.mono (h : Followed g component start t a) (ha : a ∈ Graph.seen start t.origins)
    (he : Extends start t t') : Followed g component start t' a := by
  refine ⟨h.1, fun b hb hab => ?_⟩
  obtain ⟨hmem, hle⟩ := h.2 b hb hab
  exact ⟨he.seen hmem, by rwa [he.depth a ha, he.depth b hmem]⟩

namespace Sound

theorem first (hs : start ∈ component) : Sound g component start [] 1 { queue := [start] } where
  traced := .nil
  order := rfl
  inside := List.cons_subset.mpr ⟨hs, List.nil_subset _⟩
  done_le := nofun
  queue_le _ _ := ⟨Nat.le_refl 1, Nat.le_succ 1⟩
  sorted := List.pairwise_singleton _ _

/-- Coming to a node along an edge from the last one taken. -/
theorem meet (h : Sound g component start done k t) (hn : n ∈ done) (hk : depth t.origins n = k) (hm : g.Leads n m)
    (hne : m ≠ start) : Sound g component start done k (t.meet component n m) ∧ Extends start t (t.meet component n m) ∧
      (m ∈ component → m ∈ seen start (t.meet component n m).origins ∧
        depth (t.meet component n m).origins m ≤ k + 1) := by
  unfold Tour.meet
  split
  · next hnew =>
    obtain ⟨hmc, hnot⟩ := Bool.and_eq_true_iff.mp hnew
    have hmc : m ∈ component := by simpa using hmc
    have hseen : m ∉ seen start t.origins := fun hmem => by
      rw [(mem_seen_iff.mp hmem).resolve_left hne] at hnot
      cases hnot
    have hns : n ∈ seen start t.origins := h.order ▸ List.mem_append_left _ hn
    have hdepth (a : String) (ha : a ∈ seen start t.origins) : depth ((m, n) :: t.origins) a = depth t.origins a :=
      depth_cons_of_ne fun ham => hseen (ham ▸ ha)
    have hdone (a : String) (ha : a ∈ done) := hdepth a (h.order ▸ List.mem_append_left _ ha)
    have hqueue (a : String) (ha : a ∈ t.queue) := hdepth a (h.order ▸ List.mem_append_right _ ha)
    have hself : depth ((m, n) :: t.origins) m = k + 1 := by rw [depth_cons_self, hk]
    have hsound : Sound g component start done k { queue := t.queue ++ [m], origins := (m, n) :: t.origins } := {
      traced := .cons h.traced hseen hns hm
      order := by rw [seen_cons, ← h.order, List.append_assoc]
      inside := by
        rw [seen_cons]
        exact List.append_subset.mpr ⟨h.inside, List.cons_subset.mpr ⟨hmc, List.nil_subset _⟩⟩
      done_le := fun a ha => by
        rw [hdone a ha]
        exact h.done_le a ha
      queue_le := fun a ha => by
        rcases List.mem_append.mp ha with ha | ha
        · rw [hqueue a ha]
          exact h.queue_le a ha
        · rw [List.mem_singleton.mp ha, hself]
          exact ⟨Nat.le_succ k, Nat.le_refl _⟩
      sorted := by
        refine List.pairwise_append.mpr ⟨?_, List.pairwise_singleton _ _, fun a ha b hb => ?_⟩
        · refine h.sorted.imp_of_mem fun {a b} ha hb hab => ?_
          rwa [hqueue a ha, hqueue b hb]
        · -- nothing in the queue is further from the start than the node that is put at its end
          rw [List.mem_singleton.mp hb, hself, hqueue a ha]
          exact (h.queue_le a ha).2 }
    refine ⟨hsound, ⟨fun a ha => ?_, hdepth⟩, fun _ => ⟨?_, Nat.le_of_eq hself⟩⟩
    · rw [seen_cons]
      exact List.mem_append_left _ ha
    · rw [seen_cons]
      exact List.mem_append_right _ (List.mem_singleton_self m)
  · next hold =>
    refine ⟨h, .refl t, fun hmc => ?_⟩
    have hmem : m ∈ seen start t.origins := by
      refine mem_seen_iff.mpr (.inr ?_)
      by_contra hnot
      exact hold (by simp [hmc, hnot])
    refine ⟨hmem, ?_⟩
    rcases List.mem_append.mp (h.order ▸ hmem) with hmem | hmem
    · exact Nat.le_succ_of_le (h.done_le m hmem)
    · exact (h.queue_le m hmem).2

/-- Following all edges of the last node taken. -/
theorem foldl (h : Sound g component start done k t) (hn : n ∈ done) (hk : depth t.origins n = k)
    (hm : ∀ m ∈ ms, g.Leads n m ∧ m ≠ start) : Sound g component start done k (ms.foldl (Tour.meet component n) t) ∧
      Extends start t (ms.foldl (Tour.meet component n) t) ∧
      ∀ m ∈ ms, m ∈ component → m ∈ seen start (ms.foldl (Tour.meet component n) t).origins ∧
        depth (ms.foldl (Tour.meet component n) t).origins m ≤ k + 1 := by
  induction ms generalizing t with
  | nil => exact ⟨h, .refl t, nofun⟩
  | cons m ms ih =>
    obtain ⟨⟨hnm, hne⟩, hms⟩ := List.forall_mem_cons.mp hm
    obtain ⟨hs, he, hmet⟩ := h.meet hn hk hnm hne
    have hns : n ∈ seen start t.origins := h.order ▸ List.mem_append_left _ hn
    obtain ⟨hs', he', hmet'⟩ := ih hs ((he.depth n hns).trans hk) hms
    refine ⟨hs', he.trans he', List.forall_mem_cons.mpr ⟨fun hmc => ?_, hmet'⟩⟩
    obtain ⟨hmem, hle⟩ := hmet hmc
    exact ⟨he'.seen hmem, Nat.le_trans (Nat.le_of_eq (he'.depth m hmem)) hle⟩

/-- Taking a node from the queue. -/
theorem take (h : Sound g component start done k t) (hq : t.queue = n :: queue) :
    Sound g component start (done ++ [n]) (depth t.origins n) { t with queue } := by
  have hall := h.queue_le
  have hsorted := h.sorted
  rw [hq] at hall hsorted
  obtain ⟨⟨hn, hn'⟩, hrest⟩ := List.forall_mem_cons.mp hall
  obtain ⟨hfirst, hsorted⟩ := List.pairwise_cons.mp hsorted
  refine ⟨h.traced, ?_, h.inside, fun a ha => ?_, fun a ha => ⟨hfirst a ha, ?_⟩, hsorted⟩
  · rw [← h.order, hq, List.append_assoc]
    rfl
  · rcases List.mem_append.mp ha with ha | ha
    · exact Nat.le_trans (h.done_le a ha) hn
    · exact Nat.le_of_eq (congrArg _ (List.mem_singleton.mp ha))
  · exact Nat.le_trans (hrest a ha).2 (Nat.succ_le_succ hn)

/-- With an edge from the node in front to the first one, a loop has been found. -/
theorem isLoop (h : Sound g component start done k t) (hn : n ∈ t.queue) (hns : g.Leads n start) :
    ∃ ns, (trail t.origins n).reverse = start :: ns ∧ g.IsLoop start ns ∧ ns ⊆ component := by
  obtain ⟨ns, hrev, hnodup, hsub, hchain, hlast⟩ := h.traced.reverse_trail (h.order ▸ List.mem_append_right done hn)
  refine ⟨ns, hrev, ⟨hchain.append (.singleton start) fun x hx y hy => ?_, hnodup⟩,
    fun a ha => h.inside (hsub (List.mem_cons_of_mem start ha))⟩
  obtain rfl := Option.some.inj (hlast.symm.trans hx)
  obtain rfl := Option.some.inj hy
  exact hns

/-- A walk from a node that has been taken goes through one in the queue before it comes to the first node. -/
theorem depth_le (h : Sound g component start done k t) (hf : ∀ a ∈ done, Followed g component start t a)
    (hfront : ∀ b ∈ t.queue, depth t.origins n ≤ depth t.origins b) {a : String} (ha : a ∈ done) (hms : ms ⊆ component)
    (hchain : (a :: ms ++ [start]).IsChain g.Leads) : depth t.origins n ≤ depth t.origins a + ms.length := by
  induction ms generalizing a with
  | nil =>
    have has : g.Leads a start := (List.isChain_cons_cons.mp hchain).1
    exact absurd has (hf a ha).1
  | cons m ms ih =>
    obtain ⟨hm, hms⟩ := List.cons_subset.mp hms
    obtain ⟨ham, hchain⟩ := List.isChain_cons_cons.mp hchain
    obtain ⟨hseen, hle⟩ := (hf a ha).2 m hm ham
    rw [List.length_cons]
    rcases List.mem_append.mp (h.order ▸ hseen) with hmd | hmq
    · have hrest := ih hmd hms hchain
      omega
    · have hrest := hfront m hmq
      omega

/-- So no walk from the first node back to it is shorter than the way back from the node in front. -/
theorem depth_le_length (h : Sound g component start done k t) (hf : ∀ a ∈ done, Followed g component start t a)
    (hfront : ∀ b ∈ t.queue, depth t.origins n ≤ depth t.origins b) (hms : ms ⊆ component)
    (hchain : (start :: ms ++ [start]).IsChain g.Leads) : depth t.origins n ≤ ms.length + 1 := by
  have hone : depth t.origins start = 1 := congrArg List.length h.traced.trail_start
  have hstart : start ∈ done ++ t.queue := h.order ▸ List.mem_cons_self
  rcases List.mem_append.mp hstart with hmem | hmem
  · have hle := h.depth_le hf hfront hmem hms hchain
    omega
  · have hle := hfront start hmem
    omega

/-- The queue is never empty, since some node of the component has an edge to the first one. -/
theorem queue_ne_nil (h : Sound g component start done k t) (hf : ∀ a ∈ done, Followed g component start t a)
    (hc : g.IsComponent component) (hs : start ∈ component) (hm : m ∈ component) (hne : m ≠ start) : t.queue ≠ [] := by
  intro hq
  have hdone : done = seen start t.origins := by
    have horder := h.order
    rwa [hq, List.append_nil] at horder
  have hall (a : String) (hsa : g.Reaches start a) (ha : a ∈ component) : a ∈ done := by
    induction hsa with
    | refl => exact hdone ▸ List.mem_cons_self
    | @tail b c hsb hbc ih =>
      have hb : b ∈ component :=
        (hc.mem_iff start hs b).mpr ⟨hsb, .head hbc ((hc.mem_iff start hs c).mp ha).2⟩
      exact hdone ▸ ((hf b (ih hb)).2 c ha hbc).1
  obtain ⟨hsm, hms⟩ := (hc.mem_iff start hs m).mp hm
  rcases Relation.ReflTransGen.cases_tail hms with heq | ⟨b, hmb, hbs⟩
  · exact hne heq.symm
  · have hsb : g.Reaches start b := hsm.trans hmb
    exact (hf b (hall b hsb ((hc.mem_iff start hs b).mpr ⟨hsb, .single hbs⟩))).1 hbs

end Sound

end Tour

/-- The search in breadth finds a loop in the component, and no closed walk from its first node is shorter. -/
theorem closedWalk?_sound {component done : List String} {t : Tour} {k : Nat} (hc : g.IsComponent component)
    (hs : start ∈ component) (hm : m ∈ component) (hne : m ≠ start) (fuel : Nat)
    (h : t.Sound g component start done k) (hf : ∀ a ∈ done, t.Followed g component start a)
    (hfuel : component.length ≤ fuel + done.length) : ∃ ns,
      g.closedWalk? component start fuel t = some (start :: ns ++ [start]) ∧ g.IsLoop start ns ∧ ns ⊆ component ∧
        ∀ ms ⊆ component, (start :: ms ++ [start]).IsChain g.Leads → ns.length ≤ ms.length := by
  induction fuel generalizing done t k with
  | zero =>
    -- every node of the component has been taken
    have hle := (List.subperm_of_subset (h.order ▸ h.traced.nodup) (h.order ▸ h.inside)).length_le
    rw [List.length_append] at hle
    exact absurd (List.eq_nil_of_length_eq_zero (by omega)) (h.queue_ne_nil hf hc hs hm hne)
  | succ fuel ih =>
    rw [closedWalk?]
    split
    · next hq => exact absurd hq (h.queue_ne_nil hf hc hs hm hne)
    · next n queue hq =>
      have hn : n ∈ t.queue := hq ▸ List.mem_cons_self
      by_cases hns : g.Leads n start
      · obtain ⟨ns, hrev, hloop, hsub⟩ := h.isLoop hn hns
        refine ⟨ns, ?_, hloop, hsub, fun ms hms hchain => ?_⟩
        · rw [if_pos (List.contains_iff_mem.mpr hns), hrev]
        · have hsorted := h.sorted
          rw [hq] at hsorted
          have hle := h.depth_le_length (n := n) hf (fun b hb => ?_) hms hchain
          · have hlength := congrArg List.length hrev
            rw [List.length_reverse, List.length_cons] at hlength
            rw [depth] at hle
            omega
          · rcases List.mem_cons.mp (hq ▸ hb) with rfl | hb
            · exact Nat.le_refl _
            · exact (List.pairwise_cons.mp hsorted).1 b hb
      · rw [if_neg fun hcontains => hns (List.contains_iff_mem.mp hcontains)]
        have hlast : n ∈ done ++ [n] := List.mem_append_right done (List.mem_singleton_self n)
        have hnext : ∀ m ∈ g.successors n, g.Leads n m ∧ m ≠ start := fun m hm => ⟨hm, fun hms => hns (hms ▸ hm)⟩
        obtain ⟨hs', he, hmet⟩ := (h.take hq).foldl hlast rfl hnext
        refine ih hs' (fun a ha => ?_) ?_
        · rcases List.mem_append.mp ha with ha | ha
          · exact Tour.Followed.mono (t := { t with queue }) (hf a ha) (h.order ▸ List.mem_append_left _ ha) he
          · obtain rfl := List.mem_singleton.mp ha
            refine ⟨hns, fun b hb hab => ?_⟩
            obtain ⟨hseen, hle⟩ := hmet b hab hb
            have hdepth := he.depth a (h.order ▸ List.mem_append_right _ hn)
            exact ⟨hseen, hle.trans (Nat.le_of_eq (congrArg (· + 1) hdepth.symm))⟩
        · rw [List.length_append, List.length_singleton]
          omega

end FormRules.Graph
