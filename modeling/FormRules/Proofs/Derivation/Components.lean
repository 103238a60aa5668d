import FormRules.Proofs.Derivation.Topology
import FormRules.Proofs.Store.Table

/-!
# The search for components

The search finds the components of more than two nodes, and no others. While it runs, every node on the stack
leads to those above it and back to a node that is being searched (`Sound`). What one search adds to the stack
is known together with the least number that its edges lead back to (`Searched`); if that is the number of its
first node, no edge leaves what has been added except to components that are complete, so that it is one itself.
-/

namespace FormRules.Graph

/-- Whether a walk leads from one node to another. -/
def Reaches (g : Graph) (a b : String) : Prop := Relation.ReflTransGen g.Leads a b

/-- Whether two nodes lead to each other. -/
def Mutual (g : Graph) (a b : String) : Prop := g.Reaches a b ∧ g.Reaches b a

/-- Whether the nodes are all those that lead to one of them and back. -/
structure IsComponent (g : Graph) (c : List String) : Prop where
  nodup : c.Nodup
  mem_iff : ∀ a ∈ c, ∀ b, b ∈ c ↔ g.Mutual a b

theorem Mutual.symm {g : Graph} {a b : String} (h : g.Mutual a b) : g.Mutual b a := ⟨h.2, h.1⟩

theorem Mutual.trans {g : Graph} {a b c : String} (h : g.Mutual a b) (h' : g.Mutual b c) : g.Mutual a c :=
  ⟨h.1.trans h'.1, h'.2.trans h.2⟩

namespace Search
variable {g : Graph} {path : List String} {s s' s'' s₀ : Search} {n m : String} {i : Nat} {ms : List String}

/-- Whether a node has been entered. -/
def Entered (s : Search) (n : String) : Prop := Table.has s.index n = true

/-- Whether the component of a node is complete. -/
def Complete (s : Search) (n : String) : Prop := s.Entered n ∧ n ∉ s.stack

/-! ## Entering a node and following an edge -/

theorem entered_enter : (s.enter n).Entered m ↔ m = n ∨ s.Entered m := Table.has_put_iff

theorem indexOf_enter_self : (s.enter n).indexOf n = s.index.length := by
  simp [indexOf, enter]

theorem indexOf_enter_of_ne (h : m ≠ n) : (s.enter n).indexOf m = s.indexOf m := by
  simp [indexOf, enter, Table.get?_put_of_ne h]

theorem lowOf_enter_self : (s.enter n).lowOf n = s.index.length := by
  simp [lowOf, enter]

theorem lowOf_enter_of_ne (h : m ≠ n) : (s.enter n).lowOf m = s.lowOf m := by
  simp [lowOf, enter, Table.get?_put_of_ne h]

theorem index_enter (h : ¬ s.Entered n) : (s.enter n).index = s.index ++ [(n, s.index.length)] :=
  Table.put_of_not_has (by simpa [Entered] using h)

theorem length_enter (h : ¬ s.Entered n) : (s.enter n).index.length = s.index.length + 1 := by
  rw [index_enter h, List.length_append, List.length_singleton]

theorem complete_enter_iff (h : ¬ s.Entered n) : (s.enter n).Complete m ↔ s.Complete m := by
  constructor
  · rintro ⟨hm, hnot⟩
    obtain ⟨hne, hnot⟩ := not_or.mp (mt List.mem_cons.mpr hnot)
    exact ⟨(entered_enter.mp hm).resolve_left hne, hnot⟩
  · rintro ⟨hm, hnot⟩
    have hne : m ≠ n := fun hmn => h (hmn ▸ hm)
    exact ⟨entered_enter.mpr (.inr hm), mt List.mem_cons.mp (not_or.mpr ⟨hne, hnot⟩)⟩

theorem lowOf_lower_self : (s.lower n i).lowOf n = min (s.lowOf n) i := by
  simp [lowOf, lower]

theorem lowOf_lower_of_ne (h : m ≠ n) : (s.lower n i).lowOf m = s.lowOf m := by
  simp [lowOf, lower, Table.get?_put_of_ne h]

/-! ## What holds while nodes are being searched -/

/-- What holds while the nodes of `path` are being searched. -/
structure Sound (g : Graph) (path : List String) (s : Search) : Prop where
  keys : (s.index.map (·.1)).Nodup
  nodes : ∀ n, s.Entered n → n ∈ g.nodes
  index_lt : ∀ n, s.Entered n → s.indexOf n < s.index.length
  stack : ∀ n ∈ s.stack, s.Entered n
  ordered : s.stack.Pairwise fun a b => s.indexOf b < s.indexOf a
  within : path ⊆ s.stack
  followed : ∀ a, s.Entered a → a ∉ path → ∀ b, g.Leads a b → s.Entered b
  complete : ∀ a, s.Complete a → ∀ b, g.Leads a b → s.Complete b
  /-- The earlier nodes on the stack lead to the later ones. -/
  up : ∀ a ∈ s.stack, ∀ b ∈ s.stack, s.indexOf a ≤ s.indexOf b → g.Reaches a b
  /-- All of them lead back to a node that is being searched. -/
  back : ∀ b ∈ s.stack, ∃ a ∈ path, s.indexOf a ≤ s.indexOf b ∧ g.Reaches b a
  knots : ∀ c ∈ s.knots, g.IsComponent c ∧ 2 < c.length
  known : ∀ a, s.Complete a → ∃ c, g.IsComponent c ∧ a ∈ c ∧ (2 < c.length → c ∈ s.knots)

/-- A search goes on from one state to another. -/
structure Grows (s s' : Search) : Prop where
  entered : ∀ m, s.Entered m → s'.Entered m
  indexOf : ∀ m, s.Entered m → s'.indexOf m = s.indexOf m
  stack : ∃ new, s'.stack = new ++ s.stack ∧ ∀ m ∈ new, ¬ s.Entered m
  length : s.index.length ≤ s'.index.length

theorem Grows.refl (s : Search) : Grows s s :=
  ⟨fun _ h => h, fun _ _ => rfl, ⟨[], rfl, nofun⟩, Nat.le_refl _⟩

theorem Grows.trans (h : Grows s s') (h' : Grows s' s'') : Grows s s'' where
  entered m hm := h'.entered m (h.entered m hm)
  indexOf m hm := (h'.indexOf m (h.entered m hm)).trans (h.indexOf m hm)
  stack := by
    obtain ⟨new, hstack, hnew⟩ := h.stack
    obtain ⟨new', hstack', hnew'⟩ := h'.stack
    refine ⟨new' ++ new, by rw [hstack', hstack, List.append_assoc], fun m hm => ?_⟩
    rcases List.mem_append.mp hm with hm | hm
    · exact fun hs => hnew' m hm (h.entered m hs)
    · exact hnew m hm
  length := Nat.le_trans h.length h'.length

theorem Grows.lower (h : Grows s s') : Grows s (s'.lower n i) := ⟨h.entered, h.indexOf, h.stack, h.length⟩

theorem Grows.enter (h : ¬ s.Entered n) : Grows s (s.enter n) where
  entered m hm := entered_enter.mpr (.inr hm)
  indexOf m hm := indexOf_enter_of_ne fun he => h (he ▸ hm)
  stack := ⟨[n], rfl, fun m hm => List.mem_singleton.mp hm ▸ h⟩
  length := by
    rw [length_enter h]
    exact Nat.le_succ _

namespace Sound

theorem start (g : Graph) : Sound g [] {} where
  keys := List.nodup_nil
  nodes _ h := nomatch h
  index_lt _ h := nomatch h
  stack := nofun
  ordered := .nil
  within := nofun
  followed _ h := nomatch h
  complete _ h := nomatch h.1
  up := nofun
  back := nofun
  knots := nofun
  known _ h := nomatch h.1

theorem lower (h : Sound g path s) : Sound g path (s.lower n i) :=
  ⟨h.keys, h.nodes, h.index_lt, h.stack, h.ordered, h.within, h.followed, h.complete, h.up, h.back, h.knots, h.known⟩

theorem nodup (h : Sound g path s) : s.stack.Nodup :=
  h.ordered.imp fun hlt => by
    rintro rfl
    exact Nat.lt_irrefl _ hlt

/-- What a complete component leads to is in complete components. -/
theorem complete_of_reaches (h : Sound g path s) {a b : String} (ha : s.Complete a) (hab : g.Reaches a b) :
    s.Complete b := by
  induction hab with
  | refl => exact ha
  | tail _ hbc ih => exact h.complete _ ih _ hbc

/-- A search enters every node once. -/
theorem length_lt (h : Sound g path s) (hn : n ∈ g.nodes) (he : ¬ s.Entered n) : s.index.length < g.length := by
  have hnot : n ∉ s.index.map (·.1) := fun hm => he (Table.has_iff_mem.mpr hm)
  have hsub : (n :: s.index.map (·.1)) ⊆ g.nodes :=
    List.cons_subset.mpr ⟨hn, fun m hm => h.nodes m (Table.has_iff_mem.mpr hm)⟩
  have hle := (List.subperm_of_subset (List.nodup_cons.mpr ⟨hnot, h.keys⟩) hsub).length_le
  rw [List.length_cons, List.length_map, Graph.nodes, List.length_map] at hle
  exact hle

/-- A node is entered that the nodes being searched lead to. -/
theorem enter (h : Sound g path s) (hn : n ∈ g.nodes) (he : ¬ s.Entered n) (hp : ∀ a ∈ path, g.Reaches a n) :
    Sound g (n :: path) (s.enter n) := by
  have hstack (m : String) (hm : m ∈ s.stack) : m ≠ n := fun hmn => he (hmn ▸ h.stack m hm)
  have hindex (m : String) (hm : m ∈ s.stack) : (s.enter n).indexOf m = s.indexOf m :=
    indexOf_enter_of_ne (hstack m hm)
  have hlt (m : String) (hm : m ∈ s.stack) : (s.enter n).indexOf m < s.index.length := by
    rw [hindex m hm]
    exact h.index_lt m (h.stack m hm)
  exact {
    keys := Table.nodup_put h.keys
    nodes := fun m hm => by
      rcases entered_enter.mp hm with rfl | hm
      · exact hn
      · exact h.nodes m hm
    index_lt := fun m hm => by
      rw [length_enter he]
      by_cases hmn : m = n
      · rw [hmn, indexOf_enter_self]
        exact Nat.lt_succ_self _
      · rw [indexOf_enter_of_ne hmn]
        exact Nat.lt_succ_of_lt (h.index_lt m ((entered_enter.mp hm).resolve_left hmn))
    stack := fun m hm => entered_enter.mpr ((List.mem_cons.mp hm).imp_right (h.stack m))
    ordered := by
      refine List.pairwise_cons.mpr ⟨fun b hb => ?_, h.ordered.imp_of_mem fun {a b} ha hb hab => ?_⟩
      · rw [indexOf_enter_self]
        exact hlt b hb
      · rw [hindex a ha, hindex b hb]
        exact hab
    within := List.cons_subset_cons n h.within
    followed := fun a ha hpath b hb => by
      obtain ⟨hne, hpath⟩ := not_or.mp (mt List.mem_cons.mpr hpath)
      exact entered_enter.mpr (.inr (h.followed a ((entered_enter.mp ha).resolve_left hne) hpath b hb))
    complete := fun a ha b hb => (complete_enter_iff he).mpr (h.complete a ((complete_enter_iff he).mp ha) b hb)
    up := fun a ha b hb hab => by
      rcases List.mem_cons.mp ha with rfl | ha' <;> rcases List.mem_cons.mp hb with rfl | hb'
      · exact .refl
      · rw [indexOf_enter_self] at hab
        exact absurd (hlt b hb') (Nat.not_lt.mpr hab)
      · -- what is on the stack leads back to a node of the path, and that one to `n`
        obtain ⟨c, hc, -, hac⟩ := h.back a ha'
        exact hac.trans (hp c hc)
      · rw [hindex a ha', hindex b hb'] at hab
        exact h.up a ha' b hb' hab
    back := fun b hb => by
      rcases List.mem_cons.mp hb with rfl | hb
      · exact ⟨b, List.mem_cons_self, Nat.le_refl _, .refl⟩
      · obtain ⟨a, ha, hab, hba⟩ := h.back b hb
        refine ⟨a, List.mem_cons_of_mem n ha, ?_, hba⟩
        rw [hindex a (h.within ha), hindex b hb]
        exact hab
    knots := h.knots
    known := fun a ha => h.known a ((complete_enter_iff he).mp ha) }

end Sound

/-! ## One search -/

/-- What a search of a node has come to when it has followed the edges to `ms`. -/
structure Progress (g : Graph) (path : List String) (s₀ : Search) (n : String) (ms : List String) (s : Search) :
    Prop where
  sound : Sound g (n :: path) s
  grows : Grows (s₀.enter n) s
  low : ∀ m, s₀.Entered m → s.lowOf m = s₀.lowOf m
  low_le : s.lowOf n ≤ s₀.index.length
  low_mem : ∃ b ∈ s.stack, s.indexOf b = s.lowOf n ∧ g.Reaches n b
  low_edges : ∀ a, s.Entered a → ¬ (s₀.enter n).Entered a → ∀ b ∈ s₀.stack, g.Leads a b → s.lowOf n ≤ s₀.indexOf b
  followed : ∀ m ∈ ms, s.Entered m ∧ (m ∈ s₀.stack → s.lowOf n ≤ s₀.indexOf m)

/-- What a search of a node leaves behind. -/
structure Searched (g : Graph) (path : List String) (s : Search) (n : String) (s' : Search) : Prop where
  sound : Sound g path s'
  grows : Grows s s'
  entered : s'.Entered n
  low : ∀ m, s.Entered m → s'.lowOf m = s.lowOf m
  low_cases : s.index.length ≤ s'.lowOf n ∨ ∃ b ∈ s'.stack, s'.indexOf b = s'.lowOf n ∧ g.Reaches n b
  low_edges : ∀ a, s'.Entered a → ¬ s.Entered a → ∀ b ∈ s.stack, g.Leads a b → s'.lowOf n ≤ s.indexOf b

namespace Progress

theorem start (h : Sound g path s) (hn : n ∈ g.nodes) (he : ¬ s.Entered n) (hp : ∀ a ∈ path, g.Reaches a n) :
    Progress g path s n [] (s.enter n) where
  sound := h.enter hn he hp
  grows := .refl _
  low _ hm := lowOf_enter_of_ne fun hmn => he (hmn ▸ hm)
  low_le := Nat.le_of_eq lowOf_enter_self
  low_mem := ⟨n, List.mem_cons_self, indexOf_enter_self.trans lowOf_enter_self.symm, .refl⟩
  low_edges _ ha hnot := absurd ha hnot
  followed := nofun

theorem entered (h : Progress g path s₀ n ms s) : s.Entered n := h.grows.entered n (entered_enter.mpr (.inl rfl))

theorem indexOf_self (h : Progress g path s₀ n ms s) : s.indexOf n = s₀.index.length :=
  (h.grows.indexOf n (entered_enter.mpr (.inl rfl))).trans indexOf_enter_self

theorem indexOf_of_entered (h : Progress g path s₀ n ms s) (he : ¬ s₀.Entered n) (hm : s₀.Entered m) :
    s.indexOf m = s₀.indexOf m :=
  (h.grows.indexOf m (entered_enter.mpr (.inr hm))).trans (indexOf_enter_of_ne fun hmn => he (hmn ▸ hm))

/-- On the stack, the node stands between what has been entered after it and what was there before. -/
theorem stack (h : Progress g path s₀ n ms s) : ∃ new, s.stack = new ++ n :: s₀.stack ∧
    ∀ m ∈ new, m ≠ n ∧ ¬ s₀.Entered m := by
  obtain ⟨new, hstack, hnew⟩ := h.grows.stack
  exact ⟨new, hstack, fun m hm => not_or.mp (mt entered_enter.mpr (hnew m hm))⟩

/-- An edge to a node that has been entered by then is followed by noting a number: no edge of what has been
entered in between leads further back. -/
theorem step (h : Progress g path s₀ n ms s) (he : ¬ s₀.Entered n) (hs : Sound g (n :: path) s') (hg : Grows s s')
    (hlow : ∀ a, s.Entered a → s'.lowOf a = s.lowOf a)
    (hi : i < s.lowOf n → ∃ b ∈ s'.stack, s'.indexOf b = i ∧ g.Reaches n b)
    (hedges : ∀ a, s'.Entered a → ¬ s.Entered a → ∀ b ∈ s₀.stack, g.Leads a b → i ≤ s₀.indexOf b)
    (hm : s'.Entered m) (hmi : m ∈ s₀.stack → i ≤ s₀.indexOf m) :
    Progress g path s₀ n (ms ++ [m]) (s'.lower n i) := by
  have hn : s'.lowOf n = s.lowOf n := hlow n h.entered
  have hmin : (s'.lower n i).lowOf n = min (s.lowOf n) i := by rw [lowOf_lower_self, hn]
  exact {
    sound := hs.lower
    grows := (h.grows.trans hg).lower
    low := fun a ha => by
      have hne : a ≠ n := fun han => he (han ▸ ha)
      rw [lowOf_lower_of_ne hne, hlow a (h.grows.entered a (entered_enter.mpr (.inr ha))), h.low a ha]
    low_le := hmin ▸ Nat.le_trans (Nat.min_le_left _ _) h.low_le
    low_mem := by
      rw [hmin]
      by_cases hlt : i < s.lowOf n
      · rw [Nat.min_eq_right (Nat.le_of_lt hlt)]
        exact hi hlt
      · rw [Nat.min_eq_left (Nat.not_lt.mp hlt)]
        obtain ⟨b, hb, hlb, hnb⟩ := h.low_mem
        obtain ⟨new, hstack, -⟩ := hg.stack
        exact ⟨b, hstack ▸ List.mem_append_right new hb, (hg.indexOf b (h.sound.stack b hb)).trans hlb, hnb⟩
    low_edges := fun a ha hnot b hb hab => by
      rw [hmin]
      by_cases has : s.Entered a
      · exact Nat.le_trans (Nat.min_le_left _ _) (h.low_edges a has hnot b hb hab)
      · exact Nat.le_trans (Nat.min_le_right _ _) (hedges a ha has b hb hab)
    followed := fun a ha => by
      rw [hmin]
      rcases List.mem_append.mp ha with ha | ha
      · obtain ⟨hentered, hle⟩ := h.followed a ha
        exact ⟨hg.entered a hentered, fun hmem => Nat.le_trans (Nat.min_le_left _ _) (hle hmem)⟩
      · obtain rfl := List.mem_singleton.mp ha
        exact ⟨hm, fun hmem => Nat.le_trans (Nat.min_le_right _ _) (hmi hmem)⟩ }

/-- Following an edge, given what a search of its end does. -/
theorem follow {search : Search → String → Search} (h : Progress g path s₀ n ms s) (h₀ : Sound g path s₀)
    (he : ¬ s₀.Entered n) (hm : g.Leads n m) (hsearch : ¬ s.Entered m → Searched g (n :: path) s m (search s m)) :
    Progress g path s₀ n (ms ++ [m]) (Search.follow search n s m) := by
  have hold (b : String) (hb : b ∈ s₀.stack) : s.Entered b ∧ s.indexOf b = s₀.indexOf b ∧ b ∈ s.stack := by
    obtain ⟨new, hstack, -⟩ := h.stack
    exact ⟨h.grows.entered b (entered_enter.mpr (.inr (h₀.stack b hb))), h.indexOf_of_entered he (h₀.stack b hb),
      hstack ▸ List.mem_append_right new (List.mem_cons_of_mem n hb)⟩
  unfold Search.follow
  split
  · next hentered =>
    split
    · next hstack =>
      have hmem : m ∈ s.stack := by simpa using hstack
      exact h.step he h.sound (.refl s) (fun _ _ => rfl) (fun _ => ⟨m, hmem, rfl, .single hm⟩)
        (fun a ha hnot => absurd ha hnot) hentered fun hm₀ => Nat.le_of_eq (hold m hm₀).2.1
    · next hstack =>
      have hnot : m ∉ s.stack := by simpa using hstack
      refine ⟨h.sound, h.grows, h.low, h.low_le, h.low_mem, h.low_edges, fun a ha => ?_⟩
      rcases List.mem_append.mp ha with ha | ha
      · exact h.followed a ha
      · obtain rfl := List.mem_singleton.mp ha
        exact ⟨hentered, fun hm₀ => absurd (hold a hm₀).2.2 hnot⟩
  · next hnot =>
    have hr := hsearch hnot
    refine h.step he hr.sound hr.grows hr.low (fun hlt => ?_) (fun a ha hna b hb hab => ?_) hr.entered
      fun hm₀ => absurd (hold m hm₀).1 hnot
    · -- a node whose component is complete has a number beyond all that `n` leads back to
      rcases hr.low_cases with hle | ⟨b, hb, hlow, hmb⟩
      · have hn := h.sound.index_lt n h.entered
        have hself := h.indexOf_self
        have hlow := h.low_le
        omega
      · exact ⟨b, hb, hlow, .head hm hmb⟩
    · rw [← (hold b hb).2.1]
      exact hr.low_edges a ha hna b (hold b hb).2.2 hab

/-- Following all edges of a node. -/
theorem foldl {search : Search → String → Search} (h : Progress g path s₀ n ms s) (h₀ : Sound g path s₀)
    (he : ¬ s₀.Entered n) {ls : List String} (hl : ∀ m ∈ ls, g.Leads n m)
    (hsearch : ∀ m ∈ ls, ∀ s, Sound g (n :: path) s → Grows (s₀.enter n) s → ¬ s.Entered m →
      Searched g (n :: path) s m (search s m)) :
    Progress g path s₀ n (ms ++ ls) (ls.foldl (Search.follow search n) s) := by
  induction ls generalizing ms s with
  | nil =>
    rw [List.append_nil]
    exact h
  | cons m ls ih =>
    obtain ⟨hm, hl⟩ := List.forall_mem_cons.mp hl
    obtain ⟨hsm, hsl⟩ := List.forall_mem_cons.mp hsearch
    have hstep := h.follow h₀ he hm (hsm s h.sound h.grows)
    have hrest := ih hstep hl hsl
    rwa [List.append_assoc] at hrest

section
variable {a b : String} {new rest : List String}

theorem grows_self (h : Progress g path s₀ n ms s) (he : ¬ s₀.Entered n) : Grows s₀ s := (Grows.enter he).trans h.grows

theorem low_le_of_leads (h : Progress g path s₀ n (g.successors n) s) (ha : s.Entered a) (hna : ¬ s₀.Entered a)
    (hb : b ∈ s₀.stack) (hab : g.Leads a b) : s.lowOf n ≤ s₀.indexOf b := by
  by_cases han : a = n
  · subst han
    exact (h.followed b hab).2 hb
  · exact h.low_edges a ha (mt entered_enter.mp (not_or.mpr ⟨han, hna⟩)) b hb hab

theorem entered_of_leads (h : Progress g path s₀ n (g.successors n) s) (ha : s.Entered a) (hp : a ∉ path)
    (hab : g.Leads a b) : s.Entered b := by
  by_cases han : a = n
  · subst han
    exact (h.followed b hab).1
  · exact h.sound.followed a ha (mt List.mem_cons.mp (not_or.mpr ⟨han, hp⟩)) b hab

/-- A node that leads back to one that was there before stays on the stack. -/
theorem searched_of_lt (h : Progress g path s₀ n (g.successors n) s) (he : ¬ s₀.Entered n)
    (hlt : s.lowOf n < s.indexOf n) : Searched g path s₀ n s := by
  obtain ⟨c, hc, hcn, hnc⟩ := h.low_mem
  -- what leads back to `n` leads on to a node before it
  obtain ⟨d, hd, hdc, hcd⟩ := h.sound.back c hc
  have hdn : d ≠ n := by
    rintro rfl
    omega
  have hdp := (List.mem_cons.mp hd).resolve_left hdn
  have hsound : Sound g path s := { h.sound with
    within := fun a ha => h.sound.within (List.mem_cons_of_mem n ha)
    followed := fun a ha hp b hab => h.entered_of_leads ha hp hab
    back := fun b hb => by
      obtain ⟨a, ha, hab, hba⟩ := h.sound.back b hb
      rcases List.mem_cons.mp ha with rfl | ha
      · exact ⟨d, hdp, by omega, hba.trans (hnc.trans hcd)⟩
      · exact ⟨a, ha, hab, hba⟩ }
  exact ⟨hsound, h.grows_self he, h.entered, h.low, .inr h.low_mem,
    fun a ha hna b hb hab => h.low_le_of_leads ha hna hb hab⟩

/-- Where a node leads back to none before it, no walk from what has been entered after that comes to what was on
the stack before. -/
theorem not_mem_of_reaches (h : Progress g path s₀ n (g.successors n) s) (h₀ : Sound g path s₀) (he : ¬ s₀.Entered n)
    (hlow : s.lowOf n = s.indexOf n) (hab : g.Reaches a b) (ha : s.Entered a) (hna : a ∉ s₀.stack) :
    s.Entered b ∧ b ∉ s₀.stack := by
  obtain ⟨new, hstack, hnew⟩ := h.stack
  induction hab with
  | refl => exact ⟨ha, hna⟩
  | @tail b c _ hbc ih =>
    obtain ⟨hb, hnb⟩ := ih
    by_cases hbs : b ∈ s.stack
    · have hb₀ : ¬ s₀.Entered b := by
        rw [hstack, List.mem_append, List.mem_cons] at hbs
        rcases hbs with hbs | rfl | hbs
        · exact (hnew b hbs).2
        · exact he
        · exact absurd hbs hnb
      refine ⟨h.entered_of_leads hb (fun hp => hb₀ (h₀.stack b (h₀.within hp))) hbc, fun hc => ?_⟩
      have hle := h.low_le_of_leads hb hb₀ hc hbc
      have hlt := h₀.index_lt c (h₀.stack c hc)
      have hself := h.indexOf_self
      omega
    · obtain ⟨hc, hnc⟩ := h.sound.complete b ⟨hb, hbs⟩ c hbc
      exact ⟨hc, fun hmem => hnc (hstack ▸ List.mem_append_right new (List.mem_cons_of_mem n hmem))⟩

/-- In that case what stands above the node on the stack is its component. -/
theorem isComponent (h : Progress g path s₀ n (g.successors n) s) (h₀ : Sound g path s₀) (he : ¬ s₀.Entered n)
    (hlow : s.lowOf n = s.indexOf n) (hstack : s.stack = new ++ n :: s₀.stack) : g.IsComponent (new ++ [n]) := by
  have hsplit : s.stack = (new ++ [n]) ++ s₀.stack := by rw [hstack, List.append_assoc]; rfl
  obtain ⟨hnodup, -, hdisjoint⟩ := List.nodup_append.mp (hsplit ▸ h.sound.nodup)
  have hmem (a : String) (ha : a ∈ new ++ [n]) : a ∈ s.stack := hsplit ▸ List.mem_append_left _ ha
  have hnot (a : String) (ha : a ∈ new ++ [n]) : a ∉ s₀.stack := fun ha₀ => hdisjoint a ha a ha₀ rfl
  have hn : n ∈ s.stack := hmem n (List.mem_append_right new (List.mem_singleton_self n))
  have hnew : ∀ a ∈ new ++ [n], s.indexOf n ≤ s.indexOf a := by
    intro a ha
    rcases List.mem_append.mp ha with ha | ha
    · obtain ⟨-, -, hlt⟩ := List.pairwise_append.mp (hstack ▸ h.sound.ordered)
      exact Nat.le_of_lt (hlt a ha n List.mem_cons_self)
    · exact Nat.le_of_eq (congrArg s.indexOf (List.mem_singleton.mp ha).symm)
  have hmutual (a : String) (ha : a ∈ new ++ [n]) : g.Mutual a n := by
    refine ⟨?_, h.sound.up n hn a (hmem a ha) (hnew a ha)⟩
    obtain ⟨c, hc, -, hac⟩ := h.sound.back a (hmem a ha)
    rcases List.mem_cons.mp hc with rfl | hc
    · exact hac
    · have hc₀ := (h.not_mem_of_reaches h₀ he hlow hac (h.sound.stack a (hmem a ha)) (hnot a ha)).2
      exact absurd (h₀.within hc) hc₀
  refine ⟨hnodup, fun a ha b => ⟨fun hb => (hmutual a ha).trans (hmutual b hb).symm, fun hab => ?_⟩⟩
  obtain ⟨hb, hnb⟩ := h.not_mem_of_reaches h₀ he hlow hab.1 (h.sound.stack a (hmem a ha)) (hnot a ha)
  by_cases hbs : b ∈ s.stack
  · exact (List.mem_append.mp (hsplit ▸ hbs)).resolve_right hnb
  · exact absurd (hmem a ha) (h.sound.complete_of_reaches ⟨hb, hbs⟩ hab.2).2

theorem leave_eq (hstack : s.stack = new ++ n :: rest) (hnew : n ∉ new) (hlow : s.lowOf n = s.indexOf n) :
    s.leave n = { s with
      stack := rest, knots := if 2 < (new ++ [n]).length then s.knots ++ [new ++ [n]] else s.knots } := by
  have hall : ∀ m ∈ new, decide (m ≠ n) = true := fun m hm => by
    have hne : m ≠ n := fun hmn => hnew (hmn ▸ hm)
    simpa using hne
  have htake : s.stack.takeWhile (· ≠ n) = new := by
    rw [hstack, List.takeWhile_append_of_pos hall]
    simp
  have hdrop : (s.stack.dropWhile (· ≠ n)).tail = rest := by
    rw [hstack, List.dropWhile_append_of_pos hall]
    simp
  rw [leave, if_pos hlow, htake, hdrop]

/-- A node that leads back to none before it leaves the stack with its component. -/
theorem searched_of_eq (h : Progress g path s₀ n (g.successors n) s) (h₀ : Sound g path s₀) (he : ¬ s₀.Entered n)
    (hlow : s.lowOf n = s.indexOf n) : Searched g path s₀ n (s.leave n) := by
  obtain ⟨new, hstack, hnew⟩ := h.stack
  have hcomponent := h.isComponent h₀ he hlow hstack
  have hgrows := h.grows_self he
  have hold (b : String) (hb : b ∈ s₀.stack) : s.indexOf b = s₀.indexOf b := hgrows.indexOf b (h₀.stack b hb)
  have hsub : s₀.stack ⊆ s.stack := fun b hb => hstack ▸ List.mem_append_right new (List.mem_cons_of_mem n hb)
  rw [leave_eq hstack (fun hn => (hnew n hn).1 rfl) hlow]
  exact {
    sound := {
      keys := h.sound.keys
      nodes := h.sound.nodes
      index_lt := h.sound.index_lt
      stack := fun b hb => h.sound.stack b (hsub hb)
      ordered := h.sound.ordered.sublist
        (hstack ▸ (List.sublist_cons_self n _).trans (List.sublist_append_right new _))
      within := h₀.within
      followed := fun a ha hp b hab => h.entered_of_leads ha hp hab
      complete := fun a ha b hab => h.not_mem_of_reaches h₀ he hlow (.single hab) ha.1 ha.2
      up := fun a ha b hb => h.sound.up a (hsub ha) b (hsub hb)
      back := fun b hb => by
        obtain ⟨a, ha, hab, hba⟩ := h₀.back b hb
        have hle : s.indexOf a ≤ s.indexOf b := by rwa [hold a (h₀.within ha), hold b hb]
        exact ⟨a, ha, hle, hba⟩
      knots := fun c hc => by
        dsimp only at hc
        split at hc
        · next hlen =>
          rcases List.mem_append.mp hc with hc | hc
          · exact h.sound.knots c hc
          · exact List.mem_singleton.mp hc ▸ ⟨hcomponent, hlen⟩
        · exact h.sound.knots c hc
      known := fun a ⟨ha, hna⟩ => by
        by_cases has : a ∈ s.stack
        · -- the node has left the stack with this component
          refine ⟨new ++ [n], hcomponent, ?_, fun hlen => ?_⟩
          · have hsplit : s.stack = (new ++ [n]) ++ s₀.stack := by rw [hstack, List.append_assoc]; rfl
            exact (List.mem_append.mp (hsplit ▸ has)).resolve_right hna
          · dsimp only
            rw [if_pos hlen]
            exact List.mem_append_right _ (List.mem_singleton_self _)
        · obtain ⟨c, hc, hac, hknown⟩ := h.sound.known a ⟨ha, has⟩
          refine ⟨c, hc, hac, fun hlen => ?_⟩
          dsimp only
          split
          · exact List.mem_append_left _ (hknown hlen)
          · exact hknown hlen }
    grows := ⟨hgrows.entered, hgrows.indexOf, ⟨[], rfl, nofun⟩, hgrows.length⟩
    entered := h.entered
    low := h.low
    low_cases := .inl (Nat.le_of_eq (h.indexOf_self.symm.trans hlow.symm))
    low_edges := fun a ha hna b hb hab => h.low_le_of_leads ha hna hb hab }

theorem leave (h : Progress g path s₀ n (g.successors n) s) (h₀ : Sound g path s₀) (he : ¬ s₀.Entered n) :
    Searched g path s₀ n (s.leave n) := by
  by_cases hlow : s.lowOf n = s.indexOf n
  · exact h.searched_of_eq h₀ he hlow
  · rw [Search.leave, if_neg hlow]
    exact h.searched_of_lt he (Nat.lt_of_le_of_ne (h.indexOf_self ▸ h.low_le) hlow)

end

end Progress

/-- A search of a node that the nodes being searched lead to. -/
theorem searched (hc : g.Closed) (fuel : Nat) (h : Sound g path s) (hn : n ∈ g.nodes) (he : ¬ s.Entered n)
    (hp : ∀ a ∈ path, g.Reaches a n) (hf : g.length ≤ fuel + s.index.length) :
    Searched g path s n (g.search fuel s n) := by
  induction fuel generalizing path s n with
  | zero => exact absurd (h.length_lt hn he) (by omega)
  | succ fuel ih =>
    have hprogress : Progress g path s n ([] ++ g.successors n)
        ((g.successors n).foldl (Search.follow (g.search fuel) n) (s.enter n)) :=
      (Progress.start h hn he hp).foldl h he (fun m hm => hm) fun m hm s' hs' hg hm' => by
        refine ih hs' (hc n m hm) hm' (List.forall_mem_cons.mpr ⟨.single hm, fun a ha => (hp a ha).tail hm⟩) ?_
        have hlength := hg.length
        rw [length_enter he] at hlength
        omega
    exact hprogress.leave h he

/-- Searches from some nodes enter them all. -/
theorem searchFrom_sound (hc : g.Closed) {ns : List String} (hns : ns ⊆ g.nodes) (h : Sound g [] s) :
    Sound g [] (g.searchFrom s ns) ∧ (∀ m, s.Entered m → (g.searchFrom s ns).Entered m) ∧
      ∀ m ∈ ns, (g.searchFrom s ns).Entered m := by
  induction ns generalizing s with
  | nil => exact ⟨h, fun _ hm => hm, nofun⟩
  | cons n ns ih =>
    obtain ⟨hn, hns⟩ := List.cons_subset.mp hns
    obtain ⟨s', hs', hkeep, hentered, hstep⟩ : ∃ s', Sound g [] s' ∧ (∀ m, s.Entered m → s'.Entered m) ∧
        s'.Entered n ∧ g.searchFrom s (n :: ns) = g.searchFrom s' ns := by
      by_cases he : Table.has s.index n = true
      · exact ⟨s, h, fun _ hm => hm, he, by rw [searchFrom, List.foldl_cons, if_pos he, searchFrom]⟩
      · have hr := searched hc g.length h hn he (List.forall_mem_nil _) (Nat.le_add_right _ _)
        exact ⟨_, hr.sound, hr.grows.entered, hr.entered, by rw [searchFrom, List.foldl_cons, if_neg he, searchFrom]⟩
    obtain ⟨hsound, hkeep', hns'⟩ := ih hns hs'
    rw [hstep]
    exact ⟨hsound, fun m hm => hkeep' m (hkeep m hm), List.forall_mem_cons.mpr ⟨hkeep' n hentered, hns'⟩⟩

end Search

/-! ## The components that are found -/

variable {g : Graph}

/-- Every component of more than two nodes is found, and nothing else. -/
theorem knots_sound (hc : g.Closed) : (∀ c ∈ g.knots, g.IsComponent c ∧ 2 < c.length) ∧
    ∀ a ∈ g.nodes, ∃ c, g.IsComponent c ∧ a ∈ c ∧ (2 < c.length → c ∈ g.knots) := by
  obtain ⟨h, -, hentered⟩ := Search.searchFrom_sound hc (List.Subset.refl g.nodes) (.start g)
  refine ⟨h.knots, fun a ha => h.known a ⟨hentered a ha, fun hstack => ?_⟩⟩
  obtain ⟨b, hb, -⟩ := h.back a hstack
  cases hb

end FormRules.Graph
