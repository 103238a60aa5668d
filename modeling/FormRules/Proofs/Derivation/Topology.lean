import FormRules.Derivation.Graph
import Mathlib.Logic.Relation
import Mathlib.Data.List.Perm.Subperm

/-!
# The depth-first order of a graph

The traversal leaves every node after all its successors, except those that lead back to it. The nodes that
have been entered and not left form a walk to the node that is visited, which is why a successor among them
leads back to it. In an acyclic graph there is none.
-/

namespace FormRules.Graph

/-- Whether there is an edge between two nodes. -/
def Leads (g : Graph) (a b : String) : Prop := b ∈ g.successors a

/-- No walk leads from a node back to it. -/
def Acyclic (g : Graph) : Prop := ∀ n, ¬ Relation.TransGen g.Leads n n

theorem acyclic_of_rank {g : Graph} (rank : String → Nat) (h : ∀ a b, g.Leads a b → rank b < rank a) : g.Acyclic := by
  have hlt {a b : String} (hab : Relation.TransGen g.Leads a b) : rank b < rank a := by
    induction hab with
    | single hb => exact h _ _ hb
    | tail _ hbc ih => exact Nat.lt_trans (h _ _ hbc) ih
  exact fun n hn => Nat.lt_irrefl _ (hlt hn)

/-- Every edge ends at a node. -/
def Closed (g : Graph) : Prop := ∀ a b, g.Leads a b → b ∈ g.nodes

/-- What a traversal has done while the nodes of `path` are being visited. -/
structure Sound (g : Graph) (path : List String) (t : Traversal) : Prop where
  entered_iff : ∀ n, n ∈ t.entered ↔ n ∈ t.left ∨ n ∈ path
  apart : ∀ n ∈ t.left, n ∉ path
  nodes : ∀ n ∈ t.entered, n ∈ g.nodes
  entered_nodup : t.entered.Nodup
  left_nodup : t.left.Nodup
  /-- The successors of what is left have been left, or are being visited and lead back to it. -/
  complete : ∀ a ∈ t.left, ∀ b, g.Leads a b → b ∈ t.left ∨ b ∈ path ∧ Relation.ReflTransGen g.Leads b a
  /-- What is left before one of its successors is led back to by it. -/
  ordered : t.left.Pairwise fun a b => g.Leads a b → Relation.ReflTransGen g.Leads b a

namespace Sound
variable {g : Graph} {path : List String} {t : Traversal} {n : String} {fuel : Nat}

theorem start (g : Graph) : g.Sound [] {} where
  entered_iff n := by simp
  apart := nofun
  nodes := nofun
  entered_nodup := List.nodup_nil
  left_nodup := List.nodup_nil
  complete := nofun
  ordered := List.Pairwise.nil

theorem enter (h : g.Sound path t) (hn : n ∈ g.nodes) (he : n ∉ t.entered) :
    g.Sound (n :: path) { t with entered := n :: t.entered } where
  entered_iff m := by
    simp only [List.mem_cons, h.entered_iff m]
    tauto
  apart m hm := by
    have hne : m ≠ n := by
      rintro rfl
      exact he ((h.entered_iff m).mpr (.inl hm))
    simp [hne, h.apart m hm]
  nodes := List.forall_mem_cons.mpr ⟨hn, h.nodes⟩
  entered_nodup := List.nodup_cons.mpr ⟨he, h.entered_nodup⟩
  left_nodup := h.left_nodup
  complete a ha b hb := (h.complete a ha b hb).imp_right (And.imp_left (List.mem_cons_of_mem n))
  ordered := h.ordered

/-- A node is left once all its successors have been, but for those that lead to it. -/
theorem leave (h : g.Sound (n :: path) t) (hn : n ∉ path) (hp : ∀ a ∈ path, Relation.ReflTransGen g.Leads a n)
    (hs : ∀ b, g.Leads n b → b ∈ t.left ∨ b ∈ n :: path) : g.Sound path { t with left := t.left ++ [n] } where
  entered_iff m := by
    rw [h.entered_iff m]
    simp only [List.mem_append, List.mem_cons, List.not_mem_nil, or_false]
    tauto
  apart m hm := by
    rcases List.mem_append.mp hm with hm | hm
    · exact fun hmp => h.apart m hm (List.mem_cons_of_mem _ hmp)
    · exact List.mem_singleton.mp hm ▸ hn
  nodes := h.nodes
  entered_nodup := h.entered_nodup
  left_nodup := by
    refine List.nodup_append.mpr ⟨h.left_nodup, List.pairwise_singleton _ n, ?_⟩
    rintro a ha b hb rfl
    exact h.apart a ha (List.mem_singleton.mp hb ▸ List.mem_cons_self)
  complete a ha b hb := by
    have leaves (hb : b ∈ t.left ∨ b ∈ n :: path) (hback : b ∈ path → Relation.ReflTransGen g.Leads b a) :
        b ∈ t.left ++ [n] ∨ b ∈ path ∧ Relation.ReflTransGen g.Leads b a := by
      rcases hb with hb | hb
      · exact .inl (List.mem_append_left _ hb)
      · exact (List.mem_cons.mp hb).imp (fun hbn => by simp [hbn]) fun hb => ⟨hb, hback hb⟩
    rcases List.mem_append.mp ha with ha | ha
    · rcases h.complete a ha b hb with hb | ⟨hb, hback⟩
      · exact .inl (List.mem_append_left _ hb)
      · exact leaves (.inr hb) fun _ => hback
    · obtain rfl := List.mem_singleton.mp ha
      exact leaves (hs b hb) (hp b)
  ordered := by
    refine List.pairwise_append.mpr ⟨h.ordered, List.pairwise_singleton _ n, fun a ha b hb hab => ?_⟩
    obtain rfl := List.mem_singleton.mp hb
    rcases h.complete a ha b hab with hleft | ⟨-, hback⟩
    · exact absurd List.mem_cons_self (h.apart b hleft)
    · exact hback

theorem length_lt (h : g.Sound path t) (hn : n ∈ g.nodes) (he : n ∉ t.entered) :
    t.entered.length < g.length := by
  have hsub : (n :: t.entered) ⊆ g.nodes := List.cons_subset.mpr ⟨hn, h.nodes⟩
  have hle := (List.subperm_of_subset (List.nodup_cons.mpr ⟨he, h.entered_nodup⟩) hsub).length_le
  have hlen : g.nodes.length = g.length := List.length_map _
  rw [List.length_cons] at hle
  omega

end Sound

/-- A traversal goes on from `t` to `t'` while the nodes of `path` are being visited. -/
structure Advances (g : Graph) (path : List String) (t t' : Traversal) : Prop where
  sound : g.Sound path t'
  left : t.left ⊆ t'.left
  entered : t.entered.length ≤ t'.entered.length

namespace Advances
variable {g : Graph} {path : List String} {t t' t'' : Traversal} {n : String} {fuel : Nat}

theorem refl (h : g.Sound path t) : g.Advances path t t := ⟨h, fun _ hm => hm, Nat.le_refl _⟩

theorem trans (h : g.Advances path t t') (h' : g.Advances path t' t'') : g.Advances path t t'' :=
  ⟨h'.sound, fun _ hm => h'.left (h.left hm), Nat.le_trans h.entered h'.entered⟩

theorem foldl (visit : Traversal → String → Traversal) (ns : List String)
    (hv : ∀ n ∈ ns, ∀ t, g.Sound path t → g.length ≤ fuel + t.entered.length →
      g.Advances path t (visit t n) ∧ (n ∈ (visit t n).left ∨ n ∈ path))
    (h : g.Sound path t) (hf : g.length ≤ fuel + t.entered.length) :
    g.Advances path t (ns.foldl visit t) ∧ ∀ n ∈ ns, n ∈ (ns.foldl visit t).left ∨ n ∈ path := by
  induction ns generalizing t with
  | nil => exact ⟨refl h, nofun⟩
  | cons n ns ih =>
    obtain ⟨hn, hns⟩ := List.forall_mem_cons.mp hv
    obtain ⟨hstep, hleft⟩ := hn t h hf
    obtain ⟨hrest, hall⟩ := ih hns hstep.sound (Nat.le_trans hf (Nat.add_le_add_left hstep.entered _))
    exact ⟨hstep.trans hrest, List.forall_mem_cons.mpr ⟨hleft.imp_left (hrest.left ·), hall⟩⟩

/-- A visit of a node that the path leads to leaves it, unless it is being visited. -/
theorem visit (hc : g.Closed) (hn : n ∈ g.nodes) (hp : ∀ a ∈ path, Relation.ReflTransGen g.Leads a n)
    (h : g.Sound path t) (hf : g.length ≤ fuel + t.entered.length) :
    g.Advances path t (g.visit fuel t n) ∧ (n ∈ (g.visit fuel t n).left ∨ n ∈ path) := by
  induction fuel generalizing path t n with
  | zero =>
    by_cases he : n ∈ t.entered
    · exact ⟨refl h, (h.entered_iff n).mp he⟩
    · exact absurd (h.length_lt hn he) (by omega)
  | succ fuel ih =>
    rw [Graph.visit]
    split
    · next he => exact ⟨refl h, (h.entered_iff n).mp (by simpa using he)⟩
    · next he =>
      have he : n ∉ t.entered := by simpa using he
      have hpath : n ∉ path := fun hm => he ((h.entered_iff n).mpr (.inr hm))
      obtain ⟨hfold, hall⟩ := foldl (g.visit fuel) (g.successors n)
        (fun m hm t ht hf => ih (hc n m hm) (List.forall_mem_cons.mpr ⟨.single hm, fun a ha => (hp a ha).tail hm⟩) ht hf)
        (h.enter hn he) (by rw [List.length_cons]; omega)
      refine ⟨⟨hfold.sound.leave hpath hp hall, fun a hmem => List.mem_append_left _ (hfold.left hmem), ?_⟩,
        .inl (List.mem_append_right _ List.mem_cons_self)⟩
      exact Nat.le_trans (Nat.le_succ _) hfold.entered

end Advances

variable {g : Graph}

/-- Every node is left once, after all its successors but those that lead back to it. -/
theorem postorder_ordered (hc : g.Closed) :
    (∀ n, n ∈ g.postorder ↔ n ∈ g.nodes) ∧ g.postorder.Nodup ∧
      g.postorder.Pairwise fun a b => g.Leads a b → Relation.ReflTransGen g.Leads b a := by
  obtain ⟨h, hall⟩ := Advances.foldl (g.visit g.length) g.nodes
    (fun n hn t ht hf => Advances.visit hc hn (List.forall_mem_nil _) ht hf) (Sound.start g) (Nat.le_add_right _ _)
  exact ⟨fun n => ⟨fun hn => h.sound.nodes n ((h.sound.entered_iff n).mpr (.inl hn)),
    fun hn => (hall n hn).resolve_right List.not_mem_nil⟩, h.sound.left_nodup, h.sound.ordered⟩

/-- In an acyclic graph every node is left once, after all its successors. -/
theorem postorder_sound (hc : g.Closed) (ha : g.Acyclic) :
    (∀ n, n ∈ g.postorder ↔ n ∈ g.nodes) ∧ g.postorder.Nodup ∧ g.postorder.Pairwise fun a b => ¬ g.Leads a b := by
  obtain ⟨hmem, hnodup, hordered⟩ := postorder_ordered hc
  exact ⟨hmem, hnodup, hordered.imp fun {a b} hback hab => ha a (Relation.TransGen.head' (b := b) hab (hback hab))⟩

/-! ## Nodes that are in order already -/

theorem foldl_visit_of_entered {ns : List String} {t : Traversal} (fuel : Nat) (h : ∀ n ∈ ns, n ∈ t.entered) :
    ns.foldl (g.visit fuel) t = t := by
  induction ns with
  | nil => rfl
  | cons n ns ih =>
    obtain ⟨hn, hns⟩ := List.forall_mem_cons.mp h
    have hvisit : g.visit fuel t n = t := by
      cases fuel with
      | zero => rfl
      | succ fuel => rw [visit, if_pos (by simpa using hn)]
    rw [List.foldl_cons, hvisit, ih hns]

/-- Nodes of which none leads to a later one stay in their order. -/
theorem postorder_eq_nodes (hc : g.Closed) (hn : g.nodes.Nodup)
    (ho : g.nodes.Pairwise fun a b => ¬ g.Leads a b) : g.postorder = g.nodes := by
  have rest (done ns : List String) (hsplit : g.nodes = done ++ ns) :
      (ns.foldl (g.visit g.length) ⟨done.reverse, done⟩).left = g.nodes := by
    induction ns generalizing done with
    | nil => rw [hsplit, List.append_nil]; rfl
    | cons n ns ih =>
      have hnew : n ∉ done := by
        intro hmem
        exact (List.nodup_append.mp (hsplit ▸ hn)).2.2 n hmem n List.mem_cons_self rfl
      have hsucc : ∀ m ∈ g.successors n, m ∈ n :: done.reverse := by
        intro m hm
        have hmem : m ∈ done ++ n :: ns := hsplit ▸ hc n m hm
        rcases List.mem_append.mp hmem with hmem | hmem
        · exact List.mem_cons_of_mem n (List.mem_reverse.mpr hmem)
        · rcases List.mem_cons.mp hmem with rfl | hmem
          · exact List.mem_cons_self
          · have hlater := (List.pairwise_append.mp (hsplit ▸ ho)).2.1
            exact absurd hm ((List.pairwise_cons.mp hlater).1 m hmem)
      obtain ⟨fuel, hfuel⟩ : ∃ fuel, g.length = fuel + 1 := by
        refine Nat.exists_eq_add_one.mpr ?_
        have hlen : g.nodes.length = g.length := List.length_map _
        rw [← hlen, hsplit, List.length_append, List.length_cons]
        omega
      have hvisit : g.visit g.length ⟨done.reverse, done⟩ n = ⟨(done ++ [n]).reverse, done ++ [n]⟩ := by
        rw [hfuel, visit, if_neg (by simpa using hnew), foldl_visit_of_entered fuel hsucc, List.reverse_concat]
      rw [List.foldl_cons, hvisit]
      exact ih (done ++ [n]) (by rw [hsplit, List.append_assoc]; rfl)
  exact rest [] g.nodes rfl

end FormRules.Graph
