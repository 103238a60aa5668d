import FormRules.Proofs.Derivation.Outcome

/-!
# Derivations that have nothing to write

A derivation is idle on a value if it has nothing to write there. A pass over derivations either writes
something or finds all of them idle, and leaves the value as it was. Passes end with the first one that writes
nothing, unless there have been enough.
-/

namespace FormRules
variable {fs : Functions} {external v : Value} {d : Derivation} {order : List Derivation}

/-- Whether a derivation has nothing to write into a value: it computes nothing, or what is there already. -/
def Derivation.Idle (fs : Functions) (external v : Value) (d : Derivation) : Prop :=
  ∀ w, d.outcome fs external v = .ok (some w) →
    ∃ keys, Path.keys d.target = .ok keys ∧ (v.getPath keys).strictEq w = true

namespace Checking
variable {α : Type} {P Q : α → Prop} {x : Checking α}

theorem Gives.mono (h : Gives P x) (hpq : ∀ a, P a → Q a) : Gives Q x := fun j a ha => hpq a (h j a ha)

theorem Yields.mono (h : Yields P x) (hpq : ∀ a, P a → Q a) : Yields Q x := fun j =>
  let ⟨a, ha, hp⟩ := h j
  ⟨a, ha, hpq a hp⟩

theorem Yields.gives (h : Yields P x) : Gives P x := fun j a ha => by
  obtain ⟨b, hb, hp⟩ := h j
  cases hb.symm.trans ha
  exact hp

theorem Yields.and (h : Yields P x) (h' : Gives Q x) : Yields (fun a => P a ∧ Q a) x := fun j =>
  let ⟨a, ha, hp⟩ := h j
  ⟨a, ha, hp, h' j a ha⟩

end Checking

namespace DerivationRun
open Checking
variable {r r' r'' : DerivationRun} {count : Nat}

/-- A run has gone on without writing anything. -/
structure Rested (r r' : DerivationRun) : Prop where
  value : r'.value = r.value
  applied : r'.applied = r.applied
  iterations : r'.iterations = r.iterations
  maxReached : r'.maxReached = r.maxReached

/-- A run has gone on within its pass, and written something. -/
structure Wrote (r r' : DerivationRun) : Prop where
  applied : r.applied.length < r'.applied.length
  iterations : r'.iterations = r.iterations
  maxReached : r'.maxReached = r.maxReached

theorem Rested.refl (r : DerivationRun) : Rested r r := ⟨rfl, rfl, rfl, rfl⟩

theorem Rested.trans (h : Rested r r') (h' : Rested r' r'') : Rested r r'' :=
  ⟨h'.value.trans h.value, h'.applied.trans h.applied, h'.iterations.trans h.iterations,
    h'.maxReached.trans h.maxReached⟩

theorem Rested.wrote (h : Rested r r') (h' : Wrote r' r'') : Wrote r r'' :=
  ⟨h.applied ▸ h'.applied, h'.iterations.trans h.iterations, h'.maxReached.trans h.maxReached⟩

theorem Wrote.rested (h : Wrote r r') (h' : Rested r' r'') : Wrote r r'' :=
  ⟨h'.applied ▸ h.applied, h'.iterations.trans h.iterations, h'.maxReached.trans h.maxReached⟩

theorem Wrote.trans (h : Wrote r r') (h' : Wrote r' r'') : Wrote r r'' :=
  ⟨Nat.lt_trans h.applied h'.applied, h'.iterations.trans h.iterations, h'.maxReached.trans h.maxReached⟩

/-! ## One derivation -/

/-- Applying a derivation writes something unless it is idle. -/
theorem apply_gives : Gives (fun r' => (d.Idle fs external r.value ∧ Rested r r') ∨
    (¬ d.Idle fs external r.value ∧ Wrote r r')) (apply fs external r d) := by
  refine (outcome_yields fs external r.value d).gives.bind fun o ho => ?_
  match o, ho with
  | .error e, ho =>
    refine Gives.trivial.bind fun _ _ => .pure (.inl ⟨fun w hw => ?_, ⟨rfl, rfl, rfl, rfl⟩⟩)
    cases ho.trans hw
  | .ok none, ho =>
    refine .pure (.inl ⟨fun w hw => ?_, .refl r⟩)
    cases ho.trans hw
  | .ok (some w), ho =>
    refine (Gives.of_outcome (P := fun keys => Path.keys d.target = .ok keys) fun _ hk => hk).bind fun keys hk => ?_
    split
    · next heq =>
      refine .pure (.inl ⟨fun w' hw' => ?_, .refl r⟩)
      cases ho.trans hw'
      exact ⟨keys, hk, heq⟩
    · next hne =>
      refine Gives.trivial.bind fun value _ => .pure (.inr ⟨fun hidle => ?_, ?_, rfl, rfl⟩)
      · obtain ⟨keys', hk', heq⟩ := hidle w ho.symm
        cases hk.symm.trans hk'
        exact hne heq
      · rw [List.length_append]
        exact Nat.lt_succ_self _

/-- Applying an idle derivation cannot fail. -/
theorem apply_idle (h : d.Idle fs external r.value) : Yields (Rested r) (apply fs external r d) := by
  refine (outcome_yields fs external r.value d).bind fun o ho => ?_
  match o, ho with
  | .error e, ho => exact (Yields.report _).bind fun _ _ => .pure ⟨rfl, rfl, rfl, rfl⟩
  | .ok none, ho => exact .pure (.refl r)
  | .ok (some w), ho =>
    obtain ⟨keys, hk, heq⟩ := h w ho.symm
    rw [hk]
    refine Yields.bind (.of_outcome (P := (· = keys)) rfl) fun keys' hkeys => ?_
    subst hkeys
    rw [if_pos heq]
    exact .pure (.refl r)

/-! ## Passes -/

/-- A pass writes something unless all derivations are idle. -/
theorem pass_gives : Gives (fun r' => ((∀ d ∈ order, d.Idle fs external r.value) ∧ Rested r r') ∨
    ((∃ d ∈ order, ¬ d.Idle fs external r.value) ∧ Wrote r r')) (order.foldlM (apply fs external) r) := by
  induction order generalizing r with
  | nil => exact .pure (.inl ⟨fun _ hd => absurd hd List.not_mem_nil, .refl r⟩)
  | cons d order ih =>
    rw [List.foldlM_cons]
    refine apply_gives.bind fun r₁ h₁ => ih.mono fun r₂ h₂ => ?_
    rcases h₁ with ⟨hd, hrest⟩ | ⟨hd, hwrote⟩ <;> rcases h₂ with ⟨horder, hrest'⟩ | ⟨⟨e, he, hidle⟩, hwrote'⟩
    · rw [hrest.value] at horder
      exact .inl ⟨List.forall_mem_cons.mpr ⟨hd, horder⟩, hrest.trans hrest'⟩
    · rw [hrest.value] at hidle
      exact .inr ⟨⟨e, List.mem_cons_of_mem d he, hidle⟩, hrest.wrote hwrote'⟩
    · exact .inr ⟨⟨d, List.mem_cons_self, hd⟩, hwrote.rested hrest'⟩
    · exact .inr ⟨⟨d, List.mem_cons_self, hd⟩, hwrote.trans hwrote'⟩

theorem pass_idle (h : ∀ d ∈ order, d.Idle fs external r.value) :
    Yields (Rested r) (order.foldlM (apply fs external) r) := by
  induction order generalizing r with
  | nil => exact .pure (.refl r)
  | cons d order ih =>
    obtain ⟨hd, horder⟩ := List.forall_mem_cons.mp h
    rw [List.foldlM_cons]
    refine (apply_idle hd).bind fun r₁ h₁ => (ih ?_).mono fun r₂ h₂ => h₁.trans h₂
    rwa [h₁.value]

/-- A run that has not been stopped ends where all derivations are idle. -/
theorem passes_gives (hr : r.maxReached = false) : Gives (fun r' => r'.maxReached = false →
    count ≠ 0 ∧ ∀ d ∈ order, d.Idle fs external r'.value) (passes fs external order count r) := by
  induction count generalizing r with
  | zero => exact .pure nofun
  | succ count ih =>
    refine pass_gives.bind fun next hnext => ?_
    split
    · next heq =>
      rcases hnext with ⟨hidle, hrest⟩ | ⟨-, hwrote⟩
      · exact .pure fun _ => ⟨Nat.succ_ne_zero count, hrest.value ▸ hidle⟩
      · exact absurd hwrote.applied (Nat.not_lt.mpr (Nat.le_of_eq heq))
    · have hmax : next.maxReached = false := by
        rcases hnext with ⟨-, hrest⟩ | ⟨-, hwrote⟩
        · exact hrest.maxReached.trans hr
        · exact hwrote.maxReached.trans hr
      exact (ih hmax).mono fun r' hr' hm => ⟨Nat.succ_ne_zero count, (hr' hm).2⟩

/-- One pass over idle derivations is the last. -/
theorem passes_idle (h : ∀ d ∈ order, d.Idle fs external r.value) : Yields (fun r' => r'.value = r.value ∧
    r'.applied = r.applied ∧ r'.iterations = r.iterations + 1 ∧ r'.maxReached = r.maxReached)
    (passes fs external order (count + 1) r) := by
  have hpass : Yields (Rested { r with iterations := r.iterations + 1 })
      (order.foldlM (apply fs external) { r with iterations := r.iterations + 1 }) := pass_idle h
  refine hpass.bind fun next hnext => ?_
  rw [if_pos (congrArg List.length hnext.applied)]
  exact .pure ⟨hnext.value, hnext.applied, hnext.iterations, hnext.maxReached⟩

end DerivationRun
end FormRules
