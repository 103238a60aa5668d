import FormRules.Proofs.Derivation.Idle
import FormRules.Proofs.Derivation.Settle
import FormRules.Proofs.Value.Equality

/-!
# How many passes a run takes

A run of well-posed derivations comes to the solution in its first pass, and a second one finds nothing left to
write. This needs what has been written to count as what is there. A value with a NaN in it equals nothing,
itself included, and an index that is hidden in the form is not read where it is written. A derivation that
computes such a value writes it in every pass, until the run is stopped.
-/

namespace FormRules
variable {fs : Functions} {external v : Value} {d : Derivation} {ds order : List Derivation} {es gs : Entries}
  {maxPasses : Nat}

namespace Derivation

/-! ## Derivations that are idle on the solution -/

theorem OfField.idle_iff (hd : d.OfField) : d.Idle fs external v ↔
    ∀ w, d.outcome fs external v = .ok (some w) → (v.getPath [d.key]).strictEq w = true := by
  refine forall₂_congr fun w _ => ⟨fun ⟨keys, hkeys, heq⟩ => ?_, fun heq => ⟨[d.key], hd.keys, heq⟩⟩
  cases hd.keys.symm.trans hkeys
  exact heq

theorem Wired.idle_congr (hw : d.Wired fs external) (h : SameEntries es gs) :
    d.Idle fs external (.map es) ↔ d.Idle fs external (.map gs) := by
  rw [hw.field.idle_iff, hw.field.idle_iff, hw.outcome.outcome_eq hw.dotted fun t _ => h.agreeOn t,
    (h.agreeOn d.key.text).getPath []]

/-- Whether a value in the field of a derivation counts as what is there, given the form at the start: it was
there already, or is equal to itself and read where it is written. -/
def Keeps (d : Derivation) (es : Entries) (w : Value) : Prop :=
  ((Value.map es).getPath [d.key]).strictEq w = true ∨ w.strictEq w = true ∧ Value.isHidden es d.key = false

/-- A value that has been written is found again just if it counts as what is there. -/
theorem found_written_iff {w : Value} :
    ((Value.map (written d.key es (.ok (some w)))).getPath [d.key]).strictEq w = true ↔ d.Keeps es w := by
  have hread {x : Value} {es : Entries} (h : (Value.map es).seat? [d.key] = some x) :
      (Value.map es).getPath [d.key] = x := Value.getPath_of_seat? (List.cons_ne_nil _ _) h
  unfold Keeps
  by_cases hes : ((Value.map es).getPath [d.key]).strictEq w = true
  · rw [show written d.key es (.ok (some w)) = es from if_pos hes]
    exact iff_of_true hes (.inl hes)
  rw [show written d.key es (.ok (some w)) = Table.put es (Value.writeKey es d.key) w from if_neg hes, or_iff_right hes]
  cases hh : Value.isHidden es d.key with
  | false =>
    rw [hread (Value.seat?_map (Value.get?_put_writeKey hh) (by rw [Value.seat?]))]
    exact (and_iff_left rfl).symm
  | true =>
    rw [hread (by rw [Value.seat?, if_pos hh])] at hes
    rw [hread (by rw [Value.seat?, if_pos (Value.isHidden_put hh)])]
    exact iff_of_false hes fun h => Bool.noConfusion h.2

/-- A NaN never counts as what is there, nor does anything but `undefined` where the form hides it. -/
theorem not_keeps {w : Value} (h : w = .num .nan ∨ Value.isHidden es d.key = true ∧ w ≠ .undefined) :
    ¬ d.Keeps es w := by
  rcases h with rfl | ⟨hh, hw⟩
  · have hne (v : Value) : v.strictEq (.num .nan) = false := by
      cases v with
      | num n => rw [Value.strictEq, Number.eq_nan]
      | _ => simp [Value.strictEq]
    rintro (h | ⟨h, -⟩) <;> exact Bool.noConfusion ((hne _).symm.trans h)
  · rintro (h | ⟨-, h⟩)
    · rw [Value.getPath_of_seat? (List.cons_ne_nil _ _) (by rw [Value.seat?, if_pos hh])] at h
      exact hw (Value.undefined_strictEq_iff.mp h)
    · exact Bool.noConfusion (hh.symm.trans h)

/-- A derivation is idle on the solution just if what it computes there counts as what is there. -/
theorem Settled.idle_iff (h : Settled fs external ds es gs) (hw : d.Wired fs external) (hd : d ∈ ds) :
    d.Idle fs external (.map gs) ↔ ∀ w, d.outcome fs external (.map gs) = .ok (some w) → d.Keeps es w := by
  rw [hw.field.idle_iff]
  refine forall₂_congr fun w ho => ?_
  have hsolved := hw.field.agreeOn (h.solved d hd)
  rw [ho] at hsolved
  rw [hsolved.getPath [], found_written_iff]

end Derivation

namespace DerivationRun
open Checking FormRules.Derivation
variable {r : DerivationRun} {count : Nat}

/-! ## Passes over the solution -/

/-- A pass gives what the sweep does, and writes something unless all derivations are idle. -/
theorem pass_yields (fs : Functions) (external : Value) (hd : ∀ d ∈ order, d.OfField) (hr : r.Holds es) :
    Yields (fun r' => r'.Holds (sweep fs external order es) ∧
      ((∀ d ∈ order, d.Idle fs external (.map es)) ∧ Rested r r' ∨
        (∃ d ∈ order, ¬ d.Idle fs external (.map es)) ∧ Wrote r r')) (order.foldlM (apply fs external) r) := by
  have hsweep : Yields (Holds · (sweep fs external order es)) (order.foldlM (apply fs external) r) :=
    .foldlM (fun d hmem _ _ hr => apply_yields (hd d hmem) hr) hr
  have hvalue : r.value = .map es := hr
  exact hsweep.and (hvalue ▸ pass_gives)

/-- Passes over the solution, unless all derivations are idle there, go on until there have been enough. -/
theorem passes_restless (hw : ∀ d ∈ order, d.Wired fs external) (hsettled : Settled fs external order es gs)
    (hrestless : ∃ d ∈ order, ¬ d.Idle fs external (.map gs)) (hr : r.Holds gs) :
    Yields (fun r' => (∃ hs, r'.Holds hs ∧ SameEntries hs gs) ∧ r'.iterations = r.iterations + count ∧
      r'.maxReached = true) (passes fs external order count r) := by
  induction count generalizing r gs with
  | zero => exact .pure ⟨⟨gs, hr, fun _ => rfl⟩, rfl, rfl⟩
  | succ count ih =>
    have hpass := pass_yields (r := { r with iterations := r.iterations + 1 }) fs external
      (fun d hd => (hw d hd).field) hr
    refine hpass.bind fun next ⟨hnext, hcase⟩ => ?_
    obtain ⟨d, hd, hloud⟩ := hrestless
    obtain ⟨-, hwrote⟩ := hcase.resolve_left fun ⟨hidle, _⟩ => hloud (hidle d hd)
    rw [if_neg (Nat.ne_of_gt hwrote.applied)]
    have hsame := hsettled.sweep hw (List.Subset.refl _)
    have hloud' := mt ((hw d hd).idle_congr hsame).mp hloud
    refine (ih (hsettled.congr hw hsame) ⟨d, hd, hloud'⟩ hnext).mono fun r' ⟨⟨hs, hhs, hsame'⟩, hiterations, hmax⟩ => ?_
    refine ⟨⟨hs, hhs, fun k => (hsame' k).trans (hsame k)⟩, ?_, hmax⟩
    rw [hiterations, hwrote.iterations, Nat.add_right_comm, Nat.add_assoc]

/-- How a run ends that gives some entries: after two passes at most if all derivations are idle there, and when
there have been enough passes otherwise. -/
inductive Finished (fs : Functions) (external : Value) (ds : List Derivation) (maxPasses : Nat) (gs : Entries)
    (r : DerivationRun) : Prop
  | settled (idle : ∀ d ∈ ds, d.Idle fs external (.map gs)) (iterations : r.iterations ≤ 2)
      (maxReached : r.maxReached = false)
  | stopped (restless : ∃ d ∈ ds, ¬ d.Idle fs external (.map gs)) (iterations : r.iterations = maxPasses)
      (maxReached : r.maxReached = true)

theorem Finished.of_mem (h : Finished fs external order maxPasses gs r) (hmem : ∀ d, d ∈ order ↔ d ∈ ds) :
    Finished fs external ds maxPasses gs r := by
  cases h with
  | settled idle iterations maxReached => exact .settled (fun d hd => idle d ((hmem d).mpr hd)) iterations maxReached
  | stopped restless iterations maxReached =>
    obtain ⟨d, hd, hloud⟩ := restless
    exact .stopped ⟨d, (hmem d).mp hd, hloud⟩ iterations maxReached

/-- Passes from a form whose sweep gives the solution, if there may be two. -/
theorem passes_settled (hw : ∀ d ∈ order, d.Wired fs external)
    (hsettled : Settled fs external order es (sweep fs external order es)) :
    Yields (fun r => ∃ gs, r.Holds gs ∧ SameEntries gs (sweep fs external order es) ∧
      Finished fs external order (count + 2) gs r) (passes fs external order (count + 2) { value := .map es }) := by
  have hpass := pass_yields (r := { value := .map es, iterations := 1 }) fs external (fun d hd => (hw d hd).field) rfl
  refine hpass.bind fun next ⟨hnext, hcase⟩ => ?_
  rcases hcase with ⟨hidle, hrested⟩ | ⟨-, hwrote⟩
  · rw [if_pos (congrArg List.length hrested.applied)]
    have hsweep : es = sweep fs external order es := Value.map.inj (hrested.value.symm.trans hnext)
    have hone : next.iterations = 1 := hrested.iterations
    exact .pure ⟨es, hrested.value, fun k => congrArg (Table.get? · k) hsweep,
      .settled hidle (Nat.le_succ_of_le (Nat.le_of_eq hone)) hrested.maxReached⟩
  · have hone : next.iterations = 1 := hwrote.iterations
    rw [if_neg (Nat.ne_of_gt hwrote.applied)]
    by_cases hidle : ∀ d ∈ order, d.Idle fs external (.map (sweep fs external order es))
    · have hquiet : ∀ d ∈ order, d.Idle fs external next.value := by rwa [show next.value = _ from hnext]
      refine (passes_idle hquiet).mono fun r ⟨hvalue, _, hiterations, hmax⟩ => ?_
      have htwo : r.iterations = 2 := by rw [hiterations, hone]
      exact ⟨_, hvalue.trans hnext, fun _ => rfl, .settled hidle (Nat.le_of_eq htwo) (hmax.trans hwrote.maxReached)⟩
    · obtain ⟨d, hd, hloud⟩ : ∃ d ∈ order, ¬ d.Idle fs external (.map (sweep fs external order es)) := by
        simpa using hidle
      refine (passes_restless hw hsettled ⟨d, hd, hloud⟩ hnext).mono fun r ⟨⟨gs, hgs, hsame⟩, hiterations, hmax⟩ => ?_
      have hloud' := mt ((hw d hd).idle_congr hsame).mp hloud
      have hall : r.iterations = count + 2 := by rw [hiterations, hone, Nat.add_comm]
      exact ⟨gs, hgs, hsame, .stopped ⟨d, hd, hloud'⟩ hall hmax⟩

end DerivationRun

namespace Derivation
open Checking DerivationRun

/-! ## Runs -/

/-- Derivations that have a value later make no difference to a run. -/
theorem run_filter (root : Value) :
    run fs external maxPasses (ds.filter fun d => !d.isAsync) root = run fs external maxPasses ds root := by
  unfold run order
  rw [List.filter_filter]
  simp only [Bool.and_self]

/-- A run that may take two passes gives the solution. -/
theorem WellPosed.run_yields (h : WellPosed fs external ds) (hmax : 2 ≤ maxPasses) (es : Entries) :
    Yields (fun r => ∃ gs, r.Holds gs ∧ Settled fs external ds es gs ∧ Finished fs external ds maxPasses gs r)
      (run fs external maxPasses ds (.map es)) := by
  obtain ⟨order, ho, hmem, hordered⟩ := order_sound h.sync h.targets h.resolves h.acyclic
  obtain ⟨count, rfl⟩ : ∃ count, maxPasses = count + 2 := ⟨maxPasses - 2, (Nat.sub_add_cancel hmax).symm⟩
  have hw : ∀ d ∈ order, d.Wired fs external := fun d hd => h.wired d ((hmem d).mp hd)
  have hsettled := sweep_settled hw hordered es
  unfold run
  rw [ho]
  refine Yields.bind (.of_outcome (P := (· = order)) rfl) fun order' horder => ?_
  subst horder
  split
  · next hempty =>
    obtain rfl := List.isEmpty_iff.mp hempty
    have hfinished : Finished fs external [] (count + 2) es { value := .map es } :=
      .settled (fun _ hd => absurd hd List.not_mem_nil) (Nat.zero_le 2) rfl
    exact .pure ⟨es, rfl, hsettled.of_mem hmem, hfinished.of_mem hmem⟩
  · refine (passes_settled hw hsettled).bind fun r ⟨gs, hr, hsame, hfinished⟩ => ?_
    have hdone : ∃ gs, r.Holds gs ∧ Settled fs external ds es gs ∧ Finished fs external ds (count + 2) gs r :=
      ⟨gs, hr, (hsettled.congr hw hsame).of_mem hmem, hfinished.of_mem hmem⟩
    split
    · exact (Yields.report _).bind fun _ _ => .pure hdone
    · exact .pure hdone

/-- A run of well-posed derivations that may take two passes gives the solution. It takes two at most if every value
that is computed counts as what is there. Where a derivation computes NaN, or computes something for an index that
the form hides, it takes all passes and is stopped. -/
theorem run_in_two_passes (ds : List Derivation) (h : WellPosed fs external (ds.filter fun d => !d.isAsync))
    (hmax : 2 ≤ maxPasses) (es : Entries) (j : Journal) :
    ∃ r gs, ((run fs external maxPasses ds (.map es)).run.run j).1 = .ok r ∧ r.value = .map gs ∧
      Settled fs external (ds.filter fun d => !d.isAsync) es gs ∧
      ((∀ d ∈ ds, d.isAsync = false → ∀ w, d.outcome fs external (.map gs) = .ok (some w) → d.Keeps es w) →
        r.maxReached = false ∧ r.iterations ≤ 2) ∧
      ∀ d ∈ ds, d.isAsync = false → ∀ w, d.outcome fs external (.map gs) = .ok (some w) →
        w = .num .nan ∨ Value.isHidden es d.key = true ∧ w ≠ .undefined →
        r.maxReached = true ∧ r.iterations = maxPasses := by
  obtain ⟨r, hr, gs, hvalue, hsettled, hfinished⟩ := h.run_yields hmax es j
  rw [run_filter] at hr
  have hmem {d : Derivation} : d ∈ ds.filter (fun d => !d.isAsync) ↔ d ∈ ds ∧ d.isAsync = false := by
    simp [List.mem_filter]
  have hidle (d : Derivation) (hd : d ∈ ds.filter fun d => !d.isAsync) := hsettled.idle_iff (h.wired d hd) hd
  refine ⟨r, gs, hr, hvalue, hsettled, fun hkeep => ?_, fun d hd hsync w ho hlost => ?_⟩
  · cases hfinished with
    | settled _ iterations maxReached => exact ⟨maxReached, iterations⟩
    | stopped restless =>
      obtain ⟨d, hd, hloud⟩ := restless
      exact absurd ((hidle d hd).mpr (hkeep d (hmem.mp hd).1 (hmem.mp hd).2)) hloud
  · cases hfinished with
    | settled idle =>
      have hd := hmem.mpr ⟨hd, hsync⟩
      exact absurd ((hidle d hd).mp (idle d hd) w ho) (not_keeps hlost)
    | stopped _ iterations maxReached => exact ⟨maxReached, iterations⟩

theorem copying_outcome {target source : String} {w : Value} (hw : Table.get? gs (.name source) = some w)
    (hout : (copying target source).outcome {} .undefined (.map gs) =
      .ok (some ((Table.get? gs (.name source)).getD .undefined))) :
    (copying target source).outcome {} .undefined (.map gs) = .ok (some w) := by
  rw [hout, hw]
  rfl

/-- The total and the label keep a price of three. -/
theorem copies_keep (h : Settled {} .undefined [copying "label" "total", copying "total" "price"]
    [(.name "price", .int 3)] gs) : ∀ d ∈ [copying "label" "total", copying "total" "price"], ∀ w,
      d.outcome {} .undefined (.map gs) = .ok (some w) → d.Keeps [(.name "price", .int 3)] w := by
  have hprice : Table.get? gs (.name "price") = some (.int 3) := h.elsewhere (.name "price") (by decide)
  have hcomputed : (copying "total" "price").outcome {} .undefined (.map gs) = .ok (some (.int 3)) :=
    copying_outcome hprice rfl
  have htotal : Table.get? gs (.name "total") = some (.int 3) := by
    have hsolved := h.solved (copying "total" "price") (.tail _ (.head _)) (.name "total") rfl
    rw [hcomputed] at hsolved
    exact hsolved
  have hkeep (d : Derivation) (hd : Value.isHidden [(.name "price", .int 3)] d.key = false) :
      d.Keeps [(.name "price", .int 3)] (.int 3) := .inr ⟨Value.strictEq_self _ rfl rfl, hd⟩
  intro d hd w hw
  simp only [List.mem_cons, List.not_mem_nil, or_false] at hd
  rcases hd with rfl | rfl
  · cases hw.symm.trans (copying_outcome htotal rfl)
    exact hkeep _ rfl
  · cases hw.symm.trans hcomputed
    exact hkeep _ rfl

/-- A label that copies the total, which copies the price, takes two passes; a price that is NaN is copied in all. -/
theorem run_in_two_passes_copies :
    (∃ r, ((run {} .undefined 10 [copying "label" "total", copying "total" "price"]
        (.map [(.name "price", .int 3)])).run.run {}).1 = .ok r ∧ r.maxReached = false ∧ r.iterations ≤ 2) ∧
      ∃ r, ((run {} .undefined 10 [copying "label" "total", copying "total" "price"]
        (.map [(.name "price", .num .nan)])).run.run {}).1 = .ok r ∧ r.maxReached = true ∧ r.iterations = 10 := by
  constructor
  · obtain ⟨r, gs, hr, -, hsettled, hquiet, -⟩ :=
      run_in_two_passes [copying "label" "total", copying "total" "price"] copies_wellPosed (show 2 ≤ 10 by decide)
        [(.name "price", .int 3)] {}
    exact ⟨r, hr, hquiet fun d hd _ => copies_keep hsettled d hd⟩
  · obtain ⟨r, gs, hr, -, hsettled, -, hlost⟩ :=
      run_in_two_passes [copying "label" "total", copying "total" "price"] copies_wellPosed (show 2 ≤ 10 by decide)
        [(.name "price", .num .nan)] {}
    have hprice : Table.get? gs (.name "price") = some (.num .nan) := hsettled.elsewhere (.name "price") (by decide)
    exact ⟨r, hr, hlost (copying "total" "price") (.tail _ (.head _)) rfl _ (copying_outcome hprice rfl) (.inl rfl)⟩

end Derivation
end FormRules

/-!
## Running derivations again

A run that has not been stopped ends with a pass in which every derivation is idle, whatever the derivations
read and write. Running them once more on the value it gives therefore writes nothing.
-/

namespace FormRules.Derivation
open Checking DerivationRun
variable {fs : Functions} {external root : Value} {ds order : List Derivation} {maxPasses : Nat}

/-- All derivations are idle where a run ends that has not been stopped; none of them may need a pass to see it. -/
theorem run_gives : Gives (fun r => r.maxReached = false → ∃ order, Derivation.order ds = .ok order ∧
    (order.isEmpty = true ∨ maxPasses ≠ 0 ∧ ∀ d ∈ order, d.Idle fs external r.value))
    (run fs external maxPasses ds root) := by
  refine (Gives.of_outcome (P := fun order => Derivation.order ds = .ok order) fun _ ho => ho).bind fun order ho => ?_
  split
  · next hempty => exact .pure fun _ => ⟨order, ho, .inl hempty⟩
  · refine (passes_gives rfl).bind fun r hr => ?_
    have hdone : r.maxReached = false → ∃ order, Derivation.order ds = .ok order ∧
        (order.isEmpty = true ∨ maxPasses ≠ 0 ∧ ∀ d ∈ order, d.Idle fs external r.value) :=
      fun hm => ⟨order, ho, .inr (hr hm)⟩
    split
    · exact Gives.trivial.bind fun _ _ => .pure hdone
    · exact .pure hdone

/-- A run on a value on which all derivations are idle writes nothing. -/
theorem run_idle (ho : Derivation.order ds = .ok order)
    (hidle : order.isEmpty = true ∨ maxPasses ≠ 0 ∧ ∀ d ∈ order, d.Idle fs external root) :
    Yields (fun r => r.value = root ∧ r.applied = [] ∧ r.iterations ≤ 1 ∧ r.maxReached = false)
      (run fs external maxPasses ds root) := by
  unfold run
  rw [ho]
  refine Yields.bind (.of_outcome (P := (· = order)) rfl) fun order' horder => ?_
  subst horder
  split
  · exact .pure ⟨rfl, rfl, Nat.zero_le 1, rfl⟩
  · next hnot =>
    obtain ⟨hpasses, hall⟩ := hidle.resolve_left hnot
    obtain ⟨count, rfl⟩ := Nat.exists_eq_succ_of_ne_zero hpasses
    refine (passes_idle (r := { value := root }) hall).bind fun r ⟨hvalue, happlied, hiterations, hmax⟩ => ?_
    rw [hmax, if_neg Bool.false_ne_true]
    exact .pure ⟨hvalue, happlied, Nat.le_of_eq hiterations, hmax⟩

/-- Running derivations on what a run has come to, unless it was stopped, writes nothing. -/
theorem run_run {r : DerivationRun} {j : Journal}
    (h : ((run fs external maxPasses ds root).run.run j).1 = .ok r) (hmax : r.maxReached = false) (j' : Journal) :
    ∃ r', ((run fs external maxPasses ds r.value).run.run j').1 = .ok r' ∧ r'.value = r.value ∧
      r'.applied = [] ∧ r'.iterations ≤ 1 ∧ r'.maxReached = false := by
  obtain ⟨order, ho, hidle⟩ := run_gives j r h hmax
  exact run_idle ho hidle j'

/-- A label that copies the total, which copies the price, is left alone from then on. -/
theorem run_run_copies :
    ∃ r r', ((run {} .undefined 10 [copying "label" "total", copying "total" "price"]
        (.map [(.name "price", .int 3)])).run.run {}).1 = .ok r ∧ r.maxReached = false ∧
      ((run {} .undefined 10 [copying "label" "total", copying "total" "price"] r.value).run.run {}).1 = .ok r' ∧
      r'.value = r.value ∧ r'.applied = [] := by
  obtain ⟨r, hr, gs, -, hsettled, hfinished⟩ :=
    copies_wellPosed.run_yields (show 2 ≤ 10 by decide) [(.name "price", .int 3)] {}
  have hidle (d : Derivation) (hd : d ∈ [copying "label" "total", copying "total" "price"]) :
      d.Idle {} .undefined (.map gs) :=
    (hsettled.idle_iff (copies_wellPosed.wired d hd) hd).mpr (copies_keep hsettled d hd)
  have hmax : r.maxReached = false := by
    cases hfinished with
    | settled _ _ maxReached => exact maxReached
    | stopped restless =>
      obtain ⟨d, hd, hloud⟩ := restless
      exact absurd (hidle d hd) hloud
  obtain ⟨r', hr', hvalue, happlied, -⟩ := run_run hr hmax {}
  exact ⟨r, r', hr, hmax, hr', hvalue, happlied⟩

end FormRules.Derivation
