import FormRules.Proofs.Derivation.Frame
import FormRules.Proofs.Inquiry.Slot
import Mathlib.Logic.Function.Iterate

/-!
# What a run of derivations comes to

What a derivation computes does not depend on what has been reported before, so that a pass over derivations
of fields is a function of the entries of the form (`sweep`), and a run repeats it. A derivation that faults or
whose condition fails writes nothing; none of them can break the run.
-/

namespace FormRules

/-- What the computation gives does not depend on what has been reported. -/
def Reporting.Steady {α : Type} (x : Reporting α) : Prop := ∀ j k, (x.run j).1 = (x.run k).1

namespace Reporting.Steady
variable {α β : Type} {x : Reporting α} {k : α → Reporting β}

theorem pure (a : α) : Steady (Pure.pure a) := fun _ _ => rfl

theorem bind (hx : Steady x) (hk : ∀ a, Steady (k a)) : Steady (x >>= k) := by
  intro i j
  have hrun (i : Journal) : (x >>= k).run i = (k (x.run i).1).run (x.run i).2 := rfl
  rw [hrun, hrun, hx i j]
  exact hk _ _ _

theorem report (n : Notice) (hx : Steady x) : Steady (Journal.report n >>= fun _ => x) :=
  bind (fun _ _ => rfl) fun _ => hx

theorem settled (o : Outcome Bool) : Steady (FormRules.settled o) := by
  cases o with
  | ok b => exact pure b
  | error e => exact report _ (pure false)

theorem asBoolean (v : Value) (site : String) : Steady (v.asBoolean site) := fun i j => by
  rw [Value.asBoolean_run, Value.asBoolean_run]

variable {y : Checking α} {h : α → Checking β}

theorem of_outcome (o : Outcome α) : Steady (ExceptT.mk (Pure.pure o) : Checking α).run := pure o

theorem lift (hx : Steady x) : Steady (ExceptT.lift x : Checking α).run := fun i j => congrArg Except.ok (hx i j)

theorem andThen (hy : Steady y.run) (hh : ∀ a, Steady (h a).run) : Steady (y >>= h).run := by
  intro i j
  have hrun (i : Journal) : (y >>= h).run.run i = (ExceptT.bindCont h (y.run.run i).1).run (y.run.run i).2 := rfl
  rw [hrun, hrun, hy i j]
  cases (y.run.run j).1 with
  | ok a => exact hh a _ _
  | error e => rfl

end Reporting.Steady

open Reporting (Steady)

theorem CustomFunctions.ask_steady (fs : CustomFunctions) (name : String) (c : Context) : Steady (fs.ask name c) := by
  unfold ask
  split
  · exact .report _ (.pure false)
  · split
    · exact .pure _
    · exact .report _ (.pure false)

mutual

/-- Whether a test holds does not depend on what has been reported. -/
theorem Test.holds_steady (fs : CustomFunctions) (c : Context) (t : Test) : Steady (t.holds fs c) := by
  cases t with
  | literal b => exact .pure b
  | fieldValue path op v => exact .settled _
  | formValue op v => exact .settled _
  | expression code =>
    rw [Test.holds]
    split
    · exact .asBoolean _ _
    · exact .report _ (.pure false)
  | custom name => exact CustomFunctions.ask_steady fs name c
  | all ts => exact Test.allHold_steady fs c ts
  | any ts => exact Test.anyHolds_steady fs c ts

theorem Test.allHold_steady (fs : CustomFunctions) (c : Context) (ts : List Test) : Steady (Test.allHold fs c ts) := by
  cases ts with
  | nil => exact .pure true
  | cons t ts =>
    rw [Test.allHold]
    refine (Test.holds_steady fs c t).bind fun b => ?_
    split
    · exact Test.allHold_steady fs c ts
    · exact .pure false

theorem Test.anyHolds_steady (fs : CustomFunctions) (c : Context) (ts : List Test) : Steady (Test.anyHolds fs c ts) := by
  cases ts with
  | nil => exact .pure false
  | cons t ts =>
    rw [Test.anyHolds]
    refine (Test.holds_steady fs c t).bind fun b => ?_
    split
    · exact .pure true
    · exact Test.anyHolds_steady fs c ts

end

theorem Condition.holds_steady (fs : CustomFunctions) (c : Context) (cond : Condition) : Steady (cond.holds fs c) := by
  cases cond with
  | test t => exact t.holds_steady fs c
  | inquiry i => exact .report _ (.pure _)

namespace Checking
variable {α β : Type} {P : α → Prop} {Q : β → Prop} {x : Checking α} {k : α → Checking β}

/-- The computation gives something with a property. -/
def Yields (P : α → Prop) (x : Checking α) : Prop := ∀ j, ∃ a, (x.run.run j).1 = .ok a ∧ P a

theorem Yields.pure {a : α} (h : P a) : Yields P (Pure.pure a) := fun _ => ⟨a, rfl, h⟩

theorem Yields.of_outcome {a : α} (h : P a) : Yields P (ExceptT.mk (Pure.pure (.ok a))) := fun _ => ⟨a, rfl, h⟩

theorem Yields.report (n : Notice) : Yields (fun _ => True) (Journal.report n : Checking Unit) := fun _ => ⟨(), rfl, trivial⟩

theorem Yields.bind (hx : Yields P x) (hk : ∀ a, P a → Yields Q (k a)) : Yields Q (x >>= k) := by
  intro j
  obtain ⟨a, ha, hp⟩ := hx j
  have hrun : (x >>= k).run.run j = (ExceptT.bindCont k (x.run.run j).1).run (x.run.run j).2 := rfl
  rw [hrun, ha]
  exact hk a hp _

/-- A fold follows another one that its steps follow. -/
theorem Yields.foldlM {γ : Type} {R : α → γ → Prop} {l : List β} {h : α → β → Checking α} {f : γ → β → γ}
    (hh : ∀ b ∈ l, ∀ a c, R a c → Yields (R · (f c b)) (h a b)) {a : α} {c : γ} (hac : R a c) :
    Yields (R · (l.foldl f c)) (l.foldlM h a) := by
  induction l generalizing a c with
  | nil => exact .pure hac
  | cons b l ih =>
    obtain ⟨hb, hl⟩ := List.forall_mem_cons.mp hh
    rw [List.foldlM_cons, List.foldl_cons]
    exact (hb a c hac).bind fun a' ha' => ih hl ha'

end Checking

namespace Derivation
variable {fs : Functions} {external root : Value} {d : Derivation} {es : Entries} {order : List Derivation}

theorem isOpen_steady (fs : Functions) (c : Context) (d : Derivation) : Steady (d.isOpen fs c) := by
  unfold isOpen
  split
  · exact Condition.holds_steady _ _ _
  · exact .pure true

/-- What a derivation computes, nothing if its condition fails. -/
def outcome (fs : Functions) (external root : Value) (d : Derivation) : Outcome (Option Value) :=
  ((d.compute fs external root).run.run {}).1

theorem compute_run (j : Journal) : ((d.compute fs external root).run.run j).1 = d.outcome fs external root := by
  have hsteady : Steady (d.compute fs external root).run := by
    refine (Steady.of_outcome _).andThen fun keys => (isOpen_steady fs _ d).lift.andThen fun isOpen => ?_
    split
    · exact .pure _
    · split
      · exact .pure _
      · exact .of_outcome _
      · exact (Steady.of_outcome _).andThen fun f => .of_outcome _
      · exact .pure _
      · exact .pure _
  exact hsteady j {}

/-! ## Fields -/

/-- The key of the field that a derivation computes. -/
def key (d : Derivation) : Key :=
  match Path.keys d.target with
  | .ok [k] => k
  | _ => .name d.target

/-- Whether the target of a derivation is the name of a field of the form: it is read as one key, which is
written like the target. -/
structure OfField (d : Derivation) : Prop where
  keys : Path.keys d.target = .ok [d.key]
  text : d.key.text = d.target

/-- The entries of the form with what has been computed for a field, unless it is there already. -/
def written (k : Key) (es : Entries) : Outcome (Option Value) → Entries
  | .ok (some v) => if ((Value.map es).getPath [k]).strictEq v then es else Table.put es (Value.writeKey es k) v
  | .ok none | .error _ => es

/-- One derivation applied. -/
def effect (fs : Functions) (external : Value) (es : Entries) (d : Derivation) : Entries :=
  written d.key es (d.outcome fs external (.map es))

/-- One pass over derivations. -/
def sweep (fs : Functions) (external : Value) (order : List Derivation) (es : Entries) : Entries :=
  order.foldl (effect fs external) es

theorem setPath_field (es : Entries) (k : Key) (v : Value) :
    (Value.map es).setPath [k] v = .ok (.map (Table.put es (Value.writeKey es k) v)) := Value.setPath_map

end Derivation

namespace DerivationRun
open Derivation Checking
variable {fs : Functions} {external : Value} {d : Derivation} {es : Entries} {order : List Derivation}

/-- The value of a run is a form with the given entries. -/
def Holds (r : DerivationRun) (es : Entries) : Prop := r.value = .map es

theorem outcome_yields (fs : Functions) (external v : Value) (d : Derivation) :
    Yields (· = d.outcome fs external v)
      (ExceptT.lift (d.compute fs external v).run : Checking (Outcome (Option Value))) :=
  fun j => ⟨_, rfl, compute_run j⟩

/-- Applying the derivation of a field cannot fail. -/
theorem apply_yields (hd : d.OfField) {r : DerivationRun} (hr : r.Holds es) :
    Yields (Holds · (effect fs external es d)) (apply fs external r d) := by
  unfold effect
  refine (outcome_yields fs external r.value d).bind fun o ho => ?_
  rw [show r.value = .map es from hr] at ho
  rw [← ho]
  match o with
  | .error e => exact (Yields.report _).bind fun _ _ => .pure hr
  | .ok none => exact .pure hr
  | .ok (some v) =>
    rw [hd.keys]
    refine Yields.bind (.of_outcome (P := (· = [d.key])) rfl) fun keys hkeys => ?_
    subst hkeys
    rw [show r.value = .map es from hr, written]
    split
    · exact .pure hr
    · rw [setPath_field]
      exact (Yields.of_outcome (P := (· = Value.map (Table.put es (Value.writeKey es d.key) v))) rfl).bind
        fun w hw => .pure hw

/-- Passes repeat the sweep; there is at least one if there may be. -/
theorem passes_yields (hd : ∀ d ∈ order, d.OfField) (count : Nat) {r : DerivationRun} (hr : r.Holds es) :
    Yields (fun r' => ∃ n, (n = 0 ↔ count = 0) ∧ r'.Holds ((sweep fs external order)^[n] es))
      (passes fs external order count r) := by
  induction count generalizing r es with
  | zero => exact .pure ⟨0, Iff.rfl, hr⟩
  | succ count ih =>
    have hpass : Yields (Holds · (sweep fs external order es))
        (order.foldlM (apply fs external) { r with iterations := r.iterations + 1 }) :=
      .foldlM (fun d hmem _ _ hr => apply_yields (hd d hmem) hr) hr
    refine hpass.bind fun next hnext => ?_
    split
    · exact .pure ⟨1, by simp, hnext⟩
    · intro j
      obtain ⟨r', hr', n, -, hn⟩ := ih hnext j
      exact ⟨r', hr', n + 1, by simp, hn⟩

end DerivationRun

namespace Derivation
open Checking DerivationRun
variable {fs : Functions} {external : Value} {ds order : List Derivation} {es : Entries}

/-- A run gives the form after some sweeps in the order of the derivations. -/
theorem run_yields (ho : Derivation.order ds = .ok order) (hd : ∀ d ∈ order, d.OfField) (maxPasses : Nat) :
    Yields (fun r => ∃ n, (n = 0 ↔ maxPasses = 0) ∧ r.Holds ((sweep fs external order)^[n] es))
      (run fs external maxPasses ds (.map es)) := by
  unfold run
  rw [ho]
  refine Yields.bind (.of_outcome (P := (· = order)) rfl) fun order' horder => ?_
  subst horder
  split
  · next hempty =>
    obtain rfl := List.isEmpty_iff.mp hempty
    refine .pure ⟨maxPasses, Iff.rfl, ?_⟩
    exact congrArg Value.map (Function.iterate_fixed rfl maxPasses).symm
  · refine (passes_yields hd maxPasses (r := { value := .map es }) rfl).bind fun r hr => ?_
    split
    · exact (Yields.report _).bind fun _ _ => .pure hr
    · exact .pure hr

end Derivation
end FormRules
