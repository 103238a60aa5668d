import FormRules.Derivation.Engine
import FormRules.Proofs.Value.Place

/-!
# What derivations leave alone

A run of derivations writes their targets and nothing else, so that a place apart from all targets
holds the same after every pass.
-/

namespace FormRules
namespace Checking
variable {α β : Type} {P : α → Prop} {Q : β → Prop} {x : Checking α} {k : α → Checking β}

/-- Whatever the computation gives has a property. -/
def Gives (P : α → Prop) (x : Checking α) : Prop := ∀ (j : Journal) (a : α), (x.run.run j).1 = .ok a → P a

theorem Gives.trivial : Gives (fun _ => True) x := fun _ _ _ => True.intro

theorem Gives.pure {a : α} (h : P a) : Gives P (Pure.pure a) := fun _ b hb => by cases hb; exact h

theorem Gives.of_outcome {o : Outcome α} (h : ∀ a, o = .ok a → P a) : Gives P (ExceptT.mk (Pure.pure o)) :=
  fun _ a ha => h a ha

theorem Gives.bind (hx : Gives P x) (hk : ∀ a, P a → Gives Q (k a)) : Gives Q (x >>= k) := by
  intro j b hb
  have hxk : (x >>= k).run.run j = (ExceptT.bindCont k (x.run.run j).1).run (x.run.run j).2 := rfl
  rw [hxk] at hb
  cases hr : (x.run.run j).1 with
  | error e => rw [hr] at hb; cases hb
  | ok a => rw [hr] at hb; exact hk a (hx j a hr) _ b hb

theorem Gives.foldlM {l : List β} {h : α → β → Checking α} (hh : ∀ a, ∀ b ∈ l, P a → Gives P (h a b)) {a : α}
    (ha : P a) : Gives P (l.foldlM h a) := by
  induction l generalizing a with
  | nil => exact .pure ha
  | cons b l ih =>
    rw [List.foldlM_cons]
    exact (hh a b List.mem_cons_self ha).bind fun c hc =>
      ih (fun a d hd => hh a d (List.mem_cons_of_mem _ hd)) hc

end Checking

variable {p : List Key} {x : Value} {fs : Functions} {external root : Value} {ds : List Derivation}

/-- The derivation writes nowhere near a path. -/
def Derivation.Spares (p : List Key) (d : Derivation) : Prop :=
  ∀ keys, Path.keys d.target = .ok keys → Path.overlap p keys = false

namespace DerivationRun
open Checking

theorem apply_seat {r : DerivationRun} {d : Derivation} (hd : d.Spares p) (hr : r.value.seat? p = some x) :
    Gives (·.value.seat? p = some x) (apply fs external r d) := by
  refine Gives.trivial.bind fun computed _ => ?_
  match computed with
  | .error e => exact Gives.trivial.bind fun _ _ => .pure hr
  | .ok none => exact .pure hr
  | .ok (some v) =>
    refine (Gives.of_outcome hd).bind fun keys hk => ?_
    split
    · exact .pure hr
    refine (Gives.of_outcome fun w hw => ?_).bind fun w (hw : w.seat? p = some x) => .pure hw
    exact Value.seat?_setPath_of_disjoint hk (of_mapError_ok hw) hr

theorem passes_seat {order : List Derivation} (hd : ∀ d ∈ order, d.Spares p) (count : Nat) {r : DerivationRun}
    (hr : r.value.seat? p = some x) : Gives (·.value.seat? p = some x) (passes fs external order count r) := by
  induction count generalizing r with
  | zero => exact .pure hr
  | succ count ih =>
    refine Gives.bind (P := fun r : DerivationRun => r.value.seat? p = some x)
      (.foldlM (fun r d h hr => apply_seat (hd d h) hr) hr) fun next hn => ?_
    split
    · exact .pure hn
    · exact ih hn

end DerivationRun

namespace Derivation
open Checking

theorem mem_of_order {order : List Derivation} (h : Derivation.order ds = .ok order) {d : Derivation}
    (hd : d ∈ order) : d ∈ ds ∧ d.isAsync = false := by
  obtain ⟨g, -, hg⟩ := of_bind_ok h
  cases hg
  obtain ⟨t, -, ht⟩ := List.mem_flatMap.mp hd
  have hf := (List.mem_filter.mp (List.mem_filter.mp ht).1)
  exact ⟨hf.1, by simpa using hf.2⟩

/-- A run of derivations leaves a place alone that none of them writes to. -/
theorem run_seat (maxPasses : Nat) (hd : ∀ d ∈ ds, d.isAsync = false → d.Spares p)
    (hr : root.seat? p = some x) : Gives (·.value.seat? p = some x) (run fs external maxPasses ds root) := by
  refine (Gives.of_outcome (fun order h => h)).bind fun order ho => ?_
  have hd (d : Derivation) (h : d ∈ order) : d.Spares p := hd d (mem_of_order ho h).1 (mem_of_order ho h).2
  split
  · exact .pure hr
  refine (DerivationRun.passes_seat hd maxPasses hr).bind fun r hr => ?_
  split
  · exact Gives.trivial.bind fun _ _ => .pure hr
  · exact .pure hr

end Derivation
end FormRules
