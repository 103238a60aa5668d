import FormRules.Schema.Expansion
import Mathlib.Data.List.Nodup

/-!
# Computations that list rules

A computation of rules lists the runs of a kind if it gives the rules of each run once, in the order of their trails,
whatever has been reported before; otherwise an obstacle stops it. Listings are put together as the computations are.
-/

namespace FormRules

namespace Checking
variable {α β : Type} {x : Checking α} {k : α → Checking β} {a : α} {o : Outcome β} {f : Fault}

/-- The computation comes to an outcome, whatever has been reported before. -/
def Comes (x : Checking α) (o : Outcome α) : Prop := ∀ j, (x.run.run j).1 = o

theorem Comes.pure (a : α) : Comes (Pure.pure a) (.ok a) := fun _ => rfl

theorem Comes.of_outcome (o : Outcome α) : Comes (ExceptT.mk (Pure.pure o)) o := fun _ => rfl

theorem Comes.report (n : Notice) : Comes (Journal.report n : Checking Unit) (.ok ()) := fun _ => rfl

theorem run_bind (x : Checking α) (k : α → Checking β) (j : Journal) :
    (x >>= k).run.run j = (ExceptT.bindCont k (x.run.run j).1).run (x.run.run j).2 := rfl

theorem Comes.bind (hx : Comes x (.ok a)) (hk : Comes (k a) o) : Comes (x >>= k) o := by
  intro j
  rw [run_bind, hx j]
  exact hk _

theorem Comes.fail (hx : Comes x (.error f)) : Comes (x >>= k) (.error f) := by
  intro j
  rw [run_bind, hx j]
  rfl

end Checking

open Checking (Comes)

namespace Rules

/-- The rules of all, in order. -/
def flat (rs : List Rules) : Rules := ⟨rs.flatMap (·.validators), rs.flatMap (·.logic)⟩

theorem flat_append (rs qs : List Rules) : flat (rs ++ qs) = (flat rs).append (flat qs) := by simp [flat, append]

theorem flat_singleton (r : Rules) : flat [r] = r := by simp [flat]

theorem foldl_append (r : Rules) (rs : List Rules) : rs.foldl append r = r.append (rs.foldl append {}) := by
  have assoc (a b c : Rules) : (a.append b).append c = a.append (b.append c) := by simp [append]
  induction rs generalizing r with
  | nil => simp [append]
  | cons q rs ih =>
    rw [List.foldl_cons, List.foldl_cons, ih, ih (append {} q), assoc]
    simp [append]

end Rules

variable {ι κ : Type} {trail : ι → List Nat} {emit : ι → Rules} {Run Run' : ι → Prop} {Stuck Stuck' : Fault → Prop}
  {x y : Checking Rules}

/-- The computation gives the rules of all runs in the order of their trails, each once; or it is stuck. -/
inductive Lists (trail : ι → List Nat) (emit : ι → Rules) (Run : ι → Prop) (Stuck : Fault → Prop)
    (x : Checking Rules) : Prop
  | all (runs : List ι) (mem : ∀ i, i ∈ runs ↔ Run i) (sorted : runs.Pairwise (trail · < trail ·))
    (free : ∀ f, ¬ Stuck f) (comes : Comes x (.ok (Rules.flat (runs.map emit))))
  | stuck (f : Fault) (h : Stuck f) (comes : Comes x (.error f))

namespace Lists

theorem nothing (hr : ∀ i, ¬ Run i) (hs : ∀ f, ¬ Stuck f) (hx : Comes x (.ok {})) : Lists trail emit Run Stuck x :=
  .all [] (fun i => ⟨fun h => absurd h List.not_mem_nil, fun h => absurd h (hr i)⟩) .nil hs hx

theorem single (i : ι) (hr : ∀ i', Run i' ↔ i' = i) (hs : ∀ f, ¬ Stuck f) (hx : Comes x (.ok (emit i))) :
    Lists trail emit Run Stuck x :=
  .all [i] (fun i' => by rw [List.mem_singleton, hr]) (List.pairwise_singleton _ _) hs
    (by rw [List.map_singleton, Rules.flat_singleton]; exact hx)

theorem congr (h : Lists trail emit Run Stuck x) (hr : ∀ i, Run' i ↔ Run i) (hs : ∀ f, Stuck' f ↔ Stuck f) :
    Lists trail emit Run' Stuck' x := by
  obtain rfl : Run' = Run := funext fun i => propext (hr i)
  obtain rfl : Stuck' = Stuck := funext fun f => propext (hs f)
  exact h

theorem after {α : Type} {z : Checking α} {k : α → Checking Rules} {a : α} (hz : Comes z (.ok a))
    (h : Lists trail emit Run Stuck (k a)) : Lists trail emit Run Stuck (z >>= k) := by
  cases h with
  | all runs mem sorted free comes => exact .all runs mem sorted free (hz.bind comes)
  | stuck f h comes => exact .stuck f h (hz.bind comes)

/-- A listing of runs that are named differently. -/
theorem map {g : ι → κ} {trail' : κ → List Nat} {emit' : κ → Rules} {Run' : κ → Prop}
    (h : Lists trail emit Run Stuck x) (hr : ∀ k, Run' k ↔ ∃ i, Run i ∧ g i = k) (hs : ∀ f, Stuck' f ↔ Stuck f)
    (ht : ∀ i i', trail i < trail i' → trail' (g i) < trail' (g i')) (he : ∀ i, Run i → emit' (g i) = emit i) :
    Lists trail' emit' Run' Stuck' x := by
  cases h with
  | all runs mem sorted free comes =>
    refine .all (runs.map g) (fun k => ?_) ?_ (fun f => (hs f).not.mpr (free f)) ?_
    · simp only [List.mem_map, mem, hr]
    · exact List.pairwise_map.mpr (sorted.imp fun h => ht _ _ h)
    · have hemit : (runs.map g).map emit' = runs.map emit := by
        rw [List.map_map]
        exact List.map_congr_left fun i hi => he i ((mem i).mp hi)
      rwa [hemit]
  | stuck f h comes => exact .stuck f ((hs f).mpr h) comes

/-- One listing behind another. -/
theorem append (hx : Lists trail emit Run Stuck x) (hy : Lists trail emit Run' Stuck' y)
    (hlt : ∀ i i', Run i → Run' i' → trail i < trail i') :
    Lists trail emit (fun i => Run i ∨ Run' i) (fun f => Stuck f ∨ Stuck' f) do
      let first ← x
      return first.append (← y) := by
  cases hx with
  | stuck f h comes => exact .stuck f (.inl h) comes.fail
  | all runs mem sorted free comes =>
    cases hy with
    | stuck f h comes' => exact .stuck f (.inr h) (comes.bind comes'.fail)
    | all runs' mem' sorted' free' comes' =>
      refine .all (runs ++ runs') (fun i => by rw [List.mem_append, mem, mem']) ?_ ?_ ?_
      · exact List.pairwise_append.mpr
          ⟨sorted, sorted', fun i hi i' hi' => hlt i i' ((mem i).mp hi) ((mem' i').mp hi')⟩
      · exact fun f => not_or.mpr ⟨free f, free' f⟩
      · rw [List.map_append, Rules.flat_append]
        exact comes.bind (comes'.bind (.pure _))

/-- The listings of the members of a list, one behind the other. -/
theorem each {α : Type} {as : List α} {k : α → Checking Rules} {Run : α → ι → Prop} {Stuck : α → Fault → Prop}
    (h : ∀ a ∈ as, Lists trail emit (Run a) (Stuck a) (k a))
    (hlt : as.Pairwise fun a b => ∀ i i', Run a i → Run b i' → trail i < trail i') :
    Lists trail emit (fun i => ∃ a ∈ as, Run a i) (fun f => ∃ a ∈ as, Stuck a f)
      (as.mapM k >>= fun each => pure (each.foldl Rules.append {})) := by
  induction as with
  | nil => exact nothing (by simp) (by simp) (.pure _)
  | cons a as ih =>
    obtain ⟨hhead, htail⟩ := List.pairwise_cons.mp hlt
    have hfold (r : Rules) (rs : List Rules) :
        (r :: rs).foldl Rules.append {} = r.append (rs.foldl Rules.append {}) := by
      rw [List.foldl_cons, Rules.foldl_append]
      simp [Rules.append]
    have hstep : ((a :: as).mapM k >>= fun each => pure (each.foldl Rules.append {})) = (do
        let first ← k a
        return first.append (← as.mapM k >>= fun each => pure (each.foldl Rules.append {}))) := by
      simp only [List.mapM_cons, bind_assoc, pure_bind, hfold]
    have hrest := ih (fun b hb => h b (List.mem_cons_of_mem a hb)) htail
    have hboth := (h a List.mem_cons_self).append hrest fun i i' hi ⟨b, hb, hi'⟩ => hhead b hb i i' hi hi'
    rw [hstep]
    exact hboth.congr (fun _ => List.exists_mem_cons_iff ..) fun _ => List.exists_mem_cons_iff ..

end Lists
end FormRules
