import Mathlib.Data.List.Basic

/-!
# Computations on a state that may fail

`Keeps P x`: from whatever state that satisfies `P` the computation `x` starts, and whether it fails or not, the
state that it leaves satisfies `P`. There is one rule for each way to build a computation.
-/

namespace FormRules
variable {ε σ α β γ : Type}

theorem run_bind_state (x : ExceptT ε (StateM σ) α) (k : α → ExceptT ε (StateM σ) β) (s : σ) :
    (x >>= k).run.run s = match x.run.run s with
    | (.ok a, t) => (k a).run.run t
    | (.error e, t) => (.error e, t) := by
  unfold ExceptT.run StateT.run
  simp only [bind, ExceptT.bind, ExceptT.mk, StateT.bind, ExceptT.bindCont]
  cases x s with
  | mk r t => cases r <;> rfl

theorem run_get_bind_state (k : σ → ExceptT ε (StateM σ) β) (s : σ) : (get >>= k).run.run s = (k s).run.run s := rfl

theorem run_tryCatch_state (x : ExceptT ε (StateM σ) α) (h : ε → ExceptT ε (StateM σ) α) (s : σ) :
    (tryCatch x h).run.run s = match x.run.run s with
    | (.ok a, t) => (.ok a, t)
    | (.error e, t) => (h e).run.run t := by
  have hx : (tryCatch x h : ExceptT ε (StateM σ) α) = ExceptT.tryCatch x h := rfl
  rw [hx]
  unfold ExceptT.tryCatch ExceptT.run ExceptT.mk StateT.run
  simp only [bind, StateT.bind]
  cases x s with
  | mk r t => cases r <;> rfl

/-- A computation whose fault is caught for an outcome comes to that outcome. -/
theorem run_outcome_state (x : ExceptT ε (StateM σ) α) (s : σ) :
    (tryCatch (Except.ok <$> x) fun e => pure (.error e) : ExceptT ε (StateM σ) (Except ε α)).run.run s =
      (.ok (x.run.run s).1, (x.run.run s).2) := by
  rw [run_tryCatch_state, map_eq_pure_bind, run_bind_state]
  cases x.run.run s with
  | mk r t => cases r <;> rfl

/-- Whatever a computation comes to, it leaves a state that satisfies `P` if it starts from one. -/
def Keeps (P : σ → Prop) (x : ExceptT ε (StateM σ) α) : Prop := ∀ s, P s → P (x.run.run s).2

namespace Keeps
variable {P : σ → Prop} {x : ExceptT ε (StateM σ) α} {k : α → ExceptT ε (StateM σ) β} {s : σ}

theorem pure (a : α) : Keeps P (Pure.pure a : ExceptT ε (StateM σ) α) := fun _ h => h

theorem throw (e : ε) : Keeps P (MonadExcept.throw e : ExceptT ε (StateM σ) α) := fun _ h => h

theorem modify {f : σ → σ} (h : ∀ s, P s → P (f s)) : Keeps P (modify f : ExceptT ε (StateM σ) PUnit) := h

/-- A first part that leaves a state with `P`, from which the rest leads to one with `Q`. -/
theorem bind_to {Q : σ → Prop} (hx : P (x.run.run s).2) (hPQ : ∀ t, P t → Q t)
    (hk : ∀ a t, P t → Q ((k a).run.run t).2) : Q ((x >>= k).run.run s).2 := by
  rw [run_bind_state]
  split
  · next ht => exact hk _ _ (by rw [ht] at hx; exact hx)
  · next ht => exact hPQ _ (by rw [ht] at hx; exact hx)

theorem bind_at (hx : P (x.run.run s).2) (hk : ∀ a, Keeps P (k a)) : P ((x >>= k).run.run s).2 :=
  bind_to hx (fun _ => id) hk

theorem bind (hx : Keeps P x) (hk : ∀ a, Keeps P (k a)) : Keeps P (x >>= k) := fun s hs => bind_at (hx s hs) hk

/-- After a first part that gives an outcome, the rest is to keep `P` whichever it is. -/
theorem bind_outcome {δ : Type} {x : ExceptT ε (StateM σ) (Except δ α)} {k : Except δ α → ExceptT ε (StateM σ) β}
    (hx : Keeps P x) (hok : ∀ a, Keeps P (k (.ok a))) (herror : ∀ e, Keeps P (k (.error e))) : Keeps P (x >>= k) := by
  refine bind hx fun r => ?_
  cases r with
  | ok a => exact hok a
  | error e => exact herror e

theorem get_bind {k : σ → ExceptT ε (StateM σ) β} (h : ∀ s, P s → P ((k s).run.run s).2) : Keeps P (get >>= k) := h

theorem forM {l : List γ} {body : γ → ExceptT ε (StateM σ) PUnit} (h : ∀ c ∈ l, Keeps P (body c)) :
    Keeps P (l.forM body) := by
  induction l with
  | nil => exact pure _
  | cons c l ih =>
    obtain ⟨hc, hl⟩ := List.forall_mem_cons.mp h
    exact bind hc fun _ => ih hl

end Keeps
end FormRules
